import Mathlib.Data.List.Perm.Subperm
import ForgeCI.CacheStore

/-!
# The budget of the cache

What `ExpireCache` leaves.  Expiry comes first; then the loop over the live rows, from the least
recently accessed on, takes blobs out until the rest fits.  The rows that a blob shares count
once: for the total by `GROUP BY`, for the order by the first of them.
-/

namespace CacheStore

open Budget GoLib Postgres

variable {t : CacheTable} {rows : List Entry} {e e' : Entry} {now : Time} {maxBytes : Int}
  {digest : String}

theorem Entry.precedes_iff {a b : Entry} : a.precedes b = true ↔
    a.lastAccessedAt < b.lastAccessedAt ∨ (a.lastAccessedAt = b.lastAccessedAt ∧
      (a.createdAt < b.createdAt ∨ (a.createdAt = b.createdAt ∧ a.id ≤ b.id))) := by
  simp [Entry.precedes]

theorem Entry.precedes_refl (a : Entry) : a.precedes a = true := by
  simp [Entry.precedes]

instance : Std.Total fun a b : Entry => a.precedes b = true where
  total a b := by
    simp only [Entry.precedes_iff]
    grind

instance : IsTrans Entry fun a b => a.precedes b = true where
  trans a b c hab hbc := by
    simp only [Entry.precedes_iff] at *
    grind

theorem byAccess_pairwise (rows : List Entry) :
    (byAccess rows).Pairwise fun a b => a.precedes b = true :=
  List.pairwise_insertionSort _ _

theorem mem_byAccess : e ∈ byAccess rows ↔ e ∈ rows ∧ e.live = true := by
  unfold byAccess
  rw [List.mem_insertionSort, List.mem_filter]

/-- The first row of each blob, in the order of their last access. -/
def firstRows (rows : List Entry) : List Entry := firsts Entry.digest (byAccess rows)

theorem mem_of_mem_firstRows (h : e ∈ firstRows rows) : e ∈ rows ∧ e.live = true :=
  mem_byAccess.1 ((firsts_sublist _ _).subset h)

theorem firstRows_first (h : e ∈ firstRows rows) (h' : e' ∈ rows) (hlive : e'.live = true)
    (hdigest : e'.digest = e.digest) : e.precedes e' = true :=
  firsts_first (R := fun a b => a.precedes b = true) Entry.precedes_refl (byAccess_pairwise rows) h
    (mem_byAccess.2 ⟨h', hlive⟩) hdigest

theorem firstRows_pairwise (rows : List Entry) :
    (firstRows rows).Pairwise fun a b => a.precedes b = true :=
  (byAccess_pairwise rows).sublist (firsts_sublist _ _)

theorem firstRows_nodup (rows : List Entry) : ((firstRows rows).map Entry.digest).Nodup :=
  nodup_map_firsts _ _

theorem mem_liveDigests :
    digest ∈ liveDigests rows ↔ ∃ e ∈ rows, e.live = true ∧ e.digest = digest := by
  simp [liveDigests, and_assoc]

theorem mem_firstRows_digest :
    digest ∈ (firstRows rows).map Entry.digest ↔ digest ∈ liveDigests rows := by
  unfold firstRows
  rw [mem_map_firsts, mem_liveDigests]
  simp [mem_byAccess, and_assoc]

/-- The bytes that the loop has left when it comes to the first row number `k`. -/
def remaining (rows : List Entry) (k : Nat) : Int :=
  ((firstRows rows).take k).foldl (fun total e => add64 total (-e.size)) (total rows)

/-- **Whatever the sizes**, a prefix of the blobs is evicted: those at whose first rows, and at
all first rows before them, the bytes left are over the budget. -/
theorem evictions_front (maxBytes : Int) (rows : List Entry) :
    ∃ p, p <+: firstRows rows ∧ evictions maxBytes rows = p.map Entry.digest ∧
      ∀ i < (firstRows rows).length,
        (i < p.length ↔ 0 < maxBytes ∧ ∀ k ≤ i, maxBytes < remaining rows k) := by
  unfold evictions evictLoop
  split_ifs with hover
  · have hall : (firsts Entry.digest (byAccess rows)).filter
        (fun e => e.digest ∉ ([] : List String)) = firstRows rows := by
      simp [firstRows]
    rw [scan_eq_trim, hall]
    refine ⟨_, trim_front _ _, rfl, fun i hi => ?_⟩
    rw [lt_length_trim_iff hi]
    simp [remaining, hover.1]
  · refine ⟨[], List.nil_prefix, rfl, fun i _ => iff_of_false (Nat.not_lt_zero i) ?_⟩
    rintro ⟨hmax, hall⟩
    exact hover ⟨hmax, hall 0 (Nat.zero_le i)⟩

theorem delete_delete {p q : Entry → Bool} (hq : q (e.delete p now) = q e) :
    (e.delete p now).delete q now = e.delete (fun e => p e || q e) now := by
  grind [Entry.delete]

theorem foldl_delete (digests : List String) (t : CacheTable) :
    (digests.foldl (fun t digest => t.delete (fun e => e.digest = digest) now) t).rows =
      t.rows.map (Entry.delete (fun e => e.digest ∈ digests) now) := by
  induction digests generalizing t with
  | nil =>
    refine ((List.map_congr_left fun e _ => ?_).trans (List.map_id _)).symm
    simp [Entry.delete]
  | cons digest digests ih =>
    rw [List.foldl_cons, ih]
    unfold CacheTable.delete CacheTable.revise
    rw [List.map_map]
    apply List.map_congr_left
    intro e _
    have hsame : (e.delete (fun e => e.digest = digest) now).digest = e.digest := by
      unfold Entry.digest
      rw [(Entry.delete_revised _ now e).info]
    rw [Function.comp_apply, delete_delete (by rw [hsame])]
    simp only [List.mem_cons, Bool.decide_or]

theorem expireCache_rows (t : CacheTable) (now : Time) (maxBytes : Int) :
    (t.expireCache now maxBytes).1.rows = (t.expire now).rows.map
      (Entry.delete (fun e => e.digest ∈ evictions maxBytes (t.expire now).rows) now) :=
  foldl_delete _ _

/-- A row of the result that is live was live and was not evicted. -/
theorem live_of_mem_delete {p : Entry → Bool} (h : e ∈ rows.map (Entry.delete p now))
    (hlive : e.live = true) : e ∈ rows ∧ p e = false := by
  grind [Entry.live_delete, Entry.delete]

theorem mem_delete_of_live {p : Entry → Bool} (h : e ∈ rows) (hp : p e = false) :
    e ∈ rows.map (Entry.delete p now) := by
  refine List.mem_map.2 ⟨e, h, ?_⟩
  simp [Entry.delete, hp]

theorem live_expire : (e ∈ (t.expire now).rows ∧ e.live = true) ↔
    e ∈ t.rows ∧ e.live = true ∧ e.expired now = false := by
  constructor
  · rintro ⟨hmem, hlive⟩
    obtain ⟨hmem', hp⟩ := live_of_mem_delete hmem hlive
    exact ⟨hmem', hlive, hp⟩
  · rintro ⟨hmem, hlive, hp⟩
    exact ⟨mem_delete_of_live hmem hp, hlive⟩

/-- The digests that `ExpireCache` returns. -/
theorem mem_unreferencedCacheBlobs : digest ∈ unreferencedCacheBlobs rows ↔
    (∃ e ∈ rows, e.live = false ∧ e.digest = digest) ∧
      ¬∃ e ∈ rows, e.live = true ∧ e.digest = digest := by
  unfold unreferencedCacheBlobs
  rw [List.mem_insertionSort, List.mem_dedup, List.mem_map]
  constructor
  · grind
  · grind

theorem unreferencedCacheBlobs_sorted (rows : List Entry) :
    (unreferencedCacheBlobs rows).Pairwise (· < ·) := by
  unfold unreferencedCacheBlobs
  have hle := List.pairwise_insertionSort (· ≤ ·) ((rows.filter fun e =>
    !e.live && !rows.any fun live => live.digest = e.digest && live.live).map Entry.digest).dedup
  have hne := (List.perm_insertionSort (· ≤ ·) ((rows.filter fun e =>
    !e.live && !rows.any fun live => live.digest = e.digest && live.live).map
      Entry.digest).dedup).nodup_iff.2 (List.nodup_dedup _)
  exact (hle.and hne).imp fun h => lt_of_le_of_ne h.1 h.2

/-- The rows of a blob give it one size. -/
def SameSizes (rows : List Entry) : Prop :=
  ∀ a ∈ rows, ∀ b ∈ rows, a.live = true → b.live = true → a.digest = b.digest → a.size = b.size

/-- The archive size of a live blob. -/
def blobSize (rows : List Entry) (digest : String) : Nat :=
  (((rows.find? fun e => e.live && e.digest = digest).map Entry.size).getD 0).toNat

/-- The sum over the distinct live blobs of their archive sizes. -/
def usedBytes (rows : List Entry) : Nat :=
  ((liveDigests rows).dedup.map (blobSize rows)).sum

/-- `size` gives every live blob its size. -/
def Sized (size : String → Nat) (rows : List Entry) : Prop :=
  ∀ e ∈ rows, e.live = true → e.size = size e.digest

variable {size : String → Nat}

theorem find?_live (h : digest ∈ liveDigests rows) : ∃ e ∈ rows, e.live = true ∧ e.digest = digest ∧
      (rows.find? fun e => e.live && e.digest = digest) = some e := by
  cases hfind : rows.find? fun e => e.live && e.digest = digest with
  | none =>
    obtain ⟨e, he, hlive, rfl⟩ := mem_liveDigests.1 h
    simpa [hlive] using List.find?_eq_none.1 hfind e he
  | some e => grind

theorem Sized.blobSize_eq (h : Sized size rows) (hlive : digest ∈ liveDigests rows) :
    blobSize rows digest = size digest := by
  obtain ⟨e, he, hlive', rfl, hfind⟩ := find?_live hlive
  grind [blobSize, Sized]

theorem Sized.usedBytes_eq (h : Sized size rows) :
    usedBytes rows = ((liveDigests rows).dedup.map size).sum := by
  unfold usedBytes
  congr 1
  apply List.map_congr_left
  intro digest hdigest
  exact h.blobSize_eq (List.mem_dedup.1 hdigest)

theorem CacheTable.size_nonneg (t : CacheTable) (h : e ∈ t.rows) : 0 ≤ e.size := by
  have hvalid := t.checks e h
  simp only [Info.valid, Bool.and_eq_true, decide_eq_true_eq] at hvalid
  exact hvalid.1.1.1.2

theorem SameSizes.sized (h : SameSizes t.rows) : Sized (blobSize t.rows) t.rows := by
  intro e he hlive
  obtain ⟨e', he', hlive', hdigest, hfind⟩ := find?_live (mem_liveDigests.2 ⟨e, he, hlive, rfl⟩)
  unfold blobSize
  rw [hfind, Option.map_some, Option.getD_some, Int.toNat_of_nonneg (t.size_nonneg he')]
  exact h e he e' he' hlive hlive' hdigest.symm

/-- Fewer blobs use fewer bytes. -/
theorem sum_le_of_subset {l m : List String} (hl : l.Nodup) (h : l ⊆ m) :
    (l.map size).sum ≤ (m.map size).sum := by
  obtain ⟨l', hperm, hsub⟩ := List.subperm_of_subset hl h
  rw [← (hperm.map size).sum_eq]
  exact (hsub.map size).sum_le_sum (by simp)

/-- The largest of the sizes of a blob is its size. -/
theorem Sized.max?_eq (h : Sized size rows) (hlive : digest ∈ liveDigests rows) :
    (((rows.filter fun e => e.live && e.digest = digest).map Entry.size).max?).getD 0 =
      size digest := by
  have hall : ∀ n ∈ (rows.filter fun e => e.live && e.digest = digest).map Entry.size,
      n = size digest := by grind [Sized]
  cases hmax : ((rows.filter fun e => e.live && e.digest = digest).map Entry.size).max? with
  | none =>
    obtain ⟨e, he, hl, hd⟩ := mem_liveDigests.1 hlive
    have hempty := List.max?_eq_none_iff.1 hmax
    have hmem : e ∈ rows.filter fun e => e.live && e.digest = digest :=
      List.mem_filter.2 ⟨he, by simp [hl, hd]⟩
    have hsize := List.mem_map_of_mem (f := Entry.size) hmem
    rw [hempty] at hsize
    cases hsize
  | some n => exact hall n (List.max?_mem hmax)

/-- Sums below `2^63` do not wrap. -/
theorem foldl_add64 (l : List String) (sum : Nat) (h : sum + (l.map size).sum < 2 ^ 63) :
    l.foldl (fun sum digest => add64 sum (size digest)) (sum : Int) =
      ((sum + (l.map size).sum : Nat) : Int) := by
  induction l generalizing sum with
  | nil => simp
  | cons digest l ih =>
    rw [List.map_cons, List.sum_cons] at h
    have hadd : add64 sum (size digest) = ((sum + size digest : Nat) : Int) :=
      add64_eq (by omega) (by omega)
    rw [List.foldl_cons, hadd, ih _ (by omega), List.map_cons, List.sum_cons, Nat.add_assoc]

theorem Sized.total_eq (h : Sized size rows) (hbound : usedBytes rows < 2 ^ 63) :
    total rows = usedBytes rows := by
  have hgroups : (groups rows).foldl (fun sum group => add64 sum group.2) 0 =
      (liveDigests rows).dedup.foldl (fun sum digest => add64 sum (size digest))
        ((0 : Nat) : Int) := by
    unfold groups
    rw [List.foldl_map]
    apply List.foldl_ext
    intro sum digest hdigest
    rw [h.max?_eq (List.mem_dedup.1 hdigest)]
  rw [h.usedBytes_eq] at hbound ⊢
  unfold total
  rw [hgroups, foldl_add64 _ _ (by omega), Nat.zero_add]

/-- The bytes in use, summed over the first rows. -/
theorem Sized.usedBytes_firstRows (h : Sized size rows) :
    usedBytes rows = ((firstRows rows).map fun e => e.size.toNat).sum := by
  have hperm : ((firstRows rows).map Entry.digest).Perm (liveDigests rows).dedup := by
    apply (List.perm_ext_iff_of_nodup (firstRows_nodup rows) (List.nodup_dedup _)).2
    intro digest
    rw [mem_firstRows_digest, List.mem_dedup]
  rw [h.usedBytes_eq, ← (hperm.map size).sum_eq, List.map_map]
  congr 1
  apply List.map_congr_left
  intro e he
  obtain ⟨hmem, hlive⟩ := mem_of_mem_firstRows he
  rw [h e hmem hlive, Int.toNat_natCast, Function.comp_apply]

theorem add64_sub {a : Int} {sum : Nat} (ha : 0 ≤ a) (h : a.toNat + sum < 2 ^ 63) :
    add64 ((a.toNat + sum : Nat) : Int) (-a) = sum := by
  rw [add64_eq] <;> omega

/-- **The shortest prefix** of the blobs is evicted, in the order of their first rows. -/
theorem Sized.evictions_shortest (h : Sized size rows) (hbound : usedBytes rows < 2 ^ 63)
    (hmax : 0 < maxBytes) :
    ∃ p, Shortest (fun e => e.size.toNat) maxBytes.toNat (firstRows rows) p ∧
      evictions maxBytes rows = p.map Entry.digest := by
  have htotal := h.total_eq hbound
  rw [h.usedBytes_firstRows] at htotal hbound
  unfold evictions evictLoop
  split_ifs with hover
  · refine ⟨_, ?_, scan_eq_trim _ _ _ _⟩
    have hall : (firsts Entry.digest (byAccess rows)).filter
        (fun e => e.digest ∉ ([] : List String)) = firstRows rows := by
      simp [firstRows]
    rw [hall, htotal]
    apply trim_shortest fun l : List Entry => (((l.map fun e => e.size.toNat).sum : Nat) : Int)
    · grind
    · intro e l hl
      obtain ⟨hmem, hlive⟩ := mem_of_mem_firstRows (hl.subset List.mem_cons_self)
      have hle := (hl.sublist.map fun e => e.size.toNat).sum_le_sum (by simp)
      rw [List.map_cons, List.sum_cons] at hle ⊢
      exact add64_sub (by rw [h e hmem hlive]; omega) (by omega)
  · refine ⟨[], ⟨List.nil_prefix, ?_, by simp⟩, rfl⟩
    rw [List.length_nil, List.drop_zero]
    omega

theorem Sized.of_live (h : Sized size rows) {rows' : List Entry}
    (hlive : ∀ e ∈ rows', e.live = true → e ∈ rows) : Sized size rows' :=
  fun e he hl => h e (hlive e he hl) hl

theorem liveDigests_subset {rows' : List Entry} (h : ∀ e ∈ rows', e.live = true → e ∈ rows) :
    liveDigests rows' ⊆ liveDigests rows := by
  intro digest hdigest
  obtain ⟨e, he, hlive, rfl⟩ := mem_liveDigests.1 hdigest
  exact mem_liveDigests.2 ⟨e, h e he hlive, hlive, rfl⟩

/-- The blobs of the live rows, one row each: the first by last access, creation and
identifier. -/
structure FirstRows (rows order : List Entry) : Prop where
  live : ∀ e ∈ order, e ∈ rows ∧ e.live = true
  first : ∀ e ∈ order, ∀ e' ∈ rows, e'.live = true → e'.digest = e.digest → e.precedes e' = true
  nodup : (order.map Entry.digest).Nodup
  complete : ∀ e ∈ rows, e.live = true → e.digest ∈ order.map Entry.digest
  sorted : order.Pairwise fun a b => a.precedes b = true

theorem firstRows_spec (rows : List Entry) : FirstRows rows (firstRows rows) where
  live _ he := mem_of_mem_firstRows he
  first _ he _ he' := firstRows_first he he'
  nodup := firstRows_nodup rows
  complete e he hlive := mem_firstRows_digest.2 (mem_liveDigests.2 ⟨e, he, hlive, rfl⟩)
  sorted := firstRows_pairwise rows

/-- What is left fits. -/
theorem Sized.usedBytes_le (h : Sized size rows) (now : Time) {p : List Entry}
    (hp : Shortest (fun e => e.size.toNat) maxBytes.toNat (firstRows rows) p) :
    usedBytes (rows.map (Entry.delete (fun e => e.digest ∈ p.map Entry.digest) now)) ≤
      maxBytes.toNat := by
  have hleft : Sized size (rows.map (Entry.delete (fun e => e.digest ∈ p.map Entry.digest) now)) :=
    h.of_live fun e he hlive => (live_of_mem_delete he hlive).1
  have hrest : ((firstRows rows).drop p.length).map (fun e => e.size.toNat) =
      (((firstRows rows).drop p.length).map Entry.digest).map size := by
    rw [List.map_map]
    apply List.map_congr_left
    intro e he
    obtain ⟨hmem, hlive⟩ := mem_of_mem_firstRows (List.mem_of_mem_drop he)
    rw [h e hmem hlive, Int.toNat_natCast, Function.comp_apply]
  rw [hleft.usedBytes_eq]
  apply Nat.le_trans _ hp.fits
  rw [hrest]
  apply sum_le_of_subset (List.nodup_dedup _)
  intro digest hdigest
  obtain ⟨e, he, hlive, rfl⟩ := mem_liveDigests.1 (List.mem_dedup.1 hdigest)
  obtain ⟨hmem, hout⟩ := live_of_mem_delete he hlive
  have horder := (firstRows_spec rows).complete e hmem hlive
  obtain ⟨tail, htail⟩ := hp.front
  grind

theorem SameSizes.sized_expire (h : SameSizes t.rows) (now : Time) :
    Sized (blobSize t.rows) (t.expire now).rows :=
  h.sized.of_live fun _ he hlive => (live_expire.1 ⟨he, hlive⟩).1

/-- Expiry frees bytes. -/
theorem SameSizes.usedBytes_expire_le (h : SameSizes t.rows) (now : Time) :
    usedBytes (t.expire now).rows ≤ usedBytes t.rows := by
  rw [h.sized.usedBytes_eq, (h.sized_expire now).usedBytes_eq]
  apply sum_le_of_subset (List.nodup_dedup _)
  intro digest hdigest
  apply List.mem_dedup.2
  exact liveDigests_subset (fun _ he hlive => (live_expire.1 ⟨he, hlive⟩).1)
    (List.mem_dedup.1 hdigest)

/-- **The budget of the cache.**  After `ExpireCache` no live row has expired and the distinct
live blobs fit.  The rows that had not expired stay as they are if they fitted; in any case the
shortest prefix of their blobs that makes room, in the order of the first rows, has all its rows
deleted.  The digests returned are those with a deleted row and no live one, sorted. -/
theorem cache_budget (t : CacheTable) (now : Time) (maxBytes : Int) (hmax : 0 < maxBytes)
    (hsame : SameSizes t.rows) (hbound : usedBytes t.rows < 2 ^ 63) :
    (∀ e ∈ (t.expireCache now maxBytes).1.rows, e.live = true → e.expired now = false) ∧
      (usedBytes (t.expireCache now maxBytes).1.rows : Int) ≤ maxBytes ∧
      ((usedBytes (t.expire now).rows : Int) ≤ maxBytes →
        (t.expireCache now maxBytes).1.rows = (t.expire now).rows) ∧
      (∃ order evicted, FirstRows (t.expire now).rows order ∧
        Shortest (fun e => e.size.toNat) maxBytes.toNat order evicted ∧
        (t.expireCache now maxBytes).1.rows = (t.expire now).rows.map
          (Entry.delete (fun e => e.digest ∈ evicted.map Entry.digest) now)) ∧
      (t.expireCache now maxBytes).2.Pairwise (· < ·) ∧
      ∀ digest, digest ∈ (t.expireCache now maxBytes).2 ↔
        (∃ e ∈ (t.expireCache now maxBytes).1.rows, e.live = false ∧ e.digest = digest) ∧
          ¬∃ e ∈ (t.expireCache now maxBytes).1.rows, e.live = true ∧ e.digest = digest := by
  have hsized := hsame.sized_expire now
  have hbound' := Nat.lt_of_le_of_lt (hsame.usedBytes_expire_le now) hbound
  obtain ⟨p, hp, hevict⟩ := hsized.evictions_shortest hbound' hmax
  have hrows := expireCache_rows t now maxBytes
  rw [hevict] at hrows
  refine ⟨?_, ?_, ?_, ⟨_, p, firstRows_spec _, hp, hrows⟩, unreferencedCacheBlobs_sorted _,
    fun digest => mem_unreferencedCacheBlobs⟩
  · intro e he hlive
    rw [hrows] at he
    exact (live_expire.1 ⟨(live_of_mem_delete he hlive).1, hlive⟩).2.2
  · rw [hrows]
    have hle := hsized.usedBytes_le now hp
    omega
  · intro hfits
    have hempty : p = [] := by
      apply hp.eq_nil
      rw [← hsized.usedBytes_firstRows]
      omega
    rw [hrows, hempty]
    refine (List.map_congr_left fun e _ => ?_).trans (List.map_id _)
    simp [Entry.delete]

namespace Sample

def sha (c : Char) : String := String.ofList (List.replicate 64 c)

def entry (id : Uuid) (key : String) (blob : Char) (used : Time) : Entry where
  id := id
  info := ⟨"ws", key, "deps", "directory", sha blob, sha blob, "cache-tar-gzip-v1", 1, 1, 1⟩
  createdAt := 0
  lastAccessedAt := used
  expiresAt := some 1000

/-- Two keys share a blob, which one of them uses first and the other last. -/
def shared : CacheTable where
  rows := [entry 1 "a" 'a' 10, entry 2 "b" 'b' 20, entry 3 "c" 'a' 30]
  primaryKey := by decide
  activeKey := by decide +kernel
  checks := by decide +kernel

end Sample

theorem cache_budget_shared : (usedBytes (Sample.shared.expireCache 100 1).1.rows : Int) ≤ 1 ∧
      (Sample.shared.expireCache 100 1).2 = [Sample.sha 'a'] :=
  ⟨(cache_budget Sample.shared 100 1 (by decide) (by unfold SameSizes; decide +kernel)
    (by decide +kernel)).2.1, by decide +kernel⟩

/-- The most recent access of a blob, over its live rows. -/
def lastUse (rows : List Entry) (digest : String) : Time :=
  ((rows.filter fun e => e.live && e.digest = digest).map Entry.lastAccessedAt).foldl max 0

/-- A blob that is evicted for size was not used after one that stays. -/
def EvictsByLastUse (t : CacheTable) (now : Time) (maxBytes : Int) : Prop :=
  ∀ gone ∈ liveDigests (t.expire now).rows,
    ∀ kept ∈ liveDigests (t.expireCache now maxBytes).1.rows,
    gone ∉ liveDigests (t.expireCache now maxBytes).1.rows →
      lastUse (t.expire now).rows gone ≤ lastUse (t.expire now).rows kept

/-- Two blobs, by the places of their first rows: if the bytes are over the budget at the one and
no longer at the other, then the one was not used after the other. -/
def UsedInOrder (rows : List Entry) (past : Nat → Prop) : Prop :=
  ∀ i j x y, (firstRows rows)[i]? = some x → (firstRows rows)[j]? = some y →
    past i → ¬ past j → lastUse rows x.digest ≤ lastUse rows y.digest

/-- The archive sizes of the blobs from the first row number `k` on. -/
def bytesFrom (rows : List Entry) (k : Nat) : Nat :=
  (((firstRows rows).drop k).map fun e => e.size.toNat).sum

theorem mem_liveDigests_expireCache : digest ∈ liveDigests (t.expireCache now maxBytes).1.rows ↔
    digest ∈ liveDigests (t.expire now).rows ∧ digest ∉ evictions maxBytes (t.expire now).rows := by
  rw [expireCache_rows, mem_liveDigests, mem_liveDigests]
  constructor
  · rintro ⟨e, he, hlive, rfl⟩
    obtain ⟨hmem, hout⟩ := live_of_mem_delete he hlive
    exact ⟨⟨e, hmem, hlive, rfl⟩, of_decide_eq_false hout⟩
  · rintro ⟨⟨e, he, hlive, rfl⟩, hout⟩
    exact ⟨e, mem_delete_of_live he (by simpa using hout), hlive, rfl⟩

/-- Of the first rows, those of a prefix are evicted and the others stay. -/
theorem mem_front_iff {p : List Entry} (hp : p <+: firstRows rows) {i : Nat} {x : Entry}
    (hi : (firstRows rows)[i]? = some x) : x.digest ∈ p.map Entry.digest ↔ i < p.length := by
  obtain ⟨tail, htail⟩ := hp
  have hnodup := firstRows_nodup rows
  rw [← htail, List.map_append] at hnodup
  rw [← htail] at hi
  constructor
  · intro hmem
    by_contra hle
    rw [List.getElem?_append_right (Nat.le_of_not_lt hle)] at hi
    exact (List.disjoint_of_nodup_append hnodup) hmem
      (List.mem_map_of_mem (List.mem_of_getElem? hi))
  · intro hlt
    rw [List.getElem?_append_left hlt] at hi
    exact List.mem_map_of_mem (List.mem_of_getElem? hi)

theorem exists_firstRows (h : digest ∈ liveDigests rows) :
    ∃ (i : Nat) (x : Entry), (firstRows rows)[i]? = some x ∧ x.digest = digest := by
  obtain ⟨x, hx, hdigest⟩ := List.mem_map.1 (mem_firstRows_digest.2 h)
  obtain ⟨i, hi⟩ := List.mem_iff_getElem?.1 hx
  exact ⟨i, x, hi, hdigest⟩

/-- A call evicts by last use exactly when the blobs of the prefix that goes and those behind it
are in the order of their last uses. -/
theorem evictsByLastUse_iff {p : List Entry} {past : Nat → Prop}
    (hp : p <+: firstRows (t.expire now).rows)
    (hevict : evictions maxBytes (t.expire now).rows = p.map Entry.digest)
    (hover : ∀ i < (firstRows (t.expire now).rows).length, i < p.length ↔ past i) :
    EvictsByLastUse t now maxBytes ↔ UsedInOrder (t.expire now).rows past := by
  have hplace : ∀ {i : Nat} {x : Entry}, (firstRows (t.expire now).rows)[i]? = some x →
      (x.digest ∈ evictions maxBytes (t.expire now).rows ↔ past i) := by
    intro i x hi
    rw [hevict, mem_front_iff hp hi]
    exact hover i (List.getElem?_eq_some_iff.1 hi).1
  have hlive : ∀ {i : Nat} {x : Entry}, (firstRows (t.expire now).rows)[i]? = some x →
      x.digest ∈ liveDigests (t.expire now).rows := fun hi =>
    mem_firstRows_digest.1 (List.mem_map_of_mem (List.mem_of_getElem? hi))
  constructor
  · intro h i j x y hi hj hgone hkept
    refine h x.digest (hlive hi) y.digest ?_ ?_
    · exact mem_liveDigests_expireCache.2 ⟨hlive hj, fun hy => hkept ((hplace hj).1 hy)⟩
    · exact fun hx => (mem_liveDigests_expireCache.1 hx).2 ((hplace hi).2 hgone)
  · intro h gone hgone kept hkept hout
    obtain ⟨hkept, hstays⟩ := mem_liveDigests_expireCache.1 hkept
    obtain ⟨i, x, hi, rfl⟩ := exists_firstRows hgone
    obtain ⟨j, y, hj, rfl⟩ := exists_firstRows hkept
    refine h i j x y hi hj ?_ fun hy => hstays ((hplace hj).2 hy)
    by_contra hnot
    exact hout (mem_liveDigests_expireCache.2 ⟨hgone, fun hx => hnot ((hplace hi).1 hx)⟩)

/-- **Eviction by last use, call by call.**  A call of `ExpireCache` evicts by last use exactly
when no blob that the loop reaches with too many bytes left was last used after a blob that it
does not.  When the rows of a blob agree in its size and the sizes do not overflow, the bytes left
are those of the blobs from there on: of two blobs, the one from which on the blobs exceed the
budget must not have been used after one from which on they fit. -/
theorem evicts_by_last_use (t : CacheTable) (now : Time) (maxBytes : Int) :
    (EvictsByLastUse t now maxBytes ↔ UsedInOrder (t.expire now).rows fun i =>
        0 < maxBytes ∧ ∀ k ≤ i, maxBytes < remaining (t.expire now).rows k) ∧
      (SameSizes t.rows → usedBytes t.rows < 2 ^ 63 → 0 < maxBytes →
        (EvictsByLastUse t now maxBytes ↔ UsedInOrder (t.expire now).rows fun i =>
          maxBytes < bytesFrom (t.expire now).rows i)) := by
  constructor
  · obtain ⟨p, hp, hevict, hover⟩ := evictions_front maxBytes (t.expire now).rows
    exact evictsByLastUse_iff hp hevict hover
  · intro hsame hbound hmax
    obtain ⟨p, hp, hevict⟩ := (hsame.sized_expire now).evictions_shortest
      (Nat.lt_of_le_of_lt (hsame.usedBytes_expire_le now) hbound) hmax
    refine evictsByLastUse_iff hp.front hevict fun i _ => hp.lt_length_iff.trans ?_
    unfold bytesFrom
    omega

/-- **A blob that was used last is evicted**: its other key was used first. -/
theorem recently_used_evicted :
    ¬ ∀ (t : CacheTable) (now : Time) (maxBytes : Int), EvictsByLastUse t now maxBytes := by
  intro h
  have hlate := h Sample.shared 100 1 (Sample.sha 'a') (by decide +kernel) (Sample.sha 'b')
    (by decide +kernel) (by decide +kernel)
  revert hlate
  decide +kernel

end CacheStore
