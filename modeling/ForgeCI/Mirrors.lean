import ForgeCI.Digests
import ForgeCI.Unpacking

/-!
# What an archive says about the tree it was made of

The listing of a tree in the order of its archive, the headers that are written for it, and the
listing of another tree with the same nodes.
-/

namespace Archive

open FileTree

/-- The node at a path that has one. -/
def nodeAt (d : Disk) (p : Path) (rel : List Bytes) : Node := (d.node (p ++ rel)).getD (.other 0)

theorem nodeAt_eq {d : Disk} {p : Path} {rel : List Bytes} {node : Node}
    (h : d.node (p ++ rel) = some node) : nodeAt d p rel = node := by
  simp [nodeAt, h]

theorem mapM_ok {α β ε : Type} {f : α → Except ε β} {g : α → β} {l : List α}
    (h : ∀ a ∈ l, f a = .ok (g a)) : l.mapM f = .ok (l.map g) := by
  induction l with
  | nil => rfl
  | cons a l ih =>
    obtain ⟨hfirst, hrest⟩ := List.forall_mem_cons.1 h
    rw [List.mapM_cons, hfirst, ih hrest]
    rfl

@[simp] theorem entryOf_path (sum : Bytes → Bytes) (name : Bytes) (host : List Bytes)
    (node : Node) : (entryOf sum name host node).path = name := by
  cases node <;> rfl

namespace Package

variable {pkg : Package} {sum : Bytes → Bytes} {limits : Limits} {d d' : Disk}
  {abs abs' rel : List Bytes} {p p' : Path} {top top' node : Node} {s s' s₁ : Scan}
  {es : List Entry} {n : Nat} {l : List (List Bytes)}

/-- The listed paths in the order of the archive. -/
def ranked (pkg : Package) (d : Disk) (p : Path) : List (List Bytes) :=
  (pkg.listed d p).insertionSort fun a b => BytesLE (pkg.nameOf a) (pkg.nameOf b)

theorem perm_ranked : (pkg.ranked d p).Perm (pkg.listed d p) := List.perm_insertionSort _ _

theorem mem_ranked : rel ∈ pkg.ranked d p ↔ rel ∈ pkg.listed d p := perm_ranked.mem_iff

theorem nodup_ranked : (pkg.ranked d p).Nodup :=
  perm_ranked.nodup_iff.2 ((Disk.nodup_inside.filter _).filter _)

theorem pairwise_ranked :
    (pkg.ranked d p).Pairwise fun a b => BytesLE (pkg.nameOf a) (pkg.nameOf b) := by
  have : Std.Total fun a b => BytesLE (pkg.nameOf a) (pkg.nameOf b) :=
    ⟨fun a b => Std.Total.total (pkg.nameOf a) (pkg.nameOf b)⟩
  have : IsTrans _ fun a b => BytesLE (pkg.nameOf a) (pkg.nameOf b) :=
    ⟨fun a b c => IsTrans.trans (pkg.nameOf a) (pkg.nameOf b) (pkg.nameOf c)⟩
  exact List.pairwise_insertionSort _ _

/-- **A directory comes before what it contains**, in the order of the archive. -/
theorem ranked_first {before after : List (List Bytes)} {pre : List Bytes}
    (hsplit : pkg.ranked d p = before ++ rel :: after) (hpre : pre ∈ pkg.ranked d p)
    {more : Bytes} (hmore : more ≠ []) (hname : pkg.nameOf rel = pkg.nameOf pre ++ more) :
    pre ∈ before := by
  have hlate : ¬BytesLE (pkg.nameOf rel) (pkg.nameOf pre) := by
    rw [hname]
    exact not_precedes_append UInt8.le_refl hmore
  have hsorted : (pkg.ranked d p).Pairwise _ := pairwise_ranked
  rw [hsplit] at hpre hsorted
  rcases List.mem_append.1 hpre with hpre | hpre
  · exact hpre
  · rcases List.mem_cons.1 hpre with rfl | hpre
    · exact absurd (congrArg List.length hname) (by simp [hmore])
    · obtain ⟨-, htail, -⟩ := List.pairwise_append.1 hsorted
      exact absurd (List.rel_of_pairwise_cons htail hpre) hlate

theorem ranked_accepts (htop : d.lstat abs = .ok (p, top))
    (h : pkg.scan sum limits d abs = .ok (es, n)) (hrel : rel ∈ pkg.ranked d p) :
    pkg.Accepts limits d p rel := by
  obtain ⟨p', top', htop', haccepts, -⟩ := scan_ok h
  obtain ⟨rfl, rfl⟩ : p' = p ∧ top' = top := by simpa [htop] using htop'.symm
  exact haccepts rel (mem_ranked.1 hrel)

theorem scan_entries (htop : d.lstat abs = .ok (p, top))
    (h : pkg.scan sum limits d abs = .ok (es, n)) :
    es = (pkg.ranked d p).map fun rel =>
      entryOf sum (pkg.nameOf rel) (abs ++ rel) (nodeAt d p rel) := by
  obtain ⟨p', top', htop', haccepts, rfl⟩ := scan_ok h
  obtain ⟨rfl, rfl⟩ : p' = p ∧ top' = top := by simpa [htop] using htop'.symm
  have hmap : (pkg.listed d p').filterMap (pkg.entryAt sum d abs p') =
      (pkg.listed d p').map fun rel =>
        entryOf sum (pkg.nameOf rel) (abs ++ rel) (nodeAt d p' rel) := by
    rw [← List.filterMap_eq_map]
    apply List.filterMap_congr
    intro rel hrel
    obtain ⟨node, hnode, -⟩ := (haccepts rel hrel).fit
    simp [entryAt, hnode, nodeAt]
  have hsort := List.map_insertionSort (fun a b => BytesLE (pkg.nameOf a) (pkg.nameOf b))
    (fun a b : Entry => BytesLE a.path b.path)
    (fun rel => entryOf sum (pkg.nameOf rel) (abs ++ rel) (nodeAt d p' rel)) (pkg.listed d p')
    (fun a _ b _ => by simp)
  rw [hmap, ranked, hsort]
  rfl

/-- **The headers of a listing.** -/
theorem scan_stream (htop : d.lstat abs = .ok (p, top))
    (h : pkg.scan sum limits d abs = .ok (es, n)) (texts : Texts) {full : List Bytes → List Bytes}
    (hname : ∀ rel ∈ pkg.ranked d p, pkg.nameOf rel = path (full rel)) :
    es.mapM (Entry.tar texts sum d) =
      .ok ((pkg.ranked d p).map fun rel => headerOf (full rel) (nodeAt d p rel)) := by
  rw [scan_entries htop h, List.mapM_map]
  apply mapM_ok
  intro rel hrel
  have haccepts := ranked_accepts htop h hrel
  obtain ⟨node, hnode, hfit⟩ := haccepts.fit
  have hlstat := Disk.lstat_of_open htop hnode haccepts.searched
  rw [Function.comp_apply, nodeAt_eq hnode, hname rel hrel]
  cases node with
  | dir mode => rfl
  | file mode content =>
    have hread := Disk.readFile_eq ((Disk.lstat_ok hlstat).2 rfl) hnode
    rw [hfit.2, if_pos rfl] at hread
    simp [Entry.tar, entryOf, hread, headerOf]
  | link target => rfl
  | other mode => cases hfit

theorem Walk.logical_eq (h : pkg.Walk sum limits d abs p s l s') :
    s'.logical = s.logical +
      ((l.filter fun rel => pkg.Listed rel).map fun rel => nodeBytes (nodeAt d p rel)).sum := by
  induction h with
  | done => simp
  | root hlists _ _ ih => rw [ih, List.filter_cons_of_neg (by simp [Listed, hlists])]
  | entry hlisted _ hnode _ _ _ _ ih =>
    rw [ih, List.filter_cons_of_pos (by simpa using hlisted), List.map_cons, List.sum_cons,
      nodeAt_eq hnode]
    simp only [added]
    omega

theorem Walk.entries_le (h : pkg.Walk sum limits d abs p s l s') :
    s'.entries = s.entries ∨ (s'.entries.length : Int) ≤ limits.maxEntries := by
  induction h with
  | done => exact .inl rfl
  | root _ _ _ ih => exact ih
  | @entry s s' rel l node _ _ _ _ _ hroom _ ih =>
    have hcount := hroom.2
    grind [added]

theorem Walk.logical_le (h : pkg.Walk sum limits d abs p s l s')
    (hs : (s.logical : Int) ≤ limits.maxLogicalBytes) :
    (s'.logical : Int) ≤ limits.maxLogicalBytes := by
  induction h with
  | done => exact hs
  | root _ _ _ ih => exact ih hs
  | @entry s s' rel l node _ _ _ _ _ hroom _ ih =>
    apply ih
    cases node with
    | file mode content => exact hroom.1 mode content rfl
    | _ => simpa [added, nodeBytes] using hs

theorem Walk.logical_le_of_file (h : pkg.Walk sum limits d abs p s l s')
    (hfile : ∃ rel ∈ l, pkg.Listed rel ∧
      ∃ mode content, d.node (p ++ rel) = some (.file mode content)) :
    (s'.logical : Int) ≤ limits.maxLogicalBytes := by
  induction h with
  | done =>
    obtain ⟨rel, hrel, -⟩ := hfile
    cases hrel
  | root hlists _ _ ih =>
    apply ih
    obtain ⟨rel, hrel, hlisted, hnode⟩ := hfile
    rcases List.mem_cons.1 hrel with rfl | hrel
    · exact absurd ⟨rfl, hlists⟩ hlisted
    · exact ⟨rel, hrel, hlisted, hnode⟩
  | @entry s s' rel l node _ _ hthere _ _ hroom hrest ih =>
    obtain ⟨other, hother, hlisted, mode, content, hnode⟩ := hfile
    rcases List.mem_cons.1 hother with rfl | hother
    · obtain rfl : node = .file mode content := by simpa [hthere] using hnode
      exact hrest.logical_le (hroom.1 mode content rfl)
    · exact ih ⟨other, hother, hlisted, mode, content, hnode⟩

/-- **A listing respects the limits as a whole.** -/
theorem scan_limits (htop : d.lstat abs = .ok (p, top))
    (h : pkg.scan sum limits d abs = .ok (es, n)) :
    n = ((pkg.ranked d p).map fun rel => nodeBytes (nodeAt d p rel)).sum ∧
      es.length = (pkg.ranked d p).length ∧
      (∀ rel ∈ pkg.ranked d p, ((pkg.ranked d p).length : Int) ≤ limits.maxEntries) ∧
      ∀ rel ∈ pkg.ranked d p, ∀ mode content, d.node (p ++ rel) = some (.file mode content) →
        (n : Int) ≤ limits.maxLogicalBytes := by
  have hlength : es.length = (pkg.ranked d p).length := by simp [scan_entries htop h]
  obtain ⟨p', top', s, htop', hwalk, hes, rfl⟩ := scan_ok_iff.1 h
  obtain ⟨rfl, rfl⟩ : p' = p ∧ top' = top := by simpa [htop] using htop'.symm
  have hsorted : es.length = s.entries.length := by
    rw [hes, sortEntries, List.length_insertionSort]
  refine ⟨?_, hlength, ?_, ?_⟩
  · rw [hwalk.logical_eq, Nat.zero_add]
    exact ((perm_ranked.map _).sum_eq).symm
  · grind [hwalk.entries_le]
  · intro rel hrel mode content hnode
    apply hwalk.logical_le_of_file
    obtain ⟨hwalked, hlisted⟩ := List.mem_filter.1 (mem_ranked.1 hrel)
    exact ⟨rel, hwalked, by simpa using hlisted, mode, content, hnode⟩

theorem entryOf_hostless (name : Bytes) (host : List Bytes) :
    (entryOf sum name host node).hostless = entryOf sum name [] node := by
  cases node <;> rfl

/-- The same walk over another tree with the same nodes. -/
theorem Walk.mirror (abs' : List Bytes) (h : pkg.Walk sum limits d abs p s l s')
    (hnode : ∀ rel ∈ l, pkg.Listed rel → d'.node (p' ++ rel) = d.node (p ++ rel))
    (hopen : ∀ rel ∈ l, pkg.Listed rel → d'.Open p' rel)
    (hroot : pkg.listsRoot = false → ∀ mode, d'.node p' = some (.dir mode) → readable mode = true)
    (hlogical : s₁.logical = s.logical)
    (hentries : s₁.entries.map Entry.hostless = s.entries.map Entry.hostless) :
    ∃ s₂, pkg.Walk sum limits d' abs' p' s₁ l s₂ ∧ s₂.logical = s'.logical ∧
      s₂.entries.map Entry.hostless = s'.entries.map Entry.hostless := by
  induction h generalizing s₁ with
  | done => exact ⟨s₁, .done _, hlogical, hentries⟩
  | root hlists _ _ ih =>
    obtain ⟨s₂, hwalk, hresult⟩ := ih (fun rel hrel => hnode rel (List.mem_cons_of_mem _ hrel))
      (fun rel hrel => hopen rel (List.mem_cons_of_mem _ hrel)) hlogical hentries
    exact ⟨s₂, .root hlists (hroot hlists) hwalk, hresult⟩
  | @entry s s' rel l node hlisted hnamed hthere _ hfit hroom _ ih =>
    have hlength : s₁.entries.length = s.entries.length := by
      simpa using congrArg List.length hentries
    have hroom₁ : Room limits s₁ node := by
      refine ⟨?_, ?_⟩
      · rw [hlogical]
        exact hroom.1
      · rw [hlength]
        exact hroom.2
    have hlogical₁ : (pkg.added sum abs' rel s₁ node).logical =
        (pkg.added sum abs rel s node).logical := by simp [added, hlogical]
    have hentries₁ : (pkg.added sum abs' rel s₁ node).entries.map Entry.hostless =
        (pkg.added sum abs rel s node).entries.map Entry.hostless := by
      simp [added, hentries, entryOf_hostless]
    obtain ⟨s₂, hwalk, hresult⟩ := ih (fun x hx => hnode x (List.mem_cons_of_mem _ hx))
      (fun x hx => hopen x (List.mem_cons_of_mem _ hx)) hlogical₁ hentries₁
    have hthere' : d'.node (p' ++ rel) = some node := by
      rw [hnode rel List.mem_cons_self hlisted, hthere]
    exact ⟨s₂, .entry hlisted hnamed hthere' (hopen rel List.mem_cons_self hlisted) hfit hroom₁
      hwalk, hresult⟩

/-- **A tree with the same nodes has the same listing**, up to the host paths. -/
theorem scan_mirror (htop : d.lstat abs = .ok (p, top))
    (h : pkg.scan sum limits d abs = .ok (es, n)) (htop' : d'.lstat abs' = .ok (p', top'))
    (hwalked : ∀ rel, rel ∈ pkg.walked d' p' ↔ rel ∈ pkg.walked d p)
    (hnode : ∀ rel ∈ pkg.listed d p, d'.node (p' ++ rel) = d.node (p ++ rel))
    (hopen : ∀ rel ∈ pkg.listed d p, d'.Open p' rel)
    (hroot : pkg.listsRoot = false → ∀ mode, d'.node p' = some (.dir mode) → readable mode = true) :
    ∃ es', pkg.scan sum limits d' abs' = .ok (es', n) ∧
      es'.map Entry.hostless = es.map Entry.hostless := by
  obtain ⟨p₀, top₀, s, htop₀, hwalk, rfl, rfl⟩ := scan_ok_iff.1 h
  obtain ⟨rfl, rfl⟩ : p₀ = p ∧ top₀ = top := by simpa [htop] using htop₀.symm
  have hsame : pkg.walked d' p' = pkg.walked d p₀ :=
    listing_ext (Disk.pairwise_inside.filter _) (Disk.pairwise_inside.filter _)
      (Disk.nodup_inside.filter _) (Disk.nodup_inside.filter _) hwalked
  have hlisted : ∀ rel ∈ pkg.walked d p₀, pkg.Listed rel → rel ∈ pkg.listed d p₀ := by
    intro rel hrel hl
    exact List.mem_filter.2 ⟨hrel, by simpa using hl⟩
  obtain ⟨s₂, hwalk₂, hlogical, hentries⟩ := hwalk.mirror abs'
    (fun rel hrel hl => hnode rel (hlisted rel hrel hl))
    (fun rel hrel hl => hopen rel (hlisted rel hrel hl)) hroot (rfl : Scan.logical {} = _) rfl
  rw [← hsame] at hwalk₂
  refine ⟨sortEntries s₂.entries,
    scan_ok_iff.2 ⟨p', top', s₂, htop', hwalk₂, rfl, hlogical.symm⟩, ?_⟩
  have hsort : ∀ entries : List Entry, (sortEntries entries).map Entry.hostless =
      sortEntries (entries.map Entry.hostless) := by
    intro entries
    exact List.map_insertionSort _ _ _ _ fun a _ b _ => Iff.rfl
  rw [hsort, hsort, hentries]

/-- Host paths are not in a digest. -/
theorem digest_congr {es' : List Entry} (h : es'.map Entry.hostless = es.map Entry.hostless) :
    pkg.digest sum es' = pkg.digest sum es := by
  have hwritten : es'.map Entry.written = es.map Entry.written := by
    have hcomp : ∀ l : List Entry,
        l.map Entry.written = (l.map Entry.hostless).map Entry.written := by
      intro l
      rw [List.map_map]
      rfl
    rw [hcomp, hcomp es, h]
  rw [digest, digest, digestManifest, digestManifest, manifestJson_congr hwritten]

end Package

end Archive
