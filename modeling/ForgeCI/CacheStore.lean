import ForgeCI.Budgets
import ForgeCI.Schema

/-!
# The table of cache entries

`cache_entries` with `LookupCache`, `CommitCache`, `DeleteCache` and `ExpireCache`.  A deleted
row stays in the table; the constraints are those of the schema: the primary key, the unique
index on the key of the rows that are not deleted, and the checks.
-/

namespace CacheStore

open Budget GoLib Postgres

/-- The columns that `sameCacheMetadata` compares. -/
structure Info where
  workspace : String
  key : String
  rootName : String
  rootKind : String
  contentSHA256 : String
  blobSHA256 : String
  format : String
  archiveSizeBytes : Int
  logicalSizeBytes : Int
  entryCount : Int
deriving DecidableEq

/-- `store.CacheMetadata`, as far as `CommitCache` reads it. -/
structure CacheMetadata where
  info : Info
  createdAt : Time
  expiresAt : Option Time := none

/-- A row of `cache_entries`. -/
structure Entry where
  id : Uuid
  info : Info
  createdAt : Time
  lastAccessedAt : Time
  expiresAt : Option Time
  deletedAt : Option Time := none
deriving DecidableEq

def isKeyByte (c : Char) : Bool :=
  c.isAlphanum || c = '.' || c = '_' || c = ':' || c = '-'

def validKey (key : String) : Bool :=
  match key.toList with
  | [] => false
  | c :: rest => c.isAlphanum && rest.all isKeyByte && rest.length ≤ 127

def validDigest (digest : String) : Bool :=
  digest.toList.length = 64 &&
    digest.toList.all fun c => ('0' ≤ c && c ≤ '9') || ('a' ≤ c && c ≤ 'f')

/-- The checks of the table, and what its columns can hold: no text has a NUL, and `entry_count` is
an `integer` of 32 bits. -/
def Info.valid (m : Info) : Bool :=
  m.workspace.toList.all (· ≠ '\x00') && validKey m.key && m.rootName ≠ "" &&
    m.rootName.toList.all (fun c => c ≠ '/' && c ≠ '\\' && c ≠ '\x00') &&
    (m.rootKind = "file" || m.rootKind = "directory") && validDigest m.contentSHA256 &&
    validDigest m.blobSHA256 && m.format = "cache-tar-gzip-v1" && 0 ≤ m.archiveSizeBytes &&
    0 ≤ m.logicalSizeBytes && 0 < m.entryCount && m.entryCount ≤ 2147483647

/-- `deleted_at IS NULL`. -/
def Entry.live (e : Entry) : Bool := e.deletedAt.isNone

/-- `expires_at <= now`; an entry without a time does not expire. -/
def Entry.expired (now : Time) (e : Entry) : Bool := e.expiresAt.any (· ≤ now)

def Entry.digest (e : Entry) : String := e.info.blobSHA256

def Entry.size (e : Entry) : Int := e.info.archiveSizeBytes

def Entry.owner (e : Entry) : String × String := (e.info.workspace, e.info.key)

/-- The table with its constraints. -/
structure CacheTable where
  rows : List Entry
  primaryKey : (rows.map Entry.id).Nodup
  activeKey : ((rows.filter Entry.live).map Entry.owner).Nodup
  checks : ∀ e ∈ rows, e.info.valid = true

def CacheTable.empty : CacheTable := ⟨[], List.nodup_nil, List.nodup_nil, by simp⟩

/-- What an update makes of a row: the identity and the content stay, and a deleted row stays
deleted. -/
structure Entry.Revised (e e' : Entry) : Prop where
  id : e'.id = e.id
  info : e'.info = e.info
  live : e'.live = true → e.live = true

theorem map_id_revise {rows : List Entry} {f : Entry → Entry} (hf : ∀ e : Entry, e.Revised (f e)) :
    (rows.map f).map Entry.id = rows.map Entry.id := by
  rw [List.map_map]
  exact List.map_congr_left fun e _ => (hf e).id

/-- The rows that are left are among those that were. -/
theorem owners_revise {f : Entry → Entry} (hf : ∀ e : Entry, e.Revised (f e)) (rows : List Entry) :
    (((rows.map f).filter Entry.live).map Entry.owner).Sublist
      ((rows.filter Entry.live).map Entry.owner) := by
  induction rows with
  | nil => exact List.Sublist.slnil
  | cons e rows ih =>
    have howner : (f e).owner = e.owner := by simp [Entry.owner, (hf e).info]
    rw [List.map_cons]
    cases hnew : (f e).live with
    | true =>
      rw [List.filter_cons_of_pos hnew, List.filter_cons_of_pos ((hf e).live hnew),
        List.map_cons, List.map_cons, howner]
      exact ih.cons_cons _
    | false =>
      rw [List.filter_cons_of_neg (by simp [hnew])]
      cases hold : e.live with
      | true => grind
      | false => grind

def CacheTable.revise (t : CacheTable) (f : Entry → Entry) (hf : ∀ e : Entry, e.Revised (f e)) :
    CacheTable where
  rows := t.rows.map f
  primaryKey := by
    rw [map_id_revise hf]
    exact t.primaryKey
  activeKey := t.activeKey.sublist (owners_revise hf t.rows)
  checks := by
    intro e' he'
    obtain ⟨e, he, rfl⟩ := List.mem_map.1 he'
    rw [(hf e).info]
    exact t.checks e he

/-- `SET deleted_at = now` for the rows that are live and meet a condition. -/
def Entry.delete (p : Entry → Bool) (now : Time) (e : Entry) : Entry :=
  if e.live && p e then { e with deletedAt := some now } else e

theorem Entry.delete_revised (p : Entry → Bool) (now : Time) (e : Entry) :
    e.Revised (e.delete p now) := by
  unfold Entry.delete
  split_ifs with h
  · exact ⟨rfl, rfl, by simp [Entry.live]⟩
  · exact ⟨rfl, rfl, fun h => h⟩

theorem Entry.live_delete {p : Entry → Bool} {now : Time} {e : Entry} :
    (e.delete p now).live = (e.live && !p e) := by
  unfold Entry.delete
  split_ifs with h
  · simp only [Bool.and_eq_true] at h
    simp [Entry.live, h.2]
  · cases hlive : e.live <;> simp_all

def CacheTable.delete (t : CacheTable) (p : Entry → Bool) (now : Time) : CacheTable :=
  t.revise (Entry.delete p now) (Entry.delete_revised p now)

inductive CacheError where
  | notFound
  | conflict
  /-- A check of the table fails. -/
  | check

/-- The live row of a key. -/
def CacheTable.entry? (t : CacheTable) (workspace key : String) : Option Entry :=
  t.rows.find? fun e => e.live && e.info.workspace = workspace && e.info.key = key

/-- `SET last_accessed_at=$3,expires_at=$3+$4` for the row of a key that has not expired. -/
def Entry.touch (retention : Nat) (workspace key : String) (now : Time) (e : Entry) : Entry :=
  if e.live && e.info.workspace = workspace && e.info.key = key && !e.expired now then
    { e with lastAccessedAt := now, expiresAt := some (now + retention) }
  else e

theorem Entry.touch_revised (retention : Nat) (workspace key : String) (now : Time) (e : Entry) :
    e.Revised (e.touch retention workspace key now) := by
  unfold Entry.touch
  split_ifs
  · exact ⟨rfl, rfl, fun h => h⟩
  · exact ⟨rfl, rfl, fun h => h⟩

/-- `LookupCache`. -/
def CacheTable.lookupCache (t : CacheTable) (retention : Nat) (workspace key : String)
    (now : Time) : Except CacheError Entry × CacheTable :=
  match t.rows.find? fun e =>
      e.live && e.info.workspace = workspace && e.info.key = key && !e.expired now with
  | none => (.error .notFound, t)
  | some e => (.ok (e.touch retention workspace key now),
      t.revise (Entry.touch retention workspace key now)
        (Entry.touch_revised retention workspace key now))

/-- The row that `CommitCache` inserts. -/
def CacheMetadata.entry (m : CacheMetadata) (retention : Nat) (now : Time) (id : Uuid) : Entry where
  id := id
  info := m.info
  createdAt := m.createdAt
  lastAccessedAt := m.createdAt
  expiresAt :=
    match m.expiresAt with
    | some expires => some expires
    | none => if 0 < retention then some (now + retention) else none

theorem entry?_eq_none_iff {t : CacheTable} {workspace key : String} :
    t.entry? workspace key = none ↔
      (workspace, key) ∉ (t.rows.filter Entry.live).map Entry.owner := by
  unfold CacheTable.entry?
  simp only [List.find?_eq_none, Bool.and_eq_true, decide_eq_true_eq, List.mem_map, List.mem_filter,
    Entry.owner, Prod.mk.injEq, not_exists, not_and, and_imp]

/-- `INSERT … ON CONFLICT DO NOTHING`; the identifier is fresh. -/
def CacheTable.insert (t : CacheTable) (e : Entry) (hlive : e.live = true)
    (hid : e.id ∉ t.rows.map Entry.id) : Except CacheError CacheTable :=
  if hvalid : e.info.valid = true then
    if hkey : t.entry? e.info.workspace e.info.key = none then
      .ok {
        rows := t.rows ++ [e]
        primaryKey := by
          rw [List.map_append, List.map_singleton]
          exact t.primaryKey.append (List.nodup_singleton _) (by simpa using hid)
        activeKey := by
          rw [List.filter_append, List.filter_cons_of_pos hlive, List.filter_nil, List.map_append,
            List.map_singleton]
          have hnew := entry?_eq_none_iff.1 hkey
          exact t.activeKey.append (List.nodup_singleton _) (by simpa [Entry.owner] using hnew)
        checks := by
          intro x hx
          rcases List.mem_append.1 hx with hx | hx
          · exact t.checks x hx
          · rw [List.mem_singleton.1 hx]
            exact hvalid }
    else .ok t
  else .error .check

/-- `CommitCache`. -/
def CacheTable.commitCache (t : CacheTable) (retention : Nat) (now : Time) (m : CacheMetadata)
    (id : Uuid) (hid : id ∉ t.rows.map Entry.id) : Except CacheError CacheTable :=
  match t.entry? m.info.workspace m.info.key with
  | some existing => if existing.info = m.info then .ok t else .error .conflict
  | none =>
      match t.insert (m.entry retention now id) rfl hid with
      | .error e => .error e
      | .ok t' =>
          match t'.entry? m.info.workspace m.info.key with
          | none => .error .notFound
          | some existingAfterInsert =>
              if existingAfterInsert.info = m.info then .ok t' else .error .conflict

/-- `DeleteCache`. -/
def CacheTable.deleteCache (t : CacheTable) (workspace key : String) (now : Time) :
    Except CacheError CacheTable :=
  let mine := fun e : Entry => e.info.workspace = workspace && e.info.key = key
  if t.rows.any fun e => e.live && mine e then .ok (t.delete mine now) else .error .notFound

def liveDigests (rows : List Entry) : List String := (rows.filter Entry.live).map Entry.digest

/-- `SELECT blob_sha256,max(archive_size_bytes) … GROUP BY blob_sha256`. -/
def groups (rows : List Entry) : List (String × Int) :=
  (liveDigests rows).dedup.map fun digest =>
    (digest, (((rows.filter fun e => e.live && e.digest = digest).map Entry.size).max?).getD 0)

/-- The loop over the groups. -/
def total (rows : List Entry) : Int :=
  (groups rows).foldl (fun sum group => add64 sum group.2) 0

/-- `ORDER BY last_accessed_at,created_at,id`. -/
def Entry.precedes (a b : Entry) : Bool :=
  a.lastAccessedAt < b.lastAccessedAt || (a.lastAccessedAt = b.lastAccessedAt &&
    (a.createdAt < b.createdAt || (a.createdAt = b.createdAt && a.id ≤ b.id)))

def byAccess (rows : List Entry) : List Entry :=
  (rows.filter Entry.live).insertionSort fun a b => a.precedes b

/-- The loop over the rows in their order; `evict` holds what `seen` holds. -/
def evictLoop (maxBytes total : Int) (evict : List String) (rows : List Entry) : List String :=
  scan Entry.digest (fun total => maxBytes < total) (fun total e => add64 total (-e.size)) total
    evict rows

/-- The digests that are evicted for size. -/
def evictions (maxBytes : Int) (rows : List Entry) : List String :=
  if 0 < maxBytes ∧ maxBytes < total rows then
    evictLoop maxBytes (total rows) [] (byAccess rows)
  else []

/-- `unreferencedCacheBlobs`. -/
def unreferencedCacheBlobs (rows : List Entry) : List String :=
  ((rows.filter fun e => !e.live && !rows.any fun live => live.digest = e.digest && live.live).map
    Entry.digest).dedup.insertionSort (· ≤ ·)

/-- The first statement of `ExpireCache`. -/
def CacheTable.expire (t : CacheTable) (now : Time) : CacheTable :=
  t.delete (Entry.expired now) now

/-- `ExpireCache`: the table, and the digests returned. -/
def CacheTable.expireCache (t : CacheTable) (now : Time) (maxBytes : Int) :
    CacheTable × List String :=
  let t' := (evictions maxBytes (t.expire now).rows).foldl
    (fun t digest => t.delete (fun e => e.digest = digest) now) (t.expire now)
  (t', unreferencedCacheBlobs t'.rows)

end CacheStore
