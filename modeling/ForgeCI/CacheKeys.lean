import ForgeCI.CacheStore
import ForgeCI.Traces

/-!
# Keys of the cache

`CommitCache` and `LookupCache` on one key, in any sequence of the operations of the store.  A
row that has expired stays in the table until the next sweep.  `LookupCache` does not see it;
`CommitCache` does, and takes it for the entry of its key.
-/

namespace CacheStore

open Postgres Traces

variable {t t' : CacheTable} {e e' : Entry} {workspace key : String} {now : Time} {retention : Nat}
  {m : CacheMetadata} {id : Uuid}

theorem entry?_some (h : t.entry? workspace key = some e) :
    e ∈ t.rows ∧ e.live = true ∧ e.info.workspace = workspace ∧ e.info.key = key := by
  have hp := List.find?_some h
  simp only [Bool.and_eq_true, decide_eq_true_eq] at hp
  exact ⟨List.mem_of_find?_eq_some h, hp.1.1, hp.1.2, hp.2⟩

/-- The index on the keys: a live row is the row of its key. -/
theorem CacheTable.eq_of_owner (t : CacheTable) (he : e ∈ t.rows) (hlive : e.live = true)
    (he' : e' ∈ t.rows) (hlive' : e'.live = true) (howner : e.owner = e'.owner) : e = e' :=
  List.inj_on_of_nodup_map t.activeKey (List.mem_filter.2 ⟨he, hlive⟩)
    (List.mem_filter.2 ⟨he', hlive'⟩) howner

/-- A live row is the one that its key finds. -/
theorem entry?_of_mem (he : e ∈ t.rows) (hlive : e.live = true) :
    t.entry? e.info.workspace e.info.key = some e := by
  cases hfind : t.entry? e.info.workspace e.info.key with
  | none =>
    have := List.find?_eq_none.1 hfind e he
    simp [hlive] at this
  | some e' =>
    obtain ⟨he', hlive', hws, hkey⟩ := entry?_some hfind
    have howner : e.owner = e'.owner := by simp [Entry.owner, hws, hkey]
    rw [t.eq_of_owner he hlive he' hlive' howner]

/-- The metadata that `LookupCache` would return. -/
def CacheTable.lookupInfo (t : CacheTable) (retention : Nat) (workspace key : String) (now : Time) :
    Option Info :=
  match (t.lookupCache retention workspace key now).1 with
  | .ok e => some e.info
  | .error _ => none

theorem find?_unexpired (t : CacheTable) (workspace key : String) (now : Time) :
    (t.rows.find? fun e =>
        e.live && e.info.workspace = workspace && e.info.key = key && !e.expired now) =
      (t.entry? workspace key).filter fun e => !e.expired now := by
  cases hentry : t.entry? workspace key with
  | none =>
    rw [Option.filter_none]
    apply List.find?_eq_none.2
    intro e he
    have := List.find?_eq_none.1 hentry e he
    grind
  | some e =>
    obtain ⟨he, hlive, rfl, rfl⟩ := entry?_some hentry
    cases hfind : t.rows.find? fun x => x.live && x.info.workspace = e.info.workspace &&
        x.info.key = e.info.key && !x.expired now with
    | none => grind
    | some x =>
      have hp := List.find?_some hfind
      simp only [Bool.and_eq_true, decide_eq_true_eq] at hp
      have howner : x.owner = e.owner := by simp [Entry.owner, hp.1.1.2, hp.1.2]
      have hsame := t.eq_of_owner (List.mem_of_find?_eq_some hfind) hp.1.1.1 he hlive howner
      grind

/-- **A lookup** finds the row of the key unless it has expired. -/
theorem lookupInfo_eq : t.lookupInfo retention workspace key now =
    ((t.entry? workspace key).filter fun e => !e.expired now).map Entry.info := by
  rw [← find?_unexpired]
  unfold CacheTable.lookupInfo CacheTable.lookupCache
  cases hfind : t.rows.find? fun e =>
      e.live && e.info.workspace = workspace && e.info.key = key && !e.expired now with
  | none => rfl
  | some e => exact congrArg some (Entry.touch_revised retention workspace key now e).info

/-- **A commit** of a key that has a row. -/
theorem commit_of_entry (hid : id ∉ t.rows.map Entry.id)
    (h : t.entry? m.info.workspace m.info.key = some e) :
    t.commitCache retention now m id hid =
      if e.info = m.info then .ok t else .error .conflict := by
  unfold CacheTable.commitCache
  rw [h]

/-- Where the key has no live row, only the checks refuse a row. -/
theorem insert_of_none (hlive : e.live = true) (hid : e.id ∉ t.rows.map Entry.id)
    (h : t.entry? e.info.workspace e.info.key = none) :
    (e.info.valid = false ∧ t.insert e hlive hid = .error .check) ∨
      (e.info.valid = true ∧ ∃ t', t.insert e hlive hid = .ok t' ∧ t'.rows = t.rows ++ [e]) := by
  grind [CacheTable.insert]

/-- **A commit** of a key that has none. -/
theorem commit_of_none (retention : Nat) (now : Time) (hid : id ∉ t.rows.map Entry.id)
    (h : t.entry? m.info.workspace m.info.key = none) :
    (m.info.valid = false ∧ t.commitCache retention now m id hid = .error .check) ∨
      (m.info.valid = true ∧ ∃ t', t.commitCache retention now m id hid = .ok t' ∧
        t'.rows = t.rows ++ [m.entry retention now id]) := by
  have hinsert := insert_of_none (t := t) (e := m.entry retention now id) rfl hid h
  unfold CacheTable.commitCache
  rw [h]
  rcases hinsert with ⟨hvalid, hins⟩ | ⟨hvalid, t', hins, hrows⟩
  · left
    simp only [hins]
    exact ⟨hvalid, trivial⟩
  · right
    have hnew : t'.entry? m.info.workspace m.info.key = some (m.entry retention now id) := by
      apply entry?_of_mem (e := m.entry retention now id) _ rfl
      grind
    simp only [hins, hnew]
    exact ⟨hvalid, t', if_pos rfl, hrows⟩

/-- A commit succeeds exactly when a lookup would miss or return the same metadata, and after it
a lookup returns the metadata. -/
def Agrees (t : CacheTable) (retention : Nat) (now : Time) (m : CacheMetadata) (id : Uuid)
    (hid : id ∉ t.rows.map Entry.id) : Prop :=
  ((∃ t', t.commitCache retention now m id hid = .ok t') ↔
      t.lookupInfo retention m.info.workspace m.info.key now = none ∨
        t.lookupInfo retention m.info.workspace m.info.key now = some m.info) ∧
    ∀ t', t.commitCache retention now m id hid = .ok t' →
      t'.lookupInfo retention m.info.workspace m.info.key now = some m.info

/-- The key has no row that has expired and is not deleted; and if it has no row at all, the
metadata pass the checks of the table and do not set an expiry in the past. -/
def Swept (t : CacheTable) (now : Time) (m : CacheMetadata) : Prop :=
  (∀ e ∈ t.rows, e.live = true → e.info.workspace = m.info.workspace → e.info.key = m.info.key →
      e.expired now = false) ∧
    ((∀ e ∈ t.rows, e.live = true → e.info.workspace = m.info.workspace →
        e.info.key ≠ m.info.key) →
      m.info.valid = true ∧ ∀ expires, m.expiresAt = some expires → now < expires)

theorem expired_entry (hretention : 0 < retention) (id : Uuid) :
    (m.entry retention now id).expired now = false ↔
      ∀ expires, m.expiresAt = some expires → now < expires := by
  grind [CacheMetadata.entry, Entry.expired]

/-- With a row for the key, the two agree unless it has expired. -/
theorem agrees_of_entry (hid : id ∉ t.rows.map Entry.id)
    (h : t.entry? m.info.workspace m.info.key = some e) :
    Agrees t retention now m id hid ↔ e.expired now = false := by
  unfold Agrees
  rw [commit_of_entry hid h, lookupInfo_eq, h]
  cases hexpired : e.expired now with
  | true => grind [lookupInfo_eq]
  | false =>
    have hhit : (some e).filter (fun e => !e.expired now) = some e := by simp [hexpired]
    rw [hhit]
    by_cases hsame : e.info = m.info
    · have hlater : t.lookupInfo retention m.info.workspace m.info.key now = some m.info := by
        rw [lookupInfo_eq, h, hhit, Option.map_some, hsame]
      simp [hsame, hlater]
    · simp [hsame]

theorem agrees_of_none (hretention : 0 < retention) (hid : id ∉ t.rows.map Entry.id)
    (h : t.entry? m.info.workspace m.info.key = none) :
    Agrees t retention now m id hid ↔
      m.info.valid = true ∧ ∀ expires, m.expiresAt = some expires → now < expires := by
  have hmiss : t.lookupInfo retention m.info.workspace m.info.key now = none := by
    rw [lookupInfo_eq, h]
    rfl
  rw [← expired_entry hretention id]
  unfold Agrees
  rw [hmiss]
  rcases commit_of_none retention now hid h with
    ⟨hvalid, hcommit⟩ | ⟨hvalid, t', hcommit, hrows⟩
  · simp [hcommit, hvalid]
  · have hnew : t'.entry? m.info.workspace m.info.key = some (m.entry retention now id) := by
      apply entry?_of_mem (e := m.entry retention now id) _ rfl
      grind
    have hinfo : (m.entry retention now id).info = m.info := rfl
    grind [lookupInfo_eq]

/-- **When commit and lookup agree.** -/
theorem agrees_iff (hretention : 0 < retention) (hid : id ∉ t.rows.map Entry.id) :
    Agrees t retention now m id hid ↔ Swept t now m := by
  unfold Swept
  cases hentry : t.entry? m.info.workspace m.info.key with
  | none =>
    have hnone : ∀ e ∈ t.rows, e.live = true → e.info.workspace = m.info.workspace →
        e.info.key ≠ m.info.key := by
      intro e he hlive hws hkey
      simpa [hlive, hws, hkey] using List.find?_eq_none.1 hentry e he
    rw [agrees_of_none hretention hid hentry]
    grind
  | some e =>
    obtain ⟨he, hlive, hws, hkey⟩ := entry?_some hentry
    rw [agrees_of_entry hid hentry]
    constructor
    · intro hexpired
      refine ⟨?_, fun hnone => absurd hkey (hnone e he hlive hws)⟩
      intro e' he' hlive' hws' hkey'
      have howner : e'.owner = e.owner := by simp [Entry.owner, hws, hkey, hws', hkey']
      rw [t.eq_of_owner he' hlive' he hlive howner]
      exact hexpired
    · intro h
      exact h.1 e he hlive hws hkey

/-- The table, and the time of the last call. -/
structure State where
  table : CacheTable
  clock : Time

inductive Action where
  | commit (now : Time) (m : CacheMetadata) (id : Uuid)
  | lookup (now : Time) (workspace key : String)
  | delete (now : Time) (workspace key : String)
  | expire (now : Time) (maxBytes : Int)

def Action.time : Action → Time
  | .commit now _ _ | .lookup now _ _ | .delete now _ _ | .expire now _ => now

/-- The table after a call; one that fails is rolled back.  A new row has a new identifier. -/
def CacheTable.call (retention : Nat) (t : CacheTable) : Action → Option CacheTable
  | .commit now m id =>
      if hid : id ∉ t.rows.map Entry.id then
        match t.commitCache retention now m id hid with
        | .ok t' => some t'
        | .error _ => some t
      else none
  | .lookup now workspace key => some (t.lookupCache retention workspace key now).2
  | .delete now workspace key =>
      match t.deleteCache workspace key now with
      | .ok t' => some t'
      | .error _ => some t
  | .expire now maxBytes => some (t.expireCache now maxBytes).1

/-- One call; the clock does not go back. -/
def step (retention : Nat) (s : State) (a : Action) : Option State :=
  if s.clock ≤ a.time then (s.table.call retention a).map fun t => ⟨t, a.time⟩ else none

abbrev Run (retention : Nat) (tr : List (Step State Action)) (s : State) : Prop :=
  Trace (fun s a s' => step retention s a = some s') ⟨CacheTable.empty, 0⟩ tr s

/-- The rows are still there, with the content they had. -/
def Keeps (t t' : CacheTable) : Prop :=
  ∀ e ∈ t.rows, ∃ e' ∈ t'.rows, e'.id = e.id ∧ e'.info = e.info

theorem Keeps.refl (t : CacheTable) : Keeps t t :=
  fun e he => ⟨e, he, rfl, rfl⟩

theorem Keeps.trans {t'' : CacheTable} (h : Keeps t t') (h' : Keeps t' t'') : Keeps t t'' := by
  grind [Keeps]

theorem keeps_revise (t : CacheTable) (f : Entry → Entry) (hf : ∀ e : Entry, e.Revised (f e)) :
    Keeps t (t.revise f hf) :=
  fun e he => ⟨f e, List.mem_map_of_mem he, (hf e).id, (hf e).info⟩

theorem keeps_expireCache (t : CacheTable) (now : Time) (maxBytes : Int) :
    Keeps t (t.expireCache now maxBytes).1 := by
  apply Keeps.trans
    (keeps_revise t (Entry.delete (Entry.expired now) now) (Entry.delete_revised _ now))
  show Keeps (t.expire now) ((evictions maxBytes (t.expire now).rows).foldl
    (fun t digest => t.delete (fun e => e.digest = digest) now) (t.expire now))
  generalize evictions maxBytes (t.expire now).rows = digests
  generalize t.expire now = t
  induction digests generalizing t with
  | nil => exact .refl t
  | cons digest digests ih => exact (keeps_revise t _ (Entry.delete_revised _ now)).trans (ih _)

theorem keeps_commit (hid : id ∉ t.rows.map Entry.id)
    (h : t.commitCache retention now m id hid = .ok t') : Keeps t t' := by
  cases hentry : t.entry? m.info.workspace m.info.key with
  | some e =>
    rw [commit_of_entry hid hentry] at h
    split_ifs at h
    cases h
    exact .refl t
  | none =>
    rcases commit_of_none retention now hid hentry with
      ⟨-, hcommit⟩ | ⟨-, t₁, hcommit, hrows⟩
    · rw [hcommit] at h
      cases h
    · grind [Keeps]

/-- No call loses a row, or changes what it says. -/
theorem keeps_call {a : Action} (h : t.call retention a = some t') : Keeps t t' := by
  cases a with
  | commit now m id =>
    simp only [CacheTable.call] at h
    split_ifs at h with hid
    split at h
    · rename_i hcommit
      cases h
      exact keeps_commit hid hcommit
    · cases h
      exact .refl t
  | lookup now workspace key =>
    cases h
    unfold CacheTable.lookupCache
    split
    · exact .refl t
    · exact keeps_revise t _ (Entry.touch_revised retention workspace key now)
  | delete now workspace key =>
    simp only [CacheTable.call, CacheTable.deleteCache] at h
    split at h
    · rename_i hdelete
      cases h
      split_ifs at hdelete
      cases hdelete
      exact keeps_revise t _ (Entry.delete_revised _ now)
    · cases h
      exact .refl t
  | expire now maxBytes =>
    cases h
    exact keeps_expireCache t now maxBytes

theorem step_keeps {s s' : State} {a : Action} (h : step retention s a = some s') :
    Keeps s.table s'.table := by
  unfold step at h
  split_ifs at h
  obtain ⟨t, ht, rfl⟩ := Option.map_eq_some_iff.1 h
  exact keeps_call ht

/-- **Commit and lookup.**  Along every run a key has at most one live row, and a row keeps its
content.  At any time from the end of the run on, a commit and a lookup agree exactly when the
key has no row that has expired and waits for the sweep. -/
theorem commit_lookup_agree (hretention : 0 < retention) {tr : List (Step State Action)} {s : State}
    (h : Run retention tr s) :
    (∀ e ∈ s.table.rows, ∀ e' ∈ s.table.rows, e.live = true → e'.live = true →
        e.owner = e'.owner → e = e') ∧
      (∀ st ∈ tr, ∀ e ∈ st.before.table.rows, ∀ e' ∈ s.table.rows, e'.id = e.id →
        e'.info = e.info) ∧
      ∀ now m id hid, s.clock ≤ now →
        (Agrees s.table retention now m id hid ↔ Swept s.table now m) := by
  refine ⟨?_, ?_, fun now m id hid _ => agrees_iff hretention hid⟩
  · intro e he e' he' hlive hlive' howner
    exact s.table.eq_of_owner he hlive he' hlive' howner
  · intro st hst e he e' he' hid
    obtain ⟨pre, post, rfl⟩ := List.append_of_mem hst
    obtain ⟨-, hstep, hpost⟩ := h.split
    have hkeeps := hpost.final_invariant (fun s => Keeps st.before.table s.table) (step_keeps hstep)
      fun _ _ _ hs hstep => hs.trans (step_keeps hstep)
    obtain ⟨e'', he'', hid'', hinfo⟩ := hkeeps e he
    rw [List.inj_on_of_nodup_map s.table.primaryKey he' he'' (hid.trans hid''.symm), hinfo]

namespace Sample

def saved (content : Char) : CacheMetadata where
  info := ⟨"ws", "deps", "node_modules", "directory", String.ofList (List.replicate 64 content),
    String.ofList (List.replicate 64 content), "cache-tar-gzip-v1", 1, 1, 1⟩
  createdAt := 0

/-- The row of the first commit. -/
def row : Entry := (saved 'a').entry 10 0 1

/-- One entry is committed, with a retention of ten. -/
theorem committed : ∃ tr s, Run 10 tr s ∧ s.clock = 0 ∧ s.table.rows = [row] := by
  have hrun : (([Action.commit 0 (saved 'a') 1].foldlM (step 10) ⟨CacheTable.empty, 0⟩).map
      fun s => (s.clock, s.table.rows)) = some (0, [row]) := by
    decide +kernel
  obtain ⟨tr, s, htr, -, hsame⟩ := Trace.of_foldlM_map hrun
  grind

end Sample

/-- Before the entry expires, commit and lookup agree that the key is taken. -/
theorem commit_lookup_agree_early : ∃ tr s hid, Run 10 tr s ∧
    Agrees s.table 10 8 (Sample.saved 'b') 2 hid := by
  obtain ⟨tr, s, hrun, hclock, hrows⟩ := Sample.committed
  have hid : 2 ∉ s.table.rows.map Entry.id := by
    rw [hrows]
    decide +kernel
  refine ⟨tr, s, hid, hrun, ?_⟩
  have hagree := (commit_lookup_agree (by decide) hrun).2.2 8 (Sample.saved 'b') 2 hid
    (hclock ▸ Nat.zero_le _)
  apply hagree.2
  unfold Swept
  rw [hrows]
  decide +kernel

/-- **A key that can be neither read nor written**: the entry has expired, and no sweep has come
by. -/
theorem expired_key_conflicts :
    ¬ ∀ (retention : Nat) (tr : List (Step State Action)) (s : State), 0 < retention →
      Run retention tr s → ∀ now m id hid, s.clock ≤ now → m.info.valid = true →
        m.expiresAt = none → Agrees s.table retention now m id hid := by
  intro h
  obtain ⟨tr, s, hrun, hclock, hrows⟩ := Sample.committed
  have hid : 2 ∉ s.table.rows.map Entry.id := by
    rw [hrows]
    decide +kernel
  have hagree := h 10 tr s (by decide) hrun 20 (Sample.saved 'b') 2 hid
    (hclock ▸ Nat.zero_le _) (by decide +kernel) rfl
  have hswept := ((agrees_iff (by decide) hid).1 hagree).1 Sample.row (hrows ▸ List.mem_cons_self)
    rfl rfl rfl
  revert hswept
  decide +kernel

end CacheStore
