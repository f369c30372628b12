import ForgeCI.Effects
import ForgeCI.JobLogs
import ForgeCI.Schema

/-!
# The table of job logs

`AppendJobLog` and `AppendJobLogs` on the rows of `job_log_chunks`, for all jobs at once and for
arguments of any kind: any run and job name, any sequence number, any stream.  A transaction
works on the rows; when it fails, whatever it has inserted so far is rolled back.

The rows of one job are a log as in `JobLogs`.
-/

namespace LogStore

open Effects JobLogs Postgres

/-- `store.JobLogChunk`; the zero time is `none`. -/
structure JobLogChunk where
  runID : String
  jobName : String
  sequence : Int
  stream : String
  payload : List UInt8
  createdAt : Option Time := none

/-- A row of `job_log_chunks`; the stream and the sign of the sequence are constraints. -/
structure Row where
  run : Uuid
  job : String
  chunk : Chunk
  createdAt : Time

inductive Error
  | invalidChunk
  | invalidBatch
  /-- The text is no UUID. -/
  | badUuid
  | notFound
  | conflict

/-- What the statements find outside the table: the reading of UUIDs and the rows of
`job_runs`. -/
structure Site where
  uuid : String → Option Uuid
  jobs : Uuid → String → Bool

abbrev Tx := EStateM Error (List Row)

def streamOf (text : String) : Option Stream :=
  if text = "stdout" then some .stdout else if text = "stderr" then some .stderr else none

/-- The test of one chunk. -/
def JobLogChunk.check (c : JobLogChunk) : Option Chunk :=
  if c.runID = "" ∨ c.jobName = "" ∨ c.sequence < 1 ∨ c.payload.length = 0 ∨
      maxJobLogChunk < c.payload.length then none
  else (streamOf c.stream).map fun stream => ⟨c.sequence.toNat, stream, c.payload⟩

/-- The row of `job_runs` is locked first. -/
def lockJob (site : Site) (runID jobName : String) : Except Error Uuid :=
  match site.uuid runID with
  | none => .error .badUuid
  | some run => if site.jobs run jobName then .ok run else .error .notFound

def Row.isOf (run : Uuid) (job : String) (r : Row) : Bool := r.run = run && r.job = job

/-- The statements for one chunk. -/
def appendRow (run : Uuid) (job : String) (item : Chunk × Time) : Tx Unit := fun rows =>
  match rows.find? fun r => r.isOf run job && r.chunk.sequence = item.1.sequence with
  | some row =>
      if row.chunk.stream ≠ item.1.stream ∨ row.chunk.payload ≠ item.1.payload then
        .error .conflict rows
      else .ok () rows
  | none =>
      if item.1.sequence ≠ maxSequence ((rows.filter (Row.isOf run job)).map Row.chunk) + 1 then
        .error .conflict rows
      else .ok () (rows ++ [⟨run, job, item.1, item.2⟩])

/-- `AppendJobLog`; `now` is the clock. -/
def appendJobLog (site : Site) (now : Time) (c : JobLogChunk) : Tx Unit :=
  match c.check with
  | none => throw .invalidChunk
  | some chunk =>
      match lockJob site c.runID c.jobName with
      | .error e => throw e
      | .ok run => appendRow run c.jobName (chunk, c.createdAt.getD now)

/-- The first loop of `AppendJobLogs`; each chunk comes with the clock when its turn comes. -/
def checkItems (first : JobLogChunk) :
    Int → List (JobLogChunk × Time) → Option (List (Chunk × Time))
  | _, [] => some []
  | previous, (c, now) :: rest =>
      match c.check with
      | none => none
      | some chunk =>
          if c.runID ≠ first.runID ∨ c.jobName ≠ first.jobName ∨ c.sequence ≤ previous then none
          else (checkItems first c.sequence rest).map ((chunk, c.createdAt.getD now) :: ·)

/-- `AppendJobLogs`. -/
def appendJobLogs (site : Site) (items : List (JobLogChunk × Time)) : Tx Unit :=
  match items with
  | [] => throw .invalidBatch
  | (first, now) :: rest =>
      match checkItems first 0 ((first, now) :: rest) with
      | none => throw .invalidBatch
      | some chunks =>
          match lockJob site first.runID first.jobName with
          | .error e => throw e
          | .ok run => chunks.forM (appendRow run first.jobName)

inductive Call
  | appendJobLog (c : JobLogChunk)
  | appendJobLogs (chunks : List JobLogChunk)

def Call.chunks : Call → List JobLogChunk
  | .appendJobLog c => [c]
  | .appendJobLogs chunks => chunks

/-- The chunks with the readings of the clock. -/
def timed (clock : Nat → Time) (chunks : List JobLogChunk) : List (JobLogChunk × Time) :=
  chunks.zipIdx.map fun x => (x.1, clock x.2)

def Call.tx (site : Site) (clock : Nat → Time) : Call → Tx Unit
  | .appendJobLog c => LogStore.appendJobLog site (clock 0) c
  | .appendJobLogs chunks => LogStore.appendJobLogs site (timed clock chunks)

/-- A transaction: the answer, and the rows after the commit or the rollback. -/
def Call.serve (site : Site) (clock : Nat → Time) (call : Call) (rows : List Row) :
    Except Error Unit × List Row :=
  match call.tx site clock rows with
  | .ok () rows' => (.ok (), rows')
  | .error e _ => (.error e, rows)

/-- The rows after a sequence of calls on an empty table. -/
def after (site : Site) (calls : List (Call × (Nat → Time))) : List Row :=
  calls.foldl (fun rows call => (call.1.serve site call.2 rows).2) []

variable {site : Site} {run : Uuid} {job : String} {rows rows' : List Row} {c : Chunk} {now : Time}
  {items : List (JobLogChunk × Time)} {batch : List (Chunk × Time)}

/-- The rows of a job, as a log. -/
def log (run : Uuid) (job : String) (rows : List Row) : List Chunk :=
  (rows.filter (Row.isOf run job)).map Row.chunk

theorem log_append (more : List Row) :
    log run job (rows ++ more) = log run job rows ++ log run job more := by
  simp [log]

/-- A prefix of the table is a prefix of every log. -/
theorem log_initial (h : rows <+: rows') : log run job rows <+: log run job rows' := by
  obtain ⟨more, rfl⟩ := h
  exact ⟨_, (log_append more).symm⟩

theorem find?_log (run : Uuid) (job : String) (rows : List Row) (n : Nat) :
    (rows.find? fun r => r.isOf run job && r.chunk.sequence = n).map Row.chunk =
      (log run job rows).find? (·.sequence = n) := by
  induction rows with
  | nil => rfl
  | cons r rows ih =>
    cases hr : r.isOf run job with
    | false =>
      have hlog : log run job (r :: rows) = log run job rows := by simp [log, hr]
      rw [List.find?_cons_of_neg (by simp [hr]), ih, hlog]
    | true =>
      have hlog : log run job (r :: rows) = r.chunk :: log run job rows := by simp [log, hr]
      rw [hlog]
      by_cases hn : r.chunk.sequence = n
      · rw [List.find?_cons_of_pos (by simp [hr, hn]),
          List.find?_cons_of_pos (by simpa using hn)]
        rfl
      · rw [List.find?_cons_of_neg (by simp [hr, hn]),
          List.find?_cons_of_neg (by simpa using hn), ih]

/-- **The statements for one chunk**: it is stored already, or it comes next. -/
theorem appendRow_ok_iff (h : Numbered (log run job rows)) :
    appendRow run job (c, now) rows = .ok () rows' ↔
      (c ∈ log run job rows ∧ rows' = rows) ∨
        (c.sequence = (log run job rows).length + 1 ∧ rows' = rows ++ [⟨run, job, c, now⟩]) := by
  have hfind := find?_log run job rows c.sequence
  have hmax : maxSequence ((rows.filter (Row.isOf run job)).map Row.chunk) =
      (log run job rows).length :=
    h.maxSequence
  unfold appendRow
  cases hrow : rows.find? fun r => r.isOf run job && r.chunk.sequence = c.sequence with
  | some row =>
    rw [hrow, Option.map_some] at hfind
    have hmem := List.mem_of_find?_eq_some hfind.symm
    have hseq : row.chunk.sequence = c.sequence := by simpa using List.find?_some hfind.symm
    have hsame : ¬(row.chunk.stream ≠ c.stream ∨ row.chunk.payload ≠ c.payload) ↔
        c ∈ log run job rows := by
      constructor
      · intro hnot
        simp only [not_or, not_not] at hnot
        obtain rfl : row.chunk = c := by
          cases hc : row.chunk
          cases c
          simp_all
        exact hmem
      · intro hc
        obtain ⟨i, hi⟩ := List.mem_iff_getElem?.1 hc
        grind [h.find?]
    have hnext : c.sequence ≠ (log run job rows).length + 1 := by
      obtain ⟨i, hi⟩ := List.mem_iff_getElem?.1 hmem
      grind [h.sequence]
    grind
  | none => grind

/-- Every log of the table is numbered. -/
def AllNumbered (rows : List Row) : Prop := ∀ run job, Numbered (log run job rows)

theorem AllNumbered.appendRow (h : AllNumbered rows)
    (hok : appendRow run job (c, now) rows = .ok () rows') :
    AllNumbered rows' ∧ rows <+: rows' ∧ c ∈ log run job rows' := by
  rcases (appendRow_ok_iff (h run job)).1 hok with ⟨hc, rfl⟩ | ⟨hc, rfl⟩
  · exact ⟨h, List.prefix_rfl, hc⟩
  · have hown : log run job [⟨run, job, c, now⟩] = [c] := by simp [log, Row.isOf]
    refine ⟨?_, List.prefix_append _ _, by simp [log_append, hown]⟩
    intro run' job'
    rw [log_append]
    by_cases hsame : run = run' ∧ job = job'
    · obtain ⟨rfl, rfl⟩ := hsame
      rw [hown]
      exact (h run job).concat hc
    · have hother : log run' job' [⟨run, job, c, now⟩] = [] := by
        simpa [log, Row.isOf] using hsame
      rw [hother, List.append_nil]
      exact h run' job'

theorem forM_cons (item : Chunk × Time) : (item :: batch).forM (appendRow run job) =
      appendRow run job item >>= fun _ => batch.forM (appendRow run job) :=
  rfl

/-- The loop over a batch, by induction on the batch. -/
theorem AllNumbered.forM (h : AllNumbered rows)
    (hok : batch.forM (LogStore.appendRow run job) rows = .ok () rows') :
    AllNumbered rows' ∧ rows <+: rows' ∧ ∀ item ∈ batch, item.1 ∈ log run job rows' := by
  induction batch generalizing rows with
  | nil =>
    cases hok
    exact ⟨h, List.prefix_rfl, by simp⟩
  | cons item batch ih =>
    rw [forM_cons, bind_eq] at hok
    cases hitem : LogStore.appendRow run job item rows with
    | error e rows₁ =>
      rw [hitem] at hok
      cases hok
    | ok _ rows₁ =>
      rw [hitem] at hok
      obtain ⟨h₁, hgrows₁, hstored⟩ := h.appendRow hitem
      obtain ⟨h', hgrows', hbatch⟩ := ih h₁ hok
      refine ⟨h', hgrows₁.trans hgrows', ?_⟩
      intro item' hmem
      rcases List.mem_cons.1 hmem with rfl | hmem
      · exact (log_initial hgrows').subset hstored
      · exact hbatch item' hmem

/-- Chunks that are stored are not stored again. -/
theorem AllNumbered.forM_stored (h : AllNumbered rows)
    (hstored : ∀ item ∈ batch, item.1 ∈ log run job rows) :
    batch.forM (LogStore.appendRow run job) rows = .ok () rows := by
  induction batch with
  | nil => rfl
  | cons item batch ih =>
    have hitem : LogStore.appendRow run job item rows = .ok () rows :=
      (appendRow_ok_iff (h run job)).2 (.inl ⟨hstored item List.mem_cons_self, rfl⟩)
    rw [forM_cons, bind_ok hitem]
    exact ih fun item' hmem => hstored item' (List.mem_cons_of_mem _ hmem)

variable {chunk : JobLogChunk} {chunks : List JobLogChunk} {call : Call} {clock clock' : Nat → Time}

/-- The chunk is in the table, under its run and job. -/
def Stored (site : Site) (rows : List Row) (c : JobLogChunk) : Prop :=
  ∃ run, site.uuid c.runID = some run ∧
    ∃ row ∈ rows, row.run = run ∧ row.job = c.jobName ∧ (row.chunk.sequence : Int) = c.sequence ∧
      streamOf c.stream = some row.chunk.stream ∧ row.chunk.payload = c.payload

theorem mem_log :
    c ∈ log run job rows ↔ ∃ row ∈ rows, row.run = run ∧ row.job = job ∧ row.chunk = c := by
  simp [log, Row.isOf, and_assoc]

/-- What the test accepts. -/
theorem check_eq_some (h : chunk.check = some c) :
    1 ≤ chunk.sequence ∧ (c.sequence : Int) = chunk.sequence ∧
      streamOf chunk.stream = some c.stream ∧ c.payload = chunk.payload := by
  unfold JobLogChunk.check at h
  split_ifs at h with hbad
  obtain ⟨stream, hstream, rfl⟩ := Option.map_eq_some_iff.1 h
  grind

theorem stored_of_mem (hrun : site.uuid chunk.runID = some run) (hcheck : chunk.check = some c)
    (hmem : c ∈ log run chunk.jobName rows) : Stored site rows chunk := by
  obtain ⟨row, hrow, hof, hjob, rfl⟩ := mem_log.1 hmem
  obtain ⟨-, hseq, hstream, hpayload⟩ := check_eq_some hcheck
  exact ⟨run, hrun, row, hrow, hof, hjob, hseq, hstream, hpayload⟩

/-- What a transaction that passes the tests goes on to insert. -/
structure Prepared (site : Site) (chunks : List JobLogChunk) (run : Uuid) (job : String)
    (batch : List (Chunk × Time)) : Prop where
  owner : ∀ c ∈ chunks, site.uuid c.runID = some run ∧ c.jobName = job
  checked : chunks.map JobLogChunk.check = batch.map fun item => some item.1

theorem checkItems_eq_some {first : JobLogChunk} {previous : Int}
    (h : checkItems first previous items = some batch) :
    (∀ c ∈ items.map Prod.fst, c.runID = first.runID ∧ c.jobName = first.jobName) ∧
      (items.map Prod.fst).map JobLogChunk.check = batch.map fun item => some item.1 := by
  induction items generalizing previous batch with
  | nil =>
    cases h
    exact ⟨by simp, rfl⟩
  | cons item items ih =>
    unfold checkItems at h
    split at h
    · cases h
    · rename_i hcheck
      split_ifs at h with hbad
      obtain ⟨rest, hrest, rfl⟩ := Option.map_eq_some_iff.1 h
      obtain ⟨howner, hchecked⟩ := ih hrest
      obtain ⟨hrun, hbad⟩ := not_or.1 hbad
      refine ⟨List.forall_mem_cons.2 ⟨⟨not_not.1 hrun, not_not.1 (not_or.1 hbad).1⟩, howner⟩, ?_⟩
      rw [List.map_cons, List.map_cons, List.map_cons, hcheck, hchecked]

/-- The tests do not look at the clock. -/
theorem checkItems_isSome (first : JobLogChunk) (previous : Int)
    {items' : List (JobLogChunk × Time)} (h : items.map Prod.fst = items'.map Prod.fst) :
    (checkItems first previous items).isSome = (checkItems first previous items').isSome := by
  induction items generalizing previous items' with
  | nil =>
    cases items' with
    | nil => rfl
    | cons _ _ => cases h
  | cons item items ih =>
    cases items' with
    | nil => cases h
    | cons item' items' =>
      obtain ⟨c, now⟩ := item
      obtain ⟨c', now'⟩ := item'
      obtain ⟨rfl, hrest⟩ : c = c' ∧ items.map Prod.fst = items'.map Prod.fst := by
        simpa using h
      unfold checkItems
      cases c.check with
      | none => rfl
      | some chunk =>
        dsimp only
        split_ifs
        · rfl
        · rw [Option.isSome_map, Option.isSome_map, ih c.sequence hrest]

theorem map_timed : (timed clock chunks).map Prod.fst = chunks := by
  unfold timed
  rw [List.map_map]
  exact List.zipIdx_map_fst 0 chunks

theorem lockJob_ok {runID jobName : String} (h : lockJob site runID jobName = .ok run) :
    site.uuid runID = some run := by
  grind [lockJob]

theorem throw_ne_ok {e : Error} : (throw e : Tx Unit) rows ≠ .ok () rows' := by
  intro h
  cases h

theorem forM_singleton (item : Chunk × Time) :
    [item].forM (appendRow run job) rows = appendRow run job item rows := by
  rw [forM_cons, bind_eq]
  cases appendRow run job item rows <;> rfl

theorem appendJobLog_ok (h : appendJobLog site now chunk rows = .ok () rows') :
    ∃ run c, lockJob site chunk.runID chunk.jobName = .ok run ∧ chunk.check = some c := by
  unfold appendJobLog at h
  cases hcheck : chunk.check with
  | none =>
    rw [hcheck] at h
    exact absurd h throw_ne_ok
  | some c =>
    cases hrun : lockJob site chunk.runID chunk.jobName with
    | error e =>
      rw [hcheck, hrun] at h
      exact absurd h throw_ne_ok
    | ok run => exact ⟨run, c, rfl, rfl⟩

theorem appendJobLogs_ok (h : appendJobLogs site items rows = .ok () rows') :
    ∃ first rest run batch, items.map Prod.fst = first :: rest ∧
      lockJob site first.runID first.jobName = .ok run ∧ checkItems first 0 items = some batch := by
  cases items with
  | nil => exact absurd h throw_ne_ok
  | cons item items =>
    unfold appendJobLogs at h
    cases hbatch : checkItems item.1 0 (item :: items) with
    | none =>
      simp only [hbatch] at h
      exact absurd h throw_ne_ok
    | some batch =>
      cases hrun : lockJob site item.1.runID item.1.jobName with
      | error e =>
        simp only [hbatch, hrun] at h
        exact absurd h throw_ne_ok
      | ok run => exact ⟨item.1, items.map Prod.fst, run, batch, rfl, hrun, hbatch⟩

theorem appendJobLogs_eq_forM {first : JobLogChunk} {rest : List JobLogChunk}
    (hitems : items.map Prod.fst = first :: rest) (hbatch : checkItems first 0 items = some batch)
    (hrun : lockJob site first.runID first.jobName = .ok run) :
    appendJobLogs site items = batch.forM (appendRow run first.jobName) := by
  cases items with
  | nil => cases hitems
  | cons item items =>
    obtain ⟨rfl, -⟩ := List.cons.inj hitems
    simp only [appendJobLogs, hbatch, hrun]

/-- **A transaction that has committed once** passes its tests whenever it is replayed. -/
theorem tx_eq_forM (h : call.tx site clock rows = .ok () rows') :
    ∃ run job, ∀ clock', ∃ batch, Prepared site call.chunks run job batch ∧
      call.tx site clock' = batch.forM (appendRow run job) := by
  cases call with
  | appendJobLog chunk =>
    obtain ⟨run, c, hrun, hcheck⟩ := appendJobLog_ok h
    refine ⟨run, chunk.jobName, ?_⟩
    intro clock'
    refine ⟨[(c, chunk.createdAt.getD (clock' 0))], ⟨?_, ?_⟩, ?_⟩
    · intro c' hc'
      rw [List.mem_singleton.1 hc']
      exact ⟨lockJob_ok hrun, rfl⟩
    · simp [Call.chunks, hcheck]
    · funext rows
      unfold Call.tx appendJobLog
      simp only [hcheck, hrun, forM_singleton]
  | appendJobLogs chunks =>
    obtain ⟨first, rest, run, batch, hfirst, hrun, hbatch⟩ := appendJobLogs_ok h
    refine ⟨run, first.jobName, ?_⟩
    intro clock'
    have hsame : (timed clock chunks).map Prod.fst = (timed clock' chunks).map Prod.fst := by
      rw [map_timed, map_timed]
    have hsome := checkItems_isSome first 0 hsame
    rw [hbatch, Option.isSome_some] at hsome
    obtain ⟨batch', hbatch'⟩ := Option.isSome_iff_exists.1 hsome.symm
    obtain ⟨howner, hchecked⟩ := checkItems_eq_some hbatch'
    rw [map_timed] at howner hchecked
    refine ⟨batch', ⟨?_, hchecked⟩, appendJobLogs_eq_forM (hsame ▸ hfirst) hbatch' hrun⟩
    intro c hc
    obtain ⟨hid, hjob⟩ := howner c hc
    exact ⟨hid ▸ lockJob_ok hrun, hjob⟩

theorem Prepared.stored (h : Prepared site chunks run job batch)
    (hmem : ∀ item ∈ batch, item.1 ∈ log run job rows) : ∀ c ∈ chunks, Stored site rows c := by
  intro c hc
  have hcheck := List.mem_map_of_mem (f := JobLogChunk.check) hc
  rw [h.checked] at hcheck
  obtain ⟨item, hitem, heq⟩ := List.mem_map.1 hcheck
  obtain ⟨hrun, rfl⟩ := h.owner c hc
  exact stored_of_mem hrun heq.symm (hmem item hitem)

/-- **A committed transaction** extends every log at its end and leaves its chunks stored. -/
theorem AllNumbered.tx (h : AllNumbered rows) (hok : call.tx site clock rows = .ok () rows') :
    AllNumbered rows' ∧ rows <+: rows' ∧ ∀ c ∈ call.chunks, Stored site rows' c := by
  obtain ⟨run, job, hclock⟩ := tx_eq_forM hok
  obtain ⟨batch, hbatch, htx⟩ := hclock clock
  rw [htx] at hok
  grind [h.forM, hbatch.stored]

/-- **Replay**: on any later table the transaction commits and changes nothing. -/
theorem AllNumbered.tx_again {later : List Row} (h : AllNumbered rows)
    (hok : call.tx site clock rows = .ok () rows') (hlater : AllNumbered later)
    (hgrows : rows' <+: later) : call.tx site clock' later = .ok () later := by
  obtain ⟨run, job, hclock⟩ := tx_eq_forM hok
  obtain ⟨batch, hbatch, htx⟩ := hclock clock
  obtain ⟨batch', hbatch', htx'⟩ := hclock clock'
  rw [htx] at hok
  obtain ⟨-, -, hmem⟩ := h.forM hok
  rw [htx']
  apply hlater.forM_stored
  intro item hitem
  have hcheck := List.mem_map_of_mem (f := fun item : Chunk × Time => some item.1) hitem
  rw [← hbatch'.checked, hbatch.checked] at hcheck
  obtain ⟨item₀, hitem₀, heq⟩ := List.mem_map.1 hcheck
  rw [← Option.some.inj heq]
  exact (log_initial hgrows).subset (hmem item₀ hitem₀)

/-- The call answers without an error. -/
def Call.succeeds (site : Site) (clock : Nat → Time) (call : Call) (rows : List Row) : Bool :=
  (call.serve site clock rows).1.isOk

theorem serve_cases (site : Site) (clock : Nat → Time) (call : Call) (rows : List Row) :
    (call.succeeds site clock rows = true ∧
      call.tx site clock rows = .ok () (call.serve site clock rows).2) ∨
    (call.succeeds site clock rows = false ∧ (call.serve site clock rows).2 = rows) := by
  unfold Call.succeeds Call.serve
  cases call.tx site clock rows with
  | ok _ rows' => exact .inl ⟨rfl, rfl⟩
  | error e rows' => exact .inr ⟨rfl, rfl⟩

theorem serve_of_tx (h : call.tx site clock rows = .ok () rows') :
    call.serve site clock rows = (.ok (), rows') := by
  unfold Call.serve
  rw [h]

/-- One call. -/
theorem AllNumbered.serve (h : AllNumbered rows) (site : Site) (clock : Nat → Time) (call : Call) :
    AllNumbered (call.serve site clock rows).2 ∧ rows <+: (call.serve site clock rows).2 := by
  rcases serve_cases site clock call rows with ⟨-, hok⟩ | ⟨-, hsame⟩
  · grind [h.tx]
  · rw [hsame]
    exact ⟨h, List.prefix_rfl⟩

theorem AllNumbered.foldl (h : AllNumbered rows) (site : Site)
    (calls : List (Call × (Nat → Time))) :
    AllNumbered (calls.foldl (fun rows call => (call.1.serve site call.2 rows).2) rows) ∧
      rows <+: calls.foldl (fun rows call => (call.1.serve site call.2 rows).2) rows := by
  induction calls generalizing rows with
  | nil => exact ⟨h, List.prefix_rfl⟩
  | cons call calls ih => grind [h.serve]

theorem allNumbered_after (site : Site) (calls : List (Call × (Nat → Time))) :
    AllNumbered (after site calls) := by
  have hempty : AllNumbered [] := fun _ _ => rfl
  exact (hempty.foldl site calls).1

theorem after_append (site : Site) (calls more : List (Call × (Nat → Time))) :
    after site calls <+: after site (calls ++ more) := by
  unfold after
  rw [List.foldl_append]
  exact ((allNumbered_after site calls).foldl site more).2

/-- A batch of one chunk: both calls refuse it, or they do the same. -/
theorem appendJobLogs_singleton (site : Site) (chunk : JobLogChunk) (now : Time) (rows : List Row) :
    (∃ e e', appendJobLogs site [(chunk, now)] rows = .error e rows ∧
        appendJobLog site now chunk rows = .error e' rows) ∨
      appendJobLogs site [(chunk, now)] rows = appendJobLog site now chunk rows := by
  cases hcheck : chunk.check with
  | none =>
    left
    refine ⟨.invalidBatch, .invalidChunk, ?_, ?_⟩
    · unfold appendJobLogs checkItems
      simp only [hcheck]
      rfl
    · unfold appendJobLog
      simp only [hcheck]
      rfl
  | some c =>
    right
    have hpos := (check_eq_some hcheck).1
    have hitems : checkItems chunk 0 [(chunk, now)] = some [(c, chunk.createdAt.getD now)] := by
      grind [checkItems]
    unfold appendJobLogs appendJobLog
    simp only [hcheck, hitems]
    cases lockJob site chunk.runID chunk.jobName with
    | error e => rfl
    | ok run => exact forM_singleton _

theorem serve_singleton (c : JobLogChunk) : (Call.appendJobLogs [c]).succeeds site clock rows =
        (Call.appendJobLog c).succeeds site clock rows ∧
      ((Call.appendJobLogs [c]).serve site clock rows).2 =
        ((Call.appendJobLog c).serve site clock rows).2 := by
  have hbatch : (Call.appendJobLogs [c]).tx site clock rows =
      appendJobLogs site [(c, clock 0)] rows := rfl
  have hone : (Call.appendJobLog c).tx site clock rows = appendJobLog site (clock 0) c rows := rfl
  unfold Call.succeeds Call.serve
  rw [hbatch, hone]
  rcases appendJobLogs_singleton site c (clock 0) rows with ⟨e, e', he, he'⟩ | heq
  · rw [he, he']
    exact ⟨rfl, rfl⟩
  · rw [heq]
    exact ⟨rfl, rfl⟩

/-- **The log store is an append-only, gap-free, idempotent sequence.**  After any sequence of
calls: every log carries the numbers from 1 on; what was there before the last calls is there
still, with all later rows behind it; a further call that succeeds extends the table and has
every chunk of its argument stored; one that fails changes nothing; an earlier call that
succeeded succeeds again and changes nothing, whatever the clock says; and a batch of one chunk
is that chunk. -/
theorem log_store_appendOnly (site : Site) (calls more : List (Call × (Nat → Time))) :
    (∀ run job, (log run job (after site calls)).map Chunk.sequence =
        List.range' 1 (log run job (after site calls)).length) ∧
      (∀ run job, log run job (after site calls) <+: log run job (after site (calls ++ more))) ∧
      (∀ row ∈ after site calls, row ∈ after site (calls ++ more)) ∧ (∀ (call : Call) clock,
        if call.succeeds site clock (after site calls) then
          after site calls <+: (call.serve site clock (after site calls)).2 ∧
            ∀ c ∈ call.chunks, Stored site (call.serve site clock (after site calls)).2 c
        else (call.serve site clock (after site calls)).2 = after site calls) ∧
      (∀ (call : Call) clock clock', call.succeeds site clock (after site calls) = true →
        call.serve site clock' (after site (calls ++ (call, clock) :: more)) =
          (.ok (), after site (calls ++ (call, clock) :: more))) ∧
      ∀ c clock,
        (Call.appendJobLogs [c]).succeeds site clock (after site calls) =
            (Call.appendJobLog c).succeeds site clock (after site calls) ∧
          ((Call.appendJobLogs [c]).serve site clock (after site calls)).2 =
            ((Call.appendJobLog c).serve site clock (after site calls)).2 := by
  have hnumbered := allNumbered_after site calls
  have hgrows := after_append site calls more
  refine ⟨hnumbered, fun run job => log_initial hgrows, fun row hrow => hgrows.subset hrow,
    ?_, ?_, fun c clock => serve_singleton c⟩
  · intro call clock
    rcases serve_cases site clock call (after site calls) with ⟨hyes, hok⟩ | ⟨hno, hsame⟩
    · rw [if_pos hyes]
      exact (hnumbered.tx hok).2
    · rw [if_neg (by simp [hno])]
      exact hsame
  · intro call clock clock' hyes
    rcases serve_cases site clock call (after site calls) with ⟨-, hok⟩ | ⟨hno, -⟩
    · have hcalled : after site (calls ++ [(call, clock)]) =
          (call.serve site clock (after site calls)).2 := by
        simp [after]
      have hlater := after_append site (calls ++ [(call, clock)]) more
      rw [hcalled, List.append_assoc, List.singleton_append] at hlater
      exact serve_of_tx (hnumbered.tx_again hok (allNumbered_after _ _) hlater)
    · rw [hno] at hyes
      cases hyes

end LogStore
