import ForgeCI.RunInvariants
import ForgeCI.RowLocks

/-!
# Completion and expiry statement by statement

`CompleteJob` and `ExpireJobLeases` on one run as PostgreSQL executes them under
`READ COMMITTED`: a statement reads the rows committed before it and the writes
of its own transaction, an `UPDATE` visits the rows it selected one by one, and
a row that another open transaction has locked is waited for and tested again.
Any number of transactions take their statements in any order.
-/

namespace Postgres.ReadCommitted

open RowLocks

/-- The arguments of `CompleteJob`. -/
structure Completion where
  owner : Ownership
  status : JobStatus
  message : Option String
deriving DecidableEq

/-- The transactions of a schedule. -/
inductive Program
  | completeJob (c : Completion)
  | expireJobLeases

/-- The statement a transaction executes next. -/
inductive Phase
  /-- The locking query of `CompleteJob`, on its snapshot. -/
  | select (c : Completion)
  /-- `FOR UPDATE OF p`. -/
  | lockRun (c : Completion)
  /-- `FOR UPDATE OF j`. -/
  | lockJob (c : Completion)
  /-- The artifact gate and the `UPDATE` of `CompleteJob`. -/
  | update (c : Completion)
  /-- The first `UPDATE` of `ExpireJobLeases`, on its snapshot. -/
  | sweep
  /-- The rows that `UPDATE` has still to visit. -/
  | expire (rows : List String)
  /-- An iteration of `blockDependents`, on its snapshot. -/
  | block
  /-- The rows the iteration has still to visit, and whether it affected one. -/
  | blocking (rows : List String) (affected : Bool)
  /-- The first query of `finalizeRun`. -/
  | count
  /-- Its second query. -/
  | flags
  /-- Its `UPDATE`. -/
  | finalize (status : RunStatus)
  | commit
  | done
deriving DecidableEq

/-- An open transaction: the locks it holds, the job rows it has written and the
status it has given the run. -/
structure Tx where
  now : Time
  phase : Phase
  runLocked : Bool := false
  jobLocks : List String := []
  writes : List Job := []
  status : Option RunStatus := none

inductive Row
  | run
  | job (name : String)

def Tx.locks (tx : Tx) : Row → Bool
  | .run => tx.runLocked
  | .job name => name ∈ tx.jobLocks

def Program.start (now : Time) : Program → Tx
  | .completeJob c => { now := now, phase := .select c }
  | .expireJobLeases => { now := now, phase := .sweep }

/-- The rows a statement of the transaction reads when `r` is committed. -/
def Tx.view (tx : Tx) (r : Run) : Run :=
  r.withJobs (r.jobs.map fun j => (Table.row? Job.name j.name tx.writes).getD j)

/-- The names of the jobs whose rows the transaction has written. -/
def Tx.ended (tx : Tx) : List String :=
  tx.writes.map Job.name

def Tx.write (row : Job) (tx : Tx) : Tx :=
  { tx with writes := row :: tx.writes, jobLocks := row.name :: tx.jobLocks }

/-- The end of a transaction, with or without a commit. -/
def Tx.close (tx : Tx) : Tx :=
  { now := tx.now, phase := .done }

/-- The rows after the commit. -/
def Tx.committed (s : Settings) (tx : Tx) (r : Run) : Run :=
  match tx.status with
  | none => tx.view r
  | some status => ((tx.view r).finishAs status tx.now).stampArtifacts s.artifactRetention

/-- One row of an `UPDATE` that waits for the row and tests it again. -/
def Tx.visit (p : Job → Bool) (f : Job → Job) (r : Run) (name : String) (tx : Tx) :
    Tx × Bool :=
  match r.job? name with
  | none => (tx, false)
  | some j => if p j then (tx.write (f j), true) else (tx, false)

/-- The next statement, or row of a statement, of a transaction: the rows then
committed and the transaction, or nothing when it waits for a lock. -/
def Tx.next (s : Settings) (free : Row → Bool) (r : Run) (tx : Tx) : Option (Run × Tx) :=
  match tx.phase with
  | .select c =>
      if c.status.reportable && c.owner.runID = r.id &&
          (r.job? c.owner.jobName).any (Job.holdsLease c.owner tx.now) then
        some (r, { tx with phase := .lockRun c })
      else some (r, tx.close)
  | .lockRun c =>
      if free .run then some (r, { tx with phase := .lockJob c, runLocked := true }) else none
  | .lockJob c =>
      if free (.job c.owner.jobName) then
        if (r.job? c.owner.jobName).any (Job.holdsLease c.owner tx.now) then
          some (r, { tx with
            phase := .update c
            jobLocks := c.owner.jobName :: tx.jobLocks })
        else some (r, tx.close)
      else none
  | .update c =>
      match r.job? c.owner.jobName, r.passGate s c.owner.jobName c.status with
      | some j, .ok () =>
          some (r, { tx.write (j.finish c.status tx.now c.message).releaseLease with
            phase := if c.status = .passed then .count else .block })
      | _, _ => some (r, tx.close)
  | .sweep =>
      some (r, { tx with phase := .expire ((r.jobs.filter (Job.expired tx.now)).map Job.name) })
  | .expire [] =>
      if tx.writes = [] then some (r, tx.close) else some (r, { tx with phase := .block })
  | .expire (name :: rest) =>
      if free (.job name) then
        let row := tx.visit (Job.expired tx.now) (fun j =>
          (j.finish .aborted tx.now (some "job lease expired")).releaseLease) r name
        some (r, { row.1 with phase := .expire rest })
      else none
  | .block =>
      let view := tx.view r
      some (r, { tx with
        phase := .blocking ((view.jobs.filter view.blockable).map Job.name) false })
  | .blocking [] affected =>
      some (r, { tx with phase := if affected then .block else .count })
  | .blocking (name :: rest) affected =>
      if free (.job name) then
        let row := tx.visit (·.status = .pending)
          (Job.finish .blocked tx.now (some "upstream dependency did not pass")) r name
        some (r, { row.1 with phase := .blocking rest (affected || row.2) })
      else none
  | .count =>
      some (r, { tx with
        phase := if (tx.view r).jobs.any (·.status.unfinished) then .commit else .flags })
  | .flags => some (r, { tx with phase := .finalize (tx.view r).finalStatus })
  | .finalize status =>
      if free .run then
        some (r, { tx with
          phase := .commit
          runLocked := true
          status := if r.status.terminal then none else some status })
      else none
  | .commit => some (tx.committed s r, tx.close)
  | .done => none

/-- The committed rows of the run and the open transactions. -/
abbrev State := Schedule Run Tx

/-- The transactions about to start on a run. -/
def State.initial (r : Run) (programs : List (Time × Program)) : State where
  rows := r
  txs := programs.map fun p => p.2.start p.1

/-- The `i`-th transaction takes its next statement. -/
def State.step (s : Settings) (st : State) (i : Nat) : Option State :=
  Schedule.step Tx.locks (Tx.next s) st i

variable {s : Settings} {r r' : Run} {tx tx' : Tx} {j j' : Job} {free : Row → Bool}

/-- A row read is a committed row that the transaction has not written, or a
row it has written. -/
theorem Tx.view_cases (h : j' ∈ (tx.view r).jobs) :
    (j' ∈ r.jobs ∧ j'.name ∉ tx.ended) ∨ j' ∈ tx.writes := by
  obtain ⟨j, hj, rfl⟩ := List.mem_map.1 h
  cases hrow : Table.row? Job.name j.name tx.writes with
  | none =>
    refine .inl ⟨hj, fun hmem => ?_⟩
    obtain ⟨w, hw, hname⟩ := List.mem_map.1 hmem
    simpa [hname] using List.find?_eq_none.1 hrow w hw
  | some w => exact .inr (Table.row?_some hrow).1

theorem Tx.mem_view (hj : j ∈ r.jobs) (h : j.name ∉ tx.ended) : j ∈ (tx.view r).jobs := by
  refine List.mem_map.2 ⟨j, hj, ?_⟩
  cases hrow : Table.row? Job.name j.name tx.writes with
  | none => rfl
  | some w =>
    obtain ⟨hw, hname⟩ := Table.row?_some hrow
    exact absurd (List.mem_map.2 ⟨w, hw, hname⟩) h

theorem Tx.view_names (tx : Tx) (r : Run) :
    (tx.view r).jobs.map Job.name = r.jobs.map Job.name := by
  rw [view, Run.withJobs, List.map_map]
  refine List.map_congr_left fun j _ => ?_
  cases hrow : Table.row? Job.name j.name tx.writes with
  | none => simp [hrow]
  | some w => simpa [hrow] using (Table.row?_some hrow).2

theorem Tx.committed_jobs (s : Settings) (tx : Tx) (r : Run) :
    (tx.committed s r).jobs = (tx.view r).jobs := by
  unfold committed
  cases tx.status <;> rfl

theorem Tx.visit_cases (p : Job → Bool) (f : Job → Job) (r : Run) (name : String) (tx : Tx) :
    tx.visit p f r name = (tx, false) ∨
      ∃ j ∈ r.jobs, j.name = name ∧ p j = true ∧ tx.visit p f r name = (tx.write (f j), true) := by
  unfold visit
  cases hj : r.job? name with
  | none => exact .inl rfl
  | some j =>
    by_cases hp : p j = true
    · obtain ⟨hmem, hname⟩ := Table.row?_some hj
      exact .inr ⟨j, hmem, hname, hp, by simp [hp]⟩
    · exact .inl (by simp [hp])

/-- The rows written are locked, ended, and unfinished for everybody else. -/
structure Tx.Owns (r : Run) (tx : Tx) : Prop where
  locked : ∀ w ∈ tx.writes, w.name ∈ tx.jobLocks
  finished : ∀ w ∈ tx.writes, w.status.unfinished = false
  unfinished : ∀ w ∈ tx.writes, ∃ j ∈ r.jobs, j.name = w.name ∧ j.status.unfinished = true

/-- The transaction has ended a job that is committed as `RUNNING`. -/
def Tx.Took (r : Run) (tx : Tx) : Prop :=
  ∃ w ∈ tx.writes, ∃ j ∈ r.jobs, j.name = w.name ∧ j.status = .running

/-- The transaction has ended whatever is committed as unfinished. -/
def Tx.Closes (r : Run) (tx : Tx) : Prop :=
  ∀ j ∈ r.jobs, j.status.unfinished = true → j.name ∈ tx.ended

/-- What is known of a transaction by the statement it has come to. -/
def Tx.Progress (r : Run) (tx : Tx) : Prop :=
  match tx.phase with
  | .select _ | .sweep | .done => tx.writes = []
  | .lockRun c | .lockJob c => tx.writes = [] ∧ c.status.reportable = true
  | .update c => tx.writes = [] ∧ c.status.reportable = true ∧
      c.owner.jobName ∈ tx.jobLocks ∧ ∃ j ∈ r.jobs, j.name = c.owner.jobName ∧ j.status = .running
  | .expire _ => tx.writes = [] ∨ tx.Took r
  | .block | .blocking _ _ | .count => tx.Took r
  | .flags => tx.Closes r
  | .finalize status => tx.Closes r ∧ status.terminal = true
  | .commit => ∀ status, tx.status = some status → tx.Closes r ∧ status.terminal = true

structure Tx.Consistent (r : Run) (tx : Tx) : Prop where
  owns : tx.Owns r
  status : tx.phase ≠ .commit → tx.status = none
  progress : tx.Progress r

theorem Tx.Owns.of_nil (h : tx.writes = []) : tx.Owns r := by
  constructor <;> simp [h]

theorem Tx.Owns.write (h : tx.Owns r) {row : Job} (hj : j ∈ r.jobs) (hname : row.name = j.name)
    (hunfinished : j.status.unfinished = true) (hfinished : row.status.unfinished = false) :
    (tx.write row).Owns r where
  locked := by
    intro w hw
    rcases List.mem_cons.1 hw with rfl | hw
    · exact List.mem_cons_self
    · exact List.mem_cons_of_mem _ (h.locked w hw)
  finished := by
    intro w hw
    rcases List.mem_cons.1 hw with rfl | hw
    · exact hfinished
    · exact h.finished w hw
  unfinished := by
    intro w hw
    rcases List.mem_cons.1 hw with rfl | hw
    · exact ⟨j, hj, hname.symm, hunfinished⟩
    · exact h.unfinished w hw

theorem Tx.Took.write (h : tx.Took r) (row : Job) : (tx.write row).Took r := by
  obtain ⟨w, hw, hrest⟩ := h
  exact ⟨w, List.mem_cons_of_mem _ hw, hrest⟩

theorem Program.start_consistent (r : Run) (now : Time) (p : Program) :
    (p.start now).Consistent r := by
  cases p <;> exact ⟨.of_nil rfl, fun _ => rfl, rfl⟩

theorem Tx.Took.of_kept (h : tx.Took r) (hlocked : ∀ w ∈ tx.writes, w.name ∈ tx.jobLocks)
    (hkeep : ∀ j ∈ r.jobs, j.name ∈ tx.jobLocks → j ∈ r'.jobs) : tx.Took r' := by
  obtain ⟨w, hw, j, hj, hname, hrunning⟩ := h
  exact ⟨w, hw, j, hkeep j hj (hname ▸ hlocked w hw), hname, hrunning⟩

/-- The commits of the others leave the locked rows alone and end jobs only. -/
theorem Tx.Consistent.of_kept (h : tx.Consistent r)
    (hkeep : ∀ j ∈ r.jobs, j.name ∈ tx.jobLocks → j ∈ r'.jobs)
    (hback : ∀ j ∈ r'.jobs, j.status.unfinished = true → j ∈ r.jobs) : tx.Consistent r' where
  owns := by
    refine ⟨h.owns.locked, h.owns.finished, fun w hw => ?_⟩
    obtain ⟨j, hj, hname, hunfinished⟩ := h.owns.unfinished w hw
    exact ⟨j, hkeep j hj (hname ▸ h.owns.locked w hw), hname, hunfinished⟩
  status := h.status
  progress := by
    have hcloses : tx.Closes r → tx.Closes r' := fun hc j hj hu => hc j (hback j hj hu) hu
    have htook : tx.Took r → tx.Took r' := fun ht => ht.of_kept h.owns.locked hkeep
    have hprogress := h.progress
    unfold Progress at hprogress ⊢
    cases hphase : tx.phase <;> simp only [hphase] at hprogress ⊢
    case update c => grind
    case expire => exact hprogress.imp_right htook
    case commit => grind
    case finalize => exact ⟨hcloses hprogress.1, hprogress.2⟩
    case flags => exact hcloses hprogress
    case block | blocking | count => exact htook hprogress
    all_goals exact hprogress

theorem JobStatus.reportable_finished {status : JobStatus} (h : status.reportable = true) :
    status.unfinished = false := by
  cases status <;> first | rfl | cases h

variable {name : String}
  {p : Job → Bool} {f : Job → Job}

/-- A row of an `UPDATE` keeps what the transaction owns. -/
theorem Tx.Owns.visit (h : tx.Owns r)
    (hname : ∀ j, (f j).name = j.name) (hp : ∀ j, p j = true → j.status.unfinished = true)
    (hf : ∀ j, (f j).status.unfinished = false) : (tx.visit p f r name).1.Owns r := by
  rcases tx.visit_cases p f r name with heq | ⟨j, hj, -, hpj, heq⟩
  · rw [heq]
    exact h
  · grind [h.write]

theorem Tx.visit_locks (hname : ∀ j, (f j).name = j.name)
    {row : Row} (h : (tx.visit p f r name).1.locks row = true) :
    tx.locks row = true ∨ row = .job name := by
  rcases tx.visit_cases p f r name with heq | ⟨j, -, rfl, -, heq⟩
  · rw [heq] at h
    exact .inl h
  · rw [heq] at h
    cases row with
    | run => exact .inl h
    | job other => grind [locks, write]

theorem Tx.visit_status (p : Job → Bool) (f : Job → Job) (r : Run) (name : String) (tx : Tx) :
    (tx.visit p f r name).1.status = tx.status := by
  rcases tx.visit_cases p f r name with heq | ⟨j, -, -, -, heq⟩
  · rw [heq]
  · rw [heq]
    rfl

/-- One statement other than `COMMIT`: it changes no committed row and locks
free rows only. -/
structure Tx.Advance (free : Row → Bool) (r : Run) (tx : Tx) (result : Run × Tx) : Prop where
  run : result.1 = r
  consistent : result.2.Consistent r
  locks : ∀ row, result.2.locks row = true → tx.locks row = true ∨ free row = true

theorem Tx.Advance.close (free : Row → Bool) (r : Run) (tx : Tx) :
    tx.Advance free r (r, tx.close) where
  run := rfl
  consistent :=
    { owns := .of_nil rfl
      status := fun _ => rfl
      progress := rfl }
  locks := by
    intro row hrow
    cases row <;> simp [Tx.close, Tx.locks] at hrow

/-- A statement that takes no lock. -/
theorem Tx.Advance.rephase {phase : Phase} (howns : tx.Owns r) (hstatus : tx.status = none)
    (hprogress : { tx with phase := phase }.Progress r) :
    tx.Advance free r (r, { tx with phase := phase }) where
  run := rfl
  consistent := ⟨⟨howns.locked, howns.finished, howns.unfinished⟩, fun _ => hstatus, hprogress⟩
  locks := fun _ hrow => .inl hrow

/-- One row of an `UPDATE`, once its lock is free. -/
theorem Tx.Advance.visit {phase : Phase}
    (howns : tx.Owns r) (hstatus : tx.status = none) (hfree : free (.job name) = true)
    (hname : ∀ j, (f j).name = j.name) (hp : ∀ j, p j = true → j.status.unfinished = true)
    (hf : ∀ j, (f j).status.unfinished = false)
    (hprogress : { (tx.visit p f r name).1 with phase := phase }.Progress r) :
    tx.Advance free r (r, { (tx.visit p f r name).1 with phase := phase }) where
  run := rfl
  consistent := by
    have howns' : (tx.visit p f r name).1.Owns r := howns.visit hname hp hf
    exact ⟨⟨howns'.locked, howns'.finished, howns'.unfinished⟩,
      fun _ => (tx.visit_status p f r name).trans hstatus, hprogress⟩
  locks := by
    intro row hrow
    rcases Tx.visit_locks hname hrow with hold | rfl
    · exact .inl hold
    · exact .inr hfree

variable {result : Run × Tx}

theorem Tx.Advance.update {c : Completion} (h : tx.Consistent r)
    (hnames : (r.jobs.map Job.name).Nodup) (hphase : tx.phase = .update c)
    (hnext : tx.next s free r = some result) : tx.Advance free r result := by
  have hprogress := h.progress
  simp only [Progress, hphase] at hprogress
  obtain ⟨hnil, hreport, hlocked, j, hj, hname, hrunning⟩ := hprogress
  simp only [next, hphase] at hnext
  have hrow : r.job? c.owner.jobName = some j := (Table.row?_eq_some_iff hnames).2 ⟨hj, hname⟩
  rw [hrow] at hnext
  split at hnext <;> obtain rfl := Option.some.inj hnext
  · rename_i j' hj' _
    cases hj'
    have howns : (tx.write (j.finish c.status tx.now c.message).releaseLease).Owns r :=
      h.owns.write hj rfl (by rw [hrunning]; rfl) (JobStatus.reportable_finished hreport)
    refine ⟨rfl, ⟨⟨howns.locked, howns.finished, howns.unfinished⟩,
      fun _ => h.status (by simp [hphase]), ?_⟩, fun row hrow => ?_⟩
    · have htook : (tx.write (j.finish c.status tx.now c.message).releaseLease).Took r :=
        ⟨_, List.mem_cons_self, j, hj, rfl, hrunning⟩
      by_cases hpassed : c.status = .passed
      · simp only [Progress, if_pos hpassed]
        exact htook
      · simp only [Progress, if_neg hpassed]
        exact htook
    · cases row with
      | run => exact .inl hrow
      | job name =>
        refine .inl (decide_eq_true ?_)
        rcases List.mem_cons.1 (of_decide_eq_true hrow) with rfl | hold
        · exact hname ▸ hlocked
        · exact hold
  · exact .close ..

theorem Tx.Took.visit (h : tx.Took r) (p : Job → Bool) (f : Job → Job) (name : String) :
    (tx.visit p f r name).1.Took r := by
  rcases tx.visit_cases p f r name with heq | ⟨j, -, -, -, heq⟩
  · rw [heq]
    exact h
  · rw [heq]
    exact h.write _

theorem Tx.Advance.expire {rows : List String} (h : tx.Consistent r)
    (hphase : tx.phase = .expire rows)
    (hnext : tx.next s free r = some result) : tx.Advance free r result := by
  have hstatus := h.status (by simp [hphase])
  have hprogress := h.progress
  simp only [Progress, hphase] at hprogress
  cases rows with
  | nil =>
    simp only [next, hphase] at hnext
    split_ifs at hnext with hnil <;> obtain rfl := Option.some.inj hnext
    · exact .close ..
    · exact .rephase h.owns hstatus (hprogress.resolve_left hnil)
  | cons name rest =>
    simp only [next, hphase] at hnext
    split_ifs at hnext with hfree
    cases hnext
    refine .visit h.owns hstatus hfree (fun _ => rfl) (fun j hj => ?_) (fun _ => rfl) ?_
    · simp only [Job.expired, Bool.and_eq_true, decide_eq_true_eq] at hj
      rw [hj.1]
      rfl
    · simp only [Progress]
      rcases hprogress with hnil | htook
      · rcases tx.visit_cases (Job.expired tx.now) (fun j =>
          (j.finish .aborted tx.now (some "job lease expired")).releaseLease) r name
          with heq | ⟨j, hj, -, hexpired, heq⟩
        · rw [heq]
          exact .inl hnil
        · rw [heq]
          simp only [Job.expired, Bool.and_eq_true, decide_eq_true_eq] at hexpired
          exact .inr ⟨_, List.mem_cons_self, j, hj, rfl, hexpired.1⟩
      · exact .inr (htook.visit ..)

theorem Tx.Advance.blocking {rows : List String} {affected : Bool} (h : tx.Consistent r)
    (hphase : tx.phase = .blocking rows affected)
    (hnext : tx.next s free r = some result) : tx.Advance free r result := by
  have hstatus := h.status (by simp [hphase])
  have htook : tx.Took r := by simpa only [Progress, hphase] using h.progress
  cases rows with
  | nil =>
    simp only [next, hphase] at hnext
    cases hnext
    refine .rephase h.owns hstatus ?_
    cases affected <;> exact htook
  | cons name rest =>
    simp only [next, hphase] at hnext
    split_ifs at hnext with hfree
    cases hnext
    refine .visit h.owns hstatus hfree (fun _ => rfl) (fun j hj => ?_) (fun _ => rfl)
      (htook.visit _ _ name)
    rw [of_decide_eq_true hj]
    rfl

/-- A count of zero has seen every job ended. -/
theorem Tx.closes_of_count (hnone : (tx.view r).jobs.any (·.status.unfinished) = false) :
    tx.Closes r := by
  intro j hj hunfinished
  grind [Tx.mem_view]

/-- Every statement but `COMMIT` is an advance. -/
theorem Tx.next_open (h : tx.Consistent r) (hnames : (r.jobs.map Job.name).Nodup)
    (hopen : tx.phase ≠ .commit)
    (hnext : tx.next s free r = some result) : tx.Advance free r result := by
  have hstatus := h.status hopen
  have hprogress := h.progress
  unfold Progress at hprogress
  cases hphase : tx.phase with
  | update c => exact .update h hnames hphase hnext
  | expire rows => exact .expire h hphase hnext
  | blocking rows affected => exact .blocking h hphase hnext
  | commit => exact absurd hphase hopen
  | done => simp [next, hphase] at hnext
  | select c =>
    simp only [next, hphase] at hnext hprogress
    split_ifs at hnext with hcond <;> obtain rfl := Option.some.inj hnext
    · simp only [Bool.and_eq_true] at hcond
      exact .rephase h.owns hstatus ⟨hprogress, hcond.1.1⟩
    · exact .close ..
  | lockRun c =>
    simp only [next, hphase] at hnext hprogress
    split_ifs at hnext with hfree
    cases hnext
    refine ⟨rfl, ⟨.of_nil hprogress.1, fun _ => hstatus, hprogress⟩, fun row hrow => ?_⟩
    cases row with
    | run => exact .inr hfree
    | job name => exact .inl hrow
  | lockJob c =>
    simp only [next, hphase] at hnext hprogress
    split_ifs at hnext with hfree hholds <;> obtain rfl := Option.some.inj hnext
    · obtain ⟨j, hj, hlease⟩ := (Option.any_eq_true _ _).1 hholds
      obtain ⟨hmem, hname⟩ := Table.row?_some hj
      refine ⟨rfl, ⟨.of_nil hprogress.1, fun _ => hstatus, hprogress.1, hprogress.2,
        List.mem_cons_self, j, hmem, hname, Job.holdsLease_running hlease⟩, fun row hrow => ?_⟩
      cases row with
      | run => exact .inl hrow
      | job name =>
        rcases List.mem_cons.1 (of_decide_eq_true hrow) with rfl | hold
        · exact .inr hfree
        · exact .inl (decide_eq_true hold)
    · exact .close ..
  | sweep =>
    simp only [next, hphase] at hnext hprogress
    cases hnext
    exact .rephase h.owns hstatus (.inl hprogress)
  | block =>
    simp only [next, hphase] at hnext hprogress
    cases hnext
    exact .rephase h.owns hstatus hprogress
  | count =>
    simp only [next, hphase] at hnext hprogress
    cases hnext
    refine .rephase h.owns hstatus ?_
    cases hany : (tx.view r).jobs.any (·.status.unfinished) with
    | true => simp [Progress, hstatus]
    | false => exact Tx.closes_of_count hany
  | flags =>
    simp only [next, hphase] at hnext hprogress
    cases hnext
    exact .rephase h.owns hstatus ⟨hprogress, Run.finalStatus_terminal _⟩
  | finalize status =>
    simp only [next, hphase] at hnext hprogress
    by_cases hfree : free .run = true
    case neg => rw [if_neg hfree] at hnext; cases hnext
    rw [if_pos hfree] at hnext
    cases hnext
    refine ⟨rfl, ⟨⟨h.owns.locked, h.owns.finished, h.owns.unfinished⟩,
      fun hne => absurd rfl hne, fun status' hstatus' => ?_⟩, fun row hrow => ?_⟩
    · have hsame : r.status.terminal = false ∧ status = status' := by
        simpa using hstatus'
      exact hsame.2 ▸ hprogress
    · cases row with
      | run => exact .inr hfree
      | job name => exact .inl hrow

/-- The jobs have distinct names, and a run that has ended has no job `RUNNING`. -/
structure Sane (r : Run) : Prop where
  names : (r.jobs.map Job.name).Nodup
  idle : r.status.terminal = true → ∀ j ∈ r.jobs, j.status ≠ .running

/-- The transactions hold exclusive locks and are consistent with the committed
rows. -/
abbrev State.Consistent (st : State) : Prop :=
  Schedule.Consistent Tx.locks Sane (fun r tx => tx.Consistent r) st

variable {st st' : State} {i k : Nat}

/-- Two transactions never write the row of one job. -/
theorem State.apart (h : State.Consistent st) (hi : st.txs[i]? = some tx)
    (hk : st.txs[k]? = some tx') (hname : name ∈ tx.jobLocks)
    (hname' : name ∈ tx'.jobLocks) : i = k :=
  h.apart hi hk (k := .job name) (decide_eq_true hname) (decide_eq_true hname')

theorem Tx.Consistent.ended_locked (h : tx.Consistent r)
    (hname : name ∈ tx.ended) : name ∈ tx.jobLocks := by
  obtain ⟨w, hw, rfl⟩ := List.mem_map.1 hname
  exact h.owns.locked w hw

theorem Tx.Consistent.committed_unfinished (h : tx.Consistent r)
    (hj : j ∈ (tx.committed s r).jobs) (hunfinished : j.status.unfinished = true) :
    j ∈ r.jobs ∧ j.name ∉ tx.ended := by
  rw [Tx.committed_jobs] at hj
  rcases Tx.view_cases hj with hold | hwritten
  · exact hold
  · rw [h.owns.finished j hwritten] at hunfinished
    cases hunfinished

theorem Tx.Consistent.committed_sane (h : tx.Consistent r) (hphase : tx.phase = .commit)
    (hr : Sane r) : Sane (tx.committed s r) where
  names := by
    rw [Tx.committed_jobs, Tx.view_names]
    exact hr.names
  idle := by
    intro hterm j hj hrunning
    have hunfinished : j.status.unfinished = true := by rw [hrunning]; rfl
    obtain ⟨hold, hnot⟩ := h.committed_unfinished hj hunfinished
    cases hstatus : tx.status with
    | none =>
      simp only [Tx.committed, hstatus] at hterm
      exact hr.idle hterm j hold hrunning
    | some status =>
      have hprogress := h.progress
      simp only [Tx.Progress, hphase] at hprogress
      exact hnot ((hprogress status hstatus).1 j hold hunfinished)

theorem Tx.next_commit (hphase : tx.phase = .commit) :
    tx.next s free r = some (tx.committed s r, tx.close) := by
  simp only [next, hphase]

/-- **Every step keeps the schedule consistent.** -/
theorem State.consistent_step (h : State.Consistent st) (hstep : st.step s i = some st') :
    State.Consistent st' := by
  refine Schedule.Consistent.step ?_ ?_ h hstep
  · intro free r tx r' tx' hr htx hnext
    by_cases hcommit : tx.phase = .commit
    · rw [Tx.next_commit hcommit] at hnext
      cases hnext
      exact ⟨htx.committed_sane hcommit hr, (Tx.Advance.close free _ tx).consistent,
        (Tx.Advance.close free r tx).locks⟩
    · obtain ⟨hrun, hconsistent, hlocks⟩ := Tx.next_open htx hr.names hcommit hnext
      grind
  · intro free r tx r' tx' ty hr htx hty hapart hnext
    by_cases hcommit : tx.phase = .commit
    · rw [Tx.next_commit hcommit] at hnext
      cases hnext
      -- A commit leaves the rows the others have locked alone, and ends jobs only.
      refine hty.of_kept (fun j hj hlocked => ?_) fun j hj hu => (htx.committed_unfinished hj hu).1
      rw [Tx.committed_jobs]
      refine Tx.mem_view hj fun hended => ?_
      exact hapart (.job j.name) (decide_eq_true (htx.ended_locked hended))
        (decide_eq_true hlocked)
    · have hrun : r' = r := (Tx.next_open htx hr.names hcommit hnext).run
      exact hrun ▸ hty

end Postgres.ReadCommitted
