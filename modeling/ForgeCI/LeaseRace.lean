import ForgeCI.RunInvariants
import ForgeCI.RowLocks

/-!
# Claims racing for the jobs of one run

`LeaseJob` on the jobs of one run as PostgreSQL executes it under
`READ COMMITTED`.  The candidate query and its `count(*)` are evaluated on a
snapshot; then the run and job rows of the candidates are locked in order with
`SKIP LOCKED`, and only a candidate whose rows have changed since the snapshot is
tested again.  A claim on a run that is already `RUNNING` does not write the run
row, so a second claim that took its snapshot before is not tested again and may
lease one job too many.
-/

namespace Postgres

/-- The count of the `RUNNING` jobs of a run in the candidate query. -/
def Run.runningJobs (r : Run) : Nat :=
  r.jobs.countP (·.status = .running)

/-- The pipeline of the run parses and defines all its jobs. -/
def Run.Defined (r : Run) : Prop :=
  ∀ j ∈ r.jobs, ∃ cfg job, parseBytes r.pipelineYAML = .ok cfg ∧ cfg.job? j.name = some job

theorem Run.Built.defined {cfg : Config.Pipeline} {r : Run} (h : r.Built cfg) : r.Defined := by
  intro j hj
  grind [h.parse]

theorem Run.Defined.of_names {r r' : Run} (h : r.Defined) (hyaml : r'.pipelineYAML = r.pipelineYAML)
    (hnames : r'.jobs.map Job.name = r.jobs.map Job.name) : r'.Defined := by
  intro j' hj'
  have hname : j'.name ∈ r.jobs.map Job.name := hnames ▸ List.mem_map_of_mem hj'
  obtain ⟨j, hj, heq⟩ := List.mem_map.1 hname
  rw [hyaml, ← heq]
  exact h j hj

namespace LeaseRace

open RowLocks Traces

inductive Row
  | runner (id : Uuid)
  | run
  | job (name : String)
deriving DecidableEq

/-- The statement a claim executes next. -/
inductive Phase
  /-- `SELECT … FROM runners … FOR UPDATE`. -/
  | runner
  /-- The count of the runner's active jobs. -/
  | active
  /-- The candidate query, on its snapshot. -/
  | select
  /-- The candidates left; the run row of the first is locked next. -/
  | scan (snapshot : Run) (names : List String)
  /-- The job row of a candidate is locked next. -/
  | lockJob (snapshot : Run) (name : String) (rest : List String)
  /-- The `UPDATE` of the job. -/
  | grant (name : String)
  /-- The `UPDATE` of the run. -/
  | start
  | commit
  | done
deriving DecidableEq

/-- A call of `LeaseJob`: its runner and the runner's jobs in other runs, the
locks it holds, the job row it has written and whether it starts the run. -/
structure Claim where
  runner : Runner
  elsewhere : Nat := 0
  lease : Uuid
  now : Time
  phase : Phase := .runner
  locks : List Row := []
  write : Option Job := none
  starts : Bool := false

def Claim.holds (c : Claim) (row : Row) : Bool :=
  row ∈ c.locks

def Claim.close (c : Claim) : Claim :=
  { c with phase := .done, locks := [], write := none, starts := false }

/-- The rows after the commit. -/
def Claim.committed (c : Claim) (r : Run) : Run :=
  let r' := match c.write with
    | none => r
    | some row => r.withJobs (Table.replace Job.name row r.jobs)
  if c.starts then r'.start c.now else r'

/-- The second test of a candidate, on the rows just locked.  Its sub-selects
read the snapshot of the query, or the rows committed by now if `fresh`. -/
def recheck (fresh : Bool) (snapshot r : Run) (docker : Bool) (j : Job) : Bool :=
  let seen := if fresh then r else snapshot
  (r.status = .queued || r.status = .running) && r.cancelRequestedAt.isNone &&
    j.status = .pending && (docker || j.image.isNone) && !seen.waiting j &&
    seen.runningJobs < r.maxParallel

/-- Whether a candidate is taken once its rows are locked: it is tested again
only if its run or job row has changed since the snapshot. -/
def takes (fresh : Bool) (snapshot r : Run) (docker : Bool) (name : String) : Bool :=
  match r.job? name with
  | none => false
  | some j =>
      if r.withJobs snapshot.jobs = snapshot ∧ snapshot.job? name = some j then true
      else recheck fresh snapshot r docker j

/-- The next statement of a claim, or row of the candidate query: the rows then
committed and the claim, or nothing when it waits for a lock. -/
def Claim.next (s : Settings) (fresh : Bool) (free : Row → Bool) (r : Run) (c : Claim) :
    Option (Run × Claim) :=
  match c.phase with
  | .runner =>
      if free (.runner c.runner.id) then
        if c.runner.protocolVersion ≠ 2 ∨ c.runner.status ≠ .online then some (r, c.close)
        else some (r, { c with phase := .active, locks := .runner c.runner.id :: c.locks })
      else none
  | .active =>
      if c.runner.maxParallel ≤ c.elsewhere +
          r.jobs.countP (fun j => j.runnerID = some c.runner.id && j.status = .running) then
        some (r, c.close)
      else some (r, { c with phase := .select })
  | .select =>
      let candidates := r.jobs.filter fun j =>
        r.sourceSnapshotSHA256.isSome && r.claimable c.runner.dockerAvailable j
      some (r, { c with
        phase := .scan r ((candidates.map Job.name).insertionSort
          fun a b => s.collation a b = true) })
  | .scan _ [] => some (r, c.close)
  | .scan snapshot (name :: rest) =>
      if free .run then
        some (r, { c with phase := .lockJob snapshot name rest, locks := .run :: c.locks })
      else some (r, { c with phase := .scan snapshot rest })
  | .lockJob snapshot name rest =>
      if free (.job name) then
        some (r, { c with
          phase := if takes fresh snapshot r c.runner.dockerAvailable name then .grant name
            else .scan snapshot rest
          locks := .job name :: c.locks })
      else some (r, { c with phase := .scan snapshot rest })
  | .grant name =>
      match (parseBytes r.pipelineYAML).toOption.bind (·.job? name), r.job? name with
      | some _, some j =>
          if j.status = .pending then
            some (r, { c with
              phase := .start
              write := some (j.grant c.now c.runner.id c.lease) })
          else some (r, c.close)
      | _, _ => some (r, c.close)
  | .start => some (r, { c with phase := .commit, starts := r.status = .queued })
  | .commit => some (c.committed r, c.close)
  | .done => none

/-- The committed rows of the run and the open claims. -/
abbrev State := Schedule Run Claim

/-- The `i`-th claim takes its next statement. -/
def State.step (s : Settings) (fresh : Bool) (st : State) (i : Nat) : Option State :=
  Schedule.step Claim.holds (Claim.next s fresh) st i

/-- The claims about to start. -/
def State.Initial (st : State) : Prop :=
  ∀ c ∈ st.txs, c.phase = .runner ∧ c.locks = [] ∧ c.write = none ∧ c.starts = false

instance (st : State) : Decidable st.Initial :=
  inferInstanceAs (Decidable (∀ _ ∈ _, _))

/-- A claim that has taken a candidate. -/
def Claim.taken (c : Claim) : Bool :=
  match c.phase with
  | .grant _ | .start | .commit => true
  | _ => false

/-- The step takes the snapshot of its claim. -/
def selects (step : Step State Nat) : Bool :=
  (step.before.txs[step.act]?).any fun c => c.phase = .select

/-- The step commits the lease of its claim. -/
def commits (step : Step State Nat) : Bool :=
  (step.before.txs[step.act]?).any fun c => c.phase = .commit

/-- With the step its claim has a candidate, which it leases next. -/
def secures (step : Step State Nat) : Bool :=
  (step.before.txs[step.act]?).any (fun c => !c.taken) &&
    (step.after.txs[step.act]?).any Claim.taken

/-- A claim of the schedule is overtaken: between its snapshot and its lock on
the job it takes, leases are committed, and as many as its snapshot has free
slots. -/
def Overtaken (tr : List (Step State Nat)) : Prop :=
  ∃ pre query mid lock post, tr = pre ++ query :: (mid ++ lock :: post) ∧
    query.act = lock.act ∧ selects query = true ∧ secures lock = true ∧
    0 < mid.countP commits ∧
    query.before.rows.maxParallel - query.before.rows.runningJobs ≤ mid.countP commits

variable {st₀ st st' : State} {tr : List (Step State Nat)} {s : Settings} {fresh : Bool}
  {free : Row → Bool} {r r' : Run} {c c' : Claim} {i k : Nat} {j : Job}

/-- What is known of a claim by the statement it has come to.  From the lock of
the first candidate it takes to its commit it holds the run row. -/
def Claim.Progress (r : Run) (c : Claim) : Prop :=
  match c.phase with
  | .lockJob _ _ _ => .run ∈ c.locks ∧ c.write = none
  | .grant name => .run ∈ c.locks ∧ c.write = none ∧
      ∃ j ∈ r.jobs, j.name = name ∧ j.status = .pending
  | .start | .commit => .run ∈ c.locks ∧
      ∃ j ∈ r.jobs, j.status = .pending ∧ c.write = some (j.grant c.now c.runner.id c.lease)
  | _ => c.write = none

theorem Claim.Progress.taken_run (h : c.Progress r) (htaken : c.taken = true) :
    .run ∈ c.locks := by
  grind [Progress, taken]

/-- The candidates left were pending in the snapshot. -/
def Claim.Scans (c : Claim) : Prop :=
  match c.phase with
  | .scan snapshot names =>
      ∀ name ∈ names, ∃ j, snapshot.job? name = some j ∧ j.status = .pending
  | .lockJob snapshot name rest =>
      ∀ n ∈ name :: rest, ∃ j, snapshot.job? n = some j ∧ j.status = .pending
  | _ => True

/-- A candidate that is taken is pending. -/
theorem takes_pending {snapshot : Run} {docker : Bool} {name : String}
    (hseen : ∃ j, snapshot.job? name = some j ∧ j.status = .pending)
    (h : takes fresh snapshot r docker name = true) :
    ∃ j ∈ r.jobs, j.name = name ∧ j.status = .pending := by
  unfold takes at h
  cases hj : r.job? name with
  | none => simp [hj] at h
  | some j =>
    obtain ⟨hmem, hname⟩ := Table.row?_some hj
    grind [recheck]

/-- A claim at work. -/
structure Claim.Consistent (r : Run) (c : Claim) : Prop where
  progress : c.Progress r
  scans : c.Scans

/-- One statement other than `COMMIT`: it changes no committed row and locks
free rows only. -/
structure Claim.Advance (free : Row → Bool) (r : Run) (c : Claim) (result : Run × Claim) :
    Prop where
  run : result.1 = r
  consistent : result.2.Consistent r
  locks : ∀ row, result.2.holds row = true → c.holds row = true ∨ free row = true

theorem Claim.close_consistent (r : Run) (c : Claim) : c.close.Consistent r :=
  ⟨rfl, trivial⟩

theorem Claim.close_locks (c : Claim) (row : Row) : c.close.holds row = false := by
  simp [close, holds]

theorem Claim.Advance.close (free : Row → Bool) (r : Run) (c : Claim) :
    c.Advance free r (r, c.close) where
  run := rfl
  consistent := c.close_consistent r
  locks := fun row hrow => by simp [c.close_locks row] at hrow

/-- A statement that takes no lock. -/
theorem Claim.Advance.same (h : c'.Consistent r) (hlocks : c'.locks = c.locks) :
    c.Advance free r (r, c') where
  run := rfl
  consistent := h
  locks := fun row hrow => .inl (by simpa [holds, hlocks] using hrow)

/-- A statement that locks one more row. -/
theorem Claim.Advance.lock {row : Row} (h : c'.Consistent r) (hlocks : c'.locks = row :: c.locks)
    (hfree : free row = true) : c.Advance free r (r, c') where
  run := rfl
  consistent := h
  locks := by
    intro other hother
    simp only [holds, hlocks, List.mem_cons, decide_eq_true_eq] at hother ⊢
    grind

variable {result : Run × Claim}

theorem Claim.Advance.scan {snapshot : Run} {names : List String} (h : c.Consistent r)
    (hphase : c.phase = .scan snapshot names)
    (hnext : c.next s fresh free r = some result) : c.Advance free r result := by
  obtain ⟨hprogress, hscans⟩ := h
  simp only [Progress, hphase] at hprogress
  simp only [Scans, hphase] at hscans
  cases names with
  | nil =>
    simp only [next, hphase] at hnext
    cases hnext
    exact .close ..
  | cons name rest =>
    simp only [next, hphase] at hnext
    split_ifs at hnext with hfree <;> obtain rfl := Option.some.inj hnext
    · exact .lock ⟨⟨List.mem_cons_self, hprogress⟩, hscans⟩ rfl hfree
    · exact .same ⟨hprogress, fun n hn => hscans n (List.mem_cons_of_mem _ hn)⟩ rfl

theorem Claim.Advance.lockJob {snapshot : Run} {name : String} {rest : List String}
    (h : c.Consistent r) (hphase : c.phase = .lockJob snapshot name rest)
    (hnext : c.next s fresh free r = some result) : c.Advance free r result := by
  obtain ⟨hprogress, hscans⟩ := h
  simp only [Progress, hphase] at hprogress
  simp only [Scans, hphase] at hscans
  have hrest : ∀ n ∈ rest, ∃ j, snapshot.job? n = some j ∧ j.status = .pending :=
    fun n hn => hscans n (List.mem_cons_of_mem _ hn)
  simp only [next, hphase] at hnext
  by_cases hfree : free (.job name) = true
  · rw [if_pos hfree] at hnext
    cases hnext
    refine .lock ?_ rfl hfree
    cases htakes : takes fresh snapshot r c.runner.dockerAvailable name with
    | true => exact ⟨⟨List.mem_cons_of_mem _ hprogress.1, hprogress.2,
        takes_pending (hscans name List.mem_cons_self) htakes⟩, trivial⟩
    | false => exact ⟨hprogress.2, hrest⟩
  · rw [if_neg hfree] at hnext
    cases hnext
    exact .same ⟨hprogress.2, hrest⟩ rfl

/-- A candidate that was taken is leased, if the pipeline defines it. -/
theorem Claim.next_grant {name : String} (h : c.Progress r)
    (hnames : (r.jobs.map Job.name).Nodup) (hphase : c.phase = .grant name)
    (hnext : c.next s fresh free r = some result) :
    (result = (r, c.close) ∧ ¬ r.Defined) ∨ ∃ j ∈ r.jobs, j.status = .pending ∧
      result = (r, { c with
        phase := .start
        write := some (j.grant c.now c.runner.id c.lease) }) := by
  simp only [Progress, hphase] at h
  obtain ⟨-, -, j, hj, hname, hpending⟩ := h
  have hrow : r.job? name = some j := (Table.row?_eq_some_iff hnames).2 ⟨hj, hname⟩
  simp only [next, hphase, hrow] at hnext
  split at hnext
  · rename_i k _ heq
    grind
  · rename_i hnone
    refine .inl ⟨(Option.some.inj hnext).symm, fun hdefined => ?_⟩
    obtain ⟨cfg, job, hcfg, hjob⟩ := hdefined j hj
    refine hnone job j ?_ rfl
    rw [hcfg, ← hname]
    exact hjob

/-- Every statement but `COMMIT` is an advance. -/
theorem Claim.next_open (h : c.Consistent r) (hnames : (r.jobs.map Job.name).Nodup)
    (hopen : c.phase ≠ .commit)
    (hnext : c.next s fresh free r = some result) : c.Advance free r result := by
  have hprogress := h.progress
  unfold Progress at hprogress
  cases hphase : c.phase with
  | scan snapshot names => exact .scan h hphase hnext
  | lockJob snapshot name rest => exact .lockJob h hphase hnext
  | commit => exact absurd hphase hopen
  | done => simp [next, hphase] at hnext
  | runner =>
    simp only [next, hphase] at hnext hprogress
    split_ifs at hnext with hfree hrefused <;> obtain rfl := Option.some.inj hnext
    · exact .close ..
    · exact .lock ⟨hprogress, trivial⟩ rfl hfree
  | active =>
    simp only [next, hphase] at hnext hprogress
    split_ifs at hnext <;> obtain rfl := Option.some.inj hnext
    · exact .close ..
    · exact .same ⟨hprogress, trivial⟩ rfl
  | select =>
    simp only [next, hphase] at hnext hprogress
    cases hnext
    refine .same ⟨hprogress, fun name hname => ?_⟩ rfl
    obtain ⟨j, hj, hjname⟩ := List.mem_map.1 ((List.perm_insertionSort _ _).mem_iff.1 hname)
    obtain ⟨hmem, hclaim⟩ := List.mem_filter.1 hj
    simp only [Bool.and_eq_true] at hclaim
    exact ⟨j, (Table.row?_eq_some_iff hnames).2 ⟨hmem, hjname⟩,
      (Run.claimable_iff.1 hclaim.2).2.2.1⟩
  | grant name =>
    simp only [hphase] at hprogress
    rcases Claim.next_grant h.progress hnames hphase hnext with ⟨rfl, -⟩ | ⟨j, hj, hpending, rfl⟩
    · exact .close ..
    · exact .same ⟨⟨hprogress.1, j, hj, hpending, rfl⟩, trivial⟩ rfl
  | start =>
    simp only [next, hphase] at hnext hprogress
    cases hnext
    exact .same ⟨hprogress, trivial⟩ rfl

/-- The snapshot of a claim, and the candidates left of it. -/
def Claim.snapshot? (c : Claim) : Option (Run × List String) :=
  match c.phase with
  | .scan snapshot names => some (snapshot, names)
  | .lockJob snapshot name rest => some (snapshot, name :: rest)
  | _ => none

/-- A statement takes the snapshot, of which it finds candidates only while a
slot is free, or goes on with the candidates of an older one. -/
theorem Claim.next_snapshot {snapshot : Run} {names : List String}
    (hnext : c.next s fresh free r = some (r', c')) (h : c'.snapshot? = some (snapshot, names)) :
    (c.phase = .select ∧ snapshot = r ∧ (names ≠ [] → r.runningJobs < r.maxParallel)) ∨
      ∃ names', c.snapshot? = some (snapshot, names') ∧ names ⊆ names' := by
  cases hphase : c.phase with
  | select =>
    simp only [next, hphase] at hnext
    cases hnext
    cases h
    refine .inl ⟨rfl, rfl, fun hne => ?_⟩
    obtain ⟨name, hname⟩ := List.exists_mem_of_ne_nil _ hne
    obtain ⟨j, hj, -⟩ := List.mem_map.1 ((List.perm_insertionSort _ _).mem_iff.1 hname)
    have hclaim := (List.mem_filter.1 hj).2
    rw [Bool.and_eq_true] at hclaim
    exact (Run.claimable_iff.1 hclaim.2).2.2.2.2.2
  | scan snapshot' names' =>
    refine .inr ⟨names', ?_⟩
    cases names' with
    | nil => grind [next, snapshot?, close]
    | cons name rest => grind [next, snapshot?]
  | lockJob snapshot' name rest => exact .inr ⟨name :: rest, by grind [next, snapshot?]⟩
  | _ => grind [next, snapshot?, close]

/-- The rows a claim commits: one more job `RUNNING`. -/
theorem Claim.Progress.commit (h : c.Progress r) (hphase : c.phase = .commit)
    (hnames : (r.jobs.map Job.name).Nodup) : (c.committed r).runningJobs = r.runningJobs + 1 ∧
      (c.committed r).maxParallel = r.maxParallel ∧ (c.committed r).pipelineYAML = r.pipelineYAML ∧
      (c.committed r).jobs.map Job.name = r.jobs.map Job.name := by
  simp only [Progress, hphase] at h
  obtain ⟨-, j, hj, hpending, hwrite⟩ := h
  have hstart : ∀ r' : Run, (if c.starts then r'.start c.now else r').jobs = r'.jobs ∧
      (if c.starts then r'.start c.now else r').maxParallel = r'.maxParallel ∧
      (if c.starts then r'.start c.now else r').pipelineYAML = r'.pipelineYAML := by
    intro r'
    unfold Run.start
    split_ifs <;> exact ⟨rfl, rfl, rfl⟩
  simp only [Claim.committed, hwrite]
  obtain ⟨hjobs, hmax, hyaml⟩ := hstart
    (r.withJobs (Table.replace Job.name (j.grant c.now c.runner.id c.lease) r.jobs))
  refine ⟨?_, hmax, hyaml, ?_⟩
  · rw [Run.runningJobs, hjobs]
    exact Table.countP_replace hnames hj rfl (by simp [hpending]) (by simp)
  · rw [hjobs]
    refine Table.map_updateWhere fun k hk => ?_
    exact (of_decide_eq_true hk).symm

/-- The claims hold exclusive locks and are consistent with the committed rows. -/
abbrev State.Consistent (st : State) : Prop :=
  Schedule.Consistent Claim.holds (fun r => (r.jobs.map Job.name).Nodup)
    (fun r c => c.Consistent r) st

/-- Only one claim at a time holds the run row. -/
theorem State.apart (h : State.Consistent st) (hi : st.txs[i]? = some c)
    (hk : st.txs[k]? = some c') (hrow : .run ∈ c.locks) (hrow' : .run ∈ c'.locks) : i = k :=
  h.apart hi hk (decide_eq_true hrow) (decide_eq_true hrow')

/-- A claim that does not hold the run row does not depend on its jobs. -/
theorem Claim.Consistent.of_unlocked (h : c.Consistent r) (hrow : .run ∉ c.locks) :
    c.Consistent r' := by
  refine ⟨?_, h.scans⟩
  grind [h.progress, Progress]

theorem Claim.next_commit (hphase : c.phase = .commit) :
    c.next s fresh free r = some (c.committed r, c.close) := by
  simp only [next, hphase]

/-- **Every step keeps the schedule consistent.** -/
theorem State.consistent_step (h : State.Consistent st) (hstep : st.step s fresh i = some st') :
    State.Consistent st' := by
  refine Schedule.Consistent.step ?_ ?_ h hstep
  · intro free r c r' c' hnames hc hnext
    by_cases hcommit : c.phase = .commit
    · rw [Claim.next_commit hcommit] at hnext
      cases hnext
      refine ⟨?_, c.close_consistent _, (Claim.Advance.close free r c).locks⟩
      rw [(hc.progress.commit hcommit hnames).2.2.2]
      exact hnames
    · obtain ⟨hrun, hconsistent, hlocks⟩ := Claim.next_open hc hnames hcommit hnext
      grind
  · intro free r c r' c' d hnames hc hd hapart hnext
    by_cases hcommit : c.phase = .commit
    · -- A claim that commits holds the run row, so the others do not.
      refine hd.of_unlocked fun hrow => hapart .run (decide_eq_true ?_) (decide_eq_true hrow)
      exact hc.progress.taken_run (by simp [Claim.taken, hcommit])
    · have hrun : r' = r := (Claim.next_open hc hnames hcommit hnext).run
      exact hrun ▸ hd

/-- **What a step does to the rows**: it commits what the claim has written, or nothing. -/
theorem State.step_outcome (hc : State.Consistent st) (hstep : st.step s fresh i = some st') :
    ∃ c c' free, st.txs[i]? = some c ∧ st'.txs = st.txs.set i c' ∧
      c.next s fresh free st.rows = some (st'.rows, c') ∧
      (c.phase = .commit ∧ st'.rows = c.committed st.rows ∧ c' = c.close ∨
        c.phase ≠ .commit ∧ st'.rows = st.rows) := by
  obtain ⟨c, c', hi, hclaims, hnext⟩ := Schedule.step_cases hstep
  refine ⟨c, c', _, hi, hclaims, hnext, ?_⟩
  by_cases hcommit : c.phase = .commit
  · rw [Claim.next_commit hcommit] at hnext
    obtain ⟨hrun, hclose⟩ := Prod.mk.inj (Option.some.inj hnext)
    exact .inl ⟨hcommit, hrun.symm, hclose.symm⟩
  · exact .inr ⟨hcommit, (Claim.next_open (hc.fits i c hi) hc.good hcommit hnext).run⟩

/-- The limit of the run is kept. -/
def State.Within (st : State) : Prop :=
  st.rows.runningJobs ≤ st.rows.maxParallel

instance (st : State) : Decidable st.Within :=
  inferInstanceAs (Decidable (_ ≤ _))

/-- The claims that have taken a candidate leave the limit kept. -/
def State.Spare (st : State) : Prop :=
  ∀ (i : Nat) (c : Claim), st.txs[i]? = some c → c.taken = true →
    st.rows.runningJobs < st.rows.maxParallel

/-- A claim takes a candidate when it locks the job row. -/
theorem Claim.next_taken (hnext : c.next s fresh free r = some (r', c'))
    (htaken : c'.taken = true) (hopen : c.taken = false) :
    ∃ snapshot name rest, c.phase = .lockJob snapshot name rest := by
  cases hphase : c.phase with
  | lockJob snapshot name rest => exact ⟨snapshot, name, rest, rfl⟩
  | scan snapshot names => cases names <;> grind [next, taken, close]
  | _ => grind [next, taken, close]

/-- **A step keeps the limit** unless it secures a candidate when no slot is
free. -/
theorem State.Within.step (hc : State.Consistent st) (h : st.Within) (hspare : st.Spare)
    (hstep : st.step s fresh i = some st')
    (hguard : secures ⟨st, i, st'⟩ = true → st.rows.runningJobs < st.rows.maxParallel) :
    st'.Within ∧ st'.Spare := by
  obtain ⟨c, c', -, hi, hclaims, -, ⟨hcommit, hrun, rfl⟩ | ⟨-, hrun⟩⟩ :=
    State.step_outcome hc hstep
  · have hprogress := (hc.fits i c hi).progress
    have htaken : c.taken = true := by simp [Claim.taken, hcommit]
    obtain ⟨hcount, hmax, -⟩ := hprogress.commit hcommit hc.good
    refine ⟨?_, fun k d hk hd => ?_⟩
    · rw [Within, hrun, hcount, hmax]
      exact hspare i c hi htaken
    · rw [hclaims] at hk
      rcases getElem?_set_cases hk with ⟨-, rfl⟩ | ⟨hne, hk⟩
      · simp [Claim.taken, Claim.close] at hd
      · exact absurd (State.apart hc hk hi ((hc.fits k d hk).progress.taken_run hd)
          (hprogress.taken_run htaken)) hne
  · refine ⟨by rw [Within, hrun]; exact h, fun k d hk hd => ?_⟩
    rw [hrun]
    rw [hclaims] at hk
    rcases getElem?_set_cases hk with ⟨-, rfl⟩ | ⟨-, hk⟩
    · cases htaken : c.taken with
      | true => exact hspare i c hi htaken
      | false => exact hguard (by simp [secures, hi, hclaims, getElem?_set_new hi, htaken, hd])
    · exact hspare k d hk hd

/-- A claim has taken a candidate although the limit has been reached. -/
def State.Doomed (st : State) : Prop :=
  ∃ (i : Nat) (c : Claim), st.txs[i]? = some c ∧ c.taken = true ∧
    st.rows.maxParallel ≤ st.rows.runningJobs

theorem State.doomed_of_secures (hc : State.Consistent st) (hstep : st.step s fresh i = some st')
    (hsecures : secures ⟨st, i, st'⟩ = true) (hfull : st.rows.maxParallel ≤ st.rows.runningJobs) :
    st'.Doomed := by
  obtain ⟨c, c', -, hi, hclaims, -, hrun⟩ := State.step_outcome hc hstep
  have hafter : st'.txs[i]? = some c' := by rw [hclaims, getElem?_set_new hi]
  simp only [secures, hi, hafter, Option.any_some, Bool.and_eq_true, Bool.not_eq_true'] at hsecures
  refine ⟨i, c', hafter, hsecures.2, ?_⟩
  rcases hrun with ⟨hphase, -⟩ | ⟨-, hrun⟩
  · simp [Claim.taken, hphase] at hsecures
  · rwa [hrun]

/-- What has been taken is committed: a doomed schedule stays doomed until the
limit is broken. -/
theorem State.Doomed.step (h : st.Doomed) (hc : State.Consistent st) (hdefined : st.rows.Defined)
    (hstep : st.step s fresh i = some st') : st'.Doomed ∨ ¬ st'.Within := by
  obtain ⟨k, d, hk, htaken, hfull⟩ := h
  obtain ⟨c, c', free, hi, hclaims, hnext, ⟨hcommit, hrun, -⟩ | ⟨hcommit, hrun⟩⟩ :=
    State.step_outcome hc hstep
  · obtain ⟨hcount, hmax, -⟩ := (hc.fits i c hi).progress.commit hcommit hc.good
    grind [Within]
  · refine .inl ?_
    by_cases hki : k = i
    · subst hki
      obtain rfl := Option.some.inj (hi.symm.trans hk)
      refine ⟨k, c', by rw [hclaims, getElem?_set_new hi], ?_, by rw [hrun]; exact hfull⟩
      cases hphase : c.phase <;> simp only [Claim.taken, hphase] at htaken
      case commit => exact absurd hphase hcommit
      case start =>
        simp only [Claim.next, hphase] at hnext
        obtain ⟨-, rfl⟩ := Prod.mk.inj (Option.some.inj hnext)
        rfl
      case grant name =>
        rcases Claim.next_grant (hc.fits k c hi).progress hc.good hphase hnext with
          ⟨-, hnot⟩ | ⟨j, -, -, heq⟩
        · exact absurd hdefined hnot
        · rw [(Prod.mk.inj heq).2]
          rfl
      all_goals cases htaken
    · exact ⟨k, d, by rw [hclaims, getElem?_set_old hki]; exact hk, htaken,
        by rw [hrun]; exact hfull⟩

theorem State.step_defined (hc : State.Consistent st) (hdefined : st.rows.Defined)
    (hstep : st.step s fresh i = some st') : st'.rows.Defined := by
  obtain ⟨c, -, -, hi, -, -, ⟨hcommit, hrun, -⟩ | ⟨-, hrun⟩⟩ := State.step_outcome hc hstep
  · obtain ⟨-, -, hyaml, hnames⟩ := (hc.fits i c hi).progress.commit hcommit hc.good
    exact hrun ▸ hdefined.of_names hyaml hnames
  · exact hrun ▸ hdefined

/-- One more job is `RUNNING` after a commit, and as many after any other step. -/
theorem State.step_running (hc : State.Consistent st) (hstep : st.step s fresh i = some st') :
    st'.rows.runningJobs = st.rows.runningJobs + (if commits ⟨st, i, st'⟩ then 1 else 0) ∧
      st'.rows.maxParallel = st.rows.maxParallel := by
  obtain ⟨c, -, -, hi, -, -, ⟨hcommit, hrun, -⟩ | ⟨hcommit, hrun⟩⟩ := State.step_outcome hc hstep
  · obtain ⟨hcount, hmax, -⟩ := (hc.fits i c hi).progress.commit hcommit hc.good
    simp [hrun, hcount, hmax, commits, hi, hcommit]
  · simp [hrun, commits, hi, hcommit]

/-- **The `RUNNING` jobs of a run** are those at the start of a schedule and one
for each commit. -/
theorem State.runs_running (hc : State.Consistent st)
    (h : Trace (fun st i st' => st.step s fresh i = some st') st tr st') :
    st'.rows.runningJobs = st.rows.runningJobs + tr.countP commits ∧
      st'.rows.maxParallel = st.rows.maxParallel := by
  induction h with
  | nil => exact ⟨rfl, rfl⟩
  | snoc run hstep ih =>
    have hc' := run.final_invariant State.Consistent hc fun _ _ _ => State.consistent_step
    obtain ⟨hcount, hmax⟩ := State.step_running hc' hstep
    rw [hcount, hmax, ih.1, ih.2, List.countP_append, List.countP_singleton, Nat.add_assoc]
    exact ⟨rfl, rfl⟩

/-- The jobs that have come to run since the step of a candidate query. -/
theorem State.running_since {query : Step State Nat} {mid : List (Step State Nat)}
    (hc : State.Consistent query.before)
    (hquery : query.before.step s fresh query.act = some query.after)
    (h : Trace (fun st i st' => st.step s fresh i = some st') query.after mid st)
    (hselects : selects query = true) :
    st.rows.runningJobs = query.before.rows.runningJobs + mid.countP commits ∧
      st.rows.maxParallel = query.before.rows.maxParallel := by
  have hnot : commits query = false := by
    obtain ⟨c, hi, hphase⟩ := (Option.any_eq_true _ _).1 hselects
    rw [commits, hi, Option.any_some, of_decide_eq_true hphase]
    rfl
  have hcount := State.runs_running hc (Trace.cons hquery h)
  rwa [List.countP_cons_of_neg (by simpa using hnot)] at hcount

/-- **Where a snapshot comes from.**  Behind a claim with candidates left is the
step of its candidate query, and there a slot was free. -/
theorem State.snapshot_behind (hinit : st₀.Initial)
    (h : Trace (fun st i st' => st.step s fresh i = some st') st₀ tr st)
    {snapshot : Run} {names : List String} (hi : st.txs[i]? = some c)
    (hsnapshot : c.snapshot? = some (snapshot, names)) :
    ∃ pre query mid, tr = pre ++ query :: mid ∧ query.act = i ∧ selects query = true ∧
      query.before.rows = snapshot ∧
      (names ≠ [] → snapshot.runningJobs < snapshot.maxParallel) := by
  induction h generalizing c names with
  | nil => simp [Claim.snapshot?, (hinit c (List.mem_of_getElem? hi)).1] at hsnapshot
  | @snoc tr st st' k run hstep ih =>
    obtain ⟨d, d', hk, hclaims, hnext⟩ := Schedule.step_cases hstep
    -- An older query stays behind the claim.
    have hold : ∀ {c₀ names₀}, st.txs[i]? = some c₀ → c₀.snapshot? = some (snapshot, names₀) →
        names ⊆ names₀ → ∃ pre query mid, tr ++ [⟨st, k, st'⟩] = pre ++ query :: mid ∧
          query.act = i ∧ selects query = true ∧ query.before.rows = snapshot ∧
          (names ≠ [] → snapshot.runningJobs < snapshot.maxParallel) := by
      intro c₀ names₀ hi₀ hsnapshot₀ hsub
      obtain ⟨pre, query, mid, rfl, hact, hselects, hrows, hfree⟩ := ih hi₀ hsnapshot₀
      refine ⟨pre, query, mid ++ [⟨st, k, st'⟩], by simp, hact, hselects, hrows, fun hne => ?_⟩
      exact hfree fun hnil => hne (List.subset_nil.1 (hnil ▸ hsub))
    rw [hclaims] at hi
    rcases getElem?_set_cases hi with ⟨rfl, rfl⟩ | ⟨-, hi⟩
    · rcases Claim.next_snapshot hnext hsnapshot with ⟨hphase, rfl, hfree⟩ | ⟨names', hbefore, hsub⟩
      · exact ⟨tr, ⟨st, i, st'⟩, [], rfl, rfl, by simp [selects, hk, hphase], rfl, hfree⟩
      · exact hold hk hbefore hsub
    · exact hold hi hsnapshot (List.Subset.refl _)

theorem State.Initial.consistent (h : st.Initial) (hnames : (st.rows.jobs.map Job.name).Nodup) :
    st.Consistent ∧ st.Spare := by
  refine ⟨⟨hnames, ?_, ?_⟩, ?_⟩
  · intro i k c d row hi _ hrow _
    simp [Claim.holds, (h c (List.mem_of_getElem? hi)).2.1] at hrow
  · intro i c hi
    obtain ⟨hphase, -, hwrite, -⟩ := h c (List.mem_of_getElem? hi)
    constructor
    · simp only [Claim.Progress, hphase]
      exact hwrite
    · simp only [Claim.Scans, hphase]
  · intro i c hi htaken
    simp [Claim.taken, (h c (List.mem_of_getElem? hi)).1] at htaken

/-- An overtaken claim secures a candidate when no slot is free any more. -/
theorem Overtaken.full (hc : State.Consistent st₀)
    (h : Trace (fun st i st' => st.step s fresh i = some st') st₀ tr st) (hover : Overtaken tr) :
    ∃ step ∈ tr, secures step = true ∧
      step.before.rows.maxParallel ≤ step.before.rows.runningJobs := by
  obtain ⟨pre, query, mid, lock, post, rfl, -, hselects, hsecures, -, hslots⟩ := hover
  obtain ⟨hpre, hquery, hmid, hlock⟩ := h.split_two
  have hc' := hpre.final_invariant State.Consistent hc fun _ _ _ => State.consistent_step
  obtain ⟨hcount, hmax⟩ := State.running_since hc' hquery hmid hselects
  exact ⟨lock, by simp, hsecures, by omega⟩

/-- A claim that secures a candidate has a snapshot by which a slot was free; if
none is free any more, the claim is overtaken. -/
theorem overtaken_of_full (hinit : st₀.Initial)
    (hc : State.Consistent st₀)
    (h : Trace (fun st i st' => st.step s fresh i = some st') st₀ tr st) {step : Step State Nat}
    (hmem : step ∈ tr) (hsecures : secures step = true)
    (hfull : step.before.rows.maxParallel ≤ step.before.rows.runningJobs) : Overtaken tr := by
  obtain ⟨pre', post, rfl⟩ := List.append_of_mem hmem
  obtain ⟨hpre', hlock, -⟩ := h.split
  obtain ⟨c, c', hi, hclaims, hnext⟩ := Schedule.step_cases hlock
  obtain ⟨snapshot, name, rest, hphase⟩ : ∃ snapshot name rest, c.phase = .lockJob snapshot name
      rest := by
    simp only [secures, hi, hclaims, getElem?_set_new hi, Option.any_some, Bool.and_eq_true,
      Bool.not_eq_true'] at hsecures
    exact Claim.next_taken hnext hsecures.2 hsecures.1
  obtain ⟨pre, query, mid, rfl, hact, hselects, hrows, hfree⟩ :=
    State.snapshot_behind hinit hpre' hi
      (show c.snapshot? = some (snapshot, name :: rest) by simp [Claim.snapshot?, hphase])
  have hslot := hfree (List.cons_ne_nil _ _)
  obtain ⟨hpre, hquery, hmid⟩ := hpre'.split
  have hc' := hpre.final_invariant State.Consistent hc fun _ _ _ => State.consistent_step
  obtain ⟨hcount, hmax⟩ := State.running_since hc' hquery hmid hselects
  rw [← hrows] at hslot
  exact ⟨pre, query, mid, step, post, by simp, hact, hselects, hsecures, by omega, by omega⟩

/-- **The parallelism limit.**  Let any number of `LeaseJob` calls take their
statements on a run in any order until all have ended.  The run never has more
`RUNNING` jobs than `max_parallel` exactly when no claim is overtaken: if other
claims commit leases between the snapshot of a claim and its lock on the job it
takes, they are fewer than the free slots that its `count(*)` has seen. -/
theorem within_limit_iff (hinit : st₀.Initial)
    (hnames : (st₀.rows.jobs.map Job.name).Nodup) (hdefined : st₀.rows.Defined)
    (hlimit : st₀.Within)
    (h : Trace (fun st i st' => st.step s fresh i = some st') st₀ tr st)
    (hdone : ∀ c ∈ st.txs, c.phase = .done) :
    (∀ step ∈ tr, step.after.Within) ↔ ¬ Overtaken tr := by
  obtain ⟨hconsistent, hspare⟩ := hinit.consistent hnames
  constructor
  · intro hwithin hovertaken
    obtain ⟨step, hstep, hsecures, hfull⟩ := hovertaken.full hconsistent h
    obtain ⟨pre, post, rfl⟩ := List.append_of_mem hstep
    obtain ⟨hpre, hnext, hpost⟩ := h.split
    obtain ⟨hc, hd⟩ := hpre.final_invariant (fun st => State.Consistent st ∧ st.rows.Defined)
      ⟨hconsistent, hdefined⟩
      fun _ _ _ hst hs => ⟨State.consistent_step hst.1 hs, State.step_defined hst.1 hst.2 hs⟩
    -- From here on a claim holds a candidate it should not have, until it commits it.
    have hend := (hpost.guarded (fun st => State.Consistent st ∧ st.rows.Defined ∧ st.Doomed)
      (fun st i => ∀ st', st.step s fresh i = some st' → st'.Within)
      ⟨State.consistent_step hc hnext, State.step_defined hc hd hnext,
        State.doomed_of_secures hc hnext hsecures hfull⟩
      (fun _ _ _ hst hw hs => ⟨State.consistent_step hst.1 hs, State.step_defined hst.1 hst.2.1 hs,
        (hst.2.2.step hst.1 hst.2.1 hs).resolve_right (not_not.2 (hw _ hs))⟩) ?_).1
    · obtain ⟨k, d, hk, htaken, -⟩ := hend.2.2
      simp [Claim.taken, hdone d (List.mem_of_getElem? hk)] at htaken
    · intro later hlater st' hs
      obtain ⟨-, -, hnext'⟩ := hpost.step_of_mem hlater
      rw [← Option.some.inj (hnext'.symm.trans hs)]
      exact hwithin later (by simp [hlater])
  · intro hnone step hstep
    refine ((h.guarded (fun st => State.Consistent st ∧ st.Within ∧ st.Spare)
      (fun st i => ∀ st', st.step s fresh i = some st' → secures ⟨st, i, st'⟩ = true →
        st.rows.runningJobs < st.rows.maxParallel) ⟨hconsistent, hlimit, hspare⟩
      (fun _ _ _ hst hguard hs =>
        ⟨State.consistent_step hst.1 hs, hst.2.1.step hst.1 hst.2.2 hs (hguard _ hs)⟩)
      ?_).2 step hstep).2.2.1
    intro step hstep st' hs hsecures
    obtain ⟨-, -, hnext⟩ := h.step_of_mem hstep
    obtain rfl := Option.some.inj (hnext.symm.trans hs)
    by_contra hfull
    exact hnone (overtaken_of_full hinit hconsistent h hstep hsecures (not_lt.1 hfull))

/-- **What a step does to the jobs**: nothing, or it grants one `PENDING` job. -/
theorem State.step_jobs (hc : State.Consistent st) (hstep : st.step s fresh i = some st') :
    st'.rows.jobs = st.rows.jobs ∨ ∃ c j, st.txs[i]? = some c ∧ j ∈ st.rows.jobs ∧
      j.status = .pending ∧ st'.rows.jobs =
        Table.replace Job.name (j.grant c.now c.runner.id c.lease) st.rows.jobs := by
  obtain ⟨c, -, -, hi, -, -, ⟨hcommit, hrun, -⟩ | ⟨-, hrun⟩⟩ := State.step_outcome hc hstep
  · have hprogress := (hc.fits i c hi).progress
    simp only [Claim.Progress, hcommit] at hprogress
    obtain ⟨-, j, hj, hpending, hwrite⟩ := hprogress
    refine .inr ⟨c, j, hi, hj, hpending, ?_⟩
    rw [hrun, Claim.committed, hwrite]
    unfold Run.start
    split_ifs <;> rfl
  · exact .inl (congrArg Run.jobs hrun)

/-- A job that is no longer `PENDING` keeps its row. -/
theorem State.step_keeps (hc : State.Consistent st) (hstep : st.step s fresh i = some st')
    {j : Job} (hleased : j.status ≠ .pending) (hj : j ∈ st.rows.jobs) : j ∈ st'.rows.jobs := by
  rcases State.step_jobs hc hstep with heq | ⟨c, k, -, hk, hpending, heq⟩
  · exact heq ▸ hj
  · refine heq ▸ Table.mem_updateWhere.2 ⟨j, hj, if_neg fun hname => ?_⟩
    obtain rfl := List.inj_on_of_nodup_map hc.good hj hk (of_decide_eq_true hname)
    exact hleased hpending

/-- **No lease is granted twice.**  Whatever the order of the statements, and
whether or not the limit is kept, a step that changes a job grants one `PENDING`
job to the claim that takes it, and that lease stands to the end: no other claim
takes the job, no commit loses or rewrites the row. -/
theorem lease_granted_once (hinit : st₀.Initial)
    (hnames : (st₀.rows.jobs.map Job.name).Nodup)
    (h : Trace (fun st i st' => st.step s fresh i = some st') st₀ tr st) :
    ∀ step ∈ tr, (∀ j ∈ step.before.rows.jobs, j.status ≠ .pending → j ∈ st.rows.jobs) ∧
      (step.after.rows.jobs = step.before.rows.jobs ∨
        ∃ c j, step.before.txs[step.act]? = some c ∧ j ∈ step.before.rows.jobs ∧
          j.status = .pending ∧ j.grant c.now c.runner.id c.lease ∈ st.rows.jobs ∧
          step.after.rows.jobs =
            Table.replace Job.name (j.grant c.now c.runner.id c.lease) step.before.rows.jobs) := by
  intro step hmem
  have hc₀ := (hinit.consistent hnames).1
  have hc := (h.invariant State.Consistent hc₀ (fun _ _ _ => State.consistent_step) step hmem).1
  obtain ⟨-, -, hnext⟩ := h.step_of_mem hmem
  have hstays : ∀ j, j.status ≠ .pending → j ∈ step.after.rows.jobs → j ∈ st.rows.jobs :=
    fun j hleased => h.kept State.Consistent (j ∈ ·.rows.jobs) hc₀
      (fun _ _ _ => State.consistent_step) (fun _ _ _ hc hs => State.step_keeps hc hs hleased) hmem
  refine ⟨fun j hj hleased => hstays j hleased (State.step_keeps hc hnext hleased hj),
    (State.step_jobs hc hnext).imp_right ?_⟩
  rintro ⟨c, j, hi, hj, hpending, hjobs⟩
  refine ⟨c, j, hi, hj, hpending, hstays _ (by simp) ?_, hjobs⟩
  exact hjobs ▸ Table.mem_updateWhere.2 ⟨j, hj, by simp⟩

/-! ## An instance

A run of three independent jobs may have two of them running at a time.  One is
leased; then two runners claim at once. -/

namespace Sample

open Postgres.Sample

def triple : Config.Pipeline where
  version := 1
  jobs := [("build", build), ("lint", build), ("test", build)]
  jobs_nodup := by decide

def tripleGraph : Pipeline.Graph where
  nodes := [("build", ⟨"build", build, [], []⟩), ("lint", ⟨"lint", build, [], []⟩),
    ("test", ⟨"test", build, [], []⟩)]
  order := ["build", "lint", "test"]

def leaseOne : List Request :=
  [⟨0, .createRun (submission 1 triple tripleGraph 2 (some snapshot))⟩,
    ⟨1, .registerRunner runner⟩, ⟨2, .leaseJob 7 100⟩]

theorem leaseOne_accepted : ∀ q ∈ leaseOne, q.Accepted := by
  intro q hq input hinput
  simp only [leaseOne, List.mem_cons, List.not_mem_nil, or_false] at hq
  rcases hq with rfl | rfl | rfl
  · cases hinput
    exact ⟨triple, by decide, tripleGraph, by decide, rfl⟩
  all_goals cases hinput

def oneRunning : Run :=
  (Database.empty.after settings leaseOne).runs.head (by decide)

def initial : State where
  rows := oneRunning
  txs := [{ runner := { runner with id := 8 }, lease := 101, now := 3 },
    { runner := { runner with id := 9 }, lease := 102, now := 3 }]

/-- The second runner takes its snapshot before the first commits. -/
def crossing : List Nat := [0, 0, 0, 1, 1, 1, 0, 0, 0, 0, 0, 1, 1, 1, 1, 1, 1, 1]

theorem oneRunning_mem : oneRunning ∈ (Database.empty.after settings leaseOne).runs :=
  List.head_mem _

theorem oneRunning_scheduled : oneRunning.Scheduled :=
  (Reaches.scheduled (Database.record_trace settings .empty leaseOne)
    (fun _ hst => leaseOne_accepted _ (Database.act_mem_of_record hst)) oneRunning
    oneRunning_mem).1

/-- Whether the sub-selects of a second test are fresh or not, three jobs end up
running. -/
theorem crossing_outcome (fresh : Bool) :
    ∃ st, crossing.foldlM (State.step settings fresh) initial = some st ∧
      (∀ c ∈ st.txs, c.phase = .done) ∧ ¬ st.Within := by
  have h : (crossing.foldlM (State.step settings fresh) initial).any (fun st =>
      decide ((∀ c ∈ st.txs, c.phase = .done) ∧ ¬ st.Within)) = true := by
    cases fresh <;> decide
  obtain ⟨st, hst, hover⟩ := (Option.any_eq_true _ _).1 h
  exact ⟨st, hst, of_decide_eq_true hover⟩

end Sample

/-- Two runners that take their snapshots before either commits lease more jobs
than the run may have running, whatever a second test would read. -/
theorem crossing_claims_exceed_limit :
    ¬ ∃ fresh : Bool, ∀ (s : Settings) (past : List (Step Database Request)) (db : Database),
      Reaches s past db → (∀ st ∈ past, st.act.Accepted) →
      ∀ st₀ : State, st₀.rows ∈ db.runs → st₀.Initial → st₀.Within →
        (st₀.txs.map fun c => c.runner.id).Nodup →
      ∀ (tr : List (Step State Nat)) (st : State),
        Trace (fun st i st' => st.step s fresh i = some st') st₀ tr st → st.Within := by
  rintro ⟨fresh, hall⟩
  obtain ⟨st, hst, -, hover⟩ := Sample.crossing_outcome fresh
  obtain ⟨tr, htr, -⟩ := Trace.of_foldlM hst
  exact hover (hall Postgres.Sample.settings _ _
    (Database.record_trace Postgres.Sample.settings .empty Sample.leaseOne)
    (fun _ hst => Sample.leaseOne_accepted _ (Database.act_mem_of_record hst))
    Sample.initial Sample.oneRunning_mem (by decide) (by decide) (by decide) tr st htr)

/-- In that schedule the second claim is overtaken by the first. -/
theorem crossing_claim_overtaken : ∃ (tr : List (Step State Nat)) (st : State),
      Trace (fun st i st' => st.step Postgres.Sample.settings false i = some st')
        Sample.initial tr st ∧ (∀ c ∈ st.txs, c.phase = .done) ∧ Overtaken tr := by
  obtain ⟨st, hst, hdone, hover⟩ := Sample.crossing_outcome false
  obtain ⟨tr, htr, -⟩ := Trace.of_foldlM hst
  refine ⟨tr, st, htr, hdone, ?_⟩
  obtain ⟨cfg, hcfg⟩ := Sample.oneRunning_scheduled.built
  have hiff := within_limit_iff (by decide : Sample.initial.Initial) hcfg.names_nodup hcfg.defined
    (by decide) htr hdone
  by_contra hnone
  rcases htr.final_after with rfl | ⟨step, hstep, rfl⟩
  · exact hover (by decide)
  · exact hover (hiff.2 hnone step hstep)

/-- In that schedule the two leases both stand, one over the limit. -/
theorem crossing_leases_stand : ∃ (tr : List (Step State Nat)) (st : State),
      Trace (fun st i st' => st.step Postgres.Sample.settings true i = some st')
        Sample.initial tr st ∧ ¬ st.Within ∧
      ∀ step ∈ tr, ∀ j ∈ step.before.rows.jobs, j.status ≠ .pending → j ∈ st.rows.jobs := by
  obtain ⟨st, hst, -, hover⟩ := Sample.crossing_outcome true
  obtain ⟨tr, htr, -⟩ := Trace.of_foldlM hst
  exact ⟨tr, st, htr, hover, fun step hstep =>
    (lease_granted_once (by decide) (by decide) htr step hstep).1⟩

end LeaseRace

end Postgres
