import ForgeCI.LocalLoop
import ForgeCI.LocalStore

/-!
# In-process execution

`Manager` in local execution mode: the goroutine of `dispatch`, which claims a run and takes
it through `execute`, the scheduler inside it, whose observer writes every new state of a job
to the store, and any number of API requests in `Cancel`.  Each call of the store is one
step, and so is each stretch of the scheduler between two calls of its observer.

The store guards the status of a run and not the statuses of its jobs.  That a run which has
ended is left alone therefore rests on the order of the steps.
-/

namespace Manager

open Postgres Traces Pipeline
open Runner (Execution Completion State observations)

/-- `store.JobStatus(newState)`. -/
def jobStatus : State → JobStatus
  | .pending => .pending
  | .running => .running
  | .passed => .passed
  | .failed => .failed
  | .blocked => .blocked
  | .canceled => .canceled

/-- Where `dispatch` stands.  From `setup` on the context of `execute` is registered; in
`running` the states still to be written are listed, and the first error of the observer. -/
inductive Phase where
  | idle
  | claimed (record : Run)
  | setup (record : Run) (canceled : Bool)
  | running (record : Run) (g : Graph) (e : Execution) (observing : List (String × State))
      (observerErr : Option String)
  | marking (id : Uuid) (names : List String)
  | finishing (id : Uuid) (status : RunStatus) (message : Option String)

/-- The run in hand. -/
def Phase.runID : Phase → Option Uuid
  | .idle => none
  | .claimed record | .setup record _ | .running record _ _ _ _ => some record.id
  | .marking id _ | .finishing id _ _ => some id

/-- The states that the scheduler has assigned and the observer has not written. -/
def Phase.observing : Phase → List (String × State)
  | .running _ _ _ observing _ => observing
  | _ => []

/-- `ctx.Err() != nil` in `execute`. -/
def Phase.contextDone : Phase → Bool
  | .setup _ canceled => canceled
  | .running _ _ e _ _ => e.contextDone
  | _ => false

/-- Cancel the context of `execute`; after `Run` nothing looks at it. -/
def Phase.cancel : Phase → Phase
  | .setup record _ => .setup record true
  | .running record g e observing err =>
      .running record g { e with contextDone := true } observing err
  | p => p

/-- `m.activeID == id && m.activeCancel != nil`. -/
def Phase.active (id : Uuid) : Phase → Bool
  | .idle | .claimed _ => false
  | p => p.runID = some id

/-- Where a request in `Cancel` stands: after `GetRun`, and before `activeCancel`. -/
inductive CancelPhase where
  | idle
  | queued (id : Uuid)
  | running (id : Uuid)
  | signal (id : Uuid)
deriving DecidableEq

structure System where
  db : Database := .empty
  phase : Phase := .idle
  /-- `m.ctx.Err() != nil`. -/
  closed : Bool := false
  cancels : Nat → CancelPhase := fun _ => .idle

inductive Action where
  | submit (id : Uuid) (cfg : Config.Pipeline) (g : Graph) (maxParallel : Nat)
      (snapshot : SourceSnapshot) (now : Time)
  /-- `ClaimNextQueuedRun`, of which the reply may be lost. -/
  | claim (now : Time) (lost : Bool)
  /-- Create and register the context of `execute`. -/
  | register
  /-- What `execute` prepares before `Run`, or the text of the error it meets. -/
  | setup (failure : Option String)
  /-- The steps of `Runner.Run`. -/
  | turn
  | contextDone
  | receive (c : Completion)
  /-- `OnJobState`: a call of `UpdateJob`, which may not be executed or whose reply may be lost, and
  the text of its error if there is one. -/
  | observe (now : Time) (unsent lost : Bool) (text : String)
  /-- `Run` returns; `names` are the failed jobs in the order of the range over the map. -/
  | leave (names : List String)
  | mark (now : Time) (unsent : Bool)
  | finish (now : Time) (unsent : Bool)
  /-- A worker publishes the artifacts of its job. -/
  | commitArtifacts (name : String) (items : List Artifact) (now : Time)
  | expireArtifacts (now : Time)
  /-- The steps of the request `k` in `Cancel`. -/
  | getRun (k : Nat) (id : Uuid)
  | cancelQueued (k : Nat) (now : Time)
  | requestCancel (k : Nat) (now : Time)
  | signal (k : Nat)
  /-- `Close`. -/
  | close

def System.serve (s : Settings) (now : Time) (call : Call) (sys : System) : System :=
  { sys with db := (sys.db.serve s ⟨now, call⟩).1 }

def System.serveLocal (s : Settings) (now : Time) (call : LocalCall) (sys : System) : System :=
  { sys with db := (sys.db.serveLocal s now call).1 }

def System.setCancel (k : Nat) (p : CancelPhase) (sys : System) : System :=
  { sys with cancels := Function.update sys.cancels k p }

/-- The text `execute` stores when a job failed for a reason of its own. -/
def infrastructureFailure : String := "job infrastructure failure"

/-- The loop of `execute` over the failed jobs, and then `FinishRun`. -/
def Phase.afterMarking (id : Uuid) : List String → Phase
  | [] => .finishing id .error (some infrastructureFailure)
  | names => .marking id names

/-- The names of the failed jobs. -/
def failedNames (e : Execution) : List String :=
  (e.loop.result.states.entries.filter fun entry => entry.2 = .failed).map Sigma.fst

/-- What `execute` does with the result of `Run`. -/
def Phase.afterRun (id : Uuid) (e : Execution) (names : List String) : Option String → Phase
  | some text => .finishing id .error (some text)
  | none =>
      if e.loop.result.internalError then .afterMarking id names
      else if e.loop.result.interrupted then .finishing id .canceled none
      else if e.loop.result.succeeded then .finishing id .passed none
      else .finishing id .failed none

/-- The statuses `executeJob` returns. -/
def reported : State → Bool
  | .passed | .failed | .canceled => true
  | _ => false

/-- **One step.** -/
def step (s : Settings) (sys : System) : Action → Option System
  | .submit id cfg g maxParallel snapshot now =>
      if Config.validate cfg = .ok () ∧ Pipeline.compile cfg = .ok g then
        some (sys.serve s now (.createRun (submission id cfg g maxParallel (some snapshot))))
      else none
  | .claim now lost =>
      match sys.phase with
      | .idle =>
          if sys.closed then none
          else match (sys.db.serveLocal s now .claimNextQueuedRun).2 with
            | .ok (some record) =>
                some { sys.serveLocal s now .claimNextQueuedRun with
                  phase := if lost then .idle else .claimed record }
            | _ => some (sys.serveLocal s now .claimNextQueuedRun)
      | _ => none
  | .register =>
      match sys.phase with
      | .claimed record => some { sys with phase := .setup record sys.closed }
      | _ => none
  | .setup failure =>
      match sys.phase with
      | .setup record canceled =>
          match failure with
          | some text => some { sys with phase := .finishing record.id .error (some text) }
          | none =>
              match parseBytes record.pipelineYAML with
              | .error _ => none
              | .ok cfg =>
                  match Pipeline.compile cfg with
                  | .error _ => none
                  | .ok g => some { sys with
                      phase := .running record g
                        { Execution.start g with contextDone := canceled } [] none }
      | _ => none
  | .turn =>
      match sys.phase with
      | .running record g e [] err =>
          if e.phase = .head then
            let e' := e.turn g record.maxParallel
            some { sys with phase := .running record g e' (observations g e.loop e'.loop) err }
          else none
      | _ => none
  | .contextDone =>
      match sys.phase with
      | .running record g e [] err =>
          (e.step g record.maxParallel .contextDone).map fun e' =>
            { sys with phase := .running record g e' [] err }
      | _ => none
  | .receive c =>
      match sys.phase with
      | .running record g e [] err =>
          if reported c.state then
            (e.step g record.maxParallel (.receive c)).map fun e' =>
              { sys with phase := .running record g e' [(c.name, c.state)] err }
          else none
      | _ => none
  | .observe now unsent lost text =>
      match sys.phase with
      | .running record g e ((name, st) :: rest) err =>
          let call := LocalCall.updateJob record.id name (jobStatus st) none
          let failed :=
            Phase.running record g { e with contextDone := true } rest (err.or (some text))
          if unsent then some { sys with phase := failed }
          else match (sys.db.serveLocal s now call).2 with
            | .ok _ =>
                some { sys.serveLocal s now call with
                  phase := if lost then failed else .running record g e rest err }
            | .error _ => some { sys with phase := failed }
      | _ => none
  | .leave names =>
      match sys.phase with
      | .running record _ e [] err =>
          if e.phase = .returned ∧ names.Perm (failedNames e) then
            some { sys with phase := .afterRun record.id e names err }
          else none
      | _ => none
  | .mark now unsent =>
      match sys.phase with
      | .marking id (name :: rest) =>
          let sys := if unsent then sys
            else sys.serveLocal s now (.updateJob id name .failed (some infrastructureFailure))
          some { sys with phase := .afterMarking id rest }
      | _ => none
  | .finish now unsent =>
      match sys.phase with
      | .finishing id status message =>
          let sys := if unsent then sys else sys.serveLocal s now (.finishRun id status message)
          some { sys with phase := .idle }
      | _ => none
  | .commitArtifacts name items now =>
      match sys.phase with
      | .running record _ e _ _ =>
          if name ∈ e.loop.workers then
            some (sys.serve s now (.commitArtifacts ⟨record.id, none, none, name, 0⟩ items))
          else none
      | _ => none
  | .expireArtifacts now => some (sys.serve s now .expireArtifacts)
  | .getRun k id =>
      match sys.cancels k with
      | .idle =>
          match sys.db.run? id with
          | none => some sys
          | some r =>
              match r.status with
              | .queued => some (sys.setCancel k (.queued id))
              | .running => some (sys.setCancel k (.running id))
              | _ => some sys
      | _ => none
  | .cancelQueued k now =>
      match sys.cancels k with
      | .queued id => some ((sys.serve s now (.cancelQueued id)).setCancel k .idle)
      | _ => none
  | .requestCancel k now =>
      match sys.cancels k with
      | .running id =>
          match (sys.db.serve s ⟨now, .requestCancel id⟩).2 with
          | .ok _ => some ((sys.serve s now (.requestCancel id)).setCancel k (.signal id))
          | .error _ => some (sys.setCancel k .idle)
      | _ => none
  | .signal k =>
      match sys.cancels k with
      | .signal id => some { sys.setCancel k .idle with
          phase := if sys.phase.active id then sys.phase.cancel else sys.phase }
      | _ => none
  | .close => some { sys with closed := true, phase := sys.phase.cancel }

/-- A run of the manager from the empty database. -/
def Reaches (s : Settings) (tr : List (Step System Action)) (sys : System) : Prop :=
  Trace (fun a act b => step s a act = some b) {} tr sys

/-- A step that hits none of the windows: nothing goes wrong before `Run` in a run that is
still `RUNNING`; the scheduler does not go on with a run that has ended unless its context is
cancelled; the observer's update is executed and accepted; and a cancellation that finds no
job `RUNNING` does not fall between the scheduler's decisions and the updates for them. -/
def Clean (s : Settings) (sys : System) : Action → Prop
  | .setup (some _) => ∀ r ∈ sys.db.runs, sys.phase.runID = some r.id → r.status ≠ .running
  | .turn => ∀ r ∈ sys.db.runs, sys.phase.runID = some r.id → r.status.terminal = true →
      sys.phase.contextDone = true
  | .observe _ unsent _ _ => unsent = false ∧ ∀ r ∈ sys.db.runs, sys.phase.runID = some r.id →
      ∀ p ∈ sys.phase.observing.head?, p.2 = .passed → r.artifactSetCommitted s p.1 = .ok true
  | .requestCancel k _ => ∀ r ∈ sys.db.runs, sys.cancels k = .running r.id →
      sys.phase.runID = some r.id → r.status = .running →
      sys.phase.observing = [] ∨ ∃ j ∈ r.jobs, j.status = .running
  | _ => True

instance (s : Settings) (sys : System) : DecidablePred (Clean s sys) := by
  intro act
  unfold Clean
  split <;> infer_instance

/-- A run that only the local mode has touched; where it has ended, so have its jobs. -/
structure Undisturbed (r : Run) : Prop where
  built : ∃ cfg, r.Built cfg
  unleased : ∀ j ∈ r.jobs, j.Unleased
  queued : r.status = .queued → ∀ j ∈ r.jobs, j.status = .pending
  ended : r.status.terminal = true → ∀ j ∈ r.jobs, j.status.unfinished = false

/-- The row of a job whose last state has been written. -/
def Written (st : State) (status : JobStatus) : Prop :=
  if st = .pending then status = .pending ∨ status = .canceled else status = jobStatus st

/-- What the rows of a run say about the scheduler's states while `Run` is at work. -/
structure Mirrors (g : Graph) (e : Execution) (observing : List (String × State)) (r : Run) :
    Prop where
  sound : Runner.Sound g
  names : ∀ n, n ∈ r.jobs.map Job.name ↔ n ∈ g.order
  tallied : e.Tallied g
  started : r.status ≠ .queued
  reports : ∀ p ∈ observing, e.loop.state? p.1 = some p.2 ∧ p.2 ≠ .pending
  written : ∀ j ∈ r.jobs, j.name ∉ observing.map Prod.fst →
    ∀ st, e.loop.state? j.name = some st → Written st j.status
  ended : r.status.terminal = true → ∀ p ∈ observing, p.2 = .canceled ∧
    ∀ j ∈ r.jobs, j.name = p.1 → j.status = .canceled

/-- All jobs have ended, the listed ones `FAILED`. -/
structure Marked (names : List String) (r : Run) : Prop where
  started : r.status ≠ .queued
  finished : ∀ j ∈ r.jobs, j.status.unfinished = false
  failed : ∀ j ∈ r.jobs, j.name ∈ names → j.status = .failed

/-- What `execute` may rely on about the rows of the run in hand. -/
def Held : Phase → Run → Prop
  | .idle, _ => True
  | .claimed record, r | .setup record _, r =>
      record.pipelineYAML = r.pipelineYAML ∧ r.status ≠ .queued ∧
        ∀ j ∈ r.jobs, j.status = .pending ∨ j.status = .canceled
  | .running _ g e observing _, r => Mirrors g e observing r
  | .marking _ names, r => Marked names r
  | .finishing _ status _, r => status.terminal = true ∧ Marked [] r

structure System.Sound (sys : System) : Prop where
  held_mem : ∀ id, sys.phase.runID = some id → id ∈ sys.db.runs.map Run.id
  undisturbed : ∀ r ∈ sys.db.runs, Undisturbed r
  held : ∀ r ∈ sys.db.runs, sys.phase.runID = some r.id → Held sys.phase r

/-- Same status, and the same statuses of the jobs. -/
def Same (r r' : Run) : Prop :=
  r'.id = r.id ∧ r'.status = r.status ∧
    (r'.jobs.map fun j => (j.name, j.status)) = r.jobs.map fun j => (j.name, j.status)

/-- What a step may do to a run that is then in the phase `p`. -/
structure Advances (p : Phase) (r r' : Run) : Prop where
  id_eq : r'.id = r.id
  undisturbed : Undisturbed r'
  held : p.runID = some r.id → Held p r'
  ended : r.status.terminal = true → Same r r'

/-- **The runs that have ended are left alone.** -/
def Keeps (sys sys' : System) : Prop :=
  ∀ r ∈ sys.db.runs, r.status.terminal = true → ∃ r' ∈ sys'.db.runs, Same r r'

variable {s : Settings} {now : Time} {sys sys' : System} {act : Action} {r r' : Run} {p : Phase}
  {st : State} {status : JobStatus} {g : Graph} {e : Execution}

theorem Same.refl (r : Run) : Same r r := ⟨rfl, rfl, rfl⟩

theorem Same.trans {r₁ r₂ r₃ : Run} (h : Same r₁ r₂) (h' : Same r₂ r₃) : Same r₁ r₃ :=
  ⟨h'.1.trans h.1, h'.2.1.trans h.2.1, h'.2.2.trans h.2.2⟩

/-- A step that takes every run to one it may become keeps the invariant. -/
theorem System.Sound.advance
    (hheld : ∀ id, sys'.phase.runID = some id → id ∈ sys.db.runs.map Run.id)
    (hruns : List.Forall₂ (Advances sys'.phase) sys.db.runs sys'.db.runs) :
    sys'.Sound ∧ Keeps sys sys' := by
  have hids : sys'.db.runs.map Run.id = sys.db.runs.map Run.id :=
    Table.map_eq_of_forall₂ hruns fun _ _ hstep => hstep.id_eq
  refine ⟨⟨?_, ?_, ?_⟩, ?_⟩
  · intro id hid
    rw [hids]
    exact hheld id hid
  · intro r' hr'
    obtain ⟨r, -, hstep⟩ := Table.exists_old hruns hr'
    exact hstep.undisturbed
  · intro r' hr' hid
    obtain ⟨r, -, hstep⟩ := Table.exists_old hruns hr'
    exact hstep.held (hstep.id_eq ▸ hid)
  · intro r hr hended
    obtain ⟨r', hr', hstep⟩ := Table.exists_new hruns hr
    exact ⟨r', hr', hstep.ended hended⟩

/-- A step of the goroutine alone: the rows stay, and say what is relied on next. -/
theorem System.Sound.rephase (h : sys.Sound) {p p' : Phase} (hphase : sys.phase = p)
    (hphase' : sys'.phase = p') (hdb : sys'.db = sys.db) (hid : p'.runID = p.runID)
    (hheld : ∀ r ∈ sys.db.runs, Undisturbed r → p.runID = some r.id → Held p r → Held p' r) :
    sys'.Sound ∧ Keeps sys sys' := by
  subst hphase hphase'
  apply System.Sound.advance
  · rw [hid]
    exact h.held_mem
  · rw [hdb]
    apply List.forall₂_same.2
    intro r hr
    refine ⟨rfl, h.undisturbed r hr, fun hrun => ?_, fun _ => .refl r⟩
    grind [h.undisturbed, h.held]

/-- What is relied on depends on the pipeline, the status and the jobs. -/
theorem Held.congr (h : Held p r) (hyaml : r'.pipelineYAML = r.pipelineYAML)
    (hstatus : r'.status = r.status) (hjobs : r'.jobs = r.jobs) : Held p r' := by
  cases p with
  | running record g e observing err =>
    have hmirrors : Mirrors g e observing r := h
    exact { hmirrors with
      names := hjobs ▸ hmirrors.names
      started := hstatus ▸ hmirrors.started
      written := hjobs ▸ hmirrors.written
      ended := hstatus ▸ hjobs ▸ hmirrors.ended }
  | _ => grind [Held, Marked]

/-- A run whose jobs changed without a lease stays undisturbed. -/
theorem Undisturbed.of_jobs (h : Undisturbed r) (hstatic : r.SameStatic r')
    (hjobs : List.Forall₂ (fun j j' : Job => j'.name = j.name ∧ (j.Unleased → j'.Unleased))
      r.jobs r'.jobs)
    (hqueued : r'.status = .queued → ∀ j ∈ r'.jobs, j.status = .pending)
    (hended : r'.status.terminal = true → ∀ j ∈ r'.jobs, j.status.unfinished = false) :
    Undisturbed r' where
  built := by
    obtain ⟨cfg, hcfg⟩ := h.built
    exact ⟨cfg, hcfg.of_static hstatic (Table.map_eq_of_forall₂ hjobs fun _ _ hj => hj.1)⟩
  unleased := by
    intro j' hj'
    obtain ⟨j, hj, -, hunleased⟩ := Table.exists_old hjobs hj'
    exact hunleased (h.unleased j hj)
  queued := hqueued
  ended := hended

/-- A change of other columns. -/
theorem Advances.of_rows (h : Undisturbed r) (hheld : p.runID = some r.id → Held p r)
    (hstatic : r.SameStatic r') (hstatus : r'.status = r.status) (hjobs : r'.jobs = r.jobs) :
    Advances p r r' where
  id_eq := hstatic.id
  undisturbed := by
    refine h.of_jobs hstatic ?_ ?_ ?_
    · rw [hjobs]
      exact List.forall₂_same.2 fun j _ => ⟨rfl, fun hj => hj⟩
    · rw [hstatus, hjobs]
      exact h.queued
    · rw [hstatus, hjobs]
      exact h.ended
  held := fun hid => (hheld hid).congr hstatic.pipelineYAML hstatus hjobs
  ended := fun _ => ⟨hstatic.id, hstatus, by rw [hjobs]⟩

/-- No job is queued for a run in hand. -/
theorem Held.started (h : Held p r) (hid : p.runID = some r.id) : r.status ≠ .queued := by
  cases p <;> grind [Phase.runID, Held, Marked, Mirrors]

/-- `CancelQueued` ends a run that nobody has in hand. -/
theorem Advances.cancelQueued (h : Undisturbed r) (hheld : p.runID = some r.id → Held p r)
    (hok : r.cancelQueued now = .ok r') : Advances p r r' := by
  obtain ⟨hqueued, rfl⟩ := Run.cancelQueued_ok hok
  refine ⟨rfl, ?_, fun hid => absurd hqueued ((hheld hid).started hid), fun hended => ?_⟩
  · refine h.of_jobs ⟨rfl, rfl, rfl, rfl, rfl, rfl, fun h => h⟩ ?_ (fun hq => by cases hq) ?_
    · apply Table.forall₂_updateWhere
      intro j _
      split_ifs
      · exact ⟨rfl, fun hj => ⟨hj.runnerID, hj.leaseID, hj.leaseGeneration, hj.leaseExpiresAt⟩⟩
      · exact ⟨rfl, fun hj => hj⟩
    · intro _ j' hj'
      obtain ⟨j, hj, rfl⟩ := Table.mem_updateWhere.1 hj'
      simp [h.queued hqueued j hj, Job.finish, JobStatus.unfinished]
  · rw [hqueued] at hended
    cases hended

/-- What `RequestCancel` does to a run: its pending jobs are `CANCELED`, and it ends when
all jobs have ended. -/
structure Canceled (r r' : Run) : Prop where
  static : r.SameStatic r'
  jobs : List.Forall₂ (fun j j' : Job => j'.name = j.name ∧ (j.Unleased → j'.Unleased) ∧
    j'.status = if j.status = .pending then .canceled else j.status) r.jobs r'.jobs
  status : (r'.status = .running ∧ ∃ j ∈ r.jobs, j.status = .running) ∨
    (r'.status.terminal = true ∧ ∀ j' ∈ r'.jobs, j'.status.unfinished = false)

theorem requestCancel_canceled (hok : r.requestCancel s now = .ok r') :
    r.status = .running ∧ Canceled r r' := by
  obtain ⟨hrunning, hfin⟩ := Run.requestCancel_ok hok
  have hjobs := Run.finalizeRun_jobs hfin
  refine ⟨hrunning, (r.cancelingRows_static now).trans (Run.finalizeRun_static hfin), ?_, ?_⟩
  · rw [hjobs]
    apply Table.forall₂_updateWhere
    intro j _
    by_cases hpending : j.status = .pending
    · rw [if_pos (by simpa using hpending), if_pos hpending]
      exact ⟨rfl, fun hj => ⟨hj.runnerID, hj.leaseID, hj.leaseGeneration, hj.leaseExpiresAt⟩, rfl⟩
    · grind
  · rcases Run.finalizeRun_ok hfin with ⟨rfl, hopen⟩ | ⟨hdone, -, -, rfl⟩
    · left
      refine ⟨hrunning, ?_⟩
      rcases hopen with ⟨j', hj', hunfinished⟩ | hterminal
      · have hnot := Run.cancelingRows_not_pending j' hj'
        obtain ⟨j, hj, rfl⟩ := Table.mem_updateWhere.1 hj'
        rcases JobStatus.unfinished_iff.1 hunfinished with hpending | hjrunning
        · exact absurd hpending hnot
        · split_ifs at hjrunning
          · cases hjrunning
          · exact ⟨j, hj, hjrunning⟩
      · have hkept : (r.cancelingRows now).status = r.status := rfl
        grind [RunStatus.terminal]
    · exact .inr ⟨Run.finalStatus_terminal _, hdone⟩

theorem Canceled.started (h : Canceled r r') : r'.status ≠ .queued := by
  intro hqueued
  rcases h.status with ⟨hstatus, -⟩ | ⟨hterminal, -⟩
  · cases hstatus.symm.trans hqueued
  · rw [hqueued] at hterminal
    cases hterminal

/-- A written state stays written. -/
theorem Written.canceled (h : Written st status) :
    Written st (if status = .pending then .canceled else status) := by
  cases st <;> grind [Written, jobStatus]

theorem Mirrors.requestCancel {observing : List (String × State)}
    (h : Mirrors g e observing r) (hrows : Canceled r r')
    (hclean : observing = [] ∨ ∃ j ∈ r.jobs, j.status = .running) :
    Mirrors g e observing r' where
  sound := h.sound
  names := by
    rw [Table.map_eq_of_forall₂ hrows.jobs fun _ _ hj => hj.1]
    exact h.names
  tallied := h.tallied
  started := hrows.started
  reports := h.reports
  written := by
    intro j' hj' hname st hst
    obtain ⟨j, hj, hsame, -, hstatus⟩ := Table.exists_old hrows.jobs hj'
    rw [hsame] at hname hst
    rw [hstatus]
    exact (h.written j hj hname st hst).canceled
  ended := by
    intro hterminal
    rcases hclean with hnone | ⟨j, hj, hrunning⟩
    · simp [hnone]
    · obtain ⟨j', hj', -, -, hstatus⟩ := Table.exists_new hrows.jobs hj
      grind [hrows.status, RunStatus.terminal, JobStatus.unfinished]

variable {names : List String}

theorem Marked.requestCancel (h : Marked names r) (hrows : Canceled r r') : Marked names r' := by
  have hkept : ∀ j' ∈ r'.jobs, ∃ j ∈ r.jobs, j'.name = j.name ∧ j'.status = j.status := by
    intro j' hj'
    obtain ⟨j, hj, hsame, -, hstatus⟩ := Table.exists_old hrows.jobs hj'
    grind [h.finished j hj, JobStatus.unfinished]
  exact ⟨hrows.started, by grind [h.finished], by grind [h.failed]⟩

/-- A run in hand may be cancelled at any point, if no update is outstanding or a job is
`RUNNING`. -/
theorem Held.requestCancel (h : Held p r) (hrows : Canceled r r')
    (hclean : p.observing = [] ∨ ∃ j ∈ r.jobs, j.status = .running) : Held p r' := by
  have hfresh : (∀ j ∈ r.jobs, j.status = .pending ∨ j.status = .canceled) →
      r'.status ≠ .queued ∧ ∀ j ∈ r'.jobs, j.status = .pending ∨ j.status = .canceled := by
    grind [hrows.started, hrows.jobs, Table.exists_old]
  cases p with
  | idle => trivial
  | claimed record | setup record canceled =>
    exact ⟨h.1.trans hrows.static.pipelineYAML.symm, hfresh h.2.2⟩
  | running record g e observing err => exact Mirrors.requestCancel h hrows hclean
  | marking id names => exact Marked.requestCancel h hrows
  | finishing id status message => exact ⟨h.1, h.2.requestCancel hrows⟩

theorem Advances.requestCancel (h : Undisturbed r) (hheld : p.runID = some r.id → Held p r)
    (hclean : p.runID = some r.id → r.status = .running →
      p.observing = [] ∨ ∃ j ∈ r.jobs, j.status = .running)
    (hok : r.requestCancel s now = .ok r') : Advances p r r' := by
  obtain ⟨hrunning, hrows⟩ := requestCancel_canceled hok
  refine ⟨hrows.static.id, ?_, ?_, by simp [hrunning, RunStatus.terminal]⟩
  · refine h.of_jobs hrows.static (hrows.jobs.imp fun _ _ hj => ⟨hj.1, hj.2.1⟩)
      (fun hqueued => absurd hqueued hrows.started) ?_
    grind [hrows.status, RunStatus.terminal]
  · intro hid
    exact (hheld hid).requestCancel hrows (hclean hid hrunning)

/-- `ClaimNextQueuedRun`: the run is in hand with all its jobs pending. -/
theorem Undisturbed.claim (h : Undisturbed r) (now : Time) (hqueued : r.status = .queued) :
    Undisturbed (r.claim now) ∧ Held (.claimed (r.claim now)) (r.claim now) := by
  refine ⟨?_, rfl, by simp [Run.claim], fun j hj => .inl (h.queued hqueued j hj)⟩
  refine h.of_jobs ⟨rfl, rfl, rfl, rfl, rfl, rfl, fun h => h⟩ ?_ (fun hq => by cases hq)
    (fun ht => by cases ht)
  exact List.forall₂_same.2 fun j _ => ⟨rfl, fun hj => hj⟩

variable {name : String} {message : Option String}
  {id : Uuid} {rest : List String}

/-- The rows after `UpdateJob`. -/
theorem updatedRows_job {j' : Job} (hj' : j' ∈ (r.updatedRows name status now message).jobs) :
    ∃ j ∈ r.jobs, j'.name = j.name ∧ j'.status = if j.name = name then status else j.status := by
  obtain ⟨j, hj, rfl⟩ := Table.mem_updateWhere.1 hj'
  by_cases hname : j.name = name <;> exact ⟨j, hj, by simp [hname, Job.update]⟩

/-- An update with the status a job already has changes no status. -/
theorem Same.update (h : ∀ j ∈ r.jobs, j.name = name → j.status = status) :
    Same r (r.updatedRows name status now message) := by
  refine ⟨rfl, rfl, ?_⟩
  simp only [Run.updatedRows, Run.updateJobs, Table.updateWhere, List.map_map]
  apply List.map_congr_left
  grind [Job.update]

theorem Undisturbed.update (h : Undisturbed r) (hstarted : r.status ≠ .queued)
    (hended : r.status.terminal = true → ∀ j ∈ r.jobs, j.name = name → j.status = status) :
    Undisturbed (r.updatedRows name status now message) := by
  refine h.of_jobs (r.updateJobs_static _ _) ?_ (fun hq => absurd hq hstarted) ?_
  · apply Table.forall₂_updateWhere
    intro j _
    split_ifs
    · exact ⟨rfl, fun hj => hj.update _ _ _⟩
    · exact ⟨rfl, fun hj => hj⟩
  · intro hterminal j' hj'
    obtain ⟨j, hj, -, hstatus⟩ := updatedRows_job hj'
    grind [h.ended hterminal j hj, hended hterminal]

/-- The observer writes a state. -/
theorem Mirrors.observe {rest : List (String × State)} (h : Mirrors g e ((name, st) :: rest) r) :
    Mirrors g e rest (r.updatedRows name (jobStatus st) now none) where
  sound := h.sound
  names := by
    have hnames : (r.updatedRows name (jobStatus st) now none).jobs.map Job.name =
        r.jobs.map Job.name := Table.map_updateWhere fun _ _ => rfl
    rw [hnames]
    exact h.names
  tallied := h.tallied
  started := h.started
  reports := fun p hp => h.reports p (List.mem_cons_of_mem _ hp)
  written := by
    intro j' hj' hname st' hst'
    obtain ⟨j, hj, hsame, hstatus⟩ := updatedRows_job hj'
    grind [h.reports (name, st) List.mem_cons_self, h.written j hj, Written]
  ended := by
    intro hterminal q hq
    obtain ⟨hcanceled, hjobs⟩ := h.ended hterminal q (List.mem_cons_of_mem _ hq)
    refine ⟨hcanceled, fun j' hj' hname => ?_⟩
    obtain ⟨j, hj, hsame, hstatus⟩ := updatedRows_job hj'
    grind [h.ended hterminal (name, st) List.mem_cons_self, jobStatus]

theorem Advances.observe {rest : List (String × State)}
    (h : Undisturbed r) (hheld : Mirrors g e ((name, st) :: rest) r)
    (hp : Mirrors g e rest (r.updatedRows name (jobStatus st) now none) →
      Held p (r.updatedRows name (jobStatus st) now none)) :
    Advances p r (r.updatedRows name (jobStatus st) now none) := by
  have hended : r.status.terminal = true →
      ∀ j ∈ r.jobs, j.name = name → j.status = jobStatus st := by
    intro hterminal
    grind [hheld.ended hterminal (name, st) List.mem_cons_self, jobStatus]
  exact ⟨rfl, h.update hheld.started hended, fun _ => hp hheld.observe,
    fun hterminal => .update (hended hterminal)⟩

theorem Marked.afterMarking (h : Marked names r) : Held (.afterMarking id names) r := by
  cases names with
  | nil => exact ⟨rfl, h⟩
  | cons name rest => exact h

/-- The loop over the failed jobs rewrites their messages only. -/
theorem Advances.mark (h : Undisturbed r) (hheld : Marked (name :: rest) r) :
    Advances (.afterMarking id rest) r (r.updatedRows name .failed now message) := by
  have hfailed : ∀ j ∈ r.jobs, j.name = name → j.status = .failed := by grind [hheld.failed]
  have hstatus : ∀ j' ∈ (r.updatedRows name .failed now message).jobs, ∃ j ∈ r.jobs,
      j'.name = j.name ∧ j'.status = j.status := by
    intro j' hj'
    obtain ⟨j, hj, hsame, hstatus⟩ := updatedRows_job hj'
    grind
  refine ⟨rfl, h.update hheld.started fun _ => hfailed, fun _ => Marked.afterMarking ?_,
    fun _ => .update hfailed⟩
  exact ⟨hheld.started, by grind [hheld.finished], by grind [hheld.failed]⟩

theorem Advances.finish {status : RunStatus} (h : Undisturbed r)
    (hstatus : status.terminal = true) (hheld : Marked [] r)
    (hok : r.finishRun s status now message = .ok r') : Advances .idle r r' := by
  obtain ⟨hrunning, rfl⟩ := Run.finishRun_ok hok
  refine ⟨rfl, ?_, fun hid => (by cases hid), by simp [hrunning, RunStatus.terminal]⟩
  refine h.of_jobs ⟨rfl, rfl, rfl, rfl, rfl, rfl, fun h => h⟩ ?_ ?_ fun _ => hheld.finished
  · exact List.forall₂_same.2 fun j _ => ⟨rfl, fun hj => hj⟩
  · intro hqueued
    have hqueued : status = .queued := hqueued
    rw [hqueued] at hstatus
    cases hstatus

variable {record : Run} {g : Graph} {e e' : Execution}
  {cfg : Config.Pipeline}

/-- The scheduler starts with all jobs pending, as the rows say. -/
theorem Held.start {canceled : Bool} (h : Undisturbed r)
    (hheld : Held (.setup record canceled) r) (hparse : parseBytes record.pipelineYAML = .ok cfg)
    (hg : Pipeline.compile cfg = .ok g) :
    Mirrors g { Execution.start g with contextDone := canceled } [] r := by
  obtain ⟨hyaml, hstarted, hjobs⟩ := hheld
  obtain ⟨cfg', hbuilt⟩ := h.built
  obtain ⟨hdoc, hvalid⟩ := parseBytes_ok hparse
  obtain rfl : cfg' = cfg := Option.some.inj (hbuilt.yaml.symm.trans (hyaml.symm.trans hdoc))
  have hsound := Runner.compile_sound hvalid hg
  have hperm := (Pipeline.compile_spec (Config.accepted_of_validate hvalid) hg).1
  have htallied := Execution.tallied_start hsound
  refine ⟨hsound, ?_, ⟨htallied.loop, htallied.waiting, htallied.returned⟩, hstarted, ?_, ?_, ?_⟩
  · intro n
    rw [hbuilt.names.mem_iff, hperm.mem_iff]
  · intro p hp
    cases hp
  · intro j hj _ st hst
    rw [Execution.start_pending hsound hst]
    exact hjobs j hj
  · intro _ p hp
    cases hp

/-- In a run that has ended no job is running. -/
theorem Mirrors.idle (h : Mirrors g e [] r) (hundisturbed : Undisturbed r)
    (hterminal : r.status.terminal = true) : e.loop.workers = [] := by
  apply List.eq_nil_iff_forall_not_mem.2
  intro n hn
  have hstate := (h.tallied.loop.workers n).1 hn
  obtain ⟨j, hj, rfl⟩ := List.mem_map.1 ((h.names n).2 (h.tallied.loop.mem hstate))
  have hrunning : j.status = .running := h.written j hj (by simp) _ hstate
  have hfinished := hundisturbed.ended hterminal j hj
  rw [hrunning] at hfinished
  cases hfinished

/-- **A turn of the scheduler**, on a run that has ended only with its context cancelled. -/
theorem Mirrors.turn {maxParallel : Int} (h : Mirrors g e [] r) (hundisturbed : Undisturbed r)
    (hclean : r.status.terminal = true → e.contextDone = true) :
    Mirrors g (e.turn g maxParallel) (observations g e.loop (e.turn g maxParallel).loop) r := by
  obtain ⟨htallied, honward⟩ := h.tallied.turn h.sound
  refine ⟨h.sound, h.names, htallied, h.started, ?_, ?_, ?_⟩
  · intro p hp
    grind [Runner.mem_observations]
  · grind [honward.unreported, h.written]
  · intro hterminal p hp
    have hidle : e.loop.active = 0 := by
      rw [h.tallied.loop.active, h.idle hundisturbed hterminal]
      rfl
    refine ⟨h.tallied.turn_canceled h.sound (hclean hterminal) hidle p hp, fun j hj hname => ?_⟩
    -- The turn changed the job, so it was pending, and its row can only be `CANCELED`.
    obtain ⟨hmem, -, hnew, hold⟩ := Runner.mem_observations.1 hp
    have hpending : e.loop.state? p.1 = some .pending := by grind [honward.kept]
    have hwritten := h.written j hj (by simp) .pending (hname ▸ hpending)
    rcases hwritten with hrow | hrow
    · have hfinished := hundisturbed.ended hterminal j hj
      rw [hrow] at hfinished
      cases hfinished
    · exact hrow

/-- A worker reports. -/
theorem Mirrors.receive {c : Completion} (h : Mirrors g e [] r) (hundisturbed : Undisturbed r)
    (hworker : c.name ∈ e.loop.workers) (hreported : reported c.state = true) :
    Mirrors g { e with loop := e.loop.receive c, phase := .head } [(c.name, c.state)] r := by
  have hfinal : c.state.terminal = true ∧ c.state ≠ .pending := by
    revert hreported
    cases c.state <;> simp [reported, State.terminal]
  refine ⟨h.sound, h.names, ⟨h.tallied.loop.receive h.sound hworker hfinal.1,
    fun hp => (by cases hp), fun hp => (by cases hp)⟩, h.started, ?_, ?_, ?_⟩
  · intro p hp
    obtain rfl := List.mem_singleton.1 hp
    exact ⟨by simp, hfinal.2⟩
  · intro j hj hname st hst
    have hne : j.name ≠ c.name := by simpa using hname
    apply h.written j hj (by simp)
    simpa [hne] using hst
  · grind [h.idle]

/-- When the scheduler has returned, the rows say that every job has ended. -/
theorem Mirrors.leave (h : Mirrors g e [] r) (hphase : e.phase = .returned)
    (hnames : names.Perm (failedNames e)) : Marked names r := by
  have hended := h.tallied.returned hphase
  have hstatus : ∀ j ∈ r.jobs, ∃ st, e.loop.state? j.name = some st ∧ st.terminal = true ∧
      j.status = jobStatus st := by
    intro j hj
    have hmem := (h.names j.name).1 (List.mem_map_of_mem hj)
    obtain ⟨st, hst, hterminal⟩ := (Option.any_eq_true _ _).1 (hended j.name hmem)
    grind [h.written j hj (by simp) st hst, Written, State.terminal]
  refine ⟨h.started, fun j hj => ?_, fun j hj hname => ?_⟩
  · obtain ⟨st, -, hterminal, hjob⟩ := hstatus j hj
    cases st <;> grind [State.terminal, jobStatus, JobStatus.unfinished]
  · obtain ⟨st, hst, -, hjob⟩ := hstatus j hj
    have hmem := hnames.mem_iff.1 hname
    simp only [failedNames, List.mem_map, List.mem_filter, decide_eq_true_eq] at hmem
    obtain ⟨⟨n, st'⟩, ⟨hentry, hst'⟩, hn⟩ := hmem
    have hfailed : e.loop.state? n = some st' := AList.mem_lookup_iff.2 hentry
    grind [jobStatus]

theorem Marked.weaken (h : Marked names r) : Marked [] r :=
  ⟨h.started, h.finished, fun _ _ hname => nomatch hname⟩

theorem Held.afterRun (h : Marked names r) (id : Uuid)
    (err : Option String) : Held (.afterRun id e names err) r := by
  cases err with
  | some text => exact ⟨rfl, h.weaken⟩
  | none =>
    simp only [Phase.afterRun]
    split_ifs
    · exact h.afterMarking
    · exact ⟨rfl, h.weaken⟩
    · exact ⟨rfl, h.weaken⟩
    · exact ⟨rfl, h.weaken⟩

/-- Cancelling the context changes no state. -/
theorem Mirrors.cancel {observing : List (String × State)} (h : Mirrors g e observing r) :
    Mirrors g { e with contextDone := true } observing r :=
  ⟨h.sound, h.names, ⟨h.tallied.loop, h.tallied.waiting, h.tallied.returned⟩, h.started,
    h.reports, h.written, h.ended⟩

theorem Held.cancel (h : Held p r) : Held p.cancel r := by
  cases p with
  | running record g e observing err => exact Mirrors.cancel h
  | _ => exact h

theorem Phase.runID_cancel (p : Phase) : p.cancel.runID = p.runID := by
  cases p <;> rfl

/-- A run that a step leaves alone. -/
theorem System.Sound.same (h : sys.Sound) (hr : r ∈ sys.db.runs)
    (hheld : p.runID = some r.id → Held p r) : Advances p r r :=
  .of_rows (h.undisturbed r hr) hheld (.refl r) rfl rfl

/-- A call that creates and supersedes nothing. -/
theorem System.Sound.serve (h : sys.Sound) {call : Call} (hcreates : call.creates = none)
    (hdelivery : ∀ input, call ≠ .createSCMDelivery input)
    (hchange : ∀ r ∈ sys.db.runs, ∀ r', Change s now call r r' → Advances sys.phase r r')
    (hphase : sys'.phase = sys.phase) (hdb : sys'.db = (sys.serve s now call).db) :
    sys'.Sound ∧ Keeps sys sys' := by
  apply System.Sound.advance
  · rw [hphase]
    exact h.held_mem
  · have hserved : Served s sys.db ⟨now, call⟩ sys'.db := hdb.symm
    rcases hserved.runs with ⟨input, -, hinput, -⟩ | hruns
    · rw [hcreates] at hinput
      cases hinput
    · rw [hphase]
      refine List.Forall₂.imp ?_ ((List.forall₂_and_left _ _).2 ⟨fun r hr => hr, hruns⟩)
      rintro r r' ⟨hr, rfl | hstep | ⟨input, hinput, -⟩⟩
      · exact h.same hr (h.held r' hr)
      · exact hchange r hr r' hstep
      · exact absurd hinput (hdelivery input)

/-- A submitted run has its jobs pending. -/
theorem Undisturbed.submitted {maxParallel : Nat}
    {snapshot : SourceSnapshot} (hvalid : Config.validate cfg = .ok ())
    (hg : Pipeline.compile cfg = .ok g) :
    Undisturbed ((submission id cfg g maxParallel (some snapshot)).row now snapshot) := by
  have hcompiled : (submission id cfg g maxParallel (some snapshot)).Compiled cfg :=
    ⟨hvalid, g, hg, rfl⟩
  have hjobs : ∀ j ∈ ((submission id cfg g maxParallel (some snapshot)).row now snapshot).jobs,
      j.status = .pending ∧ j.Unleased := by
    intro j hj
    obtain ⟨job, -, rfl⟩ := List.mem_map.1 hj
    exact ⟨rfl, rfl, rfl, rfl, rfl⟩
  exact ⟨⟨cfg, hcompiled.built now snapshot⟩, fun j hj => (hjobs j hj).2,
    fun _ j hj => (hjobs j hj).1, fun hterminal => by cases hterminal⟩

/-- A submitted run is a new one. -/
theorem System.Sound.submit (h : sys.Sound) {maxParallel : Nat} {snapshot : SourceSnapshot}
    (hvalid : Config.validate cfg = .ok ()) (hg : Pipeline.compile cfg = .ok g)
    (hphase : sys'.phase = sys.phase) (hdb : sys'.db = (sys.serve s now
      (.createRun (submission id cfg g maxParallel (some snapshot)))).db) :
    sys'.Sound ∧ Keeps sys sys' := by
  have hserved : Served s sys.db ⟨now, .createRun (submission id cfg g maxParallel
    (some snapshot))⟩ sys'.db := hdb.symm
  rcases hserved.runs with ⟨input, source, hinput, hsource, hruns⟩ | hruns
  · cases hinput
    cases hsource
    have hnew : id ∉ sys.db.runs.map Run.id := by
      have hkey := sys'.db.valid.runs_key
      rw [hruns, List.map_append, List.nodup_append] at hkey
      intro hmem
      exact hkey.2.2 id hmem id (by simp [CreateRun.row, submission]) rfl
    have hmem : ∀ r ∈ sys.db.runs, r ∈ sys'.db.runs := by grind
    refine ⟨⟨?_, ?_, ?_⟩, fun r hr _ => ⟨r, hmem r hr, .refl r⟩⟩
    · grind [h.held_mem]
    · intro r hr
      rw [hruns] at hr
      rcases List.mem_append.1 hr with hr | hr
      · exact h.undisturbed r hr
      · obtain rfl := List.mem_singleton.1 hr
        exact .submitted hvalid hg
    · intro r hr hid'
      rw [hphase] at hid' ⊢
      rw [hruns] at hr
      rcases List.mem_append.1 hr with hr | hr
      · exact h.held r hr hid'
      · obtain rfl := List.mem_singleton.1 hr
        exact absurd (h.held_mem id hid') hnew
  · apply System.Sound.advance
    · rw [hphase]
      exact h.held_mem
    · refine List.Forall₂.imp ?_ ((List.forall₂_and_left _ _).2 ⟨fun r hr => hr, hruns⟩)
      rintro r r' ⟨hr, rfl | hstep | ⟨input, hinput, -⟩⟩
      · rw [hphase]
        exact h.same hr (h.held r' hr)
      · cases hstep
      · cases hinput

/-- What a call of the local mode does, run by run. -/
theorem System.Sound.serveLocal {call : LocalCall}
    (hheld : ∀ id, sys'.phase.runID = some id → id ∈ sys.db.runs.map Run.id)
    (hchange : ∀ r ∈ sys.db.runs, ∀ r', (r' = r ∨ LocalChange s now call r r') →
      Advances sys'.phase r r')
    (hdb : sys'.db = (sys.serveLocal s now call).db) : sys'.Sound ∧ Keeps sys sys' := by
  apply System.Sound.advance hheld
  rw [hdb]
  refine List.Forall₂.imp ?_ ((List.forall₂_and_left _ _).2
    ⟨fun r hr => hr, sys.db.serveLocal_runs s now call⟩)
  rintro r r' ⟨hr, hstep⟩
  exact hchange r hr r' hstep

theorem Phase.runID_afterMarking (id : Uuid) (names : List String) :
    (Phase.afterMarking id names).runID = some id := by
  cases names <;> rfl

theorem Phase.runID_afterRun (id : Uuid) (e : Execution) (names : List String)
    (err : Option String) : (Phase.afterRun id e names err).runID = some id := by
  cases err with
  | some text => rfl
  | none =>
    simp only [Phase.afterRun]
    split_ifs
    · exact Phase.runID_afterMarking id names
    · rfl
    · rfl
    · rfl

/-- One run is rewritten, and no other is in hand. -/
theorem System.Sound.replaced (h : sys.Sound) (hr : r ∈ sys.db.runs) (hadvance : Advances p r r')
    (hid : ∀ id, p.runID = some id → id = r.id) :
    List.Forall₂ (Advances p) sys.db.runs (Table.replace Run.id r' sys.db.runs) := by
  apply Table.forall₂_updateWhere
  intro x hx
  by_cases hxr : x.id = r.id
  · obtain rfl := List.inj_on_of_nodup_map sys.db.valid.runs_key hx hr hxr
    rw [if_pos (by simp [hadvance.id_eq])]
    exact hadvance
  · grind [hadvance.id_eq, h.same]

/-- Claiming a queued run. -/
theorem System.Sound.claim (h : sys.Sound) {lost : Bool}
    (hstep : step s sys (.claim now lost) = some sys') : sys'.Sound ∧ Keeps sys sys' := by
  simp only [step] at hstep
  split at hstep
  case h_2 => cases hstep
  next hphase =>
    obtain ⟨-, hstep⟩ := Option.ite_none_left_eq_some.1 hstep
    split at hstep
    · rename_i record hreply
      obtain ⟨r, hr, hqueued, rfl, hruns⟩ := Database.serveLocal_claim hreply
      cases hstep
      obtain ⟨hundisturbed, hheld⟩ := (h.undisturbed r hr).claim now hqueued
      have hopen : r.status.terminal = true → Same r (r.claim now) := by
        intro hterminal
        rw [hqueued] at hterminal
        cases hterminal
      apply System.Sound.advance
      · intro id hid
        cases lost with
        | true => cases hid
        | false =>
          have hid : r.id = id := Option.some.inj hid
          exact hid ▸ List.mem_map_of_mem hr
      · refine hruns ▸ h.replaced hr ⟨rfl, hundisturbed, ?_, hopen⟩ ?_
        · cases lost with
          | true => exact fun hid => (by cases hid)
          | false => exact fun _ => hheld
        · cases lost with
          | true => exact fun _ hid => (by cases hid)
          | false => exact fun _ hid => (Option.some.inj hid).symm
    · cases hstep
      have hidle : ∀ id, (sys.serveLocal s now .claimNextQueuedRun).phase.runID ≠ some id := by
        intro id hid
        have hid : sys.phase.runID = some id := hid
        rw [hphase] at hid
        cases hid
      apply System.Sound.serveLocal (fun id hid => absurd hid (hidle id)) _ rfl
      intro r hr r' hchange
      rcases hchange with rfl | hchange
      · exact h.same hr fun hid => absurd hid (hidle _)
      · cases hchange with
        | claim hqueued =>
          refine ⟨rfl, ((h.undisturbed r hr).claim now hqueued).1,
            fun hid => absurd hid (hidle _), fun hterminal => ?_⟩
          rw [hqueued] at hterminal
          cases hterminal

/-- The gate of `UpdateJob` is open when the declared artifacts are committed. -/
theorem passGate_open (h : st = .passed → r.artifactSetCommitted s name = .ok true) :
    r.passGate s name (jobStatus st) = .ok () := by
  cases st with
  | passed => simp [Run.passGate, jobStatus, h rfl]
  | _ => rfl

/-- The observer's update of the run in hand. -/
theorem System.Sound.observe (h : sys.Sound) {lost : Bool} {text : String}
    (hclean : Clean s sys (.observe now false lost text))
    (hstep : step s sys (.observe now false lost text) = some sys') :
    sys'.Sound ∧ Keeps sys sys' := by
  simp only [step] at hstep
  split at hstep
  case h_2 => cases hstep
  next record g e name st rest err hphase =>
    obtain ⟨r, hr, hid⟩ := List.mem_map.1 (h.held_mem record.id (by rw [hphase]; rfl))
    have hrun : sys.phase.runID = some r.id := by rw [hphase, hid]; rfl
    have hundisturbed := h.undisturbed r hr
    have hheld := h.held r hr hrun
    rw [hphase] at hheld
    have hmirrors : Mirrors g e ((name, st) :: rest) r := hheld
    have hname : name ∈ r.jobs.map Job.name := by
      obtain ⟨hstate, -⟩ := hmirrors.reports (name, st) List.mem_cons_self
      exact (hmirrors.names name).2 (hmirrors.tallied.loop.mem hstate)
    have hgate : r.passGate s name (jobStatus st) = .ok () :=
      passGate_open (hclean.2 r hr hrun (name, st) (by rw [hphase]; rfl))
    obtain ⟨hreply, hruns⟩ :=
      Database.serveLocal_updateJob now none hr hgate hname hundisturbed.unleased
    rw [hid] at hreply hruns
    simp only [Bool.false_eq_true, if_false, hreply] at hstep
    cases hstep
    -- With the reply lost the context is cancelled as well; the rows are the same.
    apply System.Sound.advance
    · intro id' hid'
      exact h.held_mem id' (by rw [hphase]; cases lost <;> exact hid')
    · refine hruns ▸ h.replaced hr (.observe hundisturbed hmirrors fun hnext => ?_) ?_
      · cases lost
        · exact hnext
        · exact hnext.cancel
      · intro id' hid'
        cases lost <;> exact (Option.some.inj hid').symm.trans hid.symm

theorem Marked.tail (h : Marked (name :: rest) r) : Marked rest r :=
  ⟨h.started, h.finished, fun j hj hname => h.failed j hj (List.mem_cons_of_mem _ hname)⟩

/-- One update of the loop over the failed jobs, executed or not. -/
theorem System.Sound.mark (h : sys.Sound)
    {unsent : Bool} (hphase : sys.phase = .marking id (name :: rest))
    (hphase' : sys'.phase = .afterMarking id rest) (hdb : sys'.db = (if unsent then sys
      else sys.serveLocal s now (.updateJob id name .failed message)).db) :
    sys'.Sound ∧ Keeps sys sys' := by
  have hheld : ∀ r ∈ sys.db.runs, id = r.id → Marked (name :: rest) r := by
    intro r hr hid
    have hheld := h.held r hr (by rw [hphase, ← hid]; rfl)
    rwa [hphase] at hheld
  split_ifs at hdb
  · exact h.rephase hphase hphase' hdb (Phase.runID_afterMarking _ _)
      fun r hr _ hid _ => (hheld r hr (Option.some.inj hid)).tail.afterMarking
  · apply System.Sound.serveLocal _ _ hdb
    · intro id' hid'
      rw [hphase', Phase.runID_afterMarking] at hid'
      exact h.held_mem id' (by rw [hphase, ← hid']; rfl)
    · intro r hr r' hchange
      rw [hphase']
      rcases hchange with rfl | hchange
      · apply h.same hr
        intro hid
        rw [Phase.runID_afterMarking] at hid
        exact (hheld r' hr (Option.some.inj hid)).tail.afterMarking
      · cases hchange with
        | update target ok =>
          obtain ⟨-, -, rfl⟩ := Run.updateJob_ok ok
          exact .mark (h.undisturbed r hr) (hheld r hr target)

/-- `FinishRun`, executed or not. -/
theorem System.Sound.finish (h : sys.Sound) {status : RunStatus}
    {unsent : Bool} (hphase : sys.phase = .finishing id status message)
    (hphase' : sys'.phase = .idle) (hdb : sys'.db = (if unsent then sys
      else sys.serveLocal s now (.finishRun id status message)).db) :
    sys'.Sound ∧ Keeps sys sys' := by
  have hidle : ∀ id, sys'.phase.runID ≠ some id := by
    intro id hid
    rw [hphase'] at hid
    cases hid
  split_ifs at hdb
  · apply System.Sound.advance
    · intro id' hid'
      exact absurd hid' (hidle id')
    · rw [hdb]
      exact List.forall₂_same.2 fun r hr => h.same hr fun hid => absurd hid (hidle _)
  · apply System.Sound.serveLocal _ _ hdb
    · intro id' hid'
      exact absurd hid' (hidle id')
    · intro r hr r' hchange
      rcases hchange with rfl | hchange
      · exact h.same hr fun hid => absurd hid (hidle _)
      · cases hchange with
        | finish target ok =>
          have hheld := h.held r hr (by rw [hphase, ← target]; rfl)
          rw [hphase] at hheld
          rw [hphase']
          exact .finish (h.undisturbed r hr) hheld.1 hheld.2 ok

/-- **Every clean step** keeps the invariant and leaves the ended runs alone. -/
theorem step_sound (h : sys.Sound) (hclean : Clean s sys act) (hstep : step s sys act = some sys') :
    sys'.Sound ∧ Keeps sys sys' := by
  cases act with
  | submit id cfg g maxParallel snapshot now =>
    obtain ⟨⟨hvalid, hg⟩, ⟨⟩⟩ := Option.ite_none_right_eq_some.1 hstep
    exact h.submit hvalid hg rfl rfl
  | claim now lost => exact h.claim hstep
  | register =>
    simp only [step] at hstep
    split at hstep
    · rename_i record hphase
      cases hstep
      exact h.rephase hphase rfl rfl rfl fun _ _ _ _ hheld => hheld
    · cases hstep
  | setup failure =>
    simp only [step] at hstep
    split at hstep
    case h_2 => cases hstep
    next record canceled hphase =>
      split at hstep
      · cases hstep
        refine h.rephase hphase rfl rfl rfl fun r hr hundisturbed hid hheld => ?_
        have hnot := hclean r hr (by rw [hphase]; exact hid)
        have hterminal : r.status.terminal = true := by
          by_contra hopen
          rcases RunStatus.terminal_eq_false_iff.1 (by simpa using hopen) with hq | hrunning
          · exact hheld.2.1 hq
          · exact hnot hrunning
        exact ⟨rfl, hheld.2.1, hundisturbed.ended hterminal, fun _ _ hname => nomatch hname⟩
      · split at hstep
        · cases hstep
        · rename_i cfg hparse
          split at hstep
          · cases hstep
          · rename_i g hg
            cases hstep
            exact h.rephase hphase rfl rfl rfl fun r hr hundisturbed hid hheld =>
              hheld.start hundisturbed hparse hg
  | turn =>
    simp only [step] at hstep
    split at hstep
    · rename_i record g e err hphase
      obtain ⟨hhead, ⟨⟩⟩ := Option.ite_none_right_eq_some.1 hstep
      refine h.rephase hphase rfl rfl rfl fun r hr hundisturbed hid hheld => ?_
      refine Mirrors.turn hheld hundisturbed fun hterminal => ?_
      have hdone := hclean r hr (by rw [hphase]; exact hid) hterminal
      rwa [hphase] at hdone
    · cases hstep
  | contextDone =>
    simp only [step] at hstep
    split at hstep
    · rename_i record g e err hphase
      obtain ⟨e', he', rfl⟩ := Option.map_eq_some_iff.1 hstep
      obtain ⟨-, ⟨⟩⟩ := Option.ite_none_right_eq_some.1 he'
      refine h.rephase hphase rfl rfl rfl fun r hr hundisturbed hid hheld => ?_
      have hm : Mirrors g e [] r := hheld
      exact ⟨hm.sound, hm.names, ⟨hm.tallied.loop, fun hp => (by cases hp),
        fun hp => (by cases hp)⟩, hm.started, hm.reports, hm.written, hm.ended⟩
    · cases hstep
  | receive c =>
    simp only [step] at hstep
    split at hstep
    · rename_i record g e err hphase
      obtain ⟨hreported, hsome⟩ := Option.ite_none_right_eq_some.1 hstep
      obtain ⟨e', he', rfl⟩ := Option.map_eq_some_iff.1 hsome
      obtain ⟨⟨-, hworker⟩, hsome'⟩ := Option.ite_none_right_eq_some.1 he'
      cases hsome'
      exact h.rephase hphase rfl rfl rfl fun r hr hundisturbed hid hheld =>
        Mirrors.receive hheld hundisturbed hworker hreported
    · cases hstep
  | observe now unsent lost text =>
    obtain ⟨rfl, -⟩ := id hclean
    exact h.observe hclean hstep
  | leave names =>
    simp only [step] at hstep
    split at hstep
    · rename_i record g e err hphase
      obtain ⟨⟨hreturned, hnames⟩, ⟨⟩⟩ := Option.ite_none_right_eq_some.1 hstep
      exact h.rephase hphase rfl rfl (Phase.runID_afterRun _ _ _ _)
        fun r hr hundisturbed hid hheld => .afterRun (Mirrors.leave hheld hreturned hnames) _ _
    · cases hstep
  | mark now unsent =>
    simp only [step] at hstep
    split at hstep
    · rename_i id name rest hphase
      cases hstep
      exact h.mark hphase rfl rfl
    · cases hstep
  | finish now unsent =>
    simp only [step] at hstep
    split at hstep
    · rename_i id status message hphase
      cases hstep
      exact h.finish hphase rfl rfl
    · cases hstep
  | commitArtifacts name items now =>
    simp only [step] at hstep
    split at hstep
    case h_2 => cases hstep
    next record g e observing err hphase =>
      obtain ⟨-, ⟨⟩⟩ := Option.ite_none_right_eq_some.1 hstep
      refine h.serve rfl (fun _ heq => by cases heq) (fun r hr r' hchange => ?_) rfl rfl
      refine .of_rows (h.undisturbed r hr) (h.held r hr) hchange.static ?_ ?_
      all_goals
        cases hchange with
        | commitArtifacts _ ok =>
          obtain ⟨_, rfl⟩ := Run.commitArtifacts_frame ok
          rfl
  | expireArtifacts now =>
    cases hstep
    refine h.serve rfl (fun _ heq => by cases heq) (fun r hr r' hchange => ?_) rfl rfl
    cases hchange with
    | expireArtifacts =>
      exact .of_rows (h.undisturbed r hr) (h.held r hr)
        ⟨rfl, rfl, rfl, rfl, rfl, rfl, fun h => h⟩ rfl rfl
  | getRun k id =>
    have hsame : sys'.phase = sys.phase ∧ sys'.db = sys.db := by
      simp only [step] at hstep
      split at hstep
      · split at hstep
        · grind
        · split at hstep <;>
          · cases hstep
            exact ⟨rfl, rfl⟩
      · cases hstep
    exact h.rephase rfl hsame.1 hsame.2 rfl fun _ _ _ _ hheld => hheld
  | cancelQueued k now =>
    simp only [step] at hstep
    split at hstep
    · cases hstep
      refine h.serve rfl (fun _ heq => by cases heq) (fun r hr r' hchange => ?_) rfl rfl
      cases hchange with
      | cancelQueued _ ok => exact .cancelQueued (h.undisturbed r hr) (h.held r hr) ok
    · cases hstep
  | requestCancel k now =>
    simp only [step] at hstep
    split at hstep
    case h_2 => cases hstep
    next id hcancel =>
      split at hstep
      · cases hstep
        refine h.serve rfl (fun _ heq => by cases heq) (fun r hr r' hchange => ?_) rfl rfl
        cases hchange with
        | requestCancel target ok =>
          exact .requestCancel (h.undisturbed r hr) (h.held r hr)
            (hclean r hr (by rw [hcancel, target])) ok
      · cases hstep
        exact h.rephase rfl rfl rfl rfl fun _ _ _ _ hheld => hheld
  | signal k =>
    simp only [step] at hstep
    split at hstep
    case h_2 => cases hstep
    next id hcancel =>
      cases hstep
      by_cases hactive : sys.phase.active id = true
      · exact h.rephase rfl (if_pos hactive) rfl (Phase.runID_cancel _)
          fun _ _ _ _ hheld => hheld.cancel
      · exact h.rephase rfl (if_neg hactive) rfl rfl fun _ _ _ _ hheld => hheld
  | close =>
    cases hstep
    exact h.rephase rfl rfl rfl (Phase.runID_cancel _) fun _ _ _ _ hheld => hheld.cancel

theorem System.Sound.ofEmpty : ({} : System).Sound where
  held_mem := by
    intro _ hid
    cases hid
  undisturbed := by
    intro _ hr
    cases hr
  held := by
    intro _ hr
    cases hr

/-- **A run that has ended is left alone**, with all its jobs ended, for as long as every
step is clean. -/
theorem ended_runs_stay {pre post : List (Step System Action)} {mid fin : System}
    (hpre : Reaches s pre mid) (hpost : Trace (fun a act b => step s a act = some b) mid post fin)
    (hclean : ∀ st ∈ pre ++ post, Clean s st.before st.act) :
    ∀ r ∈ mid.db.runs, r.status.terminal = true →
      (∀ j ∈ r.jobs, j.status.unfinished = false) ∧ ∃ r' ∈ fin.db.runs, Same r r' := by
  intro r hr hterminal
  have hmid : mid.Sound := (hpre.guarded System.Sound (Clean s) .ofEmpty
    (fun _ _ _ hsys hclean hstep => (step_sound hsys hclean hstep).1)
    fun st hst => hclean st (List.mem_append_left _ hst)).1
  refine ⟨(hmid.undisturbed r hr).ended hterminal, ?_⟩
  have hkept := (hpost.guarded (fun sys => sys.Sound ∧ ∃ r' ∈ sys.db.runs, Same r r') (Clean s)
    ⟨hmid, r, hr, .refl r⟩ ?_ fun st hst => hclean st (List.mem_append_right _ hst)).1
  · exact hkept.2
  · rintro sys act sys' ⟨hsys, r', hr', hsame⟩ hact hstep
    obtain ⟨hsound, hkeeps⟩ := step_sound hsys hact hstep
    obtain ⟨r'', hr'', hsame'⟩ := hkeeps r' hr' (by rw [hsame.2.1]; exact hterminal)
    exact ⟨hsound, r'', hr'', hsame.trans hsame'⟩

open Postgres.Sample (graph pair pairGraph pipeline settings snapshot)

namespace Sample

/-- Two jobs, one at a time: the first is cancelled while it runs. -/
def canceledRun : List Action :=
  [.submit 1 pair pairGraph 1 snapshot 0,
    .claim 1 false, .register, .setup none, .turn, .observe 2 false false "",
    .getRun 0 1, .requestCancel 0 3, .signal 0, .contextDone, .turn,
    .receive ⟨"build", .canceled, false⟩, .observe 4 false false "", .turn,
    .observe 5 false false "", .leave [], .finish 6 false]

/-- What goes on afterwards. -/
def afterwards : List Action := [.getRun 1 1, .expireArtifacts 7, .close]

/-- The workspace cannot be prepared. -/
def setupFailure : List Action :=
  [.submit 1 pipeline graph 1 snapshot 0,
    .claim 1 false, .register, .setup (some "no space left on device"), .finish 2 false]

/-- The run is cancelled after it is claimed and before its context is registered. -/
def earlyCancel : List Action :=
  [.submit 1 pipeline graph 1 snapshot 0,
    .claim 1 false, .getRun 0 1, .requestCancel 0 2, .signal 0]

/-- The scheduler starts the job all the same. -/
def lateStart : List Action := [.register, .setup none, .turn, .observe 3 false false ""]

/-- What the rows say about runs and jobs. -/
def statuses (sys : System) : List (Uuid × RunStatus × List (String × JobStatus)) :=
  sys.db.runs.map fun r => (r.id, r.status, r.jobs.map fun j => (j.name, j.status))

theorem exists_run {sys : System} {id : Uuid} {status : RunStatus}
    {jobs : List (String × JobStatus)} (h : statuses sys = [(id, status, jobs)]) :
    ∃ r ∈ sys.db.runs, r.status = status ∧
      (r.jobs.map fun j => (j.name, j.status)) = jobs := by
  obtain ⟨r, hruns, heq⟩ := List.map_eq_singleton_iff.1 h
  grind

end Sample

/-- A cancelled run ends, and stays as it ended. -/
theorem canceled_run_stays : ∃ pre post mid fin, Reaches settings pre mid ∧
    Trace (fun a act b => step settings a act = some b) mid post fin ∧
    (∀ st ∈ pre ++ post, Clean settings st.before st.act) ∧
    Sample.statuses mid = [(1, .canceled, [("build", .canceled), ("lint", .canceled)])] ∧
    ∀ r ∈ mid.db.runs, r.status.terminal = true →
      (∀ j ∈ r.jobs, j.status.unfinished = false) ∧ ∃ r' ∈ fin.db.runs, Same r r' := by
  have hrun : (Sample.canceledRun.foldlM (fun sys act =>
      if decide (Clean settings sys act) then step settings sys act
      else none) {}).map Sample.statuses =
      some [(1, .canceled, [("build", .canceled), ("lint", .canceled)])] := by
    decide +kernel
  have hwhole : ((Sample.canceledRun ++ Sample.afterwards).foldlM (fun sys act =>
      if decide (Clean settings sys act) then step settings sys act
      else none) {}).isSome = true := by
    decide +kernel
  obtain ⟨mid, hmid, hstatuses⟩ := Option.map_eq_some_iff.1 hrun
  obtain ⟨fin, hfin⟩ := Option.isSome_iff_exists.1 hwhole
  rw [List.foldlM_append, hmid] at hfin
  obtain ⟨pre, hpre, hclean⟩ := Trace.of_guarded_foldlM hmid
  obtain ⟨post, hpost, hclean'⟩ := Trace.of_guarded_foldlM hfin
  have hall : ∀ st ∈ pre ++ post, Clean settings st.before st.act := by
    intro st hst
    rcases List.mem_append.1 hst with hst | hst
    · simpa using hclean st hst
    · simpa using hclean' st hst
  exact ⟨pre, post, mid, fin, hpre, hpost, hall, hstatuses, ended_runs_stay hpre hpost hall⟩

/-- **A failed setup ends a run with its job pending, and a run cancelled before its context
is registered is started after it has ended.** -/
theorem ended_runs_disturbed :
    (¬ ∀ (s : Settings) (tr : List (Step System Action)) (sys : System), Reaches s tr sys →
      ∀ r ∈ sys.db.runs, r.status.terminal = true →
        ∀ j ∈ r.jobs, j.status.unfinished = false) ∧
    ¬ ∀ (s : Settings) (pre post : List (Step System Action)) (mid fin : System),
      Reaches s pre mid → Trace (fun a act b => step s a act = some b) mid post fin →
      ∀ r ∈ mid.db.runs, r.status.terminal = true → ∃ r' ∈ fin.db.runs, Same r r' := by
  constructor
  · intro hall
    have hrun : (Sample.setupFailure.foldlM (step settings) {}).map
        Sample.statuses = some [(1, .error, [("build", .pending)])] := by
      decide +kernel
    obtain ⟨tr, sys, htr, -, hstatuses⟩ := Trace.of_foldlM_map hrun
    obtain ⟨r, hr, hstatus, hjobs⟩ := Sample.exists_run hstatuses
    obtain ⟨j, hjob, hpending⟩ := List.map_eq_singleton_iff.1 hjobs
    have hunfinished := hall _ tr sys htr r hr (by rw [hstatus]; rfl) j (by simp [hjob])
    rw [(Prod.mk.inj hpending).2] at hunfinished
    cases hunfinished
  · intro hall
    have hrun : (Sample.earlyCancel.foldlM (step settings) {}).map
        Sample.statuses = some [(1, .canceled, [("build", .canceled)])] := by
      decide +kernel
    have hwhole : ((Sample.earlyCancel ++ Sample.lateStart).foldlM
        (step settings) {}).map Sample.statuses =
        some [(1, .canceled, [("build", .running)])] := by
      decide +kernel
    obtain ⟨mid, hmid, hstatuses⟩ := Option.map_eq_some_iff.1 hrun
    obtain ⟨fin, hfin, hstatuses'⟩ := Option.map_eq_some_iff.1 hwhole
    rw [List.foldlM_append, hmid] at hfin
    obtain ⟨pre, hpre, -⟩ := Trace.of_foldlM hmid
    obtain ⟨post, hpost, -⟩ := Trace.of_foldlM hfin
    obtain ⟨r, hr, hstatus, hjobs⟩ := Sample.exists_run hstatuses
    obtain ⟨r', hr', -, -, hsame⟩ := hall _ pre post mid fin hpre hpost r hr (by rw [hstatus]; rfl)
    have hrow : (r'.id, r'.status, r'.jobs.map fun j => (j.name, j.status)) ∈
        Sample.statuses fin := List.mem_map_of_mem hr'
    rw [hstatuses', hsame, hjobs] at hrow
    simp at hrow

end Manager
