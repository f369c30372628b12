import ForgeCI.CompileOrder
import ForgeCI.LocalLoop

/-!
# The workers of the in-process scheduler

`executeJob` beside the loop of `Runner.Run`.  A worker restores artifacts, calls the executor,
publishes artifacts and sends its completion; the job's log is written while the executor runs.
Every call of the artifact session, the executor and the log store may fail, and the context may
be cancelled between any two steps.
-/

namespace Runner

open Pipeline Traces

/-- The parts of a `Runner` that `executeJob` asks for.  The cache reports no errors. -/
structure Setup where
  maxParallel : Int
  artifacts : Bool
  logs : Bool
  /-- `r.Executor.(JobExecutor)` holds. -/
  jobExecutor : Bool

/-- `executor.Result`. -/
structure ExecResult where
  exitCode : Int
  failed : Bool

/-- Where `executeJob` stands. -/
inductive Stage
  /-- In `Artifacts.Restore`. -/
  | restore
  /-- In a call of the executor, with `rest` steps to follow. -/
  | execute (rest : Nat)
  /-- In `Artifacts.Publish`. -/
  | publish
  /-- After an error, in front of the test of the context; the job ends as failed or canceled. -/
  | judge (internalError : Bool)
  /-- The completion is in the channel. -/
  | sent (state : State) (internalError : Bool)
deriving DecidableEq

structure Worker where
  stage : Stage
  /-- An append of the job's log is under way. -/
  appending : Bool := false
  /-- `logs.Err() != nil`. -/
  logErr : Bool := false

/-- `publish`. -/
def Setup.publish (c : Setup) : Stage :=
  if c.artifacts then .publish else .sent .passed false

/-- The calls of the executor. -/
def Setup.execute (c : Setup) (job : Config.Job) : Stage :=
  if c.jobExecutor then .execute 0
  else match job.steps.length with
    | 0 => c.publish
    | rest + 1 => .execute rest

/-- `executeJob` up to its first call. -/
def Setup.begin (c : Setup) (job : Config.Job) : Stage :=
  if c.artifacts then .restore else c.execute job

inductive WorkerAction
  /-- `Restore` returns; an error is one of the pipeline or not. -/
  | restored (err : Option Bool)
  /-- `Writer.Write` has tested the context and appends. -/
  | write
  | appended (failed : Bool)
  /-- The executor returns. -/
  | returned (r : ExecResult)
  | published (err : Option Bool)
  /-- `ctx.Err() != nil` after an error. -/
  | judged

/-- `executeJob`. -/
def Worker.step (c : Setup) (job : Config.Job) (contextDone : Bool) (w : Worker) :
    WorkerAction → Option Worker
  | .restored err =>
      if w.stage = .restore then
        match err with
        | some pipeline => some { w with stage := .judge !pipeline }
        | none => some { w with stage := c.execute job }
      else none
  | .write =>
      match w.stage with
      | .execute _ =>
          if c.logs && !contextDone && !w.logErr && !w.appending then
            some { w with appending := true }
          else none
      | _ => none
  | .appended failed =>
      if w.appending then some { w with appending := false, logErr := failed } else none
  | .returned r =>
      match w.stage with
      | .execute rest =>
          -- The log is asked before the context.
          if w.logErr then some { w with stage := .sent .failed true }
          else if r.failed then some { w with stage := .judge (decide (r.exitCode < 0)) }
          else match rest with
            | 0 => some { w with stage := c.publish }
            | rest + 1 => some { w with stage := .execute rest }
      | _ => none
  | .published err =>
      if w.stage = .publish then
        match err with
        | some pipeline => some { w with stage := .judge !pipeline }
        | none => some { w with stage := .sent .passed false }
      else none
  | .judged =>
      match w.stage with
      | .judge internalError =>
          if contextDone then some { w with stage := .sent .canceled false }
          else some { w with stage := .sent .failed internalError }
      | _ => none

/-- The call returns an error. -/
def WorkerAction.fails : WorkerAction → Bool
  | .restored err | .published err => err.isSome
  | .appended failed => failed
  | .returned r => r.failed
  | .write | .judged => false

/-- How `executeJob` goes on: to its next call or to its end, after an error to the test of the
context, and from there to the end it has deserved. -/
inductive Worker.Moves (c : Setup) (job : Config.Job) (contextDone : Bool) (w : Worker) :
    WorkerAction → Stage → Prop
  | next {a : WorkerAction} {stage : Stage}
      (h : stage = c.execute job ∨ stage = c.publish ∨ stage = .sent .passed false ∨
        ∃ rest, stage = .execute rest) : Moves c job contextDone w a stage
  | error {a : WorkerAction} {internalError : Bool} (h : a.fails = true) :
      Moves c job contextDone w a (.judge internalError)
  | logError {r : ExecResult} (h : w.logErr = true) :
      Moves c job contextDone w (.returned r) (.sent .failed true)
  | judged {internalError : Bool} (h : w.stage = .judge internalError) :
      Moves c job contextDone w .judged
        (if contextDone then .sent .canceled false else .sent .failed internalError)

variable {c : Setup} {job : Config.Job} {done : Bool}

/-- **A step of a worker.** -/
theorem Worker.step_moves {w w' : Worker}
    {a : WorkerAction} (hstep : w.step c job done a = some w') : w'.stage = w.stage ∨
      ((∀ state internalError, w.stage ≠ .sent state internalError) ∧
        w.Moves c job done a w'.stage) := by
  cases a with
  | restored err =>
    simp only [Worker.step, Option.ite_none_right_eq_some] at hstep
    obtain ⟨hstage, hstep⟩ := hstep
    right
    refine ⟨by simp [hstage], ?_⟩
    cases err with
    | some pipeline =>
      cases hstep
      exact .error rfl
    | none =>
      cases hstep
      exact .next (.inl rfl)
  | write | appended failed => grind [Worker.step]
  | returned r =>
    simp only [Worker.step] at hstep
    split at hstep
    · rename_i rest hstage
      right
      refine ⟨by simp [hstage], ?_⟩
      split_ifs at hstep with hlog hfailed
      · cases hstep
        exact .logError hlog
      · cases hstep
        exact .error hfailed
      · cases rest with
        | zero =>
          cases hstep
          exact .next (.inr (.inl rfl))
        | succ rest =>
          cases hstep
          exact .next (.inr (.inr (.inr ⟨rest, rfl⟩)))
    · cases hstep
  | published err =>
    simp only [Worker.step, Option.ite_none_right_eq_some] at hstep
    obtain ⟨hstage, hstep⟩ := hstep
    right
    refine ⟨by simp [hstage], ?_⟩
    cases err with
    | some pipeline =>
      cases hstep
      exact .error rfl
    | none =>
      cases hstep
      exact .next (.inr (.inr (.inl rfl)))
  | judged =>
    simp only [Worker.step] at hstep
    split at hstep
    · rename_i internalError hstage
      right
      refine ⟨by simp [hstage], ?_⟩
      have hmoves : w.Moves c job done .judged _ := .judged hstage
      grind
    · cases hstep

/-- The calls of `executeJob` end in a pass when there are none. -/
theorem Setup.execute_stage (c : Setup) (job : Config.Job) :
    (∃ rest, c.execute job = .execute rest) ∨ c.execute job = c.publish := by
  unfold Setup.execute
  split_ifs
  · exact .inl ⟨0, rfl⟩
  · split
    · exact .inr rfl
    · exact .inl ⟨_, rfl⟩

/-- What holds of the calls and of a pass holds of every stage that a worker goes on to. -/
theorem Setup.next_stage {P : Stage → Prop}
    (hexecute : ∀ rest, P (.execute rest)) (hpublish : P .publish)
    (hpassed : P (.sent .passed false)) {stage : Stage}
    (h : stage = c.execute job ∨ stage = c.publish ∨ stage = .sent .passed false ∨
      ∃ rest, stage = .execute rest) : P stage := by
  have hlast : P c.publish := by grind [Setup.publish]
  rcases h with rfl | rfl | rfl | ⟨rest, rfl⟩
  · rcases c.execute_stage job with ⟨rest, hstage⟩ | hstage
    · rw [hstage]
      exact hexecute rest
    · rw [hstage]
      exact hlast
  · exact hlast
  · exact hpassed
  · exact hexecute rest

theorem Setup.begin_stage (c : Setup) (job : Config.Job) :
    c.begin job = .restore ∨ c.begin job = c.execute job := by
  unfold Setup.begin
  split_ifs
  · exact .inl rfl
  · exact .inr rfl

structure System where
  run : Execution
  /-- The worker of a job, from before it is started; none for a name without a node. -/
  worker : String → Option Worker

def System.start (c : Setup) (g : Graph) : System where
  run := Execution.start g
  worker name := (g.node? name).map fun node => { stage := c.begin node.job }

inductive Event
  | cancel
  | turn
  /-- `case <-ctx.Done()`. -/
  | contextDone
  /-- The loop takes the completion of a job. -/
  | receive (name : String)
  | work (name : String) (a : WorkerAction)

/-- What an event is to the loop. -/
def System.loopAction (s : System) : Event → Option Action
  | .cancel => some .cancel
  | .turn => some .turn
  | .contextDone => some .contextDone
  | .receive name =>
      match (s.worker name).map Worker.stage with
      | some (.sent state internalError) => some (.receive ⟨name, state, internalError⟩)
      | _ => none
  | .work _ _ => none

def System.step (c : Setup) (g : Graph) (s : System) : Event → Option System
  | .work name a =>
      match g.node? name, s.worker name with
      | some node, some w =>
          if name ∈ s.run.loop.workers then
            (w.step c node.job s.run.contextDone a).map fun w =>
              { s with worker := Function.update s.worker name (some w) }
          else none
      | _, _ => none
  | a => (s.loopAction a).bind fun act =>
      (s.run.step g c.maxParallel act).map fun run => { s with run }

/-- An execution of `Runner.Run` with its workers. -/
abbrev Works (c : Setup) (g : Graph) (tr : List (Step System Event)) (s : System) : Prop :=
  Trace (fun s a s' => s.step c g a = some s') (System.start c g) tr s

/-- What `executeJob` can return when the context is, or is not, done. -/
def Sendable (contextDone : Bool) (state : State) (internalError : Bool) : Prop :=
  (state = .passed ∧ internalError = false) ∨ state = .failed ∨
    (state = .canceled ∧ internalError = false ∧ contextDone = true)

/-- A completion of a worker is one that `executeJob` can return. -/
def Action.Honest (e : Execution) : Action → Prop
  | .receive c => Sendable e.contextDone c.state c.internalError
  | _ => True

theorem Sendable.mono {done done' : Bool} {state : State} {internalError : Bool}
    (h : Sendable done state internalError) (hdone : done = true → done' = true) :
    Sendable done' state internalError := by
  grind [Sendable]

theorem Sendable.terminal {state : State} {internalError : Bool}
    (h : Sendable done state internalError) : state.terminal = true := by
  rcases h with ⟨rfl, -⟩ | rfl | ⟨rfl, -⟩ <;> rfl

/-- What is sent after the executor or without it. -/
def Stage.Sound (contextDone : Bool) : Stage → Prop
  | .sent state internalError => Sendable contextDone state internalError
  | _ => True

theorem Setup.begin_sound (c : Setup) (job : Config.Job) (done : Bool) :
    (c.begin job).Sound done := by
  rcases c.begin_stage job with hstage | hstage
  · rw [hstage]
    trivial
  · exact Setup.next_stage (P := Stage.Sound done) (fun _ => trivial) trivial (.inl ⟨rfl, rfl⟩)
      (.inl hstage)

/-- **`executeJob` returns what it can.** -/
theorem Worker.step_sound {w w' : Worker}
    {a : WorkerAction} (h : w.stage.Sound done) (hstep : w.step c job done a = some w') :
    w'.stage.Sound done := by
  rcases Worker.step_moves hstep with hsame | ⟨-, hmoves⟩
  · rw [hsame]
    exact h
  · generalize w'.stage = stage at hmoves
    cases hmoves with
    | next hnext =>
      exact Setup.next_stage (P := Stage.Sound done) (fun _ => trivial) trivial
        (.inl ⟨rfl, rfl⟩) hnext
    | error => trivial
    | logError => exact .inr (.inl rfl)
    | judged =>
      split_ifs with hdone
      · exact .inr (.inr ⟨rfl, rfl, hdone⟩)
      · exact .inr (.inl rfl)

variable {c : Setup} {g : Graph} {s s' : System} {a : Event}
  {act : Action}

/-- The completions in the channel are honest. -/
def System.Honest (s : System) : Prop :=
  ∀ name w, s.worker name = some w → w.stage.Sound s.run.contextDone

theorem System.start_honest (c : Setup) (g : Graph) : (System.start c g).Honest := by
  intro name w hw
  obtain ⟨node, -, rfl⟩ := Option.map_eq_some_iff.1 hw
  exact c.begin_sound node.job _

theorem Execution.turn_contextDone (g : Graph) (maxParallel : Int) (e : Execution) :
    (e.turn g maxParallel).contextDone = e.contextDone := by
  unfold Execution.turn
  dsimp only
  split_ifs <;> rfl

/-- The context stays done. -/
theorem Execution.step_contextDone {e e' : Execution} {maxParallel : Int}
    (hstep : e.step g maxParallel act = some e') :
    e'.contextDone = (e.contextDone || decide (act = .cancel)) := by
  cases act with
  | cancel =>
    cases hstep
    simp
  | turn => grind [Execution.step, Execution.turn_contextDone]
  | receive c | contextDone => grind [Execution.step]

/-- What a step of the whole is: a step of the loop, or one of a worker that runs. -/
inductive System.Move (c : Setup) (g : Graph) (s : System) : Event → System → Prop
  | loop {a : Event} {act : Action} {run : Execution} (hact : s.loopAction a = some act)
      (hstep : s.run.step g c.maxParallel act = some run) : Move c g s a { s with run }
  | work {name : String} {a : WorkerAction} {node : Node} {w w' : Worker}
      (hnode : g.node? name = some node) (hw : s.worker name = some w)
      (hrunning : name ∈ s.run.loop.workers)
      (hstep : w.step c node.job s.run.contextDone a = some w') :
      Move c g s (.work name a) { s with worker := Function.update s.worker name (some w') }

theorem System.step_move (hstep : s.step c g a = some s') : s.Move c g a s' := by
  by_cases hwork : ∃ name act, a = .work name act
  · obtain ⟨name, act, rfl⟩ := hwork
    simp only [System.step] at hstep
    split at hstep
    · rename_i node w hnode hw
      simp only [Option.ite_none_right_eq_some] at hstep
      obtain ⟨hrunning, hstep⟩ := hstep
      obtain ⟨w', hw', rfl⟩ := Option.map_eq_some_iff.1 hstep
      exact .work hnode hw hrunning hw'
    · cases hstep
  · have hloop : s.step c g a = (s.loopAction a).bind fun act =>
        (s.run.step g c.maxParallel act).map fun run => { s with run } := by
      cases a with
      | work name act => exact absurd ⟨name, act, rfl⟩ hwork
      | _ => rfl
    rw [hloop] at hstep
    obtain ⟨act, hact, hstep⟩ := Option.bind_eq_some_iff.1 hstep
    obtain ⟨run, hrun, rfl⟩ := Option.map_eq_some_iff.1 hstep
    exact .loop hact hrun

theorem System.loopAction_receive {name : String}
    (h : s.loopAction (.receive name) = some act) : ∃ w state internalError,
      s.worker name = some w ∧ w.stage = .sent state internalError ∧
        act = .receive ⟨name, state, internalError⟩ := by
  simp only [System.loopAction] at h
  split at h
  · rename_i state internalError hstage
    obtain ⟨w, hw, hsent⟩ := Option.map_eq_some_iff.1 hstage
    exact ⟨w, state, internalError, hw, hsent, (Option.some.inj h).symm⟩
  · cases h

theorem System.loopAction_honest (h : s.Honest) (hact : s.loopAction a = some act) :
    act.Honest s.run := by
  cases a with
  | receive name =>
    obtain ⟨w, state, internalError, hw, hsent, rfl⟩ := System.loopAction_receive hact
    have hstage := h name w hw
    rw [hsent] at hstage
    exact hstage
  | work name a => cases hact
  | _ =>
    cases hact
    trivial

/-- What was honest stays honest. -/
theorem Stage.Sound.mono {done done' : Bool} {stage : Stage} (h : stage.Sound done)
    (hdone : done = true → done' = true) : stage.Sound done' := by
  cases stage with
  | sent state internalError => exact Sendable.mono h hdone
  | _ => trivial

/-- **To the loop the workers are honest.** -/
theorem System.step_honest (h : s.Honest) (hstep : s.step c g a = some s') :
    s'.Honest ∧ (s'.run = s.run ∨
      ∃ act, act.Honest s.run ∧ s.run.step g c.maxParallel act = some s'.run) := by
  cases System.step_move hstep with
  | @loop _ act run hact hrun =>
    refine ⟨?_, .inr ⟨act, System.loopAction_honest h hact, hrun⟩⟩
    intro name w hw
    apply (h name w hw).mono
    grind [Execution.step_contextDone]
  | @work name _ node w w' hnode hw hrunning hwork =>
    refine ⟨?_, .inl rfl⟩
    intro name' v hv
    change Function.update s.worker name (some w') name' = some v at hv
    by_cases hname : name' = name
    · rw [hname, Function.update_self] at hv
      cases hv
      exact Worker.step_sound (h _ _ hw) hwork
    · rw [Function.update_of_ne hname] at hv
      exact h name' v hv

end Runner
