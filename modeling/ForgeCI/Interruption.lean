import ForgeCI.LocalMode
import ForgeCI.SchedulerSafety

/-!
# How a cancelled run is reported

When the context of `Runner.Run` is cancelled and nothing fails before, the jobs that do not pass
should end as canceled and the run as interrupted.  Two things come in between.  A worker asks the
log for its first error before it asks the context, and an append that was under way when the
context was cancelled leaves one.  And the loop looks at the context at its head only: if the
`select` takes the completion of the last job, the head is not reached again.
-/

namespace Runner

open Pipeline Traces

variable {g : Graph} {maxParallel : Int} {l : Loop} {e e' : Execution} {n name : String}
variable {c : Setup} {s s' : System} {a : Event}

/-- The errors of the artifact session, the executor and the log store come after the
cancellation. -/
def Event.Caused (s : System) : Event → Prop
  | .work _ a => a.fails = true → s.run.contextDone = true
  | _ => True

instance (s : System) (a : Event) : Decidable (a.Caused s) := by
  cases a <;> unfold Event.Caused <;> infer_instance

/-- A run in which some job does not pass is reported as interrupted, and `execute` records it as
canceled. -/
def ReportsCancellation (g : Graph) (e : Execution) : Prop :=
  (∃ n ∈ g.order, e.loop.state? n ≠ some .passed) →
    e.loop.result.interrupted = true ∧ e.loop.result.internalError = false ∧
      (∀ n, e.loop.state? n ≠ some .failed ∧ e.loop.state? n ≠ some .blocked) ∧
      ∀ id names, Manager.Phase.afterRun id e names none = .finishing id .canceled none

/-- The log of a job has no error when the executor returns, and the loop does not take the
completion of a canceled job, as the last one, before it has seen the cancellation. -/
def Event.Clean (g : Graph) (s : System) : Event → Prop
  | .work name (.returned _) => (s.worker name).map Worker.logErr ≠ some true
  | .receive name => s.run.loop.canceling = false →
      s.run.loop.terminal + 1 = g.nodes.length →
        (s.worker name).map Worker.stage ≠ some (.sent .canceled false)
  | _ => True

instance (g : Graph) (s : System) (a : Event) : Decidable (a.Clean g s) := by
  rcases a with _ | _ | _ | _ | ⟨_, _ | _ | _ | _ | _ | _⟩ <;> unfold Event.Clean <;>
    infer_instance

/-- Where every job passes none is failed or blocked. -/
theorem Loop.Follows.no_failure (hg : Sound g) (h : l.Follows g fun _ => .pass) (n : String) :
    l.state? n ≠ some .failed ∧ l.state? n ≠ some .blocked := by
  have hfailed : ∀ n, l.state? n ≠ some .failed := by
    intro n hn
    have hfits := h.fits n
    rw [Fits, hn] at hfits
    exact hfits.2.1 rfl
  refine ⟨hfailed n, ?_⟩
  intro hblocked
  -- The first blocked job of the order has no need that could have blocked it.
  obtain ⟨m, hm, hfirst, hnone⟩ := hg.topological.exists_first
    (P := fun n => l.state? n = some .blocked) ⟨n, h.mem hblocked, hblocked⟩
  have hfits := h.fits m
  rw [Fits, hfirst] at hfits
  obtain ⟨d, hd, hbad | hbad⟩ := hasFailedDependency_iff.1 hfits.2
  · exact hfailed d hbad
  · exact (hnone d hd).2 hbad

theorem Loop.Follows.not_canceled {outcome : String → Outcome} (h : l.Follows g outcome)
    (n : String) : l.state? n ≠ some .canceled := by
  intro hn
  have hfits := h.fits n
  rw [Fits, hn] at hfits
  exact hfits

/-- The loop when all errors come from the cancellation and no worker took one for another. -/
structure Execution.Calm (g : Graph) (e : Execution) : Prop where
  follows : e.contextDone = false → e.Follows g fun _ => .pass
  internalError : e.loop.result.internalError = false
  states : ∀ n, e.loop.state? n ≠ some .failed ∧ e.loop.state? n ≠ some .blocked
  /-- A canceled job that the loop has not understood is seen at the head. -/
  unseen : e.loop.canceling = false → (∃ n, e.loop.state? n = some .canceled) →
    e.phase = .head ∧ e.loop.terminal < g.nodes.length

theorem Execution.Follows.calm (hg : Sound g) (h : e.Follows g fun _ => .pass) : e.Calm g where
  follows := fun _ => h
  internalError := by
    rw [← Bool.not_eq_true, h.loop.internalError]
    grind
  states := h.loop.no_failure hg
  unseen := by
    rintro - ⟨n, hn⟩
    exact absurd hn (h.loop.not_canceled n)

/-- The completions that leave the loop calm. -/
def Action.Quiet (g : Graph) (e : Execution) : Action → Prop
  | .receive c => c.internalError = false ∧ (c.state = .passed ∨ (c.state = .canceled ∧
      e.contextDone = true ∧
      ¬ (e.loop.canceling = false ∧ e.loop.terminal + 1 = g.nodes.length)))
  | _ => True

theorem Execution.Calm.turn (hg : Sound g) (hregular : e.Regular g maxParallel) (h : e.Calm g)
    (hphase : e.phase = .head) : (e.turn g maxParallel).Calm g := by
  cases hdone : e.contextDone with
  | false => exact Execution.Follows.calm hg ((h.follows hdone).turn hg hphase).1
  | true =>
    have hfollows : (e.turn g maxParallel).contextDone = false →
        (e.turn g maxParallel).Follows g fun _ => .pass := by grind [Execution.turn_contextDone]
    have hscheduled : e.scheduled g maxParallel = e.loop.observeContext true :=
      Execution.scheduled_of_done hdone
    have hinternal : (e.scheduled g maxParallel).result.internalError = false := by
      grind [h.internalError, Loop.observeContext]
    have hcanceling : (e.scheduled g maxParallel).canceling = true := by
      rw [hregular.scheduled_canceling hg, hdone]
    have hstate : ∀ n, (e.scheduled g maxParallel).state? n = e.loop.state? n := by
      intro n
      rw [hscheduled, Loop.observeContext_state?]
    rcases hregular.turn_loop hg with ⟨hlast, hloop⟩ | hloop | ⟨-, hloop⟩
    · refine ⟨hfollows, hloop ▸ h.internalError, hloop ▸ h.states, ?_⟩
      grind [h.unseen]
    · refine ⟨hfollows, hloop ▸ hinternal, ?_, ?_⟩
      · grind [h.states]
      · grind
    · refine ⟨hfollows, ?_, ?_, ?_⟩
      · rw [hloop, Loop.cancelPending, Loop.dropPending_flags.2.2]
        exact hinternal
      · intro n
        have hcases :
            (e.turn g maxParallel).loop.state? n = (e.scheduled g maxParallel).state? n ∨
            (e.turn g maxParallel).loop.state? n = some .canceled :=
          hloop ▸ Loop.dropPending_state
        grind [h.states]
      · grind [Loop.cancelPending, Loop.dropPending_flags]

theorem Execution.Calm.receive (hg : Sound g) (hregular : e.Regular g maxParallel) (h : e.Calm g)
    {c : Completion} (hquiet : (Action.receive c).Quiet g e) (hphase : e.phase = .waiting)
    (hworker : c.name ∈ e.loop.workers) :
    Execution.Calm g { e with loop := e.loop.receive c, phase := .head } := by
  obtain ⟨hinternal, hstate⟩ := hquiet
  have hfinal : c.state.terminal = true := by
    rcases hstate with hstate | ⟨hstate, -⟩ <;> rw [hstate] <;> rfl
  have hcount := (hregular.tallied.loop.receive hg hworker hfinal).terminal
  refine ⟨?_, ?_, ?_, ?_⟩
  · intro hopen
    have hpassed : c.state = .passed := by grind
    have hc : c = Outcome.pass.completion c.name := by
      obtain ⟨name, state, internalError⟩ := c
      obtain rfl : state = .passed := hpassed
      obtain rfl : internalError = false := hinternal
      rfl
    refine ⟨?_, hopen, fun hp => (by cases hp), fun hp => (by cases hp)⟩
    have hreceived := (h.follows hopen).loop.receive hg hworker
    rw [← hc] at hreceived
    exact hreceived
  · show (e.loop.result.internalError || c.internalError) = false
    rw [h.internalError, hinternal]
    rfl
  · grind [h.states, Loop.state?_receive]
  · rintro hopen ⟨n, hn⟩
    refine ⟨rfl, ?_⟩
    change (e.loop.receive c).state? n = _ at hn
    rw [Loop.state?_receive] at hn
    split_ifs at hn with hname
    · rcases hstate with hstate | ⟨-, -, hlast⟩
      · rw [hstate] at hn
        cases hn
      · have hle : e.loop.terminal + 1 ≤ g.nodes.length := by
          grind [hg.length, Loop.receive_terminal]
        have hne : e.loop.terminal + 1 ≠ g.nodes.length := fun heq => hlast ⟨hopen, heq⟩
        show e.loop.terminal + 1 < g.nodes.length
        omega
    · have hhead := (h.unseen hopen ⟨n, hn⟩).1
      rw [hphase] at hhead
      cases hhead

theorem Execution.Calm.step (hg : Sound g) (hregular : e.Regular g maxParallel) (h : e.Calm g)
    {act : Action} (hquiet : act.Quiet g e) (hstep : e.step g maxParallel act = some e') :
    e'.Calm g := by
  cases act with
  | cancel =>
    cases hstep
    exact ⟨fun hopen => (by cases hopen), h.internalError, h.states, h.unseen⟩
  | turn =>
    simp only [Execution.step, Option.ite_none_right_eq_some] at hstep
    cases hstep.2
    exact h.turn hg hregular hstep.1
  | receive c =>
    simp only [Execution.step, Option.ite_none_right_eq_some] at hstep
    cases hstep.2
    exact h.receive hg hregular hquiet hstep.1.1 hstep.1.2
  | contextDone =>
    simp only [Execution.step, Option.ite_none_right_eq_some] at hstep
    obtain ⟨⟨-, -, hdone⟩, hstep⟩ := hstep
    cases hstep
    refine ⟨?_, h.internalError, h.states, ?_⟩
    · grind
    · intro hopen hcanceled
      exact ⟨rfl, (h.unseen hopen hcanceled).2⟩

/-- A worker that fails, or has failed, has seen the cancellation. -/
def Stage.Calm (contextDone : Bool) : Stage → Prop
  | .judge _ => contextDone = true
  | .sent state internalError => internalError = false ∧
      (state = .passed ∨ (state = .canceled ∧ contextDone = true))
  | _ => True

theorem Setup.begin_calm (c : Setup) (job : Config.Job) (done : Bool) :
    (c.begin job).Calm done := by
  rcases c.begin_stage job with hstage | hstage
  · rw [hstage]
    trivial
  · exact Setup.next_stage (P := Stage.Calm done) (fun _ => trivial) trivial ⟨rfl, .inl rfl⟩
      (.inl hstage)

theorem Stage.Calm.mono {done done' : Bool} {stage : Stage} (h : stage.Calm done)
    (hdone : done = true → done' = true) : stage.Calm done' := by
  cases stage with
  | judge internalError => exact hdone h
  | sent state internalError =>
    obtain ⟨hinternal, hpassed | ⟨hcanceled, hcontext⟩⟩ := h
    · exact ⟨hinternal, .inl hpassed⟩
    · exact ⟨hinternal, .inr ⟨hcanceled, hdone hcontext⟩⟩
  | _ => trivial

theorem Worker.step_calm {job : Config.Job} {done : Bool} {w w' : Worker} {a : WorkerAction}
    (h : w.stage.Calm done) (hcaused : a.fails = true → done = true)
    (hlog : ∀ r, a = .returned r → w.logErr = false)
    (hstep : w.step c job done a = some w') : w'.stage.Calm done := by
  rcases Worker.step_moves hstep with hsame | ⟨-, hmoves⟩
  · rw [hsame]
    exact h
  · generalize w'.stage = stage at hmoves
    cases hmoves with
    | next hnext =>
      exact Setup.next_stage (P := Stage.Calm done) (fun _ => trivial) trivial
        ⟨rfl, .inl rfl⟩ hnext
    | error hfails => exact hcaused hfails
    | @logError r herr =>
      rw [hlog r rfl] at herr
      cases herr
    | judged hstage =>
      rw [hstage] at h
      change done = true at h
      rw [if_pos h]
      exact ⟨rfl, .inr ⟨rfl, h⟩⟩

/-- The whole, when nothing comes in between. -/
structure System.Calm (g : Graph) (s : System) : Prop where
  run : s.run.Calm g
  workers : ∀ name w, s.worker name = some w → w.stage.Calm s.run.contextDone

theorem System.calm_start (hg : Sound g) (c : Setup) : (System.start c g).Calm g where
  run := Execution.Follows.calm hg (Execution.follows_start hg)
  workers := by
    intro name w hw
    obtain ⟨node, -, rfl⟩ := Option.map_eq_some_iff.1 hw
    exact c.begin_calm node.job _

theorem System.Calm.loopAction_quiet {act : Action} (h : s.Calm g) (hclean : a.Clean g s)
    (hact : s.loopAction a = some act) : act.Quiet g s.run := by
  cases a with
  | receive name =>
    obtain ⟨w, state, internalError, hw, hsent, rfl⟩ := System.loopAction_receive hact
    have hstage := h.workers name w hw
    rw [hsent] at hstage
    obtain ⟨hinternal, hpassed | ⟨hcanceled, hdone⟩⟩ := hstage
    · exact ⟨hinternal, .inl hpassed⟩
    · refine ⟨hinternal, .inr ⟨hcanceled, hdone, ?_⟩⟩
      rintro ⟨hopen, hlast⟩
      apply hclean hopen hlast
      rw [hw, Option.map_some, hsent, hinternal, hcanceled]
  | work name a => cases hact
  | _ =>
    cases hact
    trivial

theorem System.Calm.step (hg : Sound g) (hregular : s.Regular c g) (h : s.Calm g)
    (hcaused : a.Caused s) (hclean : a.Clean g s) (hstep : s.step c g a = some s') :
    s'.Calm g := by
  cases System.step_move hstep with
  | @loop _ act run hact hrun =>
    refine ⟨h.run.step hg hregular.run (h.loopAction_quiet hclean hact) hrun, ?_⟩
    intro name w hw
    apply (h.workers name w hw).mono
    grind [Execution.step_contextDone]
  | @work name act node w w' hnode hw hrunning hwork =>
    refine ⟨h.run, ?_⟩
    intro name' v hv
    change Function.update s.worker name (some w') name' = some v at hv
    by_cases hname : name' = name
    · rw [hname, Function.update_self] at hv
      cases hv
      refine Worker.step_calm (h.workers name w hw) hcaused ?_ hwork
      rintro r rfl
      change (s.worker name).map Worker.logErr ≠ some true at hclean
      grind
    · grind [h.workers]

/-- What a calm run reports. -/
theorem System.Calm.reports (hregular : s.Regular c g) (h : s.Calm g)
    (hreturned : s.run.phase = .returned) : ReportsCancellation g s.run := by
  rintro ⟨n, hn, hnot⟩
  have hcanceled : s.run.loop.state? n = some .canceled := by
    obtain ⟨state, hmem, hstate⟩ :=
      Loop.ended_iff.1 (hregular.run.tallied.returned hreturned n hn)
    have hgood := h.run.states n
    grind
  have hcanceling : s.run.loop.canceling = true := by
    by_contra hopen
    rw [Bool.not_eq_true] at hopen
    have hhead := (h.run.unseen hopen ⟨n, hcanceled⟩).1
    rw [hreturned] at hhead
    cases hhead
  have hinterrupted : s.run.loop.result.interrupted = true :=
    hregular.run.interrupted.trans hcanceling
  refine ⟨hinterrupted, h.run.internalError, h.run.states, ?_⟩
  intro id names
  simp [Manager.Phase.afterRun, h.run.internalError, hinterrupted]

/-- A job that is not pending changes only when its completion is taken. -/
theorem Execution.Regular.step_started (hg : Sound g) (h : e.Regular g maxParallel) {act : Action}
    (hstep : e.step g maxParallel act = some e') (hn : e.loop.state? n ≠ some .pending) :
    e'.loop.state? n = e.loop.state? n ∨
      ∃ c, act = .receive c ∧ c.name = n ∧ e'.loop.state? n = some c.state := by
  cases act with
  | cancel =>
    cases hstep
    exact .inl rfl
  | turn =>
    simp only [Execution.step, Option.ite_none_right_eq_some] at hstep
    cases hstep.2
    exact .inl ((h.tallied.turn hg).2.kept n hn)
  | receive c =>
    simp only [Execution.step, Option.ite_none_right_eq_some] at hstep
    cases hstep.2
    by_cases hname : n = c.name
    · exact .inr ⟨c, rfl, hname.symm, by simp [hname]⟩
    · exact .inl (by simp [hname])
  | contextDone => grind [Execution.step]

/-- Once every job is counted the loop changes nothing. -/
theorem Execution.Regular.step_counted (hg : Sound g) (h : e.Regular g maxParallel) {act : Action}
    (hstep : e.step g maxParallel act = some e') (hall : e.loop.terminal = g.nodes.length) :
    e'.loop = e.loop := by
  cases act with
  | cancel =>
    cases hstep
    rfl
  | turn => grind [Execution.step, Execution.turn_eq]
  | receive c =>
    simp only [Execution.step, Option.ite_none_right_eq_some] at hstep
    have hrunning := (h.tallied.loop.workers c.name).1 hstep.1.2
    have hended := h.tallied.loop.all_ended hg (by omega) c.name (h.tallied.loop.mem hrunning)
    simp [Loop.ended, hrunning, State.terminal] at hended
  | contextDone => grind [Execution.step]

/-- The worker of the job has sent an internal error. -/
def System.Doomed (name : String) (s : System) : Prop :=
  (s.worker name).map Worker.stage = some (.sent .failed true) ∧
    (s.run.loop.state? name = some .running ∨ s.run.loop.state? name = some .failed)

/-- The last job was canceled and the loop has not seen it. -/
def System.Missed (g : Graph) (name : String) (s : System) : Prop :=
  s.run.loop.terminal = g.nodes.length ∧ s.run.loop.result.interrupted = false ∧
    s.run.loop.state? name = some .canceled

theorem System.Doomed.step (hg : Sound g) (hregular : s.Regular c g) (h : s.Doomed name)
    (hstep : s.step c g a = some s') : s'.Doomed name := by
  obtain ⟨hsent, hstate⟩ := h
  cases System.step_move hstep with
  | @loop _ act run hact hrun =>
    refine ⟨hsent, ?_⟩
    have hstarted : s.run.loop.state? name ≠ some .pending := by
      rcases hstate with hstate | hstate <;> rw [hstate] <;> decide
    rcases hregular.run.step_started hg hrun hstarted with hsame | ⟨c, rfl, hname, hnew⟩
    · grind
    · right
      show run.loop.state? name = _
      rw [hnew]
      cases a with
      | receive name' => grind [System.loopAction_receive]
      | _ => cases hact
  | @work name' act node w w' hnode hw hrunning hwork =>
    refine ⟨?_, hstate⟩
    show (Function.update s.worker name' (some w') name).map Worker.stage = _
    by_cases hname : name = name'
    · rw [hname, Function.update_self, Option.map_some]
      rw [hname, hw, Option.map_some] at hsent
      rcases Worker.step_moves hwork with hsame | ⟨hopen, -⟩
      · rw [hsame]
        exact hsent
      · exact absurd (Option.some.inj hsent) (hopen _ _)
    · rw [Function.update_of_ne hname]
      exact hsent

theorem System.Missed.step (hg : Sound g) (hregular : s.Regular c g) (h : s.Missed g name)
    (hstep : s.step c g a = some s') : s'.Missed g name := by
  cases System.step_move hstep with
  | @loop _ act run hact hrun =>
    unfold System.Missed
    rw [show (System.mk run s.worker).run.loop = s.run.loop from
      hregular.run.step_counted hg hrun h.1]
    exact h
  | work => exact h

theorem System.Doomed.misreports (hregular : s.Regular c g) (h : s.Doomed name)
    (hreturned : s.run.phase = .returned) : ¬ ReportsCancellation g s.run := by
  intro hreports
  have hfailed : s.run.loop.state? name = some .failed := by
    rcases h.2 with hrunning | hfailed
    · have hended := hregular.run.tallied.returned hreturned name
        (hregular.run.tallied.loop.mem hrunning)
      simp [Loop.ended, hrunning, State.terminal] at hended
    · exact hfailed
  have hnot : s.run.loop.state? name ≠ some .passed := by
    rw [hfailed]
    decide
  obtain ⟨-, -, hgood, -⟩ := hreports ⟨name, hregular.run.tallied.loop.mem hfailed, hnot⟩
  exact (hgood name).1 hfailed

theorem System.Missed.misreports (hregular : s.Regular c g) (h : s.Missed g name) :
    ¬ ReportsCancellation g s.run := by
  intro hreports
  have hnot : s.run.loop.state? name ≠ some .passed := by
    rw [h.2.2]
    decide
  obtain ⟨hinterrupted, -⟩ := hreports ⟨name, hregular.run.tallied.loop.mem h.2.2, hnot⟩
  rw [h.2.1] at hinterrupted
  cases hinterrupted

/-- A step that is not clean leaves its mark. -/
theorem System.Regular.marked (h : s.Regular c g) (hclean : ¬ a.Clean g s)
    (hstep : s.step c g a = some s') : ∃ name, s'.Doomed name ∨ s'.Missed g name := by
  cases System.step_move hstep with
  | @loop _ act run hact hrun =>
    cases a with
    | receive name =>
      simp only [Event.Clean, Ne, Classical.not_imp, not_not] at hclean
      obtain ⟨hopen, hlast, hstage⟩ := hclean
      obtain ⟨w, state, internalError, hw, hsent, rfl⟩ := System.loopAction_receive hact
      rw [hw, Option.map_some, hsent] at hstage
      cases hstage
      simp only [Execution.step, Option.ite_none_right_eq_some] at hrun
      cases hrun.2
      refine ⟨name, .inr ⟨hlast, h.run.interrupted.trans hopen, ?_⟩⟩
      simp
    | work name a => cases hact
    | _ => exact absurd trivial hclean
  | @work name act node w w' hnode hw hrunning hwork =>
    cases act with
    | returned r =>
      simp only [Event.Clean, Ne, not_not] at hclean
      rw [hw, Option.map_some] at hclean
      have hlog : w.logErr = true := Option.some.inj hclean
      refine ⟨name, .inl ⟨?_, .inl ((h.run.tallied.loop.workers name).1 hrunning)⟩⟩
      grind [Worker.step]
    | _ => exact absurd trivial hclean

/-- **How a cancelled run is reported.**  When all errors come from the cancellation, a run that
returns reports it as a cancellation exactly when no executor returns after the log of its job
has met an error, and the completion of a canceled job is not taken, as the last one, by a loop
that has not seen the cancellation. -/
theorem cancellation_reported {cfg : Config.Pipeline} {r : Ranges cfg}
    {tr : List (Step System Event)} (hvalid : Config.validate cfg = .ok ())
    (hcompile : compileIn cfg r = .ok g) (h : Works c g tr s)
    (hcaused : ∀ st ∈ tr, st.act.Caused st.before) (hreturned : s.run.phase = .returned) :
    ReportsCancellation g s.run ↔ ∀ st ∈ tr, st.act.Clean g st.before := by
  have hg := compileIn_sound hvalid hcompile
  constructor
  · intro hreports
    by_contra hall
    push Not at hall
    obtain ⟨st, hst, hclean⟩ := hall
    obtain ⟨pre, post, rfl⟩ := List.append_of_mem hst
    obtain ⟨hpre, hstep, hpost⟩ := h.split
    have hbefore := Works.regular hg hpre
    obtain ⟨name, hmark⟩ := hbefore.marked hclean hstep
    -- The mark stays to the end of the run.
    have hend : s.Regular c g ∧ (s.Doomed name ∨ s.Missed g name) := by
      apply hpost.final_invariant (fun s => s.Regular c g ∧ (s.Doomed name ∨ s.Missed g name))
        ⟨(hbefore.step hg hstep).1, hmark⟩
      rintro s a s' ⟨hregular, hmark⟩ hstep
      refine ⟨(hregular.step hg hstep).1, ?_⟩
      rcases hmark with hdoomed | hmissed
      · exact .inl (hdoomed.step hg hregular hstep)
      · exact .inr (hmissed.step hg hregular hstep)
    rcases hend.2 with hdoomed | hmissed
    · exact hdoomed.misreports hend.1 hreturned hreports
    · exact hmissed.misreports hend.1 hreports
  · intro hclean
    have hend : s.Regular c g ∧ s.Calm g := by
      apply (h.guarded (fun s => s.Regular c g ∧ s.Calm g)
        (fun s a => a.Caused s ∧ a.Clean g s) ⟨Works.regular hg .nil, System.calm_start hg c⟩ ?_
        (fun st hst => ⟨hcaused st hst, hclean st hst⟩)).1
      rintro s a s' ⟨hregular, hcalm⟩ ⟨hcaused, hclean⟩ hstep
      exact ⟨(hregular.step hg hstep).1, hcalm.step hg hregular hcaused hclean hstep⟩
    exact hend.2.reports hend.1 hreturned

namespace Sample

/-- With durable logs. -/
def logged : Setup := { setup with logs := true }

/-- An append of the first job's log is under way when the context is cancelled. -/
def appendCut : List Event :=
  [.turn, .work "lint" .write, .cancel, .work "lint" (.appended true),
    .work "lint" (.returned ⟨-1, true⟩), .receive "lint", .turn]

/-- The last job is killed, and the loop takes its completion. -/
def lastTaken : List Event :=
  [.turn, .work "lint" (.returned ⟨0, false⟩), .receive "lint", .turn,
    .work "api" (.returned ⟨0, false⟩), .receive "api", .turn, .cancel,
    .work "web" (.returned ⟨-1, true⟩), .work "web" .judged, .receive "web", .turn]

/-- The run of a list of events that all meet a guard. -/
def follow (c : Setup) (guard : System → Event → Bool) (events : List Event) : Option System :=
  events.foldlM (fun s a => if guard s a then s.step c graph a else none) (System.start c graph)

/-- How a run ends. -/
def ending (s : System) : Phase × List (Option State) × Bool × Bool :=
  (s.run.phase, ["lint", "api", "web"].map s.run.loop.state?, s.run.loop.result.interrupted,
    s.run.loop.result.internalError)

theorem exists_works {c : Setup} {guard : System → Event → Bool} {events : List Event}
    {last : Phase × List (Option State) × Bool × Bool}
    (h : (follow c guard events).map ending = some last) :
    ∃ tr s, Works c graph tr s ∧ (∀ st ∈ tr, guard st.before st.act = true) ∧ ending s = last := by
  obtain ⟨s, hs, hlast⟩ := Option.map_eq_some_iff.1 h
  obtain ⟨tr, htr, hguard⟩ := Trace.of_guarded_foldlM hs
  exact ⟨tr, s, htr, hguard, hlast⟩

end Sample

theorem cancellation_reported_interrupted : ∃ tr s, Works Sample.setup Sample.graph tr s ∧
    s.run.phase = .returned ∧ s.run.loop.state? "api" = some .canceled ∧
    ReportsCancellation Sample.graph s.run := by
  have hrun : (Sample.follow Sample.setup
      (fun s a => decide (a.Caused s) && decide (a.Clean Sample.graph s))
      Sample.interrupted).map Sample.ending =
      some (.returned, [some .passed, some .canceled, some .passed], true, false) := by
    decide +kernel
  obtain ⟨tr, s, htr, hguard, hend⟩ := Sample.exists_works hrun
  simp only [Bool.and_eq_true, decide_eq_true_eq] at hguard
  simp only [Sample.ending, List.map_cons, List.map_nil, Prod.mk.injEq, List.cons.injEq] at hend
  have hvalid : Config.validate Pipeline.Sample.fanOut = .ok () := by decide +kernel
  have hreports := cancellation_reported hvalid Sample.compile_graph htr
    (fun st hst => (hguard st hst).1) hend.1
  exact ⟨tr, s, htr, hend.1, hend.2.1.2.1, hreports.2 fun st hst => (hguard st hst).2⟩

/-- The cancellation reported as an error of the infrastructure, and as a failure. -/
theorem cancellation_misreported :
    Config.validate Pipeline.Sample.fanOut = .ok () ∧
    compileIn Pipeline.Sample.fanOut Pipeline.Sample.ranges = .ok Sample.graph ∧
    (∃ tr s, Works Sample.logged Sample.graph tr s ∧ (∀ st ∈ tr, st.act.Caused st.before) ∧
      s.run.phase = .returned ∧ s.run.loop.state? "lint" = some .failed ∧
      s.run.loop.result.internalError = true ∧ ¬ ReportsCancellation Sample.graph s.run) ∧
    ∃ tr s, Works Sample.setup Sample.graph tr s ∧ (∀ st ∈ tr, st.act.Caused st.before) ∧
      s.run.phase = .returned ∧ s.run.loop.state? "web" = some .canceled ∧
      s.run.loop.result.interrupted = false ∧ ¬ ReportsCancellation Sample.graph s.run := by
  have hvalid : Config.validate Pipeline.Sample.fanOut = .ok () := by decide +kernel
  have hsound : Sound Sample.graph := compileIn_sound hvalid Sample.compile_graph
  refine ⟨hvalid, Sample.compile_graph, ?_, ?_⟩
  · have hrun : (Sample.follow Sample.logged (fun s a => decide (a.Caused s))
        Sample.appendCut).map Sample.ending =
        some (.returned, [some .failed, some .canceled, some .canceled], true, true) := by
      decide +kernel
    obtain ⟨tr, s, htr, hguard, hend⟩ := Sample.exists_works hrun
    simp only [decide_eq_true_eq] at hguard
    simp only [Sample.ending, List.map_cons, List.map_nil, Prod.mk.injEq, List.cons.injEq] at hend
    refine ⟨tr, s, htr, hguard, hend.1, hend.2.1.1, hend.2.2.2, ?_⟩
    intro hreports
    have hmem := (Works.regular hsound htr).run.tallied.loop.mem hend.2.1.1
    obtain ⟨-, hinternal, -⟩ := hreports ⟨"lint", hmem, by rw [hend.2.1.1]; decide⟩
    rw [hend.2.2.2] at hinternal
    cases hinternal
  · have hrun : (Sample.follow Sample.setup (fun s a => decide (a.Caused s))
        Sample.lastTaken).map Sample.ending =
        some (.returned, [some .passed, some .passed, some .canceled], false, false) := by
      decide +kernel
    obtain ⟨tr, s, htr, hguard, hend⟩ := Sample.exists_works hrun
    simp only [decide_eq_true_eq] at hguard
    simp only [Sample.ending, List.map_cons, List.map_nil, Prod.mk.injEq, List.cons.injEq] at hend
    have hcanceled := hend.2.1.2.2.1
    refine ⟨tr, s, htr, hguard, hend.1, hcanceled, hend.2.2.1, ?_⟩
    intro hreports
    have hmem := (Works.regular hsound htr).run.tallied.loop.mem hcanceled
    obtain ⟨hinterrupted, -⟩ := hreports ⟨"web", hmem, by rw [hcanceled]; decide⟩
    rw [hend.2.2.1] at hinterrupted
    cases hinterrupted

end Runner
