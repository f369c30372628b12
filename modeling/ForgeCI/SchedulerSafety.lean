import ForgeCI.JobWorkers

/-!
# Safety of the in-process scheduler

Whatever the workers report and whenever the context is cancelled.  Until the cancellation the
loop is one that could have run without it, so what `Execution.Follows` says of such runs applies
to every turn that starts jobs; afterwards the loop only waits and cancels.
-/

namespace Runner

open Pipeline Traces

variable {g : Graph} {maxParallel : Int} {outcome : String → Outcome} {l l₀ : Loop}
variable {e e' : Execution} {n name : String}

/-- What the loop relies on holds of a graph whatever the orders of the ranges. -/
theorem compileIn_sound {cfg : Config.Pipeline} {r : Ranges cfg}
    (hvalid : Config.validate cfg = .ok ()) (hg : compileIn cfg r = .ok g) : Sound g := by
  have hcfg := Config.accepted_of_validate hvalid
  rw [compileIn_eq hcfg] at hg
  split_ifs at hg with hlen
  rw [not_not] at hlen
  cases hg
  have hperm := (inv_kahnOf hcfg).perm_of_complete hlen
  have hneeds : (graphIn cfg r).needs = needsOf cfg := by
    funext n
    rw [Graph.needs, graphIn_node?, needsOf]
    cases cfg.job? n <;> rfl
  have hkeys : (graphIn cfg r).nodes.map Prod.fst = r.build.map Prod.fst := by
    rw [graphIn, List.map_map]
    rfl
  refine ⟨hperm.nodup_iff.2 cfg.jobs_nodup, ?_, ?_, ?_, ?_⟩
  · rw [hneeds]
    exact (inv_kahnOf hcfg).topological
  · exact fun h => hcfg.names_ne_empty (hperm.mem_iff.1 h)
  · show (r.build.map _).length = _
    rw [List.length_map, r.build_perm.length_eq, ← List.length_map (f := Prod.fst)]
    exact hperm.length_eq.symm
  · intro n
    rw [hkeys, (r.build_perm.map Prod.fst).mem_iff]
    exact hperm.mem_iff.symm

/-- The loop after the blocking and the starting of a turn. -/
def Execution.scheduled (g : Graph) (maxParallel : Int) (e : Execution) : Loop :=
  let l := e.loop.observeContext e.contextDone
  if l.canceling then l else l.schedule g maxParallel

/-- The turn reaches the branch that fails the pending jobs. -/
def Execution.fallsBack (g : Graph) (maxParallel : Int) (e : Execution) : Bool :=
  let l := e.scheduled g maxParallel
  decide (e.loop.terminal < g.nodes.length) && l.active == 0 &&
    (if l.canceling then l.cancelPending g else l).terminal != g.nodes.length

theorem Execution.turn_eq (g : Graph) (maxParallel : Int) (e : Execution) :
    e.turn g maxParallel =
      if e.loop.terminal < g.nodes.length then
        if (e.scheduled g maxParallel).active = 0 then
          { e with loop := (e.scheduled g maxParallel).settle g, phase := .returned }
        else { e with loop := e.scheduled g maxParallel, phase := .waiting }
      else { e with phase := .returned } :=
  rfl

/-- The invariant of every execution. -/
structure Execution.Regular (g : Graph) (maxParallel : Int) (e : Execution) : Prop where
  tallied : e.Tallied g
  /-- Before the cancellation the loop is as it would be without one. -/
  follows : e.contextDone = false → ∃ outcome, e.Follows g outcome
  observed : e.loop.canceling = true → e.contextDone = true
  interrupted : e.loop.result.interrupted = e.loop.canceling
  limit : (e.loop.active : Int) ≤ parallelLimit maxParallel

theorem Execution.regular_start (hg : Sound g) : (Execution.start g).Regular g maxParallel where
  tallied := Execution.tallied_start hg
  follows := fun _ => ⟨fun _ => .pass, Execution.follows_start hg⟩
  observed := fun h => by cases h
  interrupted := rfl
  limit := by
    show (0 : Int) ≤ _
    unfold parallelLimit
    split_ifs <;> omega

theorem Loop.launchReady_active {limit : Int} {fuel : Nat} (h : (l.active : Int) ≤ limit) :
    ((l.launchReady g limit fuel).active : Int) ≤ limit := by
  induction fuel generalizing l with
  | zero => exact h
  | succ fuel ih =>
    unfold Loop.launchReady
    dsimp only
    split_ifs with hroom hnone
    · exact h
    · apply ih
      show ((l.active + 1 : Nat) : Int) ≤ limit
      omega
    · exact h

theorem Loop.observeContext_of_done (l : Loop) : (l.observeContext true).canceling = true := by
  unfold Loop.observeContext
  cases hc : l.canceling <;> simp [hc]

/-- Once the context is done a turn starts nothing. -/
theorem Execution.scheduled_of_done (hdone : e.contextDone = true) :
    e.scheduled g maxParallel = e.loop.observeContext true := by
  simp only [Execution.scheduled, hdone, Loop.observeContext_of_done, if_true]

theorem Execution.Regular.scheduled_of_open (h : e.Regular g maxParallel)
    (hopen : e.contextDone = false) :
    e.scheduled g maxParallel = e.loop.schedule g maxParallel := by
  grind [h.observed, Execution.scheduled, Loop.observeContext]

theorem Loop.observeContext_state? (done : Bool) (l : Loop) (n : String) :
    (l.observeContext done).state? n = l.state? n := by
  unfold Loop.observeContext
  split_ifs <;> rfl

theorem Loop.observeContext_active (done : Bool) (l : Loop) :
    (l.observeContext done).active = l.active := by
  unfold Loop.observeContext
  split_ifs <;> rfl

theorem Execution.Regular.scheduled_onward (hg : Sound g) (h : e.Regular g maxParallel) :
    Loop.Onward g e.loop (e.scheduled g maxParallel) := by
  cases hdone : e.contextDone with
  | true =>
    rw [Execution.scheduled_of_done hdone]
    exact h.tallied.loop.onward.observeContext true
  | false =>
    rw [h.scheduled_of_open hdone]
    exact h.tallied.loop.onward.schedule hg maxParallel

theorem Execution.Regular.scheduled_limit (h : e.Regular g maxParallel) :
    ((e.scheduled g maxParallel).active : Int) ≤ parallelLimit maxParallel := by
  cases hdone : e.contextDone with
  | true =>
    rw [Execution.scheduled_of_done hdone, Loop.observeContext_active]
    exact h.limit
  | false =>
    rw [h.scheduled_of_open hdone]
    apply Loop.launchReady_active
    rw [Loop.block, Loop.dropPending_active]
    exact h.limit

/-- A turn goes on cancelling exactly when the context is done. -/
theorem Execution.Regular.scheduled_canceling (hg : Sound g) (h : e.Regular g maxParallel) :
    (e.scheduled g maxParallel).canceling = e.contextDone := by
  cases hdone : e.contextDone with
  | true =>
    rw [Execution.scheduled_of_done hdone]
    exact Loop.observeContext_of_done _
  | false =>
    rw [h.scheduled_of_open hdone]
    obtain ⟨outcome, hfollows⟩ := h.follows hdone
    exact (hfollows.loop.schedule maxParallel hg).1.admitting

/-- **Nothing is left for the fallback.** -/
theorem Execution.Regular.all_counted (hg : Sound g) (h : e.Regular g maxParallel)
    (hidle : (e.scheduled g maxParallel).active = 0) :
    (if (e.scheduled g maxParallel).canceling then (e.scheduled g maxParallel).cancelPending g
      else e.scheduled g maxParallel).terminal = g.nodes.length := by
  have honward := h.scheduled_onward hg
  rw [h.scheduled_canceling hg]
  cases hdone : e.contextDone with
  | true =>
    have hcanceled : Loop.Onward g e.loop ((e.scheduled g maxParallel).cancelPending g) :=
      honward.dropPending hg (by simp)
    have hended := hcanceled.tallied.ended_of_idle (Loop.dropPending_active.trans hidle)
      (Loop.dropPending_all (by decide))
    rw [if_pos rfl, hcanceled.tallied.terminal, hg.length]
    exact List.countP_eq_length.2 hended
  | false =>
    obtain ⟨outcome, hfollows⟩ := h.follows hdone
    obtain ⟨hstart, -, hended⟩ := hfollows.loop.schedule maxParallel hg
    grind [h.scheduled_of_open, hstart.terminal_eq_iff]

theorem Execution.Regular.not_fallsBack (hg : Sound g) (h : e.Regular g maxParallel) :
    e.fallsBack g maxParallel = false := by
  by_cases hidle : (e.scheduled g maxParallel).active = 0
  · simp only [Execution.fallsBack, h.all_counted hg hidle, bne_self_eq_false, Bool.and_false]
  · simp [Execution.fallsBack, hidle]

/-- Leaving the loop only cancels, and only once the context is done. -/
theorem Execution.Regular.settle_eq (hg : Sound g) (h : e.Regular g maxParallel)
    (hidle : (e.scheduled g maxParallel).active = 0) : (e.scheduled g maxParallel).settle g =
      if e.contextDone then (e.scheduled g maxParallel).cancelPending g
      else e.scheduled g maxParallel := by
  have hcounted := h.all_counted hg hidle
  rw [h.scheduled_canceling hg] at hcounted
  unfold Loop.settle
  dsimp only
  rw [h.scheduled_canceling hg, if_pos hcounted]

/-- The loop at the end of a turn that does work. -/
theorem Execution.Regular.turn_loop (hg : Sound g) (h : e.Regular g maxParallel) :
    (¬ e.loop.terminal < g.nodes.length ∧ (e.turn g maxParallel).loop = e.loop) ∨
      (e.turn g maxParallel).loop = e.scheduled g maxParallel ∨ (e.contextDone = true ∧
        (e.turn g maxParallel).loop = (e.scheduled g maxParallel).cancelPending g) := by
  rw [Execution.turn_eq]
  split_ifs with hopen hidle
  · dsimp only
    rw [h.settle_eq hg hidle]
    cases hdone : e.contextDone with
    | true => exact .inr (.inr ⟨rfl, rfl⟩)
    | false => exact .inr (.inl rfl)
  · exact .inr (.inl rfl)
  · exact .inl ⟨hopen, rfl⟩

theorem Loop.dropPending_flags {p : States → String → Bool} {state : State}
    {order : List String} : (l.dropPending p state order).canceling = l.canceling ∧
      (l.dropPending p state order).result.interrupted = l.result.interrupted ∧
      (l.dropPending p state order).result.internalError = l.result.internalError := by
  induction order generalizing l with
  | nil => exact ⟨rfl, rfl, rfl⟩
  | cons name rest ih =>
    rw [Loop.dropPending, List.foldl_cons]
    split_ifs
    · exact ih
    · exact ih

theorem Loop.observeContext_interrupted (done : Bool) (h : l.result.interrupted = l.canceling) :
    (l.observeContext done).result.interrupted = (l.observeContext done).canceling := by
  unfold Loop.observeContext
  split_ifs
  · rfl
  · exact h

theorem Execution.Regular.scheduled_interrupted (hg : Sound g) (h : e.Regular g maxParallel) :
    (e.scheduled g maxParallel).result.interrupted = (e.scheduled g maxParallel).canceling := by
  cases hdone : e.contextDone with
  | true =>
    rw [Execution.scheduled_of_done hdone]
    exact Loop.observeContext_interrupted true h.interrupted
  | false =>
    rw [h.scheduled_of_open hdone]
    obtain ⟨outcome, hfollows⟩ := h.follows hdone
    have hstart := (hfollows.loop.schedule maxParallel hg).1
    rw [hstart.admitting, hstart.uninterrupted]

/-- What one step does to the jobs. -/
structure Execution.Advances (g : Graph) (e e' : Execution) : Prop where
  kept : ∀ n, e.loop.ended n = true → e'.loop.state? n = e.loop.state? n
  onward : ∀ n, e.loop.state? n ≠ some .pending → e'.loop.state? n ≠ some .pending
  starts : ∀ n, n ∉ e.loop.workers → n ∈ e'.loop.workers → e.loop.state? n = some .pending ∧
    (∀ d ∈ g.needs n, e.loop.state? d = some .passed) ∧ e'.loop.canceling = false
  canceling : e.loop.canceling = true → e'.loop.canceling = true

theorem Execution.Advances.of_loop_eq (h : e'.loop = e.loop) : e.Advances g e' where
  kept := fun n _ => by rw [h]
  onward := fun n hn => by rwa [h]
  starts := fun n hout hin => absurd (h ▸ hin) hout
  canceling := fun hc => by rwa [h]

theorem Loop.not_pending_of_ended (h : l.ended n = true) : l.state? n ≠ some .pending := by
  intro hpending
  simp [Loop.ended, hpending, State.terminal] at h

/-- A job that runs after a turn has its needs passed, before the turn too. -/
theorem Execution.Regular.turn_needs (hg : Sound g) (h : e.Regular g maxParallel)
    (hopen : e.contextDone = false)
    (hrunning : (e.scheduled g maxParallel).state? n = some .running) :
    ∀ d ∈ g.needs n, e.loop.state? d = some .passed := by
  intro d hd
  obtain ⟨outcome, hfollows⟩ := h.follows hopen
  have hfits := (hfollows.loop.schedule maxParallel hg).1.fits n
  rw [← h.scheduled_of_open hopen, Fits, hrunning] at hfits
  rcases (h.scheduled_onward hg).moved d with hsame | ⟨st, hst, hnew⟩
  · rw [← hsame]
    exact hfits.2 d hd
  · grind

/-- A turn starts jobs only while the context is not done. -/
theorem Execution.Regular.open_of_started (hg : Sound g) (h : e.Regular g maxParallel)
    (hidle : e.loop.state? n ≠ some .running)
    (hrunning : (e.turn g maxParallel).loop.state? n = some .running) : e.contextDone = false := by
  by_contra hdone
  rw [Bool.not_eq_false] at hdone
  have hstate : (e.scheduled g maxParallel).state? n = e.loop.state? n := by
    rw [Execution.scheduled_of_done hdone, Loop.observeContext_state?]
  rcases h.turn_loop hg with ⟨-, hloop⟩ | hloop | ⟨-, hloop⟩
  · exact hidle (hloop ▸ hrunning)
  · rw [hloop, hstate] at hrunning
    exact hidle hrunning
  · have hcancel : (e.turn g maxParallel).loop.state? n = (e.scheduled g maxParallel).state? n ∨
        (e.turn g maxParallel).loop.state? n = some .canceled :=
      hloop ▸ Loop.dropPending_state
    grind

theorem Execution.Regular.turn (hg : Sound g) (h : e.Regular g maxParallel)
    (hphase : e.phase = .head) :
    (e.turn g maxParallel).Regular g maxParallel ∧ e.Advances g (e.turn g maxParallel) := by
  obtain ⟨htallied, honward⟩ : (e.turn g maxParallel).Tallied g ∧
      Loop.Onward g e.loop (e.turn g maxParallel).loop := h.tallied.turn hg
  have hcontext := Execution.turn_contextDone g maxParallel e
  refine ⟨⟨htallied, ?_, ?_, ?_, ?_⟩, ⟨?_, ?_, ?_, ?_⟩⟩
  · intro hopen
    obtain ⟨outcome, hfollows⟩ := h.follows (hcontext ▸ hopen)
    exact ⟨outcome, (hfollows.turn hg hphase).1⟩
  · intro hcanceling
    rw [hcontext]
    rcases h.turn_loop hg with ⟨-, hloop⟩ | hloop | ⟨hdone, -⟩
    · exact h.observed (hloop ▸ hcanceling)
    · rw [← h.scheduled_canceling hg, ← hloop]
      exact hcanceling
    · exact hdone
  · rcases h.turn_loop hg with ⟨-, hloop⟩ | hloop | ⟨-, hloop⟩
    · rw [hloop]
      exact h.interrupted
    · rw [hloop]
      exact h.scheduled_interrupted hg
    · grind [h.scheduled_interrupted, Loop.cancelPending, Loop.dropPending_flags]
  · rcases h.turn_loop hg with ⟨-, hloop⟩ | hloop | ⟨-, hloop⟩
    · rw [hloop]
      exact h.limit
    · rw [hloop]
      exact h.scheduled_limit
    · grind [h.scheduled_limit, Loop.cancelPending, Loop.dropPending_active]
  · intro n hended
    exact honward.kept n (Loop.not_pending_of_ended hended)
  · intro n hn
    rw [honward.kept n hn]
    exact hn
  · intro n hout hin
    have hidle : e.loop.state? n ≠ some .running := fun hrun =>
      hout ((h.tallied.loop.workers n).2 hrun)
    have hrunning := (htallied.loop.workers n).1 hin
    have hopen := h.open_of_started hg hidle hrunning
    have hpending : e.loop.state? n = some .pending := by grind [honward.kept]
    rcases h.turn_loop hg with ⟨-, hloop⟩ | hloop | ⟨hdone, -⟩
    · exact absurd (hloop ▸ hrunning) hidle
    · grind [h.turn_needs, h.scheduled_canceling]
    · rw [hdone] at hopen
      cases hopen
  · intro hcanceling
    have hdone := h.observed hcanceling
    rcases h.turn_loop hg with ⟨-, hloop⟩ | hloop | ⟨-, hloop⟩
    · rw [hloop]
      exact hcanceling
    · rw [hloop, h.scheduled_canceling hg]
      exact hdone
    · rw [hloop, Loop.cancelPending, Loop.dropPending_flags.1, h.scheduled_canceling hg]
      exact hdone

/-- The outcome of a job that has not ended may be chosen. -/
theorem Loop.Follows.reassign (h : l.Follows g outcome) (hrunning : l.state? name = some .running)
    (o : Outcome) : l.Follows g (Function.update outcome name o) where
  fits n := by
    have hfits := h.fits n
    unfold Fits at hfits ⊢
    by_cases hn : n = name
    · rw [hn, hrunning] at hfits ⊢
      exact hfits
    · rw [Function.update_of_ne hn]
      exact hfits
  workers := h.workers
  workers_nodup := h.workers_nodup
  active := h.active
  terminal := h.terminal
  internalError := by grind [h.internalError]
  uninterrupted := h.uninterrupted
  admitting := h.admitting

/-- What a worker sends before the cancellation is an outcome. -/
theorem Sendable.exists_outcome {c : Completion} (h : Sendable false c.state c.internalError) :
    ∃ o : Outcome, c = o.completion c.name := by
  obtain ⟨name, state, internalError⟩ := c
  rcases h with ⟨rfl, rfl⟩ | rfl | ⟨-, -, h⟩
  · exact ⟨.pass, rfl⟩
  · cases internalError with
    | false => exact ⟨.failure, rfl⟩
    | true => exact ⟨.infrastructure, rfl⟩
  · cases h

theorem Execution.Regular.receive (hg : Sound g) (h : e.Regular g maxParallel) {c : Completion}
    (hsend : Sendable e.contextDone c.state c.internalError) (hworker : c.name ∈ e.loop.workers) :
    Execution.Regular g maxParallel { e with loop := e.loop.receive c, phase := .head } ∧
      e.Advances g { e with loop := e.loop.receive c, phase := .head } := by
  have hrunning := (h.tallied.loop.workers c.name).1 hworker
  have htallied := h.tallied.loop.receive hg hworker hsend.terminal
  refine ⟨⟨⟨htallied, fun hp => (by cases hp), fun hp => (by cases hp)⟩, ?_, h.observed,
    h.interrupted, ?_⟩,
    ⟨?_, ?_, ?_, fun hc => hc⟩⟩
  · intro hopen
    change e.contextDone = false at hopen
    rw [hopen] at hsend
    obtain ⟨outcome, hfollows⟩ := h.follows hopen
    obtain ⟨o, ho⟩ := hsend.exists_outcome
    refine ⟨Function.update outcome c.name o, ⟨?_, hopen, fun hp => (by cases hp),
      fun hp => (by cases hp)⟩⟩
    have hreceived := (hfollows.loop.reassign hrunning o).receive hg hworker
    grind
  · show ((e.loop.active - 1 : Nat) : Int) ≤ _
    have := h.limit
    omega
  · intro n hended
    have hne : n ≠ c.name := by
      rintro rfl
      simp [Loop.ended, hrunning, State.terminal] at hended
    simp [hne]
  · grind [hsend.terminal, Loop.state?_receive, Sound, Sendable]
  · intro n hout hin
    exact absurd (List.mem_of_mem_erase hin) hout

/-- **A step of the loop.** -/
theorem Execution.Regular.step (hg : Sound g) (h : e.Regular g maxParallel) {act : Action}
    (hact : act.Honest e) (hstep : e.step g maxParallel act = some e') :
    e'.Regular g maxParallel ∧ e.Advances g e' := by
  cases act with
  | cancel =>
    cases hstep
    refine ⟨⟨⟨h.tallied.loop, h.tallied.waiting, h.tallied.returned⟩, ?_, fun _ => rfl,
      h.interrupted, h.limit⟩, .of_loop_eq rfl⟩
    intro hopen
    cases hopen
  | turn =>
    simp only [Execution.step, Option.ite_none_right_eq_some] at hstep
    cases hstep.2
    exact h.turn hg hstep.1
  | receive c =>
    simp only [Execution.step, Option.ite_none_right_eq_some] at hstep
    cases hstep.2
    exact h.receive hg hact hstep.1.2
  | contextDone =>
    simp only [Execution.step, Option.ite_none_right_eq_some] at hstep
    obtain ⟨⟨-, -, hdone⟩, hstep⟩ := hstep
    cases hstep
    refine ⟨⟨⟨h.tallied.loop, fun hp => (by cases hp), fun hp => (by cases hp)⟩, ?_, h.observed,
      h.interrupted, h.limit⟩, .of_loop_eq rfl⟩
    grind

section Runs

variable {c : Setup} {s s' m : System} {a : Event} {tr pre post : List (Step System Event)}

/-- The invariant of the whole. -/
structure System.Regular (c : Setup) (g : Graph) (s : System) : Prop where
  sound : s.Honest
  run : s.run.Regular g c.maxParallel

theorem System.Regular.step (hg : Sound g) (h : s.Regular c g) (hstep : s.step c g a = some s') :
    s'.Regular c g ∧ s.run.Advances g s'.run := by
  obtain ⟨hsound, hrun | ⟨act, hact, hrun⟩⟩ := System.step_honest h.sound hstep
  · exact ⟨⟨hsound, hrun ▸ h.run⟩, .of_loop_eq (by rw [hrun])⟩
  · obtain ⟨hregular, hadvances⟩ := h.run.step hg hact hrun
    exact ⟨⟨hsound, hregular⟩, hadvances⟩

theorem Works.regular (hg : Sound g) (h : Works c g tr s) : s.Regular c g := by
  apply h.final_invariant (System.Regular c g)
  · exact ⟨System.start_honest c g, Execution.regular_start hg⟩
  · intro s a s' hs hstep
    exact (hs.step hg hstep).1

/-- What is kept by the steps from a regular state is kept by runs. -/
theorem System.Regular.keeps (hg : Sound g) {P : System → Prop} (h : m.Regular c g) (hm : P m)
    (hkeep : ∀ s s' : System, s.run.Advances g s'.run → P s → P s')
    (hrun : Trace (fun s a s' => s.step c g a = some s') m post s) : s.Regular c g ∧ P s := by
  apply hrun.final_invariant (fun s => s.Regular c g ∧ P s) ⟨h, hm⟩
  intro s a s' hs hstep
  obtain ⟨hregular, hadvances⟩ := hs.1.step hg hstep
  exact ⟨hregular, hkeep s s' hadvances hs.2⟩

/-- The step starts a worker for the job. -/
def starts (name : String) (st : Step System Event) : Bool :=
  st.before.run.loop.workers.count name < st.after.run.loop.workers.count name

theorem System.Regular.of_starts (hg : Sound g) (h : s.Regular c g)
    (hstep : s.step c g a = some s') (hstarts : starts name ⟨s, a, s'⟩ = true) :
    s.run.loop.state? name = some .pending ∧ s'.run.loop.state? name = some .running ∧
      (∀ d ∈ g.needs name, s.run.loop.state? d = some .passed) ∧
      s'.run.loop.canceling = false := by
  obtain ⟨hregular, hadvances⟩ := h.step hg hstep
  have hcount : s.run.loop.workers.count name < s'.run.loop.workers.count name := by
    simpa [starts] using hstarts
  have hin : name ∈ s'.run.loop.workers := List.count_pos_iff.1 (by omega)
  have hone := List.nodup_iff_count_le_one.1 hregular.run.tallied.loop.workers_nodup name
  have hout : name ∉ s.run.loop.workers := List.count_eq_zero.1 (by omega)
  obtain ⟨hpending, hneeds, hcanceling⟩ := hadvances.starts name hout hin
  exact ⟨hpending, (hregular.run.tallied.loop.workers name).1 hin, hneeds, hcanceling⟩

/-- A job is started at most once, and not before it has left `Pending`. -/
theorem Works.countP_starts (hg : Sound g) (h : Works c g tr s) :
    tr.countP (starts name) ≤ if s.run.loop.state? name = some .pending then 0 else 1 := by
  induction h with
  | nil => exact Nat.zero_le _
  | @snoc tr s s' a run step ih =>
    have hregular := Works.regular hg run
    obtain ⟨-, hadvances⟩ := hregular.step hg step
    rw [List.countP_append, List.countP_singleton]
    by_cases hstarts : starts name ⟨s, a, s'⟩ = true
    · obtain ⟨hpending, hrunning, -⟩ := hregular.of_starts hg step hstarts
      rw [if_pos hpending] at ih
      grind
    · rw [if_neg hstarts, Nat.add_zero]
      apply ih.trans
      by_cases hpending : s.run.loop.state? name = some .pending
      · rw [if_pos hpending]
        exact Nat.zero_le _
      · rw [if_neg hpending, if_neg (hadvances.onward name hpending)]

/-- The jobs that run are those with a worker. -/
theorem Loop.Tallied.countP_running (hg : Sound g) (h : l.Tallied g) :
    g.order.countP (fun n => l.state? n = some .running) = l.active := by
  rw [h.active, List.countP_eq_length_filter]
  apply List.Perm.length_eq
  grind [hg.nodup, h.workers_nodup, h.workers, h.mem]

theorem parallelLimit_eq (maxParallel : Int) : parallelLimit maxParallel = max 1 maxParallel := by
  unfold parallelLimit
  split_ifs <;> omega

/-- A job that has ended is in one of four states. -/
theorem Loop.ended_iff : l.ended n = true ↔
    ∃ state ∈ [State.passed, .failed, .blocked, .canceled], l.state? n = some state := by
  unfold Loop.ended
  cases l.state? n with
  | none => simp
  | some st => cases st <;> simp [State.terminal]

/-- **The scheduler is safe.**  For every compiled graph, every limit, all reports of the workers
and all moments of cancellation: a job is started at most once, and only when its needs have
passed; no more jobs run than the limit allows; none is started once a turn has observed the
cancellation; the fallback is not reached; when `Run` returns every job has ended and no worker
is left; and what has ended stays as it is. -/
theorem scheduler_safe {cfg : Config.Pipeline} {r : Ranges cfg}
    (hvalid : Config.validate cfg = .ok ()) (hcompile : compileIn cfg r = .ok g)
    (h : Works c g tr s) : (∀ name, tr.countP (starts name) ≤ 1) ∧
      (∀ st ∈ tr, ∀ name, starts name st = true →
        ∀ d ∈ g.needs name, st.before.run.loop.state? d = some .passed) ∧
      (g.order.countP (fun n => s.run.loop.state? n = some .running) : Int) ≤
        max 1 c.maxParallel ∧
      (∀ pre st post, tr = pre ++ st :: post → st.after.run.loop.canceling = true →
        ∀ st' ∈ st :: post, ∀ name, starts name st' = false) ∧
      (∀ st ∈ tr, st.act = .turn → st.before.run.fallsBack g c.maxParallel = false) ∧
      (s.run.phase = .returned → s.run.loop.workers = [] ∧
        ∀ n ∈ g.order, ∃ state ∈ [State.passed, .failed, .blocked, .canceled],
          s.run.loop.state? n = some state) ∧
      ∀ pre post middle, tr = pre ++ post → Works c g pre middle →
        ∀ n, middle.run.loop.ended n = true →
          s.run.loop.state? n = middle.run.loop.state? n := by
  have hg := compileIn_sound hvalid hcompile
  have hregular := Works.regular hg h
  refine ⟨?_, ?_, ?_, ?_, ?_, ?_, ?_⟩
  · intro name
    apply (Works.countP_starts hg h).trans
    split_ifs <;> omega
  · intro st hst name hstarts
    obtain ⟨pre, hpre, hstep⟩ := h.step_of_mem hst
    exact ((Works.regular hg hpre).of_starts hg hstep hstarts).2.2.1
  · rw [hregular.run.tallied.loop.countP_running hg, ← parallelLimit_eq]
    exact hregular.run.limit
  · rintro pre st post rfl hcanceling st' hst' name
    obtain ⟨hpre, hstep, hpost⟩ := h.split
    have hbefore := Works.regular hg hpre
    by_contra hstarts
    rw [Bool.not_eq_false] at hstarts
    rcases List.mem_cons.1 hst' with rfl | hst'
    · have hopen := (hbefore.of_starts hg hstep hstarts).2.2.2
      rw [hopen] at hcanceling
      cases hcanceling
    · obtain ⟨front, hfront, hstep'⟩ := hpost.step_of_mem hst'
      have hafter := (hbefore.step hg hstep).1
      obtain ⟨hregular', hcanceling'⟩ := hafter.keeps hg
        (P := fun s => s.run.loop.canceling = true) hcanceling
        (fun _ _ hadvances hc => hadvances.canceling hc) hfront
      have hopen := (hregular'.of_starts hg hstep' hstarts).2.2.2
      rw [(hregular'.step hg hstep').2.canceling hcanceling'] at hopen
      cases hopen
  · intro st hst _
    obtain ⟨pre, hpre, -⟩ := h.step_of_mem hst
    exact (Works.regular hg hpre).run.not_fallsBack hg
  · intro hreturned
    have hended := hregular.run.tallied.returned hreturned
    refine ⟨?_, fun n hn => Loop.ended_iff.1 (hended n hn)⟩
    apply List.eq_nil_iff_forall_not_mem.2
    intro n hn
    have hrunning := (hregular.run.tallied.loop.workers n).1 hn
    have hend := hended n (hregular.run.tallied.loop.mem hrunning)
    simp [Loop.ended, hrunning, State.terminal] at hend
  · rintro pre post middle rfl hpre n hended
    have hrest := h.rest hpre
    have hkept := (Works.regular hg hpre).keeps hg
      (P := fun s => s.run.loop.state? n = middle.run.loop.state? n) rfl
      (fun s s' hadvances hs => by
        rw [hadvances.kept n (by rw [Loop.ended, hs]; exact hended), hs]) hrest
    exact hkept.2

end Runs

namespace Sample

def graph : Graph := graphIn Pipeline.Sample.fanOut Pipeline.Sample.ranges

/-- Two jobs at a time, with a job executor and nothing else. -/
def setup : Setup where
  maxParallel := 2
  artifacts := false
  logs := false
  jobExecutor := true

/-- The context is cancelled while the two builds run: one is killed, the other is done already. -/
def interrupted : List Event :=
  [.turn, .work "lint" (.returned ⟨0, false⟩), .receive "lint", .turn, .cancel,
    .work "api" (.returned ⟨-1, true⟩), .work "api" .judged, .work "web" (.returned ⟨0, false⟩),
    .receive "api", .turn, .receive "web", .turn]

theorem compile_graph : compileIn Pipeline.Sample.fanOut Pipeline.Sample.ranges = .ok graph := by
  have hvalid : Config.validate Pipeline.Sample.fanOut = .ok () := by decide +kernel
  have hcomplete : (kahnOf Pipeline.Sample.fanOut).order.length =
      Pipeline.Sample.fanOut.names.length := by decide +kernel
  rw [compileIn_eq (Config.accepted_of_validate hvalid), if_neg (not_not.2 hcomplete)]
  rfl

end Sample

theorem scheduler_safe_interrupted : ∃ tr s, Works Sample.setup Sample.graph tr s ∧
    s.run.phase = .returned ∧ s.run.loop.state? "api" = some .canceled ∧
    s.run.loop.state? "web" = some .passed ∧ s.run.loop.workers = [] := by
  have hrun : ((Sample.interrupted.foldlM (System.step Sample.setup Sample.graph)
      (System.start Sample.setup Sample.graph)).map fun s =>
        (s.run.phase, s.run.loop.state? "api", s.run.loop.state? "web")) =
      some (.returned, some .canceled, some .passed) := by decide +kernel
  obtain ⟨tr, s, htr, -, hstates⟩ := Trace.of_foldlM_map hrun
  simp only [Prod.mk.injEq] at hstates
  have hvalid : Config.validate Pipeline.Sample.fanOut = .ok () := by decide +kernel
  have hsafe := scheduler_safe hvalid Sample.compile_graph htr
  exact ⟨tr, s, htr, hstates.1, hstates.2.1, hstates.2.2,
    (hsafe.2.2.2.2.2.1 hstates.1).1⟩

end Runner
