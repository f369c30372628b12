import ForgeCI.LocalRunner

/-!
# The in-process scheduler under cancellation

What the event loop of `Runner.Run` keeps whatever the workers report and whenever its
context is cancelled, and the calls it makes of its observer.
-/

namespace Runner

open Pipeline

variable {g : Graph} {maxParallel : Int} {l l' l₀ : Loop} {n name : String}
variable {e e' : Execution}

/-- The counters and the list of workers agree with the state map. -/
structure Loop.Tallied (g : Graph) (l : Loop) : Prop where
  known : ∀ n, n ∈ g.order ↔ (l.state? n).isSome = true
  workers : ∀ n, n ∈ l.workers ↔ l.state? n = some .running
  workers_nodup : l.workers.Nodup
  active : l.active = l.workers.length
  terminal : l.terminal = g.order.countP l.ended

theorem Loop.Tallied.mem (h : l.Tallied g) {st : State} (hn : l.state? n = some st) :
    n ∈ g.order :=
  (h.known n).2 (by rw [hn]; rfl)

/-- The counter tells when every job has ended. -/
theorem Loop.Tallied.all_ended (hg : Sound g) (h : l.Tallied g)
    (hterminal : ¬ l.terminal < g.nodes.length) : ∀ n ∈ g.order, l.ended n = true := by
  apply List.countP_eq_length.1
  grind [h.terminal, hg.length]

/-- Where nothing runs and nothing is pending, every job has ended. -/
theorem Loop.Tallied.ended_of_idle (h : l.Tallied g) (hidle : l.active = 0)
    (hpending : ∀ n ∈ g.order, l.state? n ≠ some .pending) : ∀ n ∈ g.order, l.ended n = true := by
  intro n hn
  have hworkers : l.workers = [] := List.length_eq_zero_iff.1 (h.active.symm.trans hidle)
  have hrunning : l.state? n ≠ some .running := by
    rw [Ne, ← h.workers, hworkers]
    exact List.not_mem_nil
  obtain ⟨st, hst⟩ := Option.isSome_iff_exists.1 ((h.known n).1 hn)
  cases st with
  | pending => exact absurd hst (hpending n hn)
  | running => exact absurd hst hrunning
  | _ => simp [Loop.ended, hst, State.terminal]

/-- The invariant survives giving a new state to a job that has not ended, when the
workers and the counters follow. -/
theorem Loop.Tallied.assign (hg : Sound g) (h : l.Tallied g) {old new : State}
    (hold : l.state? name = some old) (hopen : old.terminal = false)
    (hnew : l'.state? name = some new) (hsame : ∀ n, n ≠ name → l'.state? n = l.state? n)
    (hworkers : ∀ n, n ∈ l'.workers ↔ l'.state? n = some .running)
    (hnodup : l'.workers.Nodup) (hactive : l'.active = l'.workers.length)
    (hterminal : l'.terminal = l.terminal + if new.terminal then 1 else 0) : l'.Tallied g where
  known n := by
    by_cases hn : n = name
    · rw [hn, hnew]
      simp [h.mem hold]
    · rw [hsame n hn]
      exact h.known n
  workers := hworkers
  workers_nodup := hnodup
  active := hactive
  terminal := by
    have hended : l.ended name = false := by simp [Loop.ended, hold, hopen]
    have hothers : ∀ n, n ≠ name → l'.ended n = l.ended n :=
      fun n hn => Loop.ended_of_same (hsame n hn)
    rw [hterminal, h.terminal]
    cases hlast : new.terminal with
    | true =>
      have hdone : l'.ended name = true := by simp [Loop.ended, hnew, hlast]
      exact (countP_flip hg.nodup (h.mem hold) hended hdone hothers).symm
    | false =>
      apply List.countP_congr
      grind [Loop.ended]

/-- What a turn has done so far: pending jobs were started or ended. -/
structure Loop.Onward (g : Graph) (l₀ l : Loop) : Prop where
  tallied : l.Tallied g
  kept : ∀ n, l₀.state? n ≠ some .pending → l.state? n = l₀.state? n
  moved : ∀ n, l.state? n = l₀.state? n ∨
    ∃ st, st ∈ [State.blocked, .running, .canceled, .failed] ∧ l.state? n = some st

theorem Loop.Tallied.onward (h : l.Tallied g) : Loop.Onward g l l :=
  ⟨h, fun _ _ => rfl, fun _ => .inl rfl⟩

/-- A job that is pending now was pending before. -/
theorem Loop.Onward.was_pending (h : Loop.Onward g l₀ l) (hn : l.state? n = some .pending) :
    l₀.state? n = some .pending := by
  grind [h.moved]

/-- One assignment of a turn. -/
theorem Loop.Onward.assign (h : Loop.Onward g l₀ l) {new : State}
    (hpending : l.state? name = some .pending) (htallied : l'.Tallied g)
    (hnew : l'.state? name = some new)
    (hstate : new ∈ [State.blocked, .running, .canceled, .failed])
    (hsame : ∀ n, n ≠ name → l'.state? n = l.state? n) : Loop.Onward g l₀ l' where
  tallied := htallied
  kept n hn := by grind [h.was_pending, h.kept]
  moved n := by grind [h.moved]

variable {state : State}

/-- A pending job is ended. -/
theorem Loop.Onward.drop (hg : Sound g) (h : Loop.Onward g l₀ l)
    (hpending : l.state? name = some .pending)
    (hstate : state ∈ [State.blocked, .canceled, .failed]) :
    Loop.Onward g l₀ (l.drop name state) := by
  have hterminal : state.terminal = true ∧ state ≠ .running := by
    simp only [List.mem_cons, List.not_mem_nil, or_false] at hstate
    rcases hstate with rfl | rfl | rfl <;> exact ⟨rfl, by decide⟩
  have hnew : (l.drop name state).state? name = some state := by simp
  have hsame : ∀ n, n ≠ name → (l.drop name state).state? n = l.state? n := by
    intro n hn
    simp [hn]
  have hworkers : ∀ n, n ∈ (l.drop name state).workers ↔
      (l.drop name state).state? n = some .running := by
    intro n
    show n ∈ l.workers ↔ _
    by_cases hn : n = name
    · simp [hn, h.tallied.workers, hpending, hterminal.2]
    · simp [hn, h.tallied.workers]
  have htallied := h.tallied.assign hg hpending rfl hnew hsame hworkers
    h.tallied.workers_nodup h.tallied.active (by simp [hterminal.1])
  grind [h.assign]

/-- A pending job is started. -/
theorem Loop.Onward.launch (hg : Sound g) (h : Loop.Onward g l₀ l)
    (hpending : l.state? name = some .pending) : Loop.Onward g l₀ (l.launch name) := by
  have hidle : name ∉ l.workers := by simp [h.tallied.workers, hpending]
  have hnew : (l.launch name).state? name = some .running := by simp
  have hsame : ∀ n, n ≠ name → (l.launch name).state? n = l.state? n := by
    intro n hn
    simp [hn]
  have hworkers : ∀ n, n ∈ (l.launch name).workers ↔
      (l.launch name).state? n = some .running := by
    intro n
    show n ∈ l.workers ++ [name] ↔ _
    by_cases hn : n = name
    · simp [hn]
    · simp [hn, h.tallied.workers]
  have hnodup : (l.launch name).workers.Nodup := by
    show (l.workers ++ [name]).Nodup
    rw [← List.concat_eq_append]
    exact h.tallied.workers_nodup.concat hidle
  have htallied := h.tallied.assign hg hpending rfl hnew hsame hworkers hnodup
    (by simp [Loop.launch, h.tallied.active]) (by simp [State.terminal])
  exact h.assign hpending htallied hnew (by simp) hsame

variable {order : List String}
  {p : States → String → Bool}

theorem Loop.Onward.dropPending (hg : Sound g)
    (hstate : state ∈ [State.blocked, .canceled, .failed])
    (h : Loop.Onward g l₀ l) : Loop.Onward g l₀ (l.dropPending p state order) := by
  induction order generalizing l with
  | nil => exact h
  | cons name rest ih =>
    rw [Loop.dropPending, List.foldl_cons]
    by_cases hdrop : l.state? name = some .pending ∧ p l.result.states name = true
    · rw [if_pos (by simpa using hdrop)]
      exact ih (h.drop hg hdrop.1 hstate)
    · rw [if_neg (by simpa using hdrop)]
      exact ih h

theorem Loop.dropPending_active : (l.dropPending p state order).active = l.active := by
  induction order generalizing l with
  | nil => rfl
  | cons name rest ih =>
    rw [Loop.dropPending, List.foldl_cons]
    split_ifs
    · exact ih
    · exact ih

/-- The loops that end all pending jobs leave none. -/
theorem Loop.dropPending_all (hstate : state ≠ .pending) :
    ∀ n ∈ order, (l.dropPending (fun _ _ => true) state order).state? n ≠ some .pending := by
  have hkept : ∀ (order : List String) (l : Loop) (n : String), l.state? n ≠ some .pending →
      (l.dropPending (fun _ _ => true) state order).state? n ≠ some .pending := by
    intro order
    induction order with
    | nil => exact fun _ _ h => h
    | cons name rest ih =>
      intro l n hn
      rw [Loop.dropPending, List.foldl_cons]
      apply ih
      split_ifs
      · by_cases heq : n = name
        · simpa [heq] using hstate
        · simpa [heq] using hn
      · exact hn
  induction order generalizing l with
  | nil => simp
  | cons name rest ih =>
    intro n hn
    rcases List.mem_cons.1 hn with rfl | hn
    · rw [Loop.dropPending, List.foldl_cons]
      apply hkept
      split_ifs with hpending
      · simpa using hstate
      · simpa using hpending
    · rw [Loop.dropPending, List.foldl_cons]
      exact ih n hn

theorem Loop.Onward.launchReady (hg : Sound g) {limit : Int} {fuel : Nat}
    (h : Loop.Onward g l₀ l) : Loop.Onward g l₀ (l.launchReady g limit fuel) := by
  induction fuel generalizing l with
  | zero => exact h
  | succ fuel ih =>
    unfold Loop.launchReady
    by_cases hroom : (l.active : Int) < limit
    · rw [if_pos hroom]
      by_cases hnone : nextReadyJob g l.result.states = ""
      · simp only [hnone, if_true]
        exact h
      · simp only [hnone, if_false]
        exact ih (h.launch hg (ready_iff.1 (nextReadyJob_ready hnone)).1)
    · rw [if_neg hroom]
      exact h

theorem Loop.Onward.schedule (hg : Sound g) (maxParallel : Int) (h : Loop.Onward g l₀ l) :
    Loop.Onward g l₀ (l.schedule g maxParallel) :=
  (h.dropPending hg (by simp)).launchReady hg

/-- Flags change nothing. -/
theorem Loop.Onward.observeContext (done : Bool) (h : Loop.Onward g l₀ l) :
    Loop.Onward g l₀ (l.observeContext done) := by
  unfold Loop.observeContext
  split_ifs
  · exact ⟨⟨h.tallied.known, h.tallied.workers, h.tallied.workers_nodup, h.tallied.active,
      h.tallied.terminal⟩, h.kept, h.moved⟩
  · exact h

/-- **Leaving the loop ends every job.** -/
theorem Loop.Onward.settle (hg : Sound g) (h : Loop.Onward g l₀ l) (hidle : l.active = 0) :
    Loop.Onward g l₀ (l.settle g) ∧ ∀ n ∈ g.order, (l.settle g).ended n = true := by
  set l₁ := if l.canceling then l.cancelPending g else l with hl₁
  have honward : Loop.Onward g l₀ l₁ := by
    rw [hl₁]
    split_ifs
    · exact h.dropPending hg (by simp)
    · exact h
  have hidle₁ : l₁.active = 0 := by
    rw [hl₁]
    split_ifs
    · exact Loop.dropPending_active.trans hidle
    · exact hidle
  by_cases hall : l₁.terminal = g.nodes.length
  · have hsettle : l.settle g = l₁ := by
      simp only [Loop.settle, ← hl₁, if_pos hall]
    rw [hsettle]
    exact ⟨honward, honward.tallied.all_ended hg (by omega)⟩
  · have hsettle : l.settle g = Loop.failPending g
        { l₁ with result := { l₁.result with internalError := true } } := by
      simp only [Loop.settle, ← hl₁, if_neg hall]
    rw [hsettle]
    have hflag : Loop.Onward g l₀
        { l₁ with result := { l₁.result with internalError := true } } :=
      ⟨⟨honward.tallied.known, honward.tallied.workers, honward.tallied.workers_nodup,
        honward.tallied.active, honward.tallied.terminal⟩, honward.kept, honward.moved⟩
    have hfailed : Loop.Onward g l₀ (Loop.failPending g
        { l₁ with result := { l₁.result with internalError := true } }) :=
      hflag.dropPending hg (by simp)
    refine ⟨hfailed, hfailed.tallied.ended_of_idle (Loop.dropPending_active.trans hidle₁) ?_⟩
    exact Loop.dropPending_all (by decide)

/-- The invariant of every execution. -/
structure Execution.Tallied (g : Graph) (e : Execution) : Prop where
  loop : e.loop.Tallied g
  waiting : e.phase = .waiting → 0 < e.loop.active
  returned : e.phase = .returned → ∀ n ∈ g.order, e.loop.ended n = true

/-- **A turn of the loop.** -/
theorem Execution.Tallied.turn (hg : Sound g) (h : e.Tallied g) :
    (e.turn g maxParallel).Tallied g ∧ Loop.Onward g e.loop (e.turn g maxParallel).loop := by
  unfold Execution.turn
  by_cases hopen : e.loop.terminal < g.nodes.length
  · rw [if_pos hopen]
    set l := e.loop.observeContext e.contextDone with hl
    have hobserved : Loop.Onward g e.loop l := h.loop.onward.observeContext e.contextDone
    have hscheduled : Loop.Onward g e.loop
        (if l.canceling then l else l.schedule g maxParallel) := by grind [hobserved.schedule]
    dsimp only
    generalize (if l.canceling then l else l.schedule g maxParallel) = l' at hscheduled ⊢
    by_cases hidle : l'.active = 0
    · rw [if_pos hidle]
      obtain ⟨honward, hended⟩ := hscheduled.settle hg hidle
      exact ⟨⟨honward.tallied, fun hp => (by cases hp), fun _ => hended⟩, honward⟩
    · rw [if_neg hidle]
      exact ⟨⟨hscheduled.tallied, fun _ => Nat.pos_of_ne_zero hidle, fun hp => (by cases hp)⟩,
        hscheduled⟩
  · rw [if_neg hopen]
    exact ⟨⟨h.loop, fun hp => (by cases hp), fun _ => h.loop.all_ended hg hopen⟩, h.loop.onward⟩

/-- A worker reports a final state. -/
theorem Loop.Tallied.receive (hg : Sound g) (h : l.Tallied g) {c : Completion}
    (hworker : c.name ∈ l.workers) (hfinal : c.state.terminal = true) :
    (l.receive c).Tallied g := by
  have hrunning := (h.workers c.name).1 hworker
  have hnew : (l.receive c).state? c.name = some c.state := by simp
  have hsame : ∀ n, n ≠ c.name → (l.receive c).state? n = l.state? n := by
    intro n hn
    simp [hn]
  have hworkers : ∀ n, n ∈ (l.receive c).workers ↔
      (l.receive c).state? n = some .running := by
    intro n
    show n ∈ l.workers.erase c.name ↔ _
    by_cases hn : n = c.name
    · have hstate : c.state ≠ .running := by
        intro hstate
        rw [hstate] at hfinal
        cases hfinal
      grind [h.workers_nodup]
    · grind [h.workers_nodup, h.workers]
  have hlength : l.active - 1 = (l.workers.erase c.name).length := by
    rw [List.length_erase_of_mem hworker, h.active]
  exact h.assign hg hrunning rfl hnew hsame hworkers (h.workers_nodup.erase _) hlength
    (by simp [hfinal])

/-- The invariant holds when the loop starts. -/
theorem Execution.tallied_start (hg : Sound g) : (Execution.start g).Tallied g := by
  have hfollows : (Execution.start g).Follows g fun _ => .pass := Execution.follows_start hg
  refine ⟨⟨fun n => ?_, hfollows.loop.workers, hfollows.loop.workers_nodup,
    hfollows.loop.active, hfollows.loop.terminal⟩, fun hp => (by cases hp), fun hp => (by cases hp)⟩
  have hfits := hfollows.loop.fits n
  grind [hfollows.loop, Fits]

/-- The calls of `OnJobState` in a turn, with the new states: the loops that block, cancel
and fail jobs go through the order of the graph, and so does `nextReadyJob`. -/
def observations (g : Graph) (l l' : Loop) : List (String × State) :=
  [State.blocked, .running, .canceled, .failed].flatMap fun st =>
    (g.order.filter fun n => l'.state? n = some st && l.state? n ≠ some st).map fun n => (n, st)

theorem mem_observations {p : String × State} :
    p ∈ observations g l l' ↔ p.1 ∈ g.order ∧
      p.2 ∈ [State.blocked, .running, .canceled, .failed] ∧
      l'.state? p.1 = some p.2 ∧ l.state? p.1 ≠ some p.2 := by
  obtain ⟨n, st⟩ := p
  simp only [observations, List.mem_flatMap, List.mem_map, List.mem_filter, Bool.and_eq_true,
    decide_eq_true_eq, Prod.mk.injEq]
  grind

/-- A turn reports every job it changed. -/
theorem Loop.Onward.unreported (h : Loop.Onward g l₀ l)
    (hn : n ∉ (observations g l₀ l).map Prod.fst) : l.state? n = l₀.state? n := by
  rcases h.moved n with hsame | ⟨st, hst, hnew⟩
  · exact hsame
  · by_contra hchanged
    rw [hnew] at hchanged
    have hreported : (n, st) ∈ observations g l₀ l :=
      mem_observations.2 ⟨h.tallied.mem hnew, hst, hnew, Ne.symm hchanged⟩
    exact hn (List.mem_map.2 ⟨_, hreported, rfl⟩)

theorem Loop.dropPending_state : (l.dropPending p state order).state? n = l.state? n ∨
      (l.dropPending p state order).state? n = some state := by
  induction order generalizing l with
  | nil => exact .inl rfl
  | cons name rest ih =>
    rw [Loop.dropPending, List.foldl_cons, ← Loop.dropPending]
    grind [Loop.state?_drop]

/-- **With its context cancelled and no job running, the loop only cancels.** -/
theorem Execution.Tallied.turn_canceled (hg : Sound g) (h : e.Tallied g)
    (hdone : e.contextDone = true) (hidle : e.loop.active = 0) :
    ∀ p ∈ observations g e.loop (e.turn g maxParallel).loop, p.2 = .canceled := by
  intro p hp
  obtain ⟨-, -, hnew, hold⟩ := mem_observations.1 hp
  by_cases hopen : e.loop.terminal < g.nodes.length
  · have honward := h.loop.onward.observeContext e.contextDone
    set l := e.loop.observeContext e.contextDone with hl
    have hstates : l.state? p.1 = e.loop.state? p.1 := by
      rw [hl, Loop.observeContext]
      split_ifs <;> rfl
    have hcanceling : l.canceling = true := by grind [Loop.observeContext]
    have hlidle : l.active = 0 := by
      rw [hl, Loop.observeContext]
      split_ifs <;> exact hidle
    have hcanceled : Loop.Onward g e.loop (l.cancelPending g) := honward.dropPending hg (by simp)
    have hended := hcanceled.tallied.ended_of_idle (Loop.dropPending_active.trans hlidle)
      (Loop.dropPending_all (by decide))
    -- Every job has ended, so nothing is left for the loop that fails jobs.
    have hcount : (l.cancelPending g).terminal = g.nodes.length := by
      rw [hcanceled.tallied.terminal, hg.length]
      exact List.countP_eq_length.2 hended
    have hturn : (e.turn g maxParallel).loop = l.cancelPending g := by
      grind [Execution.turn, Loop.settle]
    rw [hturn] at hnew
    have hstate : (l.cancelPending g).state? p.1 = l.state? p.1 ∨
        (l.cancelPending g).state? p.1 = some .canceled := Loop.dropPending_state
    grind
  · grind [Execution.turn]

end Runner
