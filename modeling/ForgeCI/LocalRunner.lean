import ForgeCI.Compile
import ForgeCI.Propagation
import ForgeCI.Traces
import Mathlib.Data.List.AList

/-!
# The in-process scheduler

Package `runner`: the event loop of `Runner.Run`.  A turn of the loop blocks the
jobs behind a failure in one pass over the graph's order, starts ready jobs up
to the limit and then waits for a completion or for the end of the context.
Workers report in any order, so a run of the loop is a sequence of actions; the
context may be cancelled between any two of them.
-/

namespace Runner

open Pipeline Traces

inductive State
  | pending | running | passed | failed | blocked | canceled
deriving DecidableEq

/-- The states that count in `terminal`. -/
def State.terminal : State → Bool
  | .pending | .running => false
  | _ => true

/-- `map[string]State`. -/
abbrev States := AList fun _ : String => State

structure Result where
  states : States
  interrupted : Bool := false
  internalError : Bool := false

/-- `Result.Succeeded`. -/
def Result.succeeded (r : Result) : Bool :=
  !(r.interrupted || r.internalError) && r.states.entries.all fun e => e.2 = .passed

structure Completion where
  name : String
  state : State
  internalError : Bool
deriving DecidableEq

/-- The variables of `Run`.  `workers` are the goroutines whose completion has
not been received. -/
structure Loop where
  result : Result
  active : Nat := 0
  terminal : Nat := 0
  canceling : Bool := false
  workers : List String := []

def hasFailedDependency (g : Graph) (states : States) (name : String) : Bool :=
  (g.needs name).any fun d => states.lookup d = some .failed || states.lookup d = some .blocked

/-- The test `nextReadyJob` makes of a job. -/
def ready (g : Graph) (states : States) (name : String) : Bool :=
  states.lookup name = some .pending &&
    (g.needs name).all fun d => states.lookup d = some .passed

/-- `nextReadyJob`; the empty string when there is none. -/
def nextReadyJob (g : Graph) (states : States) : String :=
  (g.order.find? (ready g states)).getD ""

def Loop.state? (l : Loop) (name : String) : Option State :=
  l.result.states.lookup name

/-- `result.States[name] = state`. -/
def Loop.mark (name : String) (state : State) (l : Loop) : Loop :=
  { l with result := { l.result with states := l.result.states.insert name state } }

/-- End a pending job that has not run. -/
def Loop.drop (name : String) (state : State) (l : Loop) : Loop :=
  { l.mark name state with terminal := l.terminal + 1 }

/-- The three loops over `graph.Order` that end pending jobs. -/
def Loop.dropPending (p : States → String → Bool) (state : State) (order : List String)
    (l : Loop) : Loop :=
  order.foldl (fun l name =>
    if l.state? name = some .pending && p l.result.states name then l.drop name state
    else l) l

def Loop.block (g : Graph) (l : Loop) : Loop :=
  l.dropPending (hasFailedDependency g) .blocked g.order

def Loop.cancelPending (g : Graph) (l : Loop) : Loop :=
  l.dropPending (fun _ _ => true) .canceled g.order

def Loop.failPending (g : Graph) (l : Loop) : Loop :=
  l.dropPending (fun _ _ => true) .failed g.order

/-- Start a worker. -/
def Loop.launch (name : String) (l : Loop) : Loop :=
  { l.mark name .running with active := l.active + 1, workers := l.workers ++ [name] }

/-- `for active < maxParallel`. -/
def Loop.launchReady (g : Graph) (limit : Int) : Nat → Loop → Loop
  | 0, l => l
  | fuel + 1, l =>
      if (l.active : Int) < limit then
        let name := nextReadyJob g l.result.states
        if name = "" then l else Loop.launchReady g limit fuel (l.launch name)
      else l

/-- The limit `Run` works with. -/
def parallelLimit (maxParallel : Int) : Int :=
  if maxParallel < 1 then 1 else maxParallel

/-- Block and start.  Every start takes a job out of `Pending`, so the bound is
never reached. -/
def Loop.schedule (g : Graph) (maxParallel : Int) (l : Loop) : Loop :=
  (l.block g).launchReady g (parallelLimit maxParallel) (g.order.length + 1)

/-- `ctx.Err() != nil` at the head of the loop. -/
def Loop.observeContext (done : Bool) (l : Loop) : Loop :=
  if !l.canceling && done then
    { l with canceling := true, result := { l.result with interrupted := true } }
  else l

/-- The branch `active == 0`, which leaves the loop. -/
def Loop.settle (g : Graph) (l : Loop) : Loop :=
  let l := if l.canceling then l.cancelPending g else l
  if l.terminal = g.nodes.length then l
  else Loop.failPending g { l with result := { l.result with internalError := true } }

def Loop.receive (c : Completion) (l : Loop) : Loop :=
  { l.mark c.name c.state with
    result := { (l.mark c.name c.state).result with
      internalError := l.result.internalError || c.internalError }
    active := l.active - 1
    terminal := l.terminal + 1
    workers := l.workers.erase c.name }

/-- Where the loop stands: at its head, at the `select`, or left. -/
inductive Phase
  | head | waiting | returned
deriving DecidableEq

structure Execution where
  loop : Loop
  phase : Phase := .head
  contextDone : Bool := false

def Execution.start (g : Graph) : Execution where
  loop := { result := { states :=
    (g.nodes.map fun node => (⟨node.1, .pending⟩ : Sigma fun _ : String => State)).toAList } }

inductive Action
  /-- The context is cancelled from outside. -/
  | cancel
  /-- From the head of the loop to the `select` or out of the loop. -/
  | turn
  | receive (c : Completion)
  /-- `case <-ctx.Done()`. -/
  | contextDone
deriving DecidableEq

def Execution.turn (g : Graph) (maxParallel : Int) (e : Execution) : Execution :=
  if e.loop.terminal < g.nodes.length then
    let l := e.loop.observeContext e.contextDone
    let l := if l.canceling then l else l.schedule g maxParallel
    if l.active = 0 then { e with loop := l.settle g, phase := .returned }
    else { e with loop := l, phase := .waiting }
  else { e with phase := .returned }

/-- `Runner.Run`, one action at a time.  While canceling it waits for
completions only. -/
def Execution.step (g : Graph) (maxParallel : Int) (e : Execution) :
    Action → Option Execution
  | .cancel => some { e with contextDone := true }
  | .turn => if e.phase = .head then some (e.turn g maxParallel) else none
  | .receive c =>
      if e.phase = .waiting ∧ c.name ∈ e.loop.workers then
        some { e with loop := e.loop.receive c, phase := .head }
      else none
  | .contextDone =>
      if e.phase = .waiting ∧ e.loop.canceling = false ∧ e.contextDone = true then
        some { e with phase := .head }
      else none

/-- An execution of `Runner.Run` on a graph. -/
abbrev Runs (g : Graph) (maxParallel : Int) (tr : List (Step Execution Action))
    (e : Execution) : Prop :=
  Trace (fun e a e' => e.step g maxParallel a = some e') (Execution.start g) tr e

/-- What a job does when it is executed. -/
inductive Outcome
  | pass | failure | infrastructure
deriving DecidableEq

/-- The state `executeJob` reports. -/
def Outcome.state : Outcome → State
  | .pass => .passed
  | .failure | .infrastructure => .failed

/-- What the worker of a job sends. -/
def Outcome.completion (name : String) (o : Outcome) : Completion :=
  ⟨name, o.state, o = .infrastructure⟩

/-- No cancellation, and every worker reports the outcome of its job. -/
def Action.Reports (outcome : String → Outcome) : Action → Prop
  | .cancel | .contextDone => False
  | .turn => True
  | .receive c => c = (outcome c.name).completion c.name

/-- What the state of a job says about its outcome and its needs. -/
def Fits (g : Graph) (outcome : String → Outcome) (l : Loop) (n : String) : Prop :=
  match l.state? n with
  | none => n ∉ g.order
  | some .pending => n ∈ g.order
  | some .running => n ∈ g.order ∧ ∀ d ∈ g.needs n, l.state? d = some .passed
  | some .passed =>
      n ∈ g.order ∧ outcome n = .pass ∧ ∀ d ∈ g.needs n, l.state? d = some .passed
  | some .failed =>
      n ∈ g.order ∧ outcome n ≠ .pass ∧ ∀ d ∈ g.needs n, l.state? d = some .passed
  | some .blocked => n ∈ g.order ∧ hasFailedDependency g l.result.states n = true
  | some .canceled => False

/-- A job that has ended. -/
def Loop.ended (l : Loop) (n : String) : Bool := (l.state? n).any State.terminal

/-- The invariant of the loop. -/
structure Loop.Follows (g : Graph) (outcome : String → Outcome) (l : Loop) : Prop where
  fits : ∀ n, Fits g outcome l n
  workers : ∀ n, n ∈ l.workers ↔ l.state? n = some .running
  workers_nodup : l.workers.Nodup
  active : l.active = l.workers.length
  terminal : l.terminal = g.order.countP l.ended
  internalError : l.result.internalError = true ↔
    ∃ n, l.state? n = some .failed ∧ outcome n = .infrastructure
  uninterrupted : l.result.interrupted = false
  admitting : l.canceling = false

/-- What `Compile` guarantees of a graph that the loop relies on. -/
structure Sound (g : Graph) : Prop where
  nodup : g.order.Nodup
  topological : Kahn.Topological g.needs g.order
  nonempty_names : "" ∉ g.order
  length : g.nodes.length = g.order.length
  keys : ∀ n, n ∈ g.nodes.map Prod.fst ↔ n ∈ g.order

variable {g : Graph} {maxParallel : Int} {outcome : String → Outcome} {l l' : Loop}
variable {n d name : String} {e e' : Execution}

theorem compile_sound {cfg : Config.Pipeline} (hvalid : Config.validate cfg = .ok ())
    (hg : Pipeline.compile cfg = .ok g) : Sound g := by
  have hcfg := Config.accepted_of_validate hvalid
  obtain ⟨hperm, htop⟩ := compile_spec hcfg hg
  obtain ⟨rfl, -⟩ := compile_eq_ok hg
  refine ⟨hperm.nodup_iff.2 cfg.jobs_nodup, ?_, ?_, ?_, ?_⟩
  · rw [show Graph.needs _ = needsOf cfg from funext (compile_needs hg)]
    exact htop
  · exact fun h => hcfg.names_ne_empty (hperm.mem_iff.1 h)
  · rw [hperm.length_eq]
    simp [nodesOf, Config.Pipeline.names]
  · intro n
    rw [hperm.mem_iff]
    simp [nodesOf, Config.Pipeline.names]

@[simp] theorem Loop.state?_mark (name : String) (state : State) (l : Loop) (n : String) :
    (l.mark name state).state? n = if n = name then some state else l.state? n := by
  by_cases h : n = name
  · subst h
    simp [state?, mark]
  · simp [state?, mark, h]

@[simp] theorem Loop.state?_drop (name : String) (state : State) (l : Loop) (n : String) :
    (l.drop name state).state? n = if n = name then some state else l.state? n :=
  l.state?_mark name state n

@[simp] theorem Loop.state?_launch (name : String) (l : Loop) (n : String) :
    (l.launch name).state? n = if n = name then some .running else l.state? n :=
  l.state?_mark name .running n

@[simp] theorem Loop.state?_receive (c : Completion) (l : Loop) (n : String) :
    (l.receive c).state? n = if n = c.name then some c.state else l.state? n :=
  l.state?_mark c.name c.state n

@[simp] theorem Loop.drop_terminal (name : String) (state : State) (l : Loop) :
    (l.drop name state).terminal = l.terminal + 1 := rfl

@[simp] theorem Loop.drop_internalError (name : String) (state : State) (l : Loop) :
    (l.drop name state).result.internalError = l.result.internalError := rfl

@[simp] theorem Loop.launch_terminal (name : String) (l : Loop) :
    (l.launch name).terminal = l.terminal := rfl

@[simp] theorem Loop.launch_internalError (name : String) (l : Loop) :
    (l.launch name).result.internalError = l.result.internalError := rfl

@[simp] theorem Loop.receive_terminal (c : Completion) (l : Loop) :
    (l.receive c).terminal = l.terminal + 1 := rfl

@[simp] theorem Loop.receive_internalError (c : Completion) (l : Loop) :
    (l.receive c).result.internalError = (l.result.internalError || c.internalError) := rfl

theorem hasFailedDependency_iff : hasFailedDependency g l.result.states n = true ↔
    ∃ d ∈ g.needs n, l.state? d = some .failed ∨ l.state? d = some .blocked := by
  simp [hasFailedDependency, Loop.state?]

theorem ready_iff : ready g l.result.states n = true ↔
    l.state? n = some .pending ∧ ∀ d ∈ g.needs n, l.state? d = some .passed := by
  simp [ready, Loop.state?]

/-- A job of the graph has a state. -/
theorem Loop.Follows.mem (h : l.Follows g outcome) {st : State} (hn : l.state? n = some st) :
    n ∈ g.order := by
  have hfits := h.fits n
  grind [Fits]

/-- Assigning to a job that has not ended leaves what is known of the others. -/
theorem Fits.of_mark (hold : l.ended name = false)
    (hsame : ∀ n, n ≠ name → l'.state? n = l.state? n) (hn : n ≠ name)
    (h : Fits g outcome l n) : Fits g outcome l' n := by
  have hkept : ∀ d st, l.state? d = some st → st.terminal = true → l'.state? d = some st := by
    grind [Loop.ended]
  unfold Fits at h ⊢
  rw [hsame n hn]
  split at h
  · exact h
  · exact h
  · exact ⟨h.1, fun d hd => hkept d _ (h.2 d hd) rfl⟩
  · exact ⟨h.1, h.2.1, fun d hd => hkept d _ (h.2.2 d hd) rfl⟩
  · exact ⟨h.1, h.2.1, fun d hd => hkept d _ (h.2.2 d hd) rfl⟩
  · obtain ⟨d, hd, hbad⟩ := hasFailedDependency_iff.1 h.2
    exact ⟨h.1, hasFailedDependency_iff.2 ⟨d, hd,
      hbad.imp (fun hs => hkept d _ hs rfl) (fun hs => hkept d _ hs rfl)⟩⟩
  · exact h

/-- One more element of a duplicate-free list satisfies the predicate. -/
theorem countP_flip {order : List String} {p q : String → Bool} (hnodup : order.Nodup)
    (hname : name ∈ order) (hp : p name = false) (hq : q name = true)
    (hsame : ∀ n, n ≠ name → q n = p n) : order.countP q = order.countP p + 1 := by
  obtain ⟨pre, post, rfl⟩ := List.append_of_mem hname
  rw [List.nodup_append, List.nodup_cons] at hnodup
  have hpre : pre.countP q = pre.countP p := List.countP_congr fun n hn => by
    rw [hsame n fun heq => hnodup.2.2 n hn name List.mem_cons_self heq]
  have hpost : post.countP q = post.countP p := List.countP_congr fun n hn => by
    rw [hsame n fun heq => hnodup.2.1.1 (heq ▸ hn)]
  simp [List.countP_append, hpre, hpost, hp, hq]
  omega

theorem Loop.ended_of_same (h : l'.state? n = l.state? n) : l'.ended n = l.ended n := by
  simp [ended, h]

/-- **One assignment to the state map.**  The invariant survives giving a new
state to a job that has not ended, when the new state fits and the counters
follow. -/
theorem Loop.Follows.assign (hg : Sound g) (h : l.Follows g outcome)
    (hmem : name ∈ g.order) (hold : l.ended name = false)
    (hsame : ∀ n, n ≠ name → l'.state? n = l.state? n) (hfits : Fits g outcome l' name)
    (hworkers : ∀ n, n ∈ l'.workers ↔ l'.state? n = some .running)
    (hnodup : l'.workers.Nodup) (hactive : l'.active = l'.workers.length)
    (hterminal : l'.terminal = l.terminal + if l'.ended name then 1 else 0)
    (hinternal : l'.result.internalError = true ↔ l.result.internalError = true ∨
      (l'.state? name = some .failed ∧ outcome name = .infrastructure))
    (huninterrupted : l'.result.interrupted = l.result.interrupted)
    (hadmitting : l'.canceling = l.canceling) : l'.Follows g outcome where
  fits n := by
    by_cases hn : n = name
    · rw [hn]
      exact hfits
    · exact Fits.of_mark hold hsame hn (h.fits n)
  workers := hworkers
  workers_nodup := hnodup
  active := hactive
  terminal := by
    rw [hterminal, h.terminal]
    have hothers : ∀ n, n ≠ name → l'.ended n = l.ended n :=
      fun n hn => Loop.ended_of_same (hsame n hn)
    cases hnew : l'.ended name with
    | true => exact (countP_flip hg.nodup hmem hold hnew hothers).symm
    | false =>
      refine List.countP_congr fun n _ => ?_
      grind
  internalError := by grind [h.internalError, Loop.ended, State.terminal]
  uninterrupted := huninterrupted.trans h.uninterrupted
  admitting := hadmitting.trans h.admitting

/-- A pending job behind a failure is blocked. -/
theorem Loop.Follows.drop (hg : Sound g) (h : l.Follows g outcome)
    (hpending : l.state? name = some .pending)
    (hfailed : hasFailedDependency g l.result.states name = true) :
    (l.drop name .blocked).Follows g outcome := by
  obtain ⟨d, hd, hbad⟩ := hasFailedDependency_iff.1 hfailed
  have hdn : d ≠ name := by
    rintro rfl
    simp [hpending] at hbad
  have hfits : Fits g outcome (l.drop name .blocked) name := by
    simp only [Fits, Loop.state?_drop, if_true]
    exact ⟨h.mem hpending, hasFailedDependency_iff.2 ⟨d, hd, by simpa [hdn] using hbad⟩⟩
  refine h.assign hg (h.mem hpending) (by simp [Loop.ended, hpending, State.terminal])
    (fun n hn => by simp [hn]) hfits (fun n => ?_) h.workers_nodup h.active
    (by simp [Loop.ended, State.terminal]) (by simp) rfl rfl
  show n ∈ l.workers ↔ _
  by_cases hn : n = name
  · simp [hn, h.workers, hpending]
  · simp [hn, h.workers]

/-- A ready job is started. -/
theorem Loop.Follows.launch (hg : Sound g) (h : l.Follows g outcome)
    (hready : ready g l.result.states name = true) : (l.launch name).Follows g outcome := by
  obtain ⟨hpending, hneeds⟩ := ready_iff.1 hready
  have hidle : name ∉ l.workers := by simp [h.workers, hpending]
  have hfits : Fits g outcome (l.launch name) name := by grind [h.mem, Fits, Loop.state?_launch]
  refine h.assign hg (h.mem hpending) (by simp [Loop.ended, hpending, State.terminal])
    (fun n hn => by simp [hn]) hfits (fun n => ?_) ?_
    (by simp [Loop.launch, h.active]) (by simp [Loop.ended, State.terminal]) (by simp) rfl rfl
  · show n ∈ l.workers ++ [name] ↔ _
    by_cases hn : n = name
    · simp [hn]
    · simp [hn, h.workers]
  · show (l.workers ++ [name]).Nodup
    grind [h.workers_nodup]

/-- A job that was executed after its needs had passed. -/
theorem Fits.of_outcome (hmem : n ∈ g.order) (hstate : l.state? n = some (outcome n).state)
    (hneeds : ∀ d ∈ g.needs n, l.state? d = some .passed) : Fits g outcome l n := by
  unfold Fits
  rw [hstate]
  cases ho : outcome n with
  | pass => exact ⟨hmem, rfl, hneeds⟩
  | failure | infrastructure => exact ⟨hmem, by simp, hneeds⟩

/-- A worker reports the outcome of its job. -/
theorem Loop.Follows.receive (hg : Sound g) (h : l.Follows g outcome) (hworker : name ∈ l.workers) :
    (l.receive ((outcome name).completion name)).Follows g outcome := by
  have hrunning := (h.workers name).1 hworker
  have hneeds : ∀ d ∈ g.needs name, l.state? d = some .passed := by
    have hfits := h.fits name
    rw [Fits, hrunning] at hfits
    exact hfits.2
  have hkept : ∀ d ∈ g.needs name,
      (l.receive ((outcome name).completion name)).state? d = some .passed := by
    intro d hd
    have hdn : d ≠ name := by
      rintro rfl
      simpa [hrunning] using hneeds d hd
    simpa [Outcome.completion, hdn] using hneeds d hd
  have hfits : Fits g outcome (l.receive ((outcome name).completion name)) name :=
    .of_outcome (h.mem hrunning) (by simp [Outcome.completion]) hkept
  refine h.assign hg (h.mem hrunning) (by simp [Loop.ended, hrunning, State.terminal])
    (fun n hn => by simp [Outcome.completion, hn]) hfits (fun n => ?_) ?_ ?_ ?_ ?_ rfl rfl
  · show n ∈ l.workers.erase name ↔ _
    rw [h.workers_nodup.mem_erase_iff, h.workers]
    by_cases hn : n = name
    · cases ho : outcome name <;> simp [hn, Outcome.completion, Outcome.state]
    · simp [hn, Outcome.completion]
  · exact h.workers_nodup.erase name
  · show l.active - 1 = (l.workers.erase name).length
    rw [List.length_erase_of_mem hworker, h.active]
  · cases ho : outcome name <;>
      simp [Loop.ended, Outcome.completion, Outcome.state, State.terminal]
  · cases ho : outcome name <;> simp [Outcome.completion, Outcome.state]

/-- None of these jobs waits behind a failure. -/
def Loop.Clear (g : Graph) (names : List String) (l : Loop) : Prop :=
  ∀ n ∈ names, l.state? n = some .pending → hasFailedDependency g l.result.states n = false

/-- Only the states of its needs decide whether a job waits behind a failure. -/
theorem hasFailedDependency_congr
    (h : ∀ d ∈ g.needs n, (l'.state? d = some .failed ∨ l'.state? d = some .blocked) →
      l.state? d = some .failed ∨ l.state? d = some .blocked)
    (hclear : hasFailedDependency g l.result.states n = false) :
    hasFailedDependency g l'.result.states n = false := by
  rw [← Bool.not_eq_true, hasFailedDependency_iff] at hclear ⊢
  grind

/-- **One pass blocks everything behind a failure**: the needs of a job come
before it in the order, so they have been visited. -/
theorem Loop.block_closed (hg : Sound g) {pre rest : List String}
    (horder : g.order = pre ++ rest) (h : l.Follows g outcome) (hclear : l.Clear g pre) :
    (l.dropPending (hasFailedDependency g) .blocked rest).Follows g outcome ∧
      (l.dropPending (hasFailedDependency g) .blocked rest).Clear g g.order ∧
      l.terminal ≤ (l.dropPending (hasFailedDependency g) .blocked rest).terminal := by
  induction rest generalizing pre l with
  | nil =>
    rw [horder, List.append_nil]
    exact ⟨h, hclear, le_refl _⟩
  | cons name rest ih =>
    have horder' : g.order = (pre ++ [name]) ++ rest := by simp [horder]
    rw [Loop.dropPending, List.foldl_cons]
    by_cases hblock : l.state? name = some .pending ∧
        hasFailedDependency g l.result.states name = true
    · rw [if_pos (by simpa using hblock)]
      have hnew : (l.drop name .blocked).Clear g (pre ++ [name]) := by
        intro n hn hpending
        have hne : n ≠ name := by
          rintro rfl
          simp at hpending
        have hn' : n ∈ pre := by simpa [hne] using hn
        have htop : Kahn.Topological g.needs pre :=
          Propagation.topological_of_append (horder ▸ hg.topological)
        have hfresh : name ∉ pre := by grind [hg.nodup]
        refine hasFailedDependency_congr (fun d hd hbad => ?_)
          (hclear n hn' (by simpa [hne] using hpending))
        have hdn : d ≠ name := fun heq => hfresh (heq ▸ Propagation.mem_of_needs htop hn' hd)
        simpa [hdn] using hbad
      obtain ⟨h1, h2, h3⟩ := ih horder' (h.drop hg hblock.1 hblock.2) hnew
      exact ⟨h1, h2, (Nat.le_succ _).trans h3⟩
    · rw [if_neg (by simpa using hblock)]
      refine ih horder' h fun n hn hpending => ?_
      rcases List.mem_append.1 hn with hn | hn
      · exact hclear n hn hpending
      · grind

theorem nextReadyJob_ready (h : nextReadyJob g l.result.states ≠ "") :
    ready g l.result.states (nextReadyJob g l.result.states) = true := by
  unfold nextReadyJob at h ⊢
  cases hfind : g.order.find? (ready g l.result.states) with
  | none => simp [hfind] at h
  | some name => simpa using List.find?_some hfind

theorem nextReadyJob_none (hg : Sound g) (h : nextReadyJob g l.result.states = "") :
    ∀ n ∈ g.order, ready g l.result.states n = false := by
  unfold nextReadyJob at h
  cases hfind : g.order.find? (ready g l.result.states) with
  | none => simpa using List.find?_eq_none.1 hfind
  | some name => grind [hg.nonempty_names]

/-- Starting jobs goes on until the limit is reached or no job is ready. -/
theorem Loop.launchReady_spec (hg : Sound g) (limit : Int) {fuel : Nat}
    (hfuel : g.order.countP (fun n => l.state? n = some .pending) < fuel)
    (h : l.Follows g outcome) (hclear : l.Clear g g.order) :
    (l.launchReady g limit fuel).Follows g outcome ∧
      (l.launchReady g limit fuel).Clear g g.order ∧
      (l.launchReady g limit fuel).terminal = l.terminal ∧
      (limit ≤ (l.launchReady g limit fuel).active ∨
        ∀ n ∈ g.order, ready g (l.launchReady g limit fuel).result.states n = false) := by
  induction fuel generalizing l with
  | zero => omega
  | succ fuel ih =>
    unfold Loop.launchReady
    by_cases hroom : (l.active : Int) < limit
    · rw [if_pos hroom]
      by_cases hnone : nextReadyJob g l.result.states = ""
      · simp only [hnone, if_true]
        exact ⟨h, hclear, trivial, .inr (nextReadyJob_none hg hnone)⟩
      · simp only [hnone, if_false]
        generalize hname : nextReadyJob g l.result.states = name
        have hready : ready g l.result.states name = true :=
          hname ▸ nextReadyJob_ready hnone
        have hpending := (ready_iff.1 hready).1
        refine ih ?_ (h.launch hg hready) ?_
        · have hflip : g.order.countP (fun n => l.state? n = some .pending) =
              g.order.countP (fun n => (l.launch name).state? n = some .pending) + 1 :=
            countP_flip hg.nodup (h.mem hpending) (by simp) (by simpa using hpending)
              fun n hn => by simp [hn]
          omega
        · intro n hn hlaunched
          have hne : n ≠ name := by
            rintro rfl
            simp at hlaunched
          refine hasFailedDependency_congr (fun d _ hbad => ?_)
            (hclear n hn (by simpa [hne] using hlaunched))
          have hdn : d ≠ name := by
            rintro rfl
            simp at hbad
          simpa [hdn] using hbad
    · rw [if_neg hroom]
      exact ⟨h, hclear, rfl, .inl (by omega)⟩

/-- **Nothing is left over.**  When no job runs, none is ready and none waits
behind a failure, every job has ended: the first pending job in the order would
be ready. -/
theorem Loop.Follows.all_ended (hg : Sound g) (h : l.Follows g outcome)
    (hclear : l.Clear g g.order) (hidle : l.active = 0)
    (hnone : ∀ n ∈ g.order, ready g l.result.states n = false) :
    ∀ n ∈ g.order, l.ended n = true := by
  have hnotRunning : ∀ n, l.state? n ≠ some .running := by
    intro n hn
    have hworkers : l.workers = [] := List.length_eq_zero_iff.1 (h.active.symm.trans hidle)
    have hmem := (h.workers n).2 hn
    rw [hworkers] at hmem
    cases hmem
  have hcases : ∀ n ∈ g.order, l.state? n = some .pending ∨ l.ended n = true := by
    intro n hn
    have hfits := h.fits n
    cases hstate : l.state? n with
    | none =>
      rw [Fits, hstate] at hfits
      exact absurd hn hfits
    | some st =>
      cases st with
      | pending => exact .inl rfl
      | running => exact absurd hstate (hnotRunning n)
      | _ => simp [Loop.ended, hstate, State.terminal]
  by_contra hall
  push Not at hall
  obtain ⟨n, hn, hunended⟩ := hall
  obtain ⟨m, hm, hpending, hfirst⟩ := hg.topological.exists_first
    (P := fun n => l.state? n = some .pending) ⟨n, hn, (hcases n hn).resolve_right hunended⟩
  suffices hready : ready g l.result.states m = true by simp [hnone m hm] at hready
  refine ready_iff.2 ⟨hpending, fun d hd => ?_⟩
  obtain ⟨hmem, hnot⟩ := hfirst d hd
  have hended := (hcases d hmem).resolve_left hnot
  have hgood : ¬ (l.state? d = some .failed ∨ l.state? d = some .blocked) := by
    have hm_clear := hclear m hm hpending
    rw [← Bool.not_eq_true, hasFailedDependency_iff] at hm_clear
    exact fun hbad => hm_clear ⟨d, hd, hbad⟩
  have hfits := h.fits d
  cases hstate : l.state? d with
  | none => simp [Loop.ended, hstate] at hended
  | some st =>
    cases st with
    | passed => rfl
    | canceled =>
      rw [Fits, hstate] at hfits
      exact hfits.elim
    | failed => exact absurd (.inl hstate) hgood
    | blocked => exact absurd (.inr hstate) hgood
    | _ => simp [Loop.ended, hstate, State.terminal] at hended

theorem Loop.Follows.terminal_le (hg : Sound g) (h : l.Follows g outcome) :
    l.terminal ≤ g.nodes.length := by
  rw [h.terminal, hg.length]
  exact List.countP_le_length

/-- The counter tells when every job has ended. -/
theorem Loop.Follows.terminal_eq_iff (hg : Sound g) (h : l.Follows g outcome) :
    l.terminal = g.nodes.length ↔ ∀ n ∈ g.order, l.ended n = true := by
  rw [h.terminal, hg.length]
  exact List.countP_eq_length

/-- Blocking and starting: a job runs afterwards, or every job has ended. -/
theorem Loop.Follows.schedule (maxParallel : Int) (hg : Sound g) (h : l.Follows g outcome) :
    (l.schedule g maxParallel).Follows g outcome ∧
      l.terminal ≤ (l.schedule g maxParallel).terminal ∧
      ((l.schedule g maxParallel).active = 0 →
        ∀ n ∈ g.order, (l.schedule g maxParallel).ended n = true) := by
  obtain ⟨hblock, hclear, hle⟩ := Loop.block_closed hg (List.nil_append _).symm h
    (fun n hn => by cases hn)
  obtain ⟨hstart, hclear', hterminal, hlimit⟩ := Loop.launchReady_spec hg
    (parallelLimit maxParallel) (Nat.lt_succ_of_le List.countP_le_length) hblock hclear
  refine ⟨hstart, hle.trans hterminal.ge, fun hidle => ?_⟩
  refine hstart.all_ended hg hclear' hidle (hlimit.resolve_left fun hfull => ?_)
  have hpos : 1 ≤ parallelLimit maxParallel := by
    unfold parallelLimit
    split_ifs <;> omega
  have hbusy : 1 ≤ ((l.schedule g maxParallel).active : Int) := hpos.trans hfull
  rw [hidle] at hbusy
  exact absurd hbusy (by decide)

/-- The invariant of an execution. -/
structure Execution.Follows (g : Graph) (outcome : String → Outcome) (e : Execution) :
    Prop where
  loop : e.loop.Follows g outcome
  context : e.contextDone = false
  waiting : e.phase = .waiting → 0 < e.loop.active
  returned : e.phase = .returned → ∀ n ∈ g.order, e.loop.ended n = true

/-- How far an execution has come. -/
def Execution.progress (e : Execution) : Nat :=
  2 * e.loop.terminal + match e.phase with
    | .head => 0
    | .waiting => 1
    | .returned => 2

theorem Execution.start_state (hg : Sound g) (n : String) :
    (Execution.start g).loop.state? n = if n ∈ g.order then some .pending else none := by
  have hlookup : ∀ nodes : List (String × Node),
      (nodes.map fun node => (⟨node.1, .pending⟩ : Sigma fun _ : String => State)).dlookup n =
        if n ∈ nodes.map Prod.fst then some .pending else none := by
    intro nodes
    induction nodes with
    | nil => rfl
    | cons node rest ih => grind
  simp [Execution.start, Loop.state?, hlookup, hg.keys]

theorem Execution.start_pending (hg : Sound g) {st : State}
    (h : (Execution.start g).loop.state? n = some st) : st = .pending := by
  rw [Execution.start_state hg] at h
  split_ifs at h
  exact (Option.some.inj h).symm

theorem Execution.follows_start (hg : Sound g) : (Execution.start g).Follows g outcome := by
  refine ⟨⟨fun n => ?_, fun n => ?_, List.nodup_nil, rfl, ?_, ?_, rfl, rfl⟩, rfl, ?_, ?_⟩
  · rw [Fits, Execution.start_state hg]
    by_cases hn : n ∈ g.order <;> simp [hn]
  · refine ⟨fun hn => (by cases hn), fun hn => ?_⟩
    cases Execution.start_pending hg hn
  · refine (List.countP_eq_zero.2 fun n _ => ?_).symm
    rw [Loop.ended, Execution.start_state hg]
    split_ifs
    simp [State.terminal]
  · refine ⟨fun hn => (by cases hn), ?_⟩
    rintro ⟨n, hn, -⟩
    cases Execution.start_pending hg hn
  · intro hphase
    cases hphase
  · intro hphase
    cases hphase

/-- The loop leaves through its head or with no job active. -/
theorem Execution.Follows.turn (hg : Sound g) (h : e.Follows g outcome) (hphase : e.phase = .head) :
    (e.turn g maxParallel).Follows g outcome ∧
      e.progress < (e.turn g maxParallel).progress := by
  have hstay : e.loop.observeContext e.contextDone = e.loop := by
    simp [Loop.observeContext, h.context]
  unfold Execution.turn
  rw [hstay]
  simp only [h.loop.admitting, Bool.false_eq_true, if_false]
  obtain ⟨hstart, hle, hended⟩ := h.loop.schedule maxParallel hg
  by_cases hopen : e.loop.terminal < g.nodes.length
  · rw [if_pos hopen]
    by_cases hidle : (e.loop.schedule g maxParallel).active = 0
    · rw [if_pos hidle]
      have hall := hended hidle
      have hsettle : (e.loop.schedule g maxParallel).settle g = e.loop.schedule g maxParallel := by
        simp [Loop.settle, hstart.admitting, (hstart.terminal_eq_iff hg).2 hall]
      rw [hsettle]
      refine ⟨⟨hstart, h.context, fun hp => (by cases hp), fun _ => hall⟩, ?_⟩
      simp only [Execution.progress, hphase]
      omega
    · rw [if_neg hidle]
      refine ⟨⟨hstart, h.context, fun _ => Nat.pos_of_ne_zero hidle, fun hp => (by cases hp)⟩, ?_⟩
      simp only [Execution.progress, hphase]
      omega
  · rw [if_neg hopen]
    have hall := (h.loop.terminal_eq_iff hg).1
      (le_antisymm (h.loop.terminal_le hg) (Nat.not_lt.1 hopen))
    refine ⟨⟨h.loop, h.context, fun hp => (by cases hp), fun _ => hall⟩, ?_⟩
    simp only [Execution.progress, hphase]
    omega

/-- **A step of an execution.** -/
theorem Execution.Follows.step (hg : Sound g) (h : e.Follows g outcome) {a : Action}
    (ha : a.Reports outcome) (hstep : e.step g maxParallel a = some e') :
    e'.Follows g outcome ∧ e.progress < e'.progress := by
  cases a with
  | cancel => exact ha.elim
  | contextDone => exact ha.elim
  | turn =>
    simp only [Execution.step] at hstep
    split_ifs at hstep with hphase
    cases hstep
    exact h.turn hg hphase
  | receive c =>
    simp only [Execution.step] at hstep
    split_ifs at hstep with hphase
    cases hstep
    have hc : c = (outcome c.name).completion c.name := ha
    rw [hc]
    refine ⟨⟨h.loop.receive hg hphase.2, h.context, fun hp => (by cases hp),
      fun hp => (by cases hp)⟩, ?_⟩
    grind [Execution.progress, Loop.receive_terminal]

/-- **What an execution without cancellation keeps**, and that every action
brings it forward. -/
theorem Runs.follows (hg : Sound g) {tr : List (Step Execution Action)}
    (h : Runs g maxParallel tr e) (hreports : ∀ st ∈ tr, st.act.Reports outcome) :
    e.Follows g outcome ∧ tr.length ≤ e.progress := by
  induction h with
  | nil => exact ⟨Execution.follows_start hg, Nat.zero_le _⟩
  | @snoc tr e e' a run step ih =>
    obtain ⟨hfollows, hlength⟩ := ih fun st hst => hreports st (List.mem_append_left _ hst)
    obtain ⟨hfollows', hlt⟩ := hfollows.step hg
      (hreports ⟨e, a, e'⟩ (List.mem_append_right _ List.mem_cons_self)) step
    exact ⟨hfollows', by simpa using Nat.succ_le_of_lt (lt_of_le_of_lt hlength hlt)⟩

/-- **An execution ends**: it takes two actions for each job at most, and one
to leave the loop. -/
theorem Runs.bounded (hg : Sound g) {tr : List (Step Execution Action)}
    (h : Runs g maxParallel tr e) (hreports : ∀ st ∈ tr, st.act.Reports outcome) :
    tr.length ≤ 2 * g.order.length + 2 := by
  obtain ⟨hfollows, hlength⟩ := h.follows hg hreports
  have hle := hfollows.loop.terminal_le hg
  grind [hg.length, Execution.progress]

/-- An execution that has not returned can go on. -/
theorem Execution.Follows.can_step (h : e.Follows g outcome) (hphase : e.phase ≠ .returned) :
    ∃ a e', a.Reports outcome ∧ e.step g maxParallel a = some e' := by
  cases hp : e.phase with
  | returned => exact absurd hp hphase
  | head => exact ⟨.turn, _, trivial, if_pos hp⟩
  | waiting =>
    obtain ⟨name, hname⟩ : ∃ name, name ∈ e.loop.workers :=
      List.exists_mem_of_length_pos (h.loop.active ▸ h.waiting hp)
    exact ⟨.receive ((outcome name).completion name), _, rfl, if_pos ⟨hp, hname⟩⟩

/-- An execution that has returned does nothing more. -/
theorem Execution.step_returned (hphase : e.phase = .returned) {a : Action}
    (ha : a.Reports outcome) : e.step g maxParallel a = none := by
  cases a with
  | cancel => exact ha.elim
  | contextDone => exact ha.elim
  | turn | receive c => simp [Execution.step, hphase]

/-- **How an execution ends.**  Exactly the jobs with a need that failed or was
blocked are blocked, and the others have the state their outcome gives. -/
theorem Execution.Follows.ends (h : e.Follows g outcome) (hphase : e.phase = .returned) :
    Propagation.Closed g.needs g.order (outcome · ≠ .pass)
        (e.loop.state? · = some .blocked) ∧
      ∀ n ∈ g.order, e.loop.state? n ≠ some .blocked →
        e.loop.state? n = some (outcome n).state := by
  have hended := h.returned hphase
  have hrest : ∀ n ∈ g.order, e.loop.state? n ≠ some .blocked →
      e.loop.state? n = some (outcome n).state ∧
        ∀ d ∈ g.needs n, e.loop.state? d = some .passed := by
    intro n hn hfree
    have hfits := h.loop.fits n
    have hend := hended n hn
    unfold Fits at hfits
    cases hstate : e.loop.state? n with
    | none => simp [Loop.ended, hstate] at hend
    | some st =>
      rw [hstate] at hfits
      cases st with
      | passed => exact ⟨by simp [hfits.2.1, Outcome.state], hfits.2.2⟩
      | failed =>
        refine ⟨?_, hfits.2.2⟩
        cases ho : outcome n with
        | pass => exact absurd ho hfits.2.1
        | _ => rfl
      | blocked => exact absurd hstate hfree
      | canceled => exact hfits.elim
      | _ => simp [Loop.ended, hstate, State.terminal] at hend
  refine ⟨fun n hn => ⟨fun hblocked => ?_, ?_⟩, fun n hn hfree => (hrest n hn hfree).1⟩
  · have hfits := h.loop.fits n
    rw [Fits, hblocked] at hfits
    obtain ⟨d, hd, hbad⟩ := hasFailedDependency_iff.1 hfits.2
    refine ⟨d, hd, hbad.symm.imp_right fun hfailed => ?_⟩
    have hdfits := h.loop.fits d
    rw [Fits, hfailed] at hdfits
    exact hdfits.2.1
  · rintro ⟨d, hd, hbad⟩
    by_contra hfree
    have hpassed := (hrest n hn hfree).2 d hd
    have hdfits := h.loop.fits d
    grind [Fits]

end Runner
