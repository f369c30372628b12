import ForgeCI.Deliveries
import ForgeCI.SourcePreparation

/-!
# The workers that process deliveries

The system of a database, any number of worker goroutines, the webhooks and the rest of
the control plane, under one clock.  A worker claims a delivery and takes it through
`process`; each call of the store is one step, and so is the preparation of the source.
A worker may crash between any two steps, and any call may fail, before or after the
store has executed it.  A context that is done is one reason for a call to fail.
-/

namespace ScmWorker

open Postgres Scm Traces

/-- `scmworker.Config`, as `New` accepts it. -/
structure Config where
  workerID : String
  lease : Time
  baseBackoff : Time
  maxBackoff : Time
  maxAttempts : Nat
  lease_pos : 0 < lease
  backoff_pos : 0 < baseBackoff
  backoff_le : baseBackoff ≤ maxBackoff
  attempts_pos : 1 ≤ maxAttempts

/-- What `ClaimSCMDelivery` returned, and the token in it. -/
structure Claim where
  delivery : Delivery
  token : Uuid

/-- Where a goroutine stands in `loop` and `process`. -/
inductive Phase where
  | idle
  | lookup (c : Claim)
  | repository (c : Claim)
  | preparing (c : Claim) (r : SourceRepository)
  | creating (c : Claim) (input : CreateRun) (trigger : RunTrigger)
  | completing (c : Claim)
  | failing (c : Claim) (e : ProcessingError)

/-- The claim of the delivery in hand. -/
def Phase.claim? : Phase → Option Claim
  | .idle => none
  | .lookup c | .repository c | .preparing c _ | .creating c _ _ | .completing c | .failing c _ =>
      some c

/-- The claim that is renewed: up to `finishRenewal`. -/
def Phase.renewed? : Phase → Option Claim
  | .lookup c | .repository c | .preparing c _ | .creating c _ _ => some c
  | _ => none

theorem Phase.claim?_of_renewed? {p : Phase} {c : Claim} (h : p.renewed? = some c) :
    p.claim? = some c := by
  cases p <;> first | exact h | cases h

/-- The loop of `fail` that doubles the delay. -/
def delayLoop (maxBackoff : Time) : Nat → Time → Time
  | 0, delay => delay
  | n + 1, delay =>
      if delay < maxBackoff then delayLoop maxBackoff n (min (delay * 2) maxBackoff) else delay

/-- The next attempt that `fail` asks for. -/
def Config.retryAt (cfg : Config) (now : Time) (d : Delivery) (e : ProcessingError) :
    Option Time :=
  if e.failure = .transient ∧ d.attemptCount < cfg.maxAttempts then
    some (now + delayLoop cfg.maxBackoff (d.attemptCount - 1) cfg.baseBackoff)
  else none

/-- `createRun`. -/
def createRun (runID : Uuid) (p : Prepared) : CreateRun :=
  submission runID p.config p.pipeline 1 (some p.snapshot)

/-- The trigger that `process` passes to `CreateSCMRun`. -/
def triggerOf (triggerID runID : Uuid) (d : Delivery) (r : SourceRepository) (p : Prepared) :
    RunTrigger where
  id := triggerID
  deliveryID := d.id
  repositoryID := r.id
  runID := runID
  provider := p.provider
  commitSHA := p.gitCommitSHA
  pullRequestNumber := p.pullRequestNumber

/-- How a call of the store goes: the reply arrives, the reply is lost, or the call is
never executed. -/
inductive Fault where
  | none
  | lost
  | unsent
deriving DecidableEq

/-- The steps of a worker; the arguments of `repository` and `prepare` are what the
database and the environment answer. -/
inductive Move where
  | claim (token : Uuid)
  | renew
  | lookup (fails : Bool)
  | repository (fails : Bool) (fullName pipelinePath : String) (enabled : Bool)
  | prepare (env : Environment) (origin : Origin) (runID triggerID : Uuid)
  | create (fault : Fault)
  | complete (fault : Fault)
  | fail (fault : Fault) (message : String)
  | crash

inductive Action where
  | pass (time : Time)
  | webhook (hook : Webhook) (id : Uuid) (enabled : Bool)
  /-- A call of the rest of the control plane. -/
  | other (call : Call)
  | work (w : Nat) (move : Move)

/-- The state of the system; `tokens` are the claim tokens issued so far. -/
structure System where
  db : Database := .empty
  clock : Time := 0
  tokens : List Uuid := []
  worker : Nat → Phase := fun _ => .idle

/-- Serve a call now. -/
def System.serve (s : Settings) (call : Call) (sys : System) : System :=
  { sys with db := (sys.db.serve s ⟨sys.clock, call⟩).1 }

/-- What a call served now is answered. -/
def System.reply (s : Settings) (call : Call) (sys : System) : Except StoreError Reply :=
  (sys.db.serve s ⟨sys.clock, call⟩).2

/-- A call that is executed unless it is never sent. -/
def System.attempt (s : Settings) (call : Call) (fault : Fault) (sys : System) : System :=
  if fault = .unsent then sys else sys.serve s call

/-- The worker goes on. -/
def System.goto (w : Nat) (p : Phase) (sys : System) : System :=
  { sys with worker := Function.update sys.worker w p }

/-- The calls that `process` makes under a claim. -/
def renewCall (cfg : Config) (c : Claim) : Call :=
  .renewSCMDeliveryClaim c.delivery.id c.token cfg.lease

def createCall (c : Claim) (input : CreateRun) (trigger : RunTrigger) : Call :=
  .createSCMRun c.token input trigger

def completeCall (c : Claim) : Call :=
  .completeSCMDelivery c.delivery.id c.token .processed

def failCall (cfg : Config) (now : Time) (c : Claim) (e : ProcessingError) (message : String) :
    Call :=
  .failSCMDelivery c.delivery.id c.token (cfg.retryAt now c.delivery e) message

/-- One step of a worker. -/
def System.work (cfg : Config) (s : Settings) (w : Nat) (sys : System) : Move → Option System
  | .claim token =>
      match sys.worker w with
      | .idle =>
          if token ∈ sys.tokens then none
          else
            let call := Call.claimSCMDelivery token cfg.workerID cfg.lease
            let sys' := { sys.serve s call with tokens := token :: sys.tokens }
            match sys.reply s call with
            | .ok (.delivery (some d)) => some (sys'.goto w (.lookup ⟨d, token⟩))
            | _ => some sys'
      | _ => none
  | .renew => (sys.worker w).renewed?.map fun c => sys.serve s (renewCall cfg c)
  | .lookup fails =>
      match sys.worker w with
      | .lookup c =>
          if fails then some (sys.goto w (.failing c (transient .store)))
          else if sys.db.triggers.any (·.deliveryID = c.delivery.id) then
            some (sys.goto w (.completing c))
          else some (sys.goto w (.repository c))
      | _ => none
  | .repository fails fullName pipelinePath enabled =>
      match sys.worker w with
      | .repository c =>
          match Table.row? Repository.id c.delivery.repositoryID sys.db.repositories with
          | some r =>
              if fails then some (sys.goto w (.failing c (permanent .store)))
              else if enabled = false then
                some (sys.goto w (.failing c (permanent .repositoryDisabled)))
              else
                some (sys.goto w
                  (.preparing c ⟨r.id, r.provider, fullName, pipelinePath, enabled⟩))
          | none => some (sys.goto w (.failing c (permanent .store)))
      | _ => none
  | .prepare env origin runID triggerID =>
      match sys.worker w with
      | .preparing c r =>
          match prepareSource env r c.delivery origin with
          | .error e => some (sys.goto w (.failing c e))
          | .ok p => some (sys.goto w (.creating c (createRun runID p)
              (triggerOf triggerID runID c.delivery r p)))
      | _ => none
  | .create fault =>
      match sys.worker w with
      | .creating c input trigger =>
          let call := createCall c input trigger
          let next := match fault, sys.reply s call with
            | .none, .ok _ => Phase.completing c
            | _, _ => .failing c (transient .store)
          some ((sys.attempt s call fault).goto w next)
      | _ => none
  | .complete fault =>
      match sys.worker w with
      | .completing c => some ((sys.attempt s (completeCall c) fault).goto w .idle)
      | _ => none
  | .fail fault message =>
      match sys.worker w with
      | .failing c e =>
          some ((sys.attempt s (failCall cfg sys.clock c e message) fault).goto w .idle)
      | _ => none
  | .crash => some (sys.goto w .idle)

/-- One step of one party; `none` when the party cannot take it.  The workers may have
different configurations. -/
def step (cfg : Nat → Config) (s : Settings) (sys : System) : Action → Option System
  | .pass time => some { sys with clock := sys.clock + time }
  | .webhook hook id enabled =>
      match githubWebhook hook id sys.clock enabled sys.db.toRows with
      | .error _ => some sys
      | .ok d => some (sys.serve s (.createSCMDelivery d))
  | .other call => if call.ofDeliveries then none else some (sys.serve s call)
  | .work w move => sys.work (cfg w) s w move

/-- A run of the system. -/
abbrev Runs (cfg : Nat → Config) (s : Settings) :
    System → List (Step System Action) → System → Prop :=
  Trace fun sys act sys' => step cfg s sys act = some sys'

/-- A run from the empty database. -/
abbrev Reaches (cfg : Nat → Config) (s : Settings) (tr : List (Step System Action))
    (sys : System) : Prop :=
  Runs cfg s {} tr sys

variable {cfg : Nat → Config} {s : Settings} {sys sys' : System} {act : Action} {call : Call}
variable {tr : List (Step System Action)} {w : Nat} {c : Claim} {d d' : Delivery}

/-- The call an action makes of the store. -/
inductive Makes (cfg : Nat → Config) (sys : System) : Action → Call → Prop
  | webhook {hook : Webhook} {id : Uuid} {enabled : Bool} {d : Delivery}
      (hook_ok : githubWebhook hook id sys.clock enabled sys.db.toRows = .ok d) :
      Makes cfg sys (.webhook hook id enabled) (.createSCMDelivery d)
  | other {call : Call} (elsewhere : call.ofDeliveries = false) : Makes cfg sys (.other call) call
  | claim {w : Nat} {token : Uuid} (phase : sys.worker w = .idle) (fresh : token ∉ sys.tokens) :
      Makes cfg sys (.work w (.claim token))
        (.claimSCMDelivery token (cfg w).workerID (cfg w).lease)
  | renew {w : Nat} {c : Claim} (phase : (sys.worker w).renewed? = some c) :
      Makes cfg sys (.work w .renew) (renewCall (cfg w) c)
  | create {w : Nat} {c : Claim} {input : CreateRun} {trigger : RunTrigger} (fault : Fault)
      (phase : sys.worker w = .creating c input trigger) :
      Makes cfg sys (.work w (.create fault)) (createCall c input trigger)
  | complete {w : Nat} {c : Claim} (fault : Fault) (phase : sys.worker w = .completing c) :
      Makes cfg sys (.work w (.complete fault)) (completeCall c)
  | fail {w : Nat} {c : Claim} {e : ProcessingError} (fault : Fault) (message : String)
      (phase : sys.worker w = .failing c e) :
      Makes cfg sys (.work w (.fail fault message)) (failCall (cfg w) sys.clock c e message)

variable {token : Uuid}

theorem Makes.claimSCMDelivery {worker : String} {lease : Time}
    (h : Makes cfg sys act (.claimSCMDelivery token worker lease)) :
    ∃ w, act = .work w (.claim token) ∧ token ∉ sys.tokens := by
  generalize hcall : Call.claimSCMDelivery token worker lease = call at h
  cases h with
  | @claim w token' phase fresh =>
    cases hcall
    exact ⟨w, rfl, fresh⟩
  | other elsewhere =>
    subst hcall
    cases elsewhere
  | _ => cases hcall

theorem Makes.createSCMRun {input : CreateRun} {trigger : RunTrigger}
    (h : Makes cfg sys act (.createSCMRun token input trigger)) :
    ∃ w fault c, act = .work w (.create fault) ∧ sys.worker w = .creating c input trigger ∧
      token = c.token := by
  generalize hcall : Call.createSCMRun token input trigger = call at h
  cases h with
  | @create w c input' trigger' fault phase =>
    cases hcall
    exact ⟨w, fault, c, rfl, phase, rfl⟩
  | other elsewhere =>
    subst hcall
    cases elsewhere
  | _ => cases hcall

theorem Makes.completeSCMDelivery {id token : Uuid} {status : DeliveryStatus}
    (h : Makes cfg sys act (.completeSCMDelivery id token status)) :
    ∃ w fault c, act = .work w (.complete fault) ∧ sys.worker w = .completing c ∧
      id = c.delivery.id ∧ token = c.token ∧ status = .processed := by
  generalize hcall : Call.completeSCMDelivery id token status = call at h
  cases h with
  | @complete w c fault phase =>
    cases hcall
    exact ⟨w, fault, c, rfl, phase, rfl, rfl, rfl⟩
  | other elsewhere =>
    subst hcall
    cases elsewhere
  | _ => cases hcall

theorem Makes.failSCMDelivery {id token : Uuid} {retryAt : Option Time} {message : String}
    (h : Makes cfg sys act (.failSCMDelivery id token retryAt message)) :
    ∃ w c e, sys.worker w = .failing c e ∧ token = c.token ∧
      retryAt = (cfg w).retryAt sys.clock c.delivery e := by
  generalize hcall : Call.failSCMDelivery id token retryAt message = call at h
  cases h with
  | @fail w c e fault message' phase =>
    cases hcall
    exact ⟨w, c, e, phase, rfl, rfl⟩
  | other elsewhere =>
    subst hcall
    cases elsewhere
  | _ => cases hcall

/-- A new delivery is `PENDING` or `IGNORED`. -/
theorem Makes.inserted_status {input : Delivery}
    (h : Makes cfg sys act (.createSCMDelivery input)) :
    input.inserted.status = .pending ∨ input.inserted.status = .ignored := by
  cases h with
  | webhook hook_ok => exact (githubWebhook_ok hook_ok).1
  | other elsewhere => cases elsewhere

@[simp] theorem System.goto_db (w : Nat) (p : Phase) (sys : System) : (sys.goto w p).db = sys.db :=
  rfl

@[simp] theorem System.goto_worker_self (w : Nat) (p : Phase) (sys : System) :
    (sys.goto w p).worker w = p :=
  Function.update_self ..

theorem System.goto_worker_of_ne {w w' : Nat} (h : w ≠ w') (p : Phase) (sys : System) :
    (sys.goto w' p).worker w = sys.worker w :=
  Function.update_of_ne h ..

theorem System.serve_served (s : Settings) (call : Call) (sys : System) :
    Served s sys.db ⟨sys.clock, call⟩ (sys.serve s call).db :=
  rfl

theorem System.attempt_cases (s : Settings) (call : Call) (fault : Fault) (sys : System) :
    sys.attempt s call fault = sys ∨ sys.attempt s call fault = sys.serve s call := by
  unfold attempt
  split_ifs
  · exact .inl rfl
  · exact .inr rfl

/-- Only the passing of time moves the clock. -/
theorem step_pass (h : step cfg s sys act = some sys') :
    sys'.clock = sys.clock ∨ ∃ time, act = .pass time ∧ sys'.clock = sys.clock + time ∧
      sys'.db = sys.db := by
  cases act with
  | pass time => grind [step]
  | work w move =>
    cases move <;> grind [step, System.work, System.serve, System.goto, System.attempt,
      Option.map_eq_some_iff]
  | _ => grind [step, System.serve]

theorem step_clock (h : step cfg s sys act = some sys') : sys.clock ≤ sys'.clock := by
  rcases step_pass h with hclock | ⟨time, -, hclock, -⟩
  · exact hclock.ge
  · exact hclock ▸ Nat.le_add_right ..

/-- The claim tokens an action issues. -/
def Action.issued : Action → List Uuid
  | .work _ (.claim token) => [token]
  | _ => []

theorem step_tokens (h : step cfg s sys act = some sys') :
    sys'.tokens = act.issued ++ sys.tokens := by
  cases act with
  | work w move =>
    cases move <;> grind [step, System.work, System.serve, System.goto, System.attempt,
      Action.issued, Option.map_eq_some_iff]
  | _ => grind [step, System.serve, Action.issued]

/-- Only the worker that takes a step changes its phase. -/
theorem step_worker (h : step cfg s sys act = some sys') (hw : ∀ move, act ≠ .work w move) :
    sys'.worker w = sys.worker w := by
  cases act with
  | work w' move =>
    have hne : w ≠ w' := fun heq => hw move (by rw [heq])
    cases move <;> grind [step, System.work, System.serve, System.attempt,
      Option.map_eq_some_iff, System.goto_worker_of_ne]
  | _ => grind [step, System.serve]

/-- A step changes the database by a call it makes, or not at all. -/
theorem step_served (h : step cfg s sys act = some sys') :
    sys'.db = sys.db ∨
      ∃ call, Makes cfg sys act call ∧ Served s sys.db ⟨sys.clock, call⟩ sys'.db := by
  cases act with
  | pass time => grind [step]
  | webhook hook id enabled =>
    simp only [step] at h
    split at h
    · grind
    · rename_i d hd
      cases h
      exact .inr ⟨_, .webhook hd, rfl⟩
  | other call =>
    simp only [step, Option.ite_none_left_eq_some, Option.some.injEq] at h
    obtain ⟨hcall, rfl⟩ := h
    exact .inr ⟨call, .other (by simpa using hcall), rfl⟩
  | work w move =>
    cases move with
    | claim token =>
      simp only [step, System.work] at h
      split at h
      · split at h
        · cases h
        rename_i hphase hfresh
        split at h <;>
        · cases h
          exact .inr ⟨_, .claim hphase hfresh, rfl⟩
      · cases h
    | renew =>
      obtain ⟨c, hc, rfl⟩ := Option.map_eq_some_iff.1 h
      exact .inr ⟨_, .renew hc, rfl⟩
    | create fault =>
      simp only [step, System.work] at h
      split at h
      · rename_i c input trigger hphase
        cases h
        rcases sys.attempt_cases s (createCall c input trigger) fault with hsame | hserved
        · exact .inl (by rw [hsame]; rfl)
        · exact .inr ⟨_, .create fault hphase, by rw [hserved]; rfl⟩
      · cases h
    | complete fault =>
      simp only [step, System.work] at h
      split at h
      · rename_i c hphase
        cases h
        rcases sys.attempt_cases s (completeCall c) fault with hsame | hserved
        · exact .inl (by rw [hsame]; rfl)
        · exact .inr ⟨_, .complete fault hphase, by rw [hserved]; rfl⟩
      · cases h
    | fail fault message =>
      simp only [step, System.work] at h
      split at h
      · rename_i c e hphase
        cases h
        rcases sys.attempt_cases s (failCall (cfg w) sys.clock c e message) fault with
          hsame | hserved
        · exact .inl (by rw [hsame]; rfl)
        · exact .inr ⟨_, .fail fault message hphase, by rw [hserved]; rfl⟩
      · cases h
    | _ => grind [step, System.work, System.goto]

/-- **The database goes through a run of the store.** -/
theorem Runs.store (h : Runs cfg s sys tr sys') :
    ∃ requests, Trace (Served s) sys.db requests sys'.db := by
  induction h with
  | nil => exact ⟨[], .nil⟩
  | snoc _ hstep ih =>
    obtain ⟨requests, htrace⟩ := ih
    rcases step_served hstep with hsame | ⟨call, -, hserved⟩
    · rw [hsame]
      exact ⟨requests, htrace⟩
    · exact ⟨_, .snoc htrace hserved⟩

/-- What a step does to a delivery. -/
def Moves (cfg : Nat → Config) (sys : System) (act : Action) (d d' : Delivery) : Prop :=
  d' = d ∨ ∃ call, Makes cfg sys act call ∧ DeliveryStep sys.clock call d d'

theorem Moves.static (h : Moves cfg sys act d d') : d.SameStatic d' := by
  rcases h with rfl | ⟨call, -, hstep⟩
  · exact .refl d'
  · exact hstep.static

theorem step_delivery_after (h : step cfg s sys act = some sys') (hd : d ∈ sys.db.deliveries) :
    ∃ d' ∈ sys'.db.deliveries, Moves cfg sys act d d' := by
  rcases step_served h with hsame | ⟨call, hmakes, hserved⟩
  · exact ⟨d, by rwa [hsame], .inl rfl⟩
  · grind [hserved.delivery_after, Moves]

theorem step_delivery_before (h : step cfg s sys act = some sys') (hd : d' ∈ sys'.db.deliveries) :
    (∃ d ∈ sys.db.deliveries, Moves cfg sys act d d') ∨
      ∃ input, Makes cfg sys act (.createSCMDelivery input) ∧ d' = input.inserted := by
  rcases step_served h with hsame | ⟨call, hmakes, hserved⟩
  · exact .inl ⟨d', by rwa [← hsame], .inl rfl⟩
  · grind [hserved.delivery_before, Moves]

/-- Only the creation of a run adds a trigger. -/
theorem step_triggers (h : step cfg s sys act = some sys') :
    sys'.db.triggers = sys.db.triggers ∨
      ∃ w fault c input trigger, act = .work w (.create fault) ∧
        sys.worker w = .creating c input trigger ∧
        sys'.db.triggers = sys.db.triggers ++ [trigger] := by
  rcases step_served h with hsame | ⟨call, hmakes, hserved⟩
  · exact .inl (by rw [hsame])
  · rcases hserved.triggers_cases with hsame | ⟨token, input, trigger, hcall, hadd⟩
    · exact .inl hsame
    · obtain rfl : call = .createSCMRun token input trigger := hcall
      grind [hmakes.createSCMRun]

/-- The trigger says what the delivery says. -/
def Agrees (g : RunTrigger) (d : Delivery) : Prop :=
  g.deliveryID = d.id ∧ g.repositoryID = d.repositoryID ∧
    g.pullRequestNumber = d.pullRequestNumber ∧ d.commitSHA = some g.commitSHA

theorem Agrees.static {g : RunTrigger} (h : Agrees g d) (hd : d.SameStatic d') : Agrees g d' := by
  obtain ⟨hid, hrepository, hnumber, hcommit⟩ := h
  obtain ⟨hid', -, -, hrepository', -, -, hcommit', hnumber', -⟩ := hd
  grind [Agrees]

/-- The claim has been issued for a row, and a row under its token counts its attempts. -/
structure System.Knows (sys : System) (c : Claim) : Prop where
  issued : c.token ∈ sys.tokens
  row : ∃ d ∈ sys.db.deliveries, c.delivery.SameStatic d
  attempts : ∀ d ∈ sys.db.deliveries, d.claimToken = some c.token →
    d.attemptCount = c.delivery.attemptCount

theorem System.knows_goto {p : Phase} : (sys.goto w p).Knows c ↔ sys.Knows c := by
  constructor <;>
  · intro h
    exact ⟨h.issued, h.row, h.attempts⟩

/-- What a worker knows in each phase. -/
def System.PhaseOk (sys : System) : Phase → Prop
  | .idle => True
  | .lookup c | .repository c | .preparing c _ | .failing c _ => sys.Knows c
  | .creating c input trigger => sys.Knows c ∧ trigger.runID = input.id ∧ Agrees trigger c.delivery
  | .completing c => sys.Knows c ∧ ∃ g ∈ sys.db.triggers, g.deliveryID = c.delivery.id

/-- The invariant of the system. -/
structure System.Sound (sys : System) : Prop where
  phases : ∀ w, sys.PhaseOk (sys.worker w)
  /-- The commits are stored in lower case. -/
  commits : ∀ d ∈ sys.db.deliveries, toLower d.commit = d.commit
  tokens : ∀ d ∈ sys.db.deliveries, ∀ token, d.claimToken = some token → token ∈ sys.tokens
  triggers : ∀ g ∈ sys.db.triggers, ∃ d ∈ sys.db.deliveries, Agrees g d
  processed : ∀ d ∈ sys.db.deliveries, d.status = .processed →
    ∃ g ∈ sys.db.triggers, g.deliveryID = d.id

theorem System.PhaseOk.knows {p : Phase} (h : sys.PhaseOk p) (hc : p.claim? = some c) :
    sys.Knows c := by
  cases p <;> cases hc <;> first | exact h | exact h.1

theorem step_triggers_mono (h : step cfg s sys act = some sys') :
    sys.db.triggers ⊆ sys'.db.triggers := by
  rcases step_triggers h with
    hsame | ⟨w, fault, c, input, trigger, -, -, hadd⟩
  · rw [hsame]
    exact List.Subset.refl _
  · rw [hadd]
    exact List.subset_append_left _ _

theorem step_tokens_mono (h : step cfg s sys act = some sys') : sys.tokens ⊆ sys'.tokens := by
  rw [step_tokens h]
  exact List.subset_append_right _ _

/-- A token is under a claim because it was, or the step has just issued it. -/
theorem Moves.claimToken (h : Moves cfg sys act d d') (htoken : d'.claimToken = some token) :
    (d.claimToken = some token ∧ d'.attemptCount = d.attemptCount) ∨
      ∃ w, act = .work w (.claim token) ∧ token ∉ sys.tokens := by
  rcases h with rfl | ⟨call, hmakes, hstep⟩
  · exact .inl ⟨htoken, rfl⟩
  · rcases hstep.claimToken htoken with hold | ⟨worker, lease, rfl⟩
    · exact .inl hold
    · exact .inr hmakes.claimSCMDelivery

/-- A delivery is under a claim because it was, or the step has just issued the token. -/
theorem Moves.claimedWith {later : Time} (h : Moves cfg sys act d d')
    (hclaim : d'.claimedWith token later = true) (hle : sys.clock ≤ later) :
    d.claimedWith token sys.clock = true ∨ token ∉ sys.tokens := by
  rcases h with rfl | ⟨call, hmakes, hstep⟩
  · exact .inl (Delivery.claimedWith_earlier hclaim hle)
  · rcases hstep.claimedWith hclaim hle with hold | ⟨worker, lease, rfl⟩
    · exact .inl hold
    · grind [hmakes.claimSCMDelivery]

theorem System.Knows.step (hc : sys.Knows c) (h : step cfg s sys act = some sys') :
    sys'.Knows c where
  issued := step_tokens_mono h hc.issued
  row := by
    obtain ⟨d, hd, hstatic⟩ := hc.row
    obtain ⟨d', hd', hmoves⟩ := step_delivery_after h hd
    exact ⟨d', hd', hstatic.trans hmoves.static⟩
  attempts := by
    intro d' hd' htoken
    rcases step_delivery_before h hd' with ⟨d, hd, hmoves⟩ | ⟨input, -, rfl⟩
    · grind [hmoves.claimToken, hc.attempts, hc.issued]
    · cases htoken

theorem System.PhaseOk.step {p : Phase} (hp : sys.PhaseOk p) (h : step cfg s sys act = some sys') :
    sys'.PhaseOk p := by
  cases p with
  | idle => trivial
  | creating c input trigger => exact ⟨hp.1.step h, hp.2⟩
  | completing c =>
    obtain ⟨hc, g, hg, hid⟩ := hp
    exact ⟨hc.step h, g, step_triggers_mono h hg, hid⟩
  | _ => exact System.Knows.step hp h

/-- A claim that is granted is known. -/
theorem System.Sound.claimed (hsys : sys.Sound) {worker : String} {lease : Time}
    (hfresh : token ∉ sys.tokens) (htokens : token ∈ sys'.tokens)
    (hdb : sys'.db = (sys.serve s (.claimSCMDelivery token worker lease)).db)
    (hreply : sys.reply s (.claimSCMDelivery token worker lease) = .ok (.delivery (some d))) :
    sys'.Knows ⟨d, token⟩ := by
  obtain ⟨-, hmem, hrows⟩ := Database.serve_claim hreply
  refine ⟨htokens, ⟨d, by rwa [hdb], .refl d⟩, ?_⟩
  intro d' hd' htoken
  rw [hdb] at hd'
  rcases hrows d' hd' with rfl | hold
  · rfl
  · exact absurd (hsys.tokens d' hold token htoken) hfresh

/-- A prepared source makes a trigger that agrees with the delivery. -/
theorem System.Sound.prepared (hsys : sys.Sound) (hc : sys.Knows c) {env : Environment}
    {origin : Origin} {r : SourceRepository} {p : Prepared}
    (h : prepareSource env r c.delivery origin = .ok p) (triggerID runID : Uuid) :
    Agrees (triggerOf triggerID runID c.delivery r p) c.delivery := by
  obtain ⟨hid, hsha, hcommit, hnumber, -⟩ := prepareSource_ok h
  obtain ⟨d, hd, -, -, -, -, -, -, hsame, -⟩ := hc.row
  have hlower := hsys.commits d hd
  refine ⟨rfl, hid.symm, hnumber, ?_⟩
  simp only [triggerOf, hcommit]
  simp only [Delivery.commit, hsame] at hlower hsha ⊢
  cases hsome : c.delivery.commitSHA with
  | none =>
    rw [hsome] at hsha
    exact absurd hsha (by decide)
  | some sha => grind

/-- The phase a worker reaches is one it has the knowledge for. -/
theorem step_phase (hsys : sys.Sound) {move : Move}
    (h : step cfg s sys (.work w move) = some sys') : sys'.PhaseOk (sys'.worker w) := by
  have hw := hsys.phases w
  -- what is known before the step is known after it
  have hmono := fun p (hp : sys.PhaseOk p) => System.PhaseOk.step hp h
  have htokens := step_tokens h
  cases move with
  | claim token =>
    simp only [step, System.work] at h
    split at h
    · split at h
      · cases h
      rename_i hidle hfresh
      split at h
      · rename_i d hreply
        cases h
        rw [System.goto_worker_self]
        exact hsys.claimed hfresh List.mem_cons_self rfl hreply
      · cases h
        simp [hidle, System.serve, System.PhaseOk]
    · cases h
  | renew =>
    obtain ⟨c, hc, rfl⟩ := Option.map_eq_some_iff.1 h
    exact hmono _ hw
  | lookup fails =>
    simp only [step, System.work] at h
    split at h
    · rename_i c hphase
      rw [hphase] at hw
      split at h
      · cases h
        rw [System.goto_worker_self]
        exact hmono (.failing c _) hw
      split at h
      · rename_i htrigger
        cases h
        rw [System.goto_worker_self]
        simp only [List.any_eq_true, decide_eq_true_eq] at htrigger
        exact hmono (.completing c) ⟨hw, htrigger⟩
      · cases h
        rw [System.goto_worker_self]
        exact hmono (.repository c) hw
    · cases h
  | repository fails fullName pipelinePath enabled =>
    simp only [step, System.work] at h
    split at h
    · rename_i c hphase
      rw [hphase] at hw
      have hfailing := fun e => hmono (.failing c e) hw
      have hpreparing := fun r => hmono (.preparing c r) hw
      grind [System.goto_worker_self]
    · cases h
  | prepare env origin runID triggerID =>
    simp only [step, System.work] at h
    split at h
    · rename_i c r hphase
      rw [hphase] at hw
      split at h
      · cases h
        rw [System.goto_worker_self]
        exact hmono (.failing c _) hw
      · rename_i p hp
        cases h
        rw [System.goto_worker_self]
        exact hmono (.creating c _ _) ⟨hw, rfl, hsys.prepared hw hp triggerID runID⟩
    · cases h
  | create fault =>
    simp only [step, System.work] at h
    split at h
    · rename_i c input trigger hphase
      rw [hphase] at hw
      cases h
      rw [System.goto_worker_self]
      have hknows := System.knows_goto.1 (hmono (.failing c (transient .store)) hw.1)
      split
      · rename_i reply hreply
        exact ⟨System.knows_goto.2 hknows, trigger, Database.serve_createSCMRun hreply,
          hw.2.2.1⟩
      · exact System.knows_goto.2 hknows
    · cases h
  | complete fault | fail fault message =>
    simp only [step, System.work] at h
    split at h
    · cases h
      rw [System.goto_worker_self]
      trivial
    · cases h
  | crash =>
    cases h
    rw [System.goto_worker_self]
    trivial

theorem step_sound (hsys : sys.Sound) (h : step cfg s sys act = some sys') : sys'.Sound where
  phases w := by
    by_cases hw : ∃ move, act = .work w move
    · obtain ⟨move, rfl⟩ := hw
      exact step_phase hsys h
    · rw [step_worker h (not_exists.1 hw)]
      exact (hsys.phases w).step h
  commits := by
    intro d' hd'
    rcases step_delivery_before h hd' with ⟨d, hd, hmoves⟩ | ⟨input, hmakes, rfl⟩
    · have hcommit := hsys.commits d hd
      obtain ⟨-, -, -, -, -, -, hsame, -⟩ := hmoves.static
      simpa only [Delivery.commit, hsame] using hcommit
    · cases hmakes with
      | webhook hook_ok =>
        obtain ⟨-, -, -, sha, -, hsha⟩ := githubWebhook_ok hook_ok
        have hcommit : input.inserted.commit = toLower sha := by
          simp [Delivery.inserted, Delivery.commit, hsha]
          grind
        simp [hcommit]
      | other elsewhere => cases elsewhere
  tokens := by
    intro d' hd' token htoken
    rcases step_delivery_before h hd' with ⟨d, hd, hmoves⟩ | ⟨input, -, rfl⟩
    · rcases hmoves.claimToken htoken with ⟨hold, -⟩ | ⟨w, rfl, -⟩
      · exact step_tokens_mono h (hsys.tokens d hd token hold)
      · rw [step_tokens h]
        exact List.mem_cons_self
    · cases htoken
  triggers := by
    intro g hg
    have hold : ∃ d ∈ sys.db.deliveries, Agrees g d := by
      rcases step_triggers h with
        hsame | ⟨w, fault, c, input, trigger, -, hphase, hadd⟩
      · exact hsys.triggers g (hsame ▸ hg)
      · rw [hadd, List.mem_append, List.mem_singleton] at hg
        rcases hg with hg | rfl
        · exact hsys.triggers g hg
        · have hok := hsys.phases w
          rw [hphase] at hok
          obtain ⟨hc, -, hagrees⟩ := hok
          grind [hc.row, hagrees.static]
    obtain ⟨d, hd, hagrees⟩ := hold
    obtain ⟨d', hd', hmoves⟩ := step_delivery_after h hd
    exact ⟨d', hd', hagrees.static hmoves.static⟩
  processed := by
    intro d' hd' hstatus
    rcases step_delivery_before h hd' with ⟨d, hd, hmoves⟩ | ⟨input, hmakes, rfl⟩
    · have hold : ∃ g ∈ sys.db.triggers, g.deliveryID = d.id := by
        rcases hmoves with rfl | ⟨call, hmakes, hstep⟩
        · exact hsys.processed _ hd hstatus
        rcases hstep.processed hstatus with hstatus | ⟨token, rfl⟩
        · exact hsys.processed d hd hstatus
        obtain ⟨w, -, c, -, hphase, hid, -, -⟩ := hmakes.completeSCMDelivery
        have hok := hsys.phases w
        rw [hphase] at hok
        rw [hid]
        exact hok.2
      obtain ⟨g, hg, hid⟩ := hold
      exact ⟨g, step_triggers_mono h hg, hid.trans hmoves.static.1.symm⟩
    · rcases hmakes.inserted_status with hnew | hnew <;> rw [hstatus] at hnew <;> cases hnew

/-- **Every reachable state is sound.** -/
theorem Reaches.sound (h : Reaches cfg s tr sys) : sys.Sound := by
  refine h.final_invariant System.Sound ?_ fun _ _ _ hsys => step_sound hsys
  refine ⟨fun _ => trivial, ?_, ?_, ?_, ?_⟩
  all_goals
    intro _ hmem
    cases hmem

end ScmWorker
