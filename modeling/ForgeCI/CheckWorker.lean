import ForgeCI.ScmWorker

/-!
# The worker that reports runs as GitHub Checks

One worker claims the triggers whose Check is not known to show what their run shows, and
brings the Check of each up to date: it looks the Check up by its external id, creates it
or updates it, and records what it sent.  Each statement of the store and each request to
GitHub is one step.  Any of them may fail, before or after it took effect, and the worker
may crash between any two; the times that the worker and the database read are arbitrary.
-/

namespace CheckWorker

open Postgres Traces
open ScmWorker (Fault)

inductive CheckStatus where
  | queued
  | inProgress
  | completed
deriving DecidableEq

inductive Conclusion where
  | success
  | failure
  | cancelled
deriving DecidableEq

/-- A status and the conclusion beside it. -/
structure CheckState where
  status : CheckStatus
  conclusion : Option Conclusion
deriving DecidableEq

/-- The two `CASE p.status` of `ClaimSCMCheck`. -/
def desiredCheck : RunStatus → CheckState
  | .queued => ⟨.queued, none⟩
  | .running => ⟨.inProgress, none⟩
  | .passed => ⟨.completed, some .success⟩
  | .failed | .error => ⟨.completed, some .failure⟩
  | .canceled | .aborted => ⟨.completed, some .cancelled⟩

/-- `QUEUED`, then `RUNNING`, then a terminal status. -/
def Later (s s' : RunStatus) : Prop :=
  s = s' ∨ s = .queued ∨ (s = .running ∧ s'.terminal = true)

instance (s s' : RunStatus) : Decidable (Later s s') := by
  unfold Later; infer_instance

def CheckStatus.rank : CheckStatus → Nat
  | .queued => 0
  | .inProgress => 1
  | .completed => 2

/-- `a` is `b`, or a state without conclusion that `b` has left behind. -/
def Precedes (a b : CheckState) : Prop :=
  a = b ∨ (a.conclusion = none ∧ a.status.rank < b.status.rank)

theorem Precedes.refl (a : CheckState) : Precedes a a := .inl rfl

theorem Precedes.trans {a b c : CheckState} (hab : Precedes a b) (hbc : Precedes b c) :
    Precedes a c := by
  grind [Precedes]

theorem Precedes.antisymm {a b : CheckState} (hab : Precedes a b) (hba : Precedes b a) :
    a = b := by
  rcases hab with hab | ⟨-, hlt⟩
  · exact hab
  · rcases hba with hba | ⟨-, hlt'⟩
    · exact hba.symm
    · omega

theorem Later.precedes {s s' : RunStatus} (h : Later s s') :
    Precedes (desiredCheck s) (desiredCheck s') := by
  rcases h with rfl | rfl | ⟨rfl, hterminal⟩
  · exact .refl _
  · cases s' <;> simp [Precedes, desiredCheck, CheckStatus.rank]
  · cases s' <;> simp_all [Precedes, desiredCheck, CheckStatus.rank, RunStatus.terminal]

/-- A row of `scm_run_triggers` with its Check columns and their defaults. -/
structure Trigger extends RunTrigger where
  externalID : Uuid := runID
  desired : CheckState := ⟨.queued, none⟩
  checkRunID : Option Nat := none
  checkState : Option CheckStatus := none
  lastCheckConclusion : Option Conclusion := none
  checkClaimToken : Option Uuid := none
  checkClaimExpiresAt : Option Time := none
  nextCheckAttemptAt : Option Time := none
  checkAttemptCount : Nat := 0
  updatedAt : Time
deriving DecidableEq

/-- The row that `CreateSCMRun` inserts. -/
def Trigger.inserted (trigger : RunTrigger) (now : Time) : Trigger :=
  { trigger with updatedAt := now }

/-- The first statement of `ClaimSCMCheck`, on one row. -/
def Trigger.refresh (status : Uuid → RunStatus) (now : Time) (t : Trigger) : Trigger :=
  { t with
    desired := desiredCheck (status t.runID)
    updatedAt := if t.desired ≠ desiredCheck (status t.runID) then now else t.updatedAt }

/-- Nothing says that the Check shows what is desired. -/
def Trigger.outdated (t : Trigger) : Bool :=
  t.checkRunID.isNone || t.checkState != some t.desired.status ||
    t.lastCheckConclusion != t.desired.conclusion

/-- No claim is held at `now`, and no attempt is put off beyond it. -/
def Trigger.free (now : Time) (t : Trigger) : Bool :=
  t.checkClaimExpiresAt.all (· ≤ now) && t.nextCheckAttemptAt.all (· ≤ now)

/-- The row that the second statement of `ClaimSCMCheck` selects. -/
def selectClaim (now : Time) (triggers : List Trigger) : Option Trigger :=
  ((triggers.filter fun t => t.free now && t.outdated).insertionSort fun a b =>
    a.updatedAt < b.updatedAt ∨ (a.updatedAt = b.updatedAt ∧ a.id ≤ b.id)).head?

/-- The row as the second statement of `ClaimSCMCheck` returns it. -/
def Trigger.claimed (now lease : Time) (token : Uuid) (t : Trigger) : Trigger :=
  { t with
    checkClaimToken := some token
    checkClaimExpiresAt := some (now + lease)
    checkAttemptCount := t.checkAttemptCount + 1 }

/-- `WHERE id=$1 AND check_claim_token=$2 AND check_claim_expires_at>now()`. -/
def Trigger.heldAs (r : Trigger) (now : Time) (t : Trigger) : Bool :=
  t.id = r.id && t.checkClaimToken = r.checkClaimToken && t.checkClaimExpiresAt.any (now < ·)

/-- `CompleteSCMCheck`, on the row it updates. -/
def Trigger.complete (r : Trigger) (id : Nat) (now : Time) (t : Trigger) : Trigger :=
  { t with
    checkRunID := some id
    checkState := some r.desired.status
    lastCheckConclusion := r.desired.conclusion
    checkClaimToken := none
    checkClaimExpiresAt := none
    nextCheckAttemptAt := none
    updatedAt := now }

/-- `FailSCMCheck`, on the row it updates. -/
def Trigger.fail (retryAt now : Time) (t : Trigger) : Trigger :=
  { t with
    nextCheckAttemptAt := some retryAt
    checkClaimToken := none
    checkClaimExpiresAt := none
    updatedAt := now }

/-- `time.Second` and `time.Minute`, in microseconds. -/
def second : Time := 1000000

def minute : Time := 60 * second

/-- The delay of `reconcile` after `attempts` claims. -/
def retryDelay (attempts : Nat) : Time :=
  ScmWorker.delayLoop minute (attempts - 1) second

variable {triggers : List Trigger}
  {now : Time} {t : Trigger}

/-- The rows a claim may take are those that are free and outdated. -/
theorem selectClaim_some (h : selectClaim now triggers = some t) : t ∈ triggers := by
  have hmem := (List.perm_insertionSort _ _).mem_iff.1 (List.mem_of_mem_head? h)
  exact (List.mem_filter.1 hmem).1

/-- Where nothing is claimed, a free row is up to date. -/
theorem selectClaim_none (h : selectClaim now triggers = none) (ht : t ∈ triggers)
    (hfree : t.free now = true) : t.outdated = false := by
  have hnil := List.head?_eq_none_iff.1 h
  have hlength := (List.perm_insertionSort _ _).length_eq.symm.trans (congrArg List.length hnil)
  have hfilter := List.length_eq_zero_iff.1 hlength
  simpa [hfree] using List.filter_eq_nil_iff.1 hfilter t ht

/-- A Check named `ForgeCI`. -/
structure Check where
  id : Nat
  repositoryID : Uuid
  commitSHA : String
  externalID : Uuid
  state : CheckState

/-- The Checks of a commit, as GitHub lists them. -/
def listing (repositoryID : Uuid) (commitSHA : String) (github : List Check) : List Check :=
  github.filter fun k => k.repositoryID = repositoryID && k.commitSHA = commitSHA

/-- The loop of `findCheck`: the first page with the external id, among as many pages of
100 as are left. -/
def findCheck (externalID : Uuid) : Nat → List Check → Option Nat
  | 0, _ => none
  | pages + 1, checks =>
      match (checks.take 100).find? fun k => k.externalID = externalID with
      | some k => some k.id
      | none =>
          if (checks.take 100).length < 100 then none
          else findCheck externalID pages (checks.drop 100)

/-- `maxCheckListPages`. -/
def maxCheckListPages : Nat := 3

/-- The request of `createCheck`. -/
def createCheck (r : Trigger) (id : Nat) (github : List Check) : List Check :=
  github ++ [⟨id, r.repositoryID, r.commitSHA, r.externalID, r.desired⟩]

/-- The request of `updateCheck`: a conclusion that is not sent stays as it is. -/
def updateCheck (r : Trigger) (id : Nat) (github : List Check) : List Check :=
  Table.updateWhere (fun k : Check => k.id = id) (fun k => { k with
    state := ⟨r.desired.status, r.desired.conclusion <|> k.state.conclusion⟩ }) github

/-- **The pages suffice.**  While the Checks of a commit fit the pages, `findCheck` finds
the first with the external id. -/
theorem findCheck_eq {externalID : Uuid} {pages : Nat} {checks : List Check}
    (h : checks.length ≤ 100 * pages) :
    findCheck externalID pages checks =
      (checks.find? fun k => k.externalID = externalID).map Check.id := by
  induction pages generalizing checks with
  | zero =>
    obtain rfl : checks = [] := List.length_eq_zero_iff.1 (by omega)
    rfl
  | succ pages ih =>
    have hpages : (checks.find? fun k => k.externalID = externalID) =
        ((checks.take 100).find? fun k => k.externalID = externalID).or
          ((checks.drop 100).find? fun k => k.externalID = externalID) := by
      rw [← List.find?_append, List.take_append_drop]
    rw [findCheck, hpages]
    cases (checks.take 100).find? fun k => k.externalID = externalID with
    | some k => rfl
    | none => grind

/-- Where the worker stands between two steps of its loop. -/
inductive Phase where
  | idle
  | claiming
  | looking (r : Trigger)
  | finding (r : Trigger)
  | creating (r : Trigger)
  | updating (r : Trigger) (id : Nat)
  | completing (r : Trigger) (id : Nat)
  | failing (r : Trigger)

structure System where
  triggers : List Trigger := []
  status : Uuid → RunStatus := fun _ => .queued
  github : List Check := []
  phase : Phase := .idle

inductive Action where
  /-- `CreateSCMRun`. -/
  | create (trigger : RunTrigger) (now : Time)
  /-- A run moves on. -/
  | progress (runID : Uuid) (status : RunStatus)
  /-- Somebody else creates a Check named `ForgeCI`. -/
  | foreign (check : Check)
  /-- The two statements of `ClaimSCMCheck`. -/
  | refresh (now : Time) (fault : Fault)
  | claim (now : Time) (token : Uuid) (fault : Fault)
  /-- `GetSCMRepository`, the checks of the request and `InstallationToken`. -/
  | lookup (fails : Bool)
  /-- The listing requests. -/
  | find (fails : Bool)
  | post (id : Nat) (fault : Fault)
  | patch (fault : Fault)
  | complete (now : Time) (fault : Fault)
  | fail (workerNow now : Time) (fault : Fault)
  | crash

/-- A call that may fail: what it does unless it is never executed, and what the worker
does next. -/
def System.call (sys : System) (fault : Fault) (effect : System → System)
    (replied failed : Phase) : System :=
  match fault with
  | .none => { effect sys with phase := replied }
  | .lost => { effect sys with phase := failed }
  | .unsent => { sys with phase := failed }

variable (lease : Time)

/-- **One step.**  `none` where the party does not stand there, and where an identifier
that is to be new is not. -/
def step (sys : System) : Action → Option System
  | .create trigger now =>
      if (∀ t ∈ sys.triggers, t.id ≠ trigger.id ∧ t.externalID ≠ trigger.runID) ∧
          ∀ k ∈ sys.github, k.externalID ≠ trigger.runID then
        some { sys with
          triggers := sys.triggers ++ [.inserted trigger now]
          status := Function.update sys.status trigger.runID .queued }
      else none
  | .progress runID status =>
      if Later (sys.status runID) status then
        some { sys with status := Function.update sys.status runID status }
      else none
  | .foreign check =>
      if (∀ k ∈ sys.github, k.id ≠ check.id ∧ k.externalID ≠ check.externalID) ∧
          ∀ t ∈ sys.triggers, t.externalID ≠ check.externalID then
        some { sys with github := sys.github ++ [check] }
      else none
  | .refresh now fault =>
      match sys.phase with
      | .idle => some (sys.call fault
          (fun sys => { sys with triggers := sys.triggers.map (Trigger.refresh sys.status now) })
          .claiming .idle)
      | _ => none
  | .claim now token fault =>
      match sys.phase with
      | .claiming =>
          match selectClaim now sys.triggers with
          | none => some { sys with phase := .idle }
          | some t => some (sys.call fault
              (fun sys => { sys with
                triggers := Table.replace (fun t : Trigger => t.id) (t.claimed now lease token)
                  sys.triggers })
              (.looking (t.claimed now lease token)) .idle)
      | _ => none
  | .lookup fails =>
      match sys.phase with
      | .looking r =>
          if fails then some { sys with phase := .failing r }
          else match r.checkRunID with
            | some id => some { sys with phase := .updating r id }
            | none => some { sys with phase := .finding r }
      | _ => none
  | .find fails =>
      match sys.phase with
      | .finding r =>
          if fails then some { sys with phase := .failing r }
          else match findCheck r.externalID maxCheckListPages
              (listing r.repositoryID r.commitSHA sys.github) with
            | some id => some { sys with phase := .updating r id }
            | none => some { sys with phase := .creating r }
      | _ => none
  | .post id fault =>
      match sys.phase with
      | .creating r =>
          if ∀ k ∈ sys.github, k.id ≠ id then
            some (sys.call fault (fun sys => { sys with github := createCheck r id sys.github })
              (.completing r id) (.failing r))
          else none
      | _ => none
  | .patch fault =>
      match sys.phase with
      | .updating r id =>
          some (sys.call fault (fun sys => { sys with github := updateCheck r id sys.github })
            (.completing r id) (.failing r))
      | _ => none
  | .complete now fault =>
      match sys.phase with
      | .completing r id =>
          some (sys.call fault (fun sys => { sys with
            triggers := Table.updateWhere (r.heldAs now) (Trigger.complete r id now)
              sys.triggers }) .idle .idle)
      | _ => none
  | .fail workerNow now fault =>
      match sys.phase with
      | .failing r =>
          some (sys.call fault (fun sys => { sys with
            triggers := Table.updateWhere (r.heldAs now)
              (Trigger.fail (workerNow + retryDelay r.checkAttemptCount) now)
              sys.triggers }) .idle .idle)
      | _ => none
  | .crash => some { sys with phase := .idle }

/-- A run from the empty system. -/
def Reaches (tr : List (Step System Action)) (sys : System) : Prop :=
  Trace (fun s a s' => step lease s a = some s') {} tr sys

/-- What `ClaimSCMCheck` would claim, by the clocks of the worker and of the database. -/
def System.claimSCMCheck (sys : System) (workerNow now : Time) : Option Trigger :=
  selectClaim workerNow (sys.triggers.map (Trigger.refresh sys.status now))

/-- Fewer than 300 Checks of each commit. -/
def System.Listed (sys : System) : Prop :=
  ∀ repositoryID commitSHA, (listing repositoryID commitSHA sys.github).length < 300

/-- What one row knows: what it desires, what its Check shows and what it records follow
one another in time. -/
structure Tracked (status : Uuid → RunStatus) (github : List Check) (t : Trigger) : Prop where
  external : t.externalID = t.runID
  desired : Precedes t.desired (desiredCheck (status t.runID))
  check : ∀ k ∈ github, k.externalID = t.externalID →
    k.repositoryID = t.repositoryID ∧ k.commitSHA = t.commitSHA ∧ Precedes k.state t.desired
  recorded : ∀ id, t.checkRunID = some id → ∃ k ∈ github, k.id = id ∧
    k.externalID = t.externalID ∧ ∃ shown : CheckState, t.checkState = some shown.status ∧
      t.lastCheckConclusion = shown.conclusion ∧ Precedes shown k.state

/-- What the worker knows about the trigger in hand. -/
def PhaseOk (triggers : List Trigger) (github : List Check) : Phase → Prop
  | .idle | .claiming => True
  | .looking r | .finding r | .failing r => r ∈ triggers
  | .creating r => r ∈ triggers ∧ ∀ k ∈ github, k.externalID ≠ r.externalID
  | .updating r id => r ∈ triggers ∧ ∃ k ∈ github, k.id = id ∧ k.externalID = r.externalID
  | .completing r id => r ∈ triggers ∧
      ∃ k ∈ github, k.id = id ∧ k.externalID = r.externalID ∧ k.state = r.desired

structure System.Sound (sys : System) : Prop where
  ids : (sys.triggers.map fun t => t.id).Nodup
  externals : (sys.triggers.map Trigger.externalID).Nodup
  checks : (sys.github.map Check.id).Nodup
  unique : (sys.github.map Check.externalID).Nodup
  tracked : ∀ t ∈ sys.triggers, Tracked sys.status sys.github t
  phase : PhaseOk sys.triggers sys.github sys.phase

variable {lease} {sys sys' : System} {act : Action} {tr : List (Step System Action)}
  {phase : Phase} {r : Trigger}

theorem System.Sound.ofEmpty : ({} : System).Sound where
  ids := List.nodup_nil
  externals := List.nodup_nil
  checks := List.nodup_nil
  unique := List.nodup_nil
  tracked := fun _ ht => nomatch ht
  phase := trivial

/-- The worker may always stand elsewhere, if it knows what it then needs. -/
theorem System.Sound.withPhase (h : sys.Sound)
    (hphase : PhaseOk sys.triggers sys.github phase) : { sys with phase := phase }.Sound :=
  { h with phase := hphase }

/-- A call keeps the invariant if its effect does, whatever becomes of the reply. -/
theorem System.Sound.call {fault : Fault} {effect : System → System} {replied failed : Phase}
    (h : sys.Sound) (heffect : { effect sys with phase := replied }.Sound)
    (hlost : PhaseOk (effect sys).triggers (effect sys).github failed)
    (hfailed : PhaseOk sys.triggers sys.github failed) :
    (sys.call fault effect replied failed).Sound := by
  cases fault with
  | none => exact heffect
  | lost => exact heffect.withPhase hlost
  | unsent => exact h.withPhase hfailed

/-- A row may change in any way that keeps its identifiers and what is said of it. -/
structure Kept (sys : System) (t t' : Trigger) : Prop where
  id_eq : t'.id = t.id
  externalID_eq : t'.externalID = t.externalID
  tracked : Tracked sys.status sys.github t'

theorem System.Sound.changeTriggers (h : sys.Sound)
    (hrows : List.Forall₂ (Kept sys) sys.triggers triggers)
    (hphase : PhaseOk triggers sys.github phase) :
    { sys with triggers := triggers, phase := phase }.Sound where
  ids := by simpa only [Table.map_eq_of_forall₂ hrows fun _ _ hrow => hrow.id_eq] using h.ids
  externals := by
    simpa only [Table.map_eq_of_forall₂ hrows fun _ _ hrow => hrow.externalID_eq]
      using h.externals
  checks := h.checks
  unique := h.unique
  tracked := by
    intro t ht
    obtain ⟨old, -, hrow⟩ := Table.exists_old hrows ht
    exact hrow.tracked
  phase := hphase

section Row

variable {status : Uuid → RunStatus} {github : List Check} {t : Trigger}

theorem Tracked.refresh (h : Tracked status github t) (now : Time) :
    Tracked status github (t.refresh status now) where
  external := h.external
  desired := .refl _
  check := by
    intro k hk hexternal
    obtain ⟨hrepository, hcommit, hprecedes⟩ := h.check k hk hexternal
    exact ⟨hrepository, hcommit, hprecedes.trans h.desired⟩
  recorded := h.recorded

theorem Tracked.claimed (h : Tracked status github t) (now lease : Time) (token : Uuid) :
    Tracked status github (t.claimed now lease token) :=
  { h with }

theorem Tracked.fail (h : Tracked status github t) (retryAt now : Time) :
    Tracked status github (t.fail retryAt now) :=
  { h with }

/-- What has been sent may be recorded. -/
theorem Tracked.complete (h : Tracked status github t) {id : Nat} (now : Time)
    (hsent : ∃ k ∈ github, k.id = id ∧ k.externalID = t.externalID ∧ k.state = t.desired) :
    Tracked status github (t.complete id now t) where
  external := h.external
  desired := h.desired
  check := h.check
  recorded := by
    intro _ hid
    cases hid
    obtain ⟨k, hk, hkid, hkexternal, hstate⟩ := hsent
    exact ⟨k, hk, hkid, hkexternal, t.desired, rfl, rfl, hstate ▸ .refl _⟩

/-- A run moves on. -/
theorem Tracked.progress (h : Tracked status github t) {runID : Uuid} {s : RunStatus}
    (hlater : Later (status runID) s) : Tracked (Function.update status runID s) github t where
  external := h.external
  desired := by
    apply h.desired.trans
    by_cases hrun : t.runID = runID
    · rw [hrun, Function.update_self]
      exact hlater.precedes
    · rw [Function.update_of_ne hrun]
      exact .refl _
  check := h.check
  recorded := h.recorded

/-- A Check with another external id says nothing about this row. -/
theorem Tracked.newCheck (h : Tracked status github t) {new : Check}
    (hnew : new.externalID = t.externalID → new.repositoryID = t.repositoryID ∧
      new.commitSHA = t.commitSHA ∧ Precedes new.state t.desired) :
    Tracked status (github ++ [new]) t where
  external := h.external
  desired := h.desired
  check := by grind [h.check]
  recorded := by grind [h.recorded]

end Row

/-- A Check with an external id of no trigger changes nothing for the worker. -/
theorem PhaseOk.newCheck {github : List Check} {new : Check} (h : PhaseOk triggers github phase)
    (hnew : ∀ t ∈ triggers, t.externalID ≠ new.externalID) :
    PhaseOk triggers (github ++ [new]) phase := by
  cases phase with
  | idle => trivial
  | claiming => trivial
  | looking r => exact h
  | finding r => exact h
  | failing r => exact h
  | creating r => grind [PhaseOk]
  | updating r id => grind [PhaseOk]
  | completing r id => grind [PhaseOk]

/-- What `updateCheck` leaves is what it sent: a conclusion that was not sent was not
there. -/
theorem updated_state {shown desired : CheckState} (h : Precedes shown desired) :
    (⟨desired.status, desired.conclusion <|> shown.conclusion⟩ : CheckState) = desired := by
  rcases h with rfl | ⟨hnone, -⟩
  · cases shown with
    | mk status conclusion => cases conclusion <;> rfl
  · rw [hnone]
    cases desired with
    | mk status conclusion => cases conclusion <;> rfl

theorem System.Sound.create (h : sys.Sound) {trigger : RunTrigger}
    (htriggers : ∀ t ∈ sys.triggers, t.id ≠ trigger.id ∧ t.externalID ≠ trigger.runID)
    (hgithub : ∀ k ∈ sys.github, k.externalID ≠ trigger.runID) :
    { sys with
      triggers := sys.triggers ++ [Trigger.inserted trigger now]
      status := Function.update sys.status trigger.runID .queued }.Sound where
  ids := by
    rw [List.map_append, List.map_singleton, ← List.concat_eq_append]
    apply h.ids.concat
    intro hmem
    obtain ⟨t, ht, hid⟩ := List.mem_map.1 hmem
    exact (htriggers t ht).1 hid
  externals := by
    rw [List.map_append, List.map_singleton, ← List.concat_eq_append]
    apply h.externals.concat
    intro hmem
    obtain ⟨t, ht, hexternal⟩ := List.mem_map.1 hmem
    exact (htriggers t ht).2 hexternal
  checks := h.checks
  unique := h.unique
  tracked := by
    intro t ht
    rcases List.mem_append.1 ht with ht | ht
    · have hold := h.tracked t ht
      have hrun : t.runID ≠ trigger.runID := hold.external ▸ (htriggers t ht).2
      refine { hold with desired := ?_ }
      grind [hold.desired]
    · obtain rfl := List.mem_singleton.1 ht
      constructor
      · rfl
      · change Precedes _ (desiredCheck (Function.update sys.status trigger.runID .queued _))
        rw [Trigger.inserted, Function.update_self]
        exact .refl _
      · intro k hk hexternal
        exact absurd hexternal (hgithub k hk)
      · intro id hid
        cases hid
  phase := by
    have hphase := h.phase
    cases hp : sys.phase <;> simp_all [PhaseOk]

theorem System.Sound.addCheck (h : sys.Sound) {new : Check}
    (hgithub : ∀ k ∈ sys.github, k.id ≠ new.id ∧ k.externalID ≠ new.externalID)
    (hphase : PhaseOk sys.triggers (sys.github ++ [new]) phase)
    (htracked : ∀ t ∈ sys.triggers, new.externalID = t.externalID →
      new.repositoryID = t.repositoryID ∧ new.commitSHA = t.commitSHA ∧
        Precedes new.state t.desired) :
    { sys with github := sys.github ++ [new], phase := phase }.Sound where
  ids := h.ids
  externals := h.externals
  checks := by
    rw [List.map_append, List.map_singleton, ← List.concat_eq_append]
    apply h.checks.concat
    intro hmem
    grind
  unique := by
    rw [List.map_append, List.map_singleton, ← List.concat_eq_append]
    apply h.unique.concat
    intro hmem
    obtain ⟨k, hk, hexternal⟩ := List.mem_map.1 hmem
    exact (hgithub k hk).2 hexternal
  tracked := fun t ht => (h.tracked t ht).newCheck (htracked t ht)
  phase := hphase

theorem System.Sound.createCheck (h : sys.Sound) {id : Nat}
    (hr : r ∈ sys.triggers) (habsent : ∀ k ∈ sys.github, k.externalID ≠ r.externalID)
    (hid : ∀ k ∈ sys.github, k.id ≠ id) :
    { sys with
      github := CheckWorker.createCheck r id sys.github
      phase := .completing r id }.Sound := by
  apply h.addCheck
  · intro k hk
    exact ⟨hid k hk, habsent k hk⟩
  · exact ⟨hr, _, List.mem_append_right _ List.mem_cons_self, rfl, rfl, rfl⟩
  · intro t ht hexternal
    obtain rfl : r = t := List.inj_on_of_nodup_map h.externals hr ht hexternal
    exact ⟨rfl, rfl, .refl _⟩

/-- What becomes of a Check when `r` updates the Check `id`. -/
structure Sent (r : Trigger) (id : Nat) (k k' : Check) : Prop where
  id_eq : k'.id = k.id
  externalID_eq : k'.externalID = k.externalID
  repositoryID_eq : k'.repositoryID = k.repositoryID
  commitSHA_eq : k'.commitSHA = k.commitSHA
  precedes : Precedes k.state k'.state
  state_eq : k'.state = k.state ∨ (k.externalID = r.externalID ∧ k'.state = r.desired)
  sent : k.id = id → k'.state = r.desired

/-- Every Check stays, and only that of `r` changes: to what `r` desires. -/
theorem System.Sound.sent (h : sys.Sound) {found : Check}
    (hr : r ∈ sys.triggers) (hfound : found ∈ sys.github)
    (hexternal : found.externalID = r.externalID) :
    List.Forall₂ (Sent r found.id) sys.github (updateCheck r found.id sys.github) := by
  apply Table.forall₂_updateWhere
  intro k hk
  by_cases hid : k.id = found.id
  · obtain rfl := List.inj_on_of_nodup_map h.checks hk hfound hid
    have hprecedes := ((h.tracked r hr).check k hk hexternal).2.2
    have hstate := updated_state hprecedes
    simp only [decide_true, if_true, hstate]
    exact ⟨rfl, rfl, rfl, rfl, hprecedes, .inr ⟨hexternal, rfl⟩, fun _ => rfl⟩
  · simp only [hid, decide_false, Bool.false_eq_true, if_false]
    exact ⟨rfl, rfl, rfl, rfl, .refl _, .inl rfl, fun h => absurd h hid⟩

theorem System.Sound.updateCheck (h : sys.Sound) {found : Check}
    (hr : r ∈ sys.triggers) (hfound : found ∈ sys.github)
    (hexternal : found.externalID = r.externalID) :
    { sys with
      github := CheckWorker.updateCheck r found.id sys.github
      phase := .completing r found.id }.Sound := by
  have hsent := h.sent hr hfound hexternal
  constructor
  · exact h.ids
  · exact h.externals
  · simpa only [Table.map_eq_of_forall₂ hsent fun _ _ hkk => hkk.id_eq] using h.checks
  · simpa only [Table.map_eq_of_forall₂ hsent fun _ _ hkk => hkk.externalID_eq] using h.unique
  · intro t ht
    have htracked := h.tracked t ht
    constructor
    · exact htracked.external
    · exact htracked.desired
    · intro k' hk' hkexternal
      obtain ⟨k, hk, hkk⟩ := Table.exists_old hsent hk'
      have hcheck := htracked.check k hk (hkk.externalID_eq ▸ hkexternal)
      rw [hkk.repositoryID_eq, hkk.commitSHA_eq]
      refine ⟨hcheck.1, hcheck.2.1, ?_⟩
      rcases hkk.state_eq with hstate | ⟨hrexternal, hstate⟩
      · exact hstate ▸ hcheck.2.2
      · obtain rfl : r = t := List.inj_on_of_nodup_map h.externals hr ht
          (hrexternal.symm.trans (hkk.externalID_eq.symm.trans hkexternal))
        exact hstate ▸ .refl _
    · intro id hid
      obtain ⟨k, hk, hkid, hkexternal, shown, hshown, hconclusion, hprecedes⟩ :=
        htracked.recorded id hid
      obtain ⟨k', hk', hkk⟩ := Table.exists_new hsent hk
      exact ⟨k', hk', hkk.id_eq.trans hkid, hkk.externalID_eq.trans hkexternal, shown, hshown,
        hconclusion, hprecedes.trans hkk.precedes⟩
  · obtain ⟨k', hk', hkk⟩ := Table.exists_new hsent hfound
    exact ⟨hr, k', hk', hkk.id_eq, hkk.externalID_eq.trans hexternal, hkk.sent rfl⟩

/-- What the worker finds it may update, and what it does not find does not exist. -/
theorem System.Sound.find (h : sys.Sound) (hlisted : sys.Listed) (hr : r ∈ sys.triggers) :
    match findCheck r.externalID maxCheckListPages
        (listing r.repositoryID r.commitSHA sys.github) with
    | some id => PhaseOk sys.triggers sys.github (.updating r id)
    | none => PhaseOk sys.triggers sys.github (.creating r) := by
  have hpages := hlisted r.repositoryID r.commitSHA
  rw [findCheck_eq (by simp only [maxCheckListPages]; omega)]
  cases hfind : (listing r.repositoryID r.commitSHA sys.github).find? fun k =>
      k.externalID = r.externalID with
  | some k =>
    have hk := (List.mem_filter.1 (List.mem_of_find?_eq_some hfind)).1
    exact ⟨hr, k, hk, rfl, by simpa using List.find?_some hfind⟩
  | none =>
    refine ⟨hr, fun k hk hexternal => ?_⟩
    obtain ⟨hrepository, hcommit, -⟩ := (h.tracked r hr).check k hk hexternal
    have hk : k ∈ listing r.repositoryID r.commitSHA sys.github := by
      simpa [listing, hrepository, hcommit] using hk
    simpa [hexternal] using List.find?_eq_none.1 hfind k hk

theorem System.Sound.kept (h : sys.Sound) (ht : t ∈ sys.triggers) : Kept sys t t :=
  ⟨rfl, rfl, h.tracked t ht⟩

theorem System.Sound.refresh (h : sys.Sound) (now : Time) :
    { sys with
      triggers := sys.triggers.map (Trigger.refresh sys.status now)
      phase := .claiming }.Sound := by
  apply h.changeTriggers
  · rw [List.forall₂_map_right_iff, List.forall₂_same]
    intro t ht
    exact ⟨rfl, rfl, (h.tracked t ht).refresh now⟩
  · trivial

theorem System.Sound.claim (h : sys.Sound) {token : Uuid} (ht : t ∈ sys.triggers) : { sys with
      triggers := Table.replace (fun t : Trigger => t.id) (t.claimed now lease token) sys.triggers
      phase := .looking (t.claimed now lease token) }.Sound := by
  apply h.changeTriggers
  · have hid : (t.claimed now lease token).id = t.id := rfl
    apply Table.forall₂_replace h.ids ht hid
    · exact ⟨rfl, rfl, (h.tracked t ht).claimed now lease token⟩
    · intro u hu
      exact h.kept hu
  · exact Table.mem_updateWhere.2 ⟨t, ht, by simp [Trigger.claimed]⟩

theorem System.Sound.complete (h : sys.Sound) {id : Nat}
    (hphase : PhaseOk sys.triggers sys.github (.completing r id)) :
    { sys with
      triggers := Table.updateWhere (r.heldAs now) (r.complete id now) sys.triggers
      phase := .idle }.Sound := by
  obtain ⟨hr, hsent⟩ := hphase
  apply h.changeTriggers
  · apply Table.forall₂_updateWhere
    intro t ht
    by_cases hheld : r.heldAs now t = true
    · have hid : t.id = r.id := by grind [Trigger.heldAs]
      obtain rfl := List.inj_on_of_nodup_map h.ids ht hr hid
      rw [if_pos hheld]
      exact ⟨rfl, rfl, (h.tracked t ht).complete now hsent⟩
    · rw [if_neg hheld]
      exact h.kept ht
  · trivial

theorem System.Sound.fail (h : sys.Sound) (r : Trigger) (retryAt now : Time) :
    { sys with
      triggers := Table.updateWhere (r.heldAs now) (Trigger.fail retryAt now) sys.triggers
      phase := .idle }.Sound := by
  apply h.changeTriggers
  · apply Table.forall₂_updateWhere
    intro t ht
    by_cases hheld : r.heldAs now t = true
    · rw [if_pos hheld]
      exact ⟨rfl, rfl, (h.tracked t ht).fail retryAt now⟩
    · rw [if_neg hheld]
      exact h.kept ht
  · trivial

/-- **Every step keeps the invariant**, as long as the listing is complete. -/
theorem step_sound (h : step lease sys act = some sys') (hlisted : sys.Listed)
    (hsys : sys.Sound) : sys'.Sound := by
  have hphase := hsys.phase
  cases act with
  | create trigger now =>
    obtain ⟨⟨htriggers, hgithub⟩, hsome⟩ := Option.ite_none_right_eq_some.1 h
    grind [hsys.create]
  | progress runID status =>
    obtain ⟨hlater, ⟨⟩⟩ := Option.ite_none_right_eq_some.1 h
    exact { hsys with tracked := fun t ht => (hsys.tracked t ht).progress hlater }
  | foreign check =>
    obtain ⟨⟨hgithub, htriggers⟩, hsome⟩ := Option.ite_none_right_eq_some.1 h
    grind [hsys.addCheck, hphase.newCheck]
  | refresh now fault =>
    simp only [step] at h
    split at h
    · cases h
      exact hsys.call (hsys.refresh now) trivial trivial
    · cases h
  | claim now token fault =>
    simp only [step] at h
    split at h
    · split at h
      · cases h
        exact hsys.withPhase trivial
      · rename_i t ht
        cases h
        exact hsys.call (hsys.claim (selectClaim_some ht)) trivial trivial
    · cases h
  | lookup fails =>
    simp only [step] at h
    split at h
    · rename_i r hr
      rw [hr] at hphase
      split at h
      · cases h
        exact hsys.withPhase hphase
      · split at h
        · rename_i id hid
          cases h
          obtain ⟨k, hk, hkid, hexternal, -⟩ := (hsys.tracked r hphase).recorded id hid
          exact hsys.withPhase ⟨hphase, k, hk, hkid, hexternal⟩
        · cases h
          exact hsys.withPhase hphase
    · cases h
  | find fails =>
    simp only [step] at h
    split at h
    · rename_i r hr
      rw [hr] at hphase
      have hfind := hsys.find hlisted hphase
      split at h
      · cases h
        exact hsys.withPhase hphase
      · grind [hsys.withPhase]
    · cases h
  | post id fault =>
    simp only [step] at h
    split at h
    · rename_i r hr
      rw [hr] at hphase
      obtain ⟨hid, ⟨⟩⟩ := Option.ite_none_right_eq_some.1 h
      exact hsys.call (hsys.createCheck hphase.1 hphase.2 hid) hphase.1 hphase.1
    · cases h
  | patch fault =>
    simp only [step] at h
    split at h
    · rename_i r id hr
      rw [hr] at hphase
      obtain ⟨hmem, found, hfound, rfl, hexternal⟩ := hphase
      cases h
      exact hsys.call (hsys.updateCheck hmem hfound hexternal) hmem hmem
    · cases h
  | complete now fault =>
    simp only [step] at h
    split at h
    · rename_i r id hr
      rw [hr] at hphase
      cases h
      exact hsys.call (hsys.complete hphase) trivial trivial
    · cases h
  | fail workerNow now fault =>
    simp only [step] at h
    split at h
    · rename_i r hr
      cases h
      exact hsys.call (hsys.fail r _ now) trivial trivial
    · cases h
  | crash =>
    cases h
    exact hsys.withPhase trivial

theorem Reaches.sound (h : Reaches lease tr sys) (hlisted : ∀ st ∈ tr, st.before.Listed) :
    sys.Sound :=
  (Trace.guarded System.Sound (fun sys _ => sys.Listed) .ofEmpty
    (fun _ _ _ hsys hlisted hstep => step_sound hstep hlisted hsys) h hlisted).1

/-- What a row that is not outdated says about its Check is true. -/
theorem Tracked.upToDate {status : Uuid → RunStatus} {github : List Check}
    (h : Tracked status github t) (hcurrent : t.outdated = false)
    (hdesired : t.desired = desiredCheck (status t.runID)) :
    ∃ k ∈ github, k.externalID = t.externalID ∧ k.repositoryID = t.repositoryID ∧
      k.commitSHA = t.commitSHA ∧ k.state = desiredCheck (status t.runID) := by
  simp only [Trigger.outdated, Bool.or_eq_false_iff, bne_eq_false_iff_eq,
    Option.isNone_eq_false_iff, Option.isSome_iff_exists] at hcurrent
  obtain ⟨⟨⟨id, hid⟩, hstatus⟩, hconclusion⟩ := hcurrent
  obtain ⟨k, hk, -, hexternal, shown, hshown, hlast, hprecedes⟩ := h.recorded id hid
  obtain ⟨hrepository, hcommit, hbehind⟩ := h.check k hk hexternal
  -- The Check lies between what is recorded and what is desired, which are equal.
  have hequal : shown = t.desired := by
    cases hs : shown
    cases hd : t.desired
    simp_all
  grind [hbehind.antisymm]

/-- **Checks converge without duplicates.**  In every state of every run, while the
listings are complete, no two Checks have one external id; and where the worker would
claim nothing and no trigger is claimed or put off, every trigger's Check exists and shows
what its run shows. -/
theorem checks_converge (h : Reaches lease tr sys) (hlisted : ∀ st ∈ tr, st.before.Listed) :
    (sys.github.map Check.externalID).Nodup ∧
      ∀ workerNow now, sys.claimSCMCheck workerNow now = none →
        (∀ t ∈ sys.triggers, t.free workerNow = true) →
        ∀ t ∈ sys.triggers, ∃ k ∈ sys.github, k.externalID = t.externalID ∧
          k.repositoryID = t.repositoryID ∧ k.commitSHA = t.commitSHA ∧
          k.state = desiredCheck (sys.status t.runID) := by
  have hsound := h.sound hlisted
  refine ⟨hsound.unique, fun workerNow now hclaim hfree t ht => ?_⟩
  have hrefreshed : t.refresh sys.status now ∈
      sys.triggers.map (Trigger.refresh sys.status now) := List.mem_map_of_mem ht
  have hcurrent := selectClaim_none hclaim hrefreshed (hfree t ht)
  exact ((hsound.tracked t ht).refresh now).upToDate hcurrent rfl

namespace Sample

def trigger : RunTrigger where
  id := 7
  deliveryID := 3
  repositoryID := 4
  runID := 11
  provider := "github"
  commitSHA := "c0ffee"
  pullRequestNumber := some 5

/-- The reply to the request that creates the Check is lost; the next attempt finds the
Check, and the run has moved on; the reply to the last statement is lost too. -/
def lostReplies : List Action :=
  [.create trigger 0, .refresh 0 .none, .claim 0 21 .none, .lookup false, .find false,
    .post 90 .lost, .progress 11 .running, .fail 1 1 .none,
    .refresh 2000000 .none, .claim 2000000 22 .none, .lookup false, .find false, .patch .none,
    .progress 11 .failed, .complete 2000001 .none,
    .refresh 3000000 .none, .claim 3000000 23 .none, .lookup false, .patch .none,
    .complete 3000001 .lost]

end Sample

/-- A run with lost replies ends with one Check, which shows the failure. -/
theorem lost_replies_converge : ∃ tr sys, Reaches minute tr sys ∧
    (∀ st ∈ tr, st.before.Listed) ∧ (∃ t ∈ sys.triggers, t.runID = 11) ∧
    (sys.github.map Check.externalID).Nodup ∧
    ∀ t ∈ sys.triggers, ∃ k ∈ sys.github, k.externalID = t.externalID ∧
      k.repositoryID = t.repositoryID ∧ k.commitSHA = t.commitSHA ∧
      k.state = desiredCheck (sys.status t.runID) := by
  have hrun : (Sample.lostReplies.foldlM (fun sys act =>
      if decide (sys.github.length < 300) then step minute sys act else none) {}).map
        (fun sys => (sys.triggers.map fun t => (t.runID, t.free 4000000),
          sys.claimSCMCheck 4000000 4000000)) = some ([(11, true)], none) := by
    decide +kernel
  obtain ⟨sys, hsys, hview⟩ := Option.map_eq_some_iff.1 hrun
  obtain ⟨hrows, hclaim⟩ := Prod.mk.inj hview
  obtain ⟨tr, htr, hshort⟩ := Trace.of_guarded_foldlM hsys
  have hlisted : ∀ st ∈ tr, st.before.Listed := by
    intro st hst repositoryID commitSHA
    have hlength : st.before.github.length < 300 := by simpa using hshort st hst
    exact (List.length_filter_le _ _).trans_lt hlength
  obtain ⟨t, htriggers⟩ := List.length_eq_one_iff.1 (by simpa using congrArg List.length hrows)
  have hrow : t.runID = 11 ∧ t.free 4000000 = true := by simpa [htriggers] using hrows
  obtain ⟨hunique, hconverged⟩ := checks_converge htr hlisted
  refine ⟨tr, sys, htr, hlisted, ⟨t, by simp [htriggers], hrow.1⟩, hunique, ?_⟩
  apply hconverged 4000000 4000000 hclaim
  intro u hu
  obtain rfl : u = t := by simpa [htriggers] using hu
  exact hrow.2

end CheckWorker
