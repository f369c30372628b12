import ForgeCI.LocalMode
import ForgeCI.Recovery

/-!
# Restarting the server

`forge-server` in either execution mode.  A process may be killed between any two transactions
and be started again in any mode; before it serves anything it recovers what the last process
has left, by `RecoverInterrupted` in local mode and by `RecoverRemoteJobs` in remote mode.
Only the database outlives the process.
-/

namespace Startup

open Postgres Traces Pipeline

/-- The flag `execution-mode`. -/
inductive ExecutionMode
  | localMode
  | remoteMode
deriving DecidableEq

/-- The recovery at startup. -/
def recover (s : Settings) (now : Time) (db : Database) :
    ExecutionMode → Database × Except StoreError Unit
  | .localMode =>
      let served := db.serveLocal s now .recoverInterrupted
      (served.1, served.2.map fun _ => ())
  | .remoteMode =>
      let served := db.serve s ⟨now, .recoverRemoteJobs⟩
      (served.1, served.2.map fun _ => ())

/-- The recovery succeeds and leaves everything settled. -/
def Recovers (s : Settings) (now : Time) (mode : ExecutionMode) (db : Database) : Prop :=
  (recover s now db mode).2 = .ok () ∧ Recovered db (recover s now db mode).1

/-- The manager with its database, and the mode in which a process runs, if one does. -/
structure Server where
  manager : Manager.System := {}
  mode : Option ExecutionMode := none

/-- The operations of the manager that do not depend on the mode: `Submit`, `Cancel` and the
expiry of artifacts.  In remote mode `Manager.Start` is not called. -/
def ofBothModes : Manager.Action → Bool
  | .submit .. | .getRun .. | .cancelQueued .. | .requestCancel .. | .signal .. => true
  | .expireArtifacts .. | .close => true
  | _ => false

/-- The calls that come from outside the manager: those of the SCM handlers in both modes, and
those of the runner protocol and of the lease sweeper in remote mode. -/
def servedIn (mode : ExecutionMode) : Call → Bool
  | .registerRunner .. | .leaseJob .. | .heartbeatJobLeases .. | .completeJob .. =>
      mode = .remoteMode
  | .commitArtifacts .. | .expireJobLeases => mode = .remoteMode
  | .createSCMRepository .. | .createSCMDelivery .. | .claimSCMDelivery .. => true
  | .renewSCMDeliveryClaim .. | .completeSCMDelivery .. | .failSCMDelivery .. => true
  | _ => false

inductive Action
  /-- Start a process, which goes on only if the recovery succeeds. -/
  | start (mode : ExecutionMode) (now : Time)
  | kill
  | manager (act : Manager.Action)
  | call (now : Time) (call : Call)
  /-- The SCM worker creates a run from a pipeline it has parsed and compiled. -/
  | createSCMRun (now : Time) (token id : Uuid) (cfg : Config.Pipeline) (g : Graph)
      (maxParallel : Nat) (snapshot : SourceSnapshot) (trigger : RunTrigger)

def step (s : Settings) (srv : Server) : Action → Option Server
  | .start mode now =>
      match srv.mode with
      | some _ => none
      | none =>
          match (recover s now srv.manager.db mode).2 with
          | .ok _ => some ⟨{ db := (recover s now srv.manager.db mode).1 }, some mode⟩
          | .error _ => some srv
  | .kill => some ⟨{ db := srv.manager.db }, none⟩
  | .manager act =>
      match srv.mode with
      | none => none
      | some mode =>
          if mode = .localMode ∨ ofBothModes act then
            (Manager.step s srv.manager act).map fun manager => { srv with manager := manager }
          else none
  | .call now call =>
      match srv.mode with
      | none => none
      | some mode =>
          if servedIn mode call then
            some { srv with manager := srv.manager.serve s now call }
          else none
  | .createSCMRun now token id cfg g maxParallel snapshot trigger =>
      if srv.mode.isSome ∧ Config.validate cfg = .ok () ∧ Pipeline.compile cfg = .ok g then
        let call := .createSCMRun token (submission id cfg g maxParallel (some snapshot)) trigger
        some { srv with manager := srv.manager.serve s now call }
      else none

/-- A history of processes from the empty database. -/
def Reaches (s : Settings) (tr : List (Step Server Action)) (srv : Server) : Prop :=
  Trace (fun a act b => step s a act = some b) {} tr srv

variable {s : Settings} {now : Time} {r r' : Run} {j j' : Job}

/-- What any operation does to a run. -/
structure Proceeds (r r' : Run) : Prop where
  id_eq : r'.id = r.id
  stored : r'.Stored
  started : r.status ≠ .queued → r'.status ≠ .queued

theorem finalizeRun_queued (h : r.finalizeRun s now = .ok r') (hqueued : r'.status = .queued) :
    r' = r := by
  rcases Run.finalizeRun_ok h with ⟨rfl, -⟩ | ⟨-, -, -, rfl⟩
  · rfl
  · have hterminal := r.finalStatus_terminal
    rw [Run.finalized_status] at hqueued
    rw [hqueued] at hterminal
    cases hterminal

/-- Aborting jobs that are at work leaves a queued run alone. -/
theorem abortJobs_queued {p : Job → Bool} {message : String} (hr : r.Stored)
    (hp : ∀ j, p j = true → j.status = .running)
    (h : r.abortJobs s p now message = .ok r') (hqueued : r'.status = .queued) : r' = r := by
  rcases Run.abortJobs_spec h with rfl | ⟨⟨j, hj, hpj⟩, jobs, -, hfin⟩
  · rfl
  · obtain rfl := finalizeRun_queued hfin hqueued
    have hpending := hr.queued hqueued j hj
    rw [hp j hpj] at hpending
    cases hpending

/-- A run that a call leaves `QUEUED` was so before, and its jobs are still pending. -/
theorem change_queued {call : Call} (hr : r.Stored) (h : Change s now call r r')
    (hqueued : r'.status = .queued) :
    r.status = .queued ∧ ∀ j ∈ r'.jobs, j.status = .pending := by
  have hsame : r' = r → r.status = .queued ∧ ∀ j ∈ r'.jobs, j.status = .pending := by
    rintro rfl
    exact ⟨hqueued, hr.queued hqueued⟩
  cases h with
  | grant runner lease mem claimable => grind [Run.grant_status, Run.claimable_iff]
  | @renew _ runner _ part =>
    obtain ⟨jobs, heq, hjobs⟩ := r.renewAll_spec runner now part
    rw [heq] at hqueued ⊢
    have hold := hr.queued hqueued
    refine ⟨hqueued, ?_⟩
    intro j' hj'
    obtain ⟨j, hj, rfl | ⟨l, -, -, hholds, rfl⟩⟩ := Table.exists_old hjobs hj'
    · exact hold j' hj
    · exact hold j hj
  | complete _ _ ok =>
    obtain ⟨j, hj, hholds, -, hfin⟩ := Run.complete_ok ok
    obtain rfl := finalizeRun_queued hfin hqueued
    obtain ⟨jobs, heq, -⟩ := r.completedRows_eq _ _ now _
    rw [heq] at hqueued
    have hpending := hr.queued hqueued j (Table.row?_some hj).1
    rw [Job.holdsLease_running hholds] at hpending
    cases hpending
  | expireLeases ok =>
    apply hsame
    apply abortJobs_queued hr _ ok hqueued
    grind [Job.expired]
  | recover ok =>
    rw [hr.recover_eq] at ok
    exact hsame (abortJobs_queued hr (fun j hj => by simpa using hj) ok hqueued)
  | cancelQueued _ ok =>
    obtain ⟨-, rfl⟩ := Run.cancelQueued_ok ok
    cases hqueued
  | requestCancel _ ok =>
    obtain ⟨hrunning, hfin⟩ := Run.requestCancel_ok ok
    obtain rfl := finalizeRun_queued hfin hqueued
    have hqueued : r.status = .queued := hqueued
    rw [hrunning] at hqueued
    cases hqueued
  | commitArtifacts _ ok => grind [Run.commitArtifacts_ok]
  | expireArtifacts => exact ⟨hqueued, hr.queued hqueued⟩

theorem Proceeds.refl (h : r.Stored) : Proceeds r r := ⟨rfl, h, fun hstarted => hstarted⟩

theorem Proceeds.of_change {call : Call} (hr : r.Stored) (hkey : (r.jobs.map Job.name).Nodup)
    (h : Change s now call r r') : Proceeds r r' where
  id_eq := h.static.id
  stored := by
    refine ⟨?_, h.static.runnerID hr.unleased, fun hqueued => (change_queued hr h hqueued).2⟩
    obtain ⟨j, hj⟩ := List.exists_mem_of_ne_nil _ hr.jobs_ne_nil
    obtain ⟨j', hj', -⟩ := Table.exists_new (h.jobs hkey) hj
    exact List.ne_nil_of_mem hj'
  started := fun hstarted hqueued => hstarted (change_queued hr h hqueued).1

theorem Proceeds.supersede (hr : r.Stored) : Proceeds r (r.supersede now) where
  id_eq := rfl
  stored := by
    refine ⟨hr.jobs_ne_nil, hr.unleased, ?_⟩
    grind [Run.supersede]
  started := by
    intro hstarted
    simp [Run.supersede, hstarted]

/-- What the manager may ask of the store about the run in hand. -/
def Expected (phase : Manager.Phase) : LocalCall → Prop
  | .claimNextQueuedRun => True
  | .updateJob id _ _ _ => phase.runID = some id
  | .finishRun id status message => phase = .finishing id status message
  | .recoverInterrupted => False

/-- A phase that ends a run ends it for good. -/
def Ending (phase : Manager.Phase) : Prop :=
  ∀ id status message, phase = .finishing id status message → status.terminal = true

theorem Proceeds.of_localChange {phase : Manager.Phase} {call : LocalCall} (hr : r.Stored)
    (hending : Ending phase) (hcall : Expected phase call)
    (hheld : phase.runID = some r.id → r.status ≠ .queued) (h : LocalChange s now call r r') :
    Proceeds r r' := by
  have hnone := h.static.runnerID hr.unleased
  cases h with
  | claim queued =>
    exact ⟨rfl, ⟨hr.jobs_ne_nil, hnone, fun hqueued => (by cases hqueued)⟩,
      fun _ hqueued => (by cases hqueued)⟩
  | @update _ _ id name status message target ok =>
    obtain ⟨-, -, rfl⟩ := Run.updateJob_ok ok
    have hstarted : r.status ≠ .queued := hheld (target ▸ hcall)
    refine ⟨rfl, ⟨?_, hnone, fun hqueued => absurd hqueued hstarted⟩, fun h => h⟩
    simpa [Run.updatedRows, Run.updateJobs, Table.updateWhere] using hr.jobs_ne_nil
  | @finish _ _ id status message target ok =>
    obtain ⟨-, rfl⟩ := Run.finishRun_ok ok
    have hterminal := hending id status message hcall
    have hended : status ≠ .queued := by
      rintro rfl
      cases hterminal
    exact ⟨rfl, ⟨hr.jobs_ne_nil, hnone, fun hqueued => absurd hqueued hended⟩, fun _ => hended⟩
  | interrupt => cases hcall

/-- What a step of the manager does to the rows and to the run in hand. -/
inductive Moves (s : Settings) (sys sys' : Manager.System) : Prop
  | stay (db : sys'.db = sys.db)
      (held : sys'.phase.runID = none ∨ sys'.phase.runID = sys.phase.runID)
  | serve (q : Request) (accepted : q.Accepted) (db : sys'.db = (sys.db.serve s q).1)
      (held : sys'.phase.runID = sys.phase.runID)
  | claim (now : Time) (record : Run)
      (reply : (sys.db.serveLocal s now .claimNextQueuedRun).2 = .ok (some record))
      (db : sys'.db = (sys.db.serveLocal s now .claimNextQueuedRun).1)
      (held : sys'.phase.runID = some record.id)
  | serveLocal (now : Time) (call : LocalCall) (expected : Expected sys.phase call)
      (db : sys'.db = (sys.db.serveLocal s now call).1)
      (held : sys'.phase.runID = none ∨ sys'.phase.runID = sys.phase.runID)

variable {sys sys' : Manager.System} {act : Manager.Action}

theorem accepted_of_creates {call : Call} (h : call.creates = none) :
    (⟨now, call⟩ : Request).Accepted := by
  intro input hinput
  rw [h] at hinput
  cases hinput

theorem Ending.afterMarking (id : Uuid) (names : List String) :
    Ending (.afterMarking id names) := by
  intro id' status message heq
  cases names with
  | nil =>
    cases heq
    rfl
  | cons => cases heq

theorem Ending.afterRun (id : Uuid) (e : Runner.Execution) (names : List String)
    (err : Option String) : Ending (.afterRun id e names err) := by
  cases err with
  | some text =>
    intro id' status message heq
    cases heq
    rfl
  | none =>
    simp only [Manager.Phase.afterRun]
    split_ifs
    · exact .afterMarking id names
    all_goals
      intro id' status message heq
      cases heq
      rfl

theorem Ending.cancel {phase : Manager.Phase} (h : Ending phase) : Ending phase.cancel := by
  intro id status message heq
  cases phase with
  | finishing => exact h id status message heq
  | _ => cases heq

/-- A step of the goroutine alone. -/
theorem moves_stay (hdb : sys'.db = sys.db) {p p' : Manager.Phase} (hphase : sys.phase = p)
    (hphase' : sys'.phase = p') (hid : p'.runID = p.runID) (hending : Ending p') :
    Moves s sys sys' ∧ Ending sys'.phase := by
  subst hphase hphase'
  exact ⟨.stay hdb (.inr hid), hending⟩

/-- A call that creates nothing. -/
theorem moves_serve {call : Call} (hcreates : call.creates = none)
    (hdb : sys'.db = (sys.serve s now call).db) (hphase : sys'.phase = sys.phase)
    (hending : Ending sys.phase) : Moves s sys sys' ∧ Ending sys'.phase := by
  rw [hphase]
  exact ⟨.serve ⟨now, call⟩ (accepted_of_creates hcreates) hdb (by rw [hphase]), hending⟩

/-- A call of the local mode, executed or not. -/
theorem moves_serveLocal {call : LocalCall} {unsent : Bool} (hcall : Expected sys.phase call)
    (hdb : sys'.db = (if unsent then sys else sys.serveLocal s now call).db)
    (hid : sys'.phase.runID = none ∨ sys'.phase.runID = sys.phase.runID) : Moves s sys sys' := by
  split_ifs at hdb
  · exact .stay hdb hid
  · exact .serveLocal now call hcall hdb hid

/-- **What a step of the manager does.** -/
theorem step_moves (hending : Ending sys.phase) (hstep : Manager.step s sys act = some sys') :
    Moves s sys sys' ∧ Ending sys'.phase := by
  cases act with
  | submit id cfg g maxParallel snapshot now =>
    obtain ⟨⟨hvalid, hg⟩, ⟨⟩⟩ := Option.ite_none_right_eq_some.1 hstep
    refine ⟨.serve ⟨now, _⟩ ?_ rfl rfl, hending⟩
    intro input hinput
    cases hinput
    exact ⟨cfg, hvalid, g, hg, rfl⟩
  | claim now lost =>
    simp only [Manager.step] at hstep
    split at hstep
    case h_2 => cases hstep
    next hphase =>
      obtain ⟨-, hstep⟩ := Option.ite_none_left_eq_some.1 hstep
      split at hstep
      · rename_i record hreply
        cases hstep
        cases lost with
        | true =>
          exact ⟨.serveLocal now .claimNextQueuedRun trivial rfl (.inl rfl),
            by rintro _ _ _ ⟨⟩⟩
        | false => exact ⟨.claim now record hreply rfl rfl, by rintro _ _ _ ⟨⟩⟩
      · cases hstep
        exact ⟨.serveLocal now .claimNextQueuedRun trivial rfl (.inr rfl), hending⟩
  | register =>
    simp only [Manager.step] at hstep
    split at hstep
    · rename_i record hphase
      cases hstep
      exact moves_stay rfl hphase rfl rfl (by rintro _ _ _ ⟨⟩)
    · cases hstep
  | setup failure =>
    simp only [Manager.step] at hstep
    split at hstep
    case h_2 => cases hstep
    next record canceled hphase =>
      split at hstep
      · cases hstep
        refine moves_stay rfl hphase rfl rfl ?_
        intro _ _ _ heq
        cases heq
        rfl
      · split at hstep
        · cases hstep
        · split at hstep
          · cases hstep
          · cases hstep
            exact moves_stay rfl hphase rfl rfl (by rintro _ _ _ ⟨⟩)
  | turn =>
    simp only [Manager.step] at hstep
    split at hstep
    · rename_i record g e err hphase
      obtain ⟨-, ⟨⟩⟩ := Option.ite_none_right_eq_some.1 hstep
      exact moves_stay rfl hphase rfl rfl (by rintro _ _ _ ⟨⟩)
    · cases hstep
  | contextDone =>
    simp only [Manager.step] at hstep
    split at hstep
    · rename_i record g e err hphase
      obtain ⟨e', -, rfl⟩ := Option.map_eq_some_iff.1 hstep
      exact moves_stay rfl hphase rfl rfl (by rintro _ _ _ ⟨⟩)
    · cases hstep
  | receive c =>
    simp only [Manager.step] at hstep
    split at hstep
    · rename_i record g e err hphase
      obtain ⟨-, hsome⟩ := Option.ite_none_right_eq_some.1 hstep
      obtain ⟨e', -, rfl⟩ := Option.map_eq_some_iff.1 hsome
      exact moves_stay rfl hphase rfl rfl (by rintro _ _ _ ⟨⟩)
    · cases hstep
  | observe now unsent lost text =>
    simp only [Manager.step] at hstep
    split at hstep
    case h_2 => cases hstep
    next record g e name st rest err hphase =>
      have hcall :
          Expected sys.phase (.updateJob record.id name (Manager.jobStatus st) none) := by
        rw [hphase]
        rfl
      split at hstep
      · cases hstep
        exact moves_stay rfl hphase rfl rfl (by rintro _ _ _ ⟨⟩)
      · split at hstep
        · cases hstep
          cases lost <;> exact ⟨.serveLocal now _ hcall rfl (.inr (by rw [hphase]; rfl)),
            by rintro _ _ _ ⟨⟩⟩
        · cases hstep
          exact moves_stay rfl hphase rfl rfl (by rintro _ _ _ ⟨⟩)
  | leave names =>
    simp only [Manager.step] at hstep
    split at hstep
    · rename_i record g e err hphase
      obtain ⟨-, ⟨⟩⟩ := Option.ite_none_right_eq_some.1 hstep
      exact moves_stay rfl hphase rfl (Manager.Phase.runID_afterRun _ _ _ _) (.afterRun _ _ _ _)
    · cases hstep
  | mark now unsent =>
    simp only [Manager.step] at hstep
    split at hstep
    · rename_i id name rest hphase
      cases hstep
      refine ⟨moves_serveLocal ?_ rfl (.inr ?_), .afterMarking _ _⟩
      · rw [hphase]
        rfl
      · rw [hphase]
        exact Manager.Phase.runID_afterMarking _ _
    · cases hstep
  | finish now unsent =>
    simp only [Manager.step] at hstep
    split at hstep
    · rename_i id status message hphase
      have hcall : Expected sys.phase (.finishRun id status message) := hphase
      cases hstep
      exact ⟨moves_serveLocal hcall rfl (.inl rfl), by rintro _ _ _ ⟨⟩⟩
    · cases hstep
  | commitArtifacts name items now =>
    simp only [Manager.step] at hstep
    split at hstep
    · obtain ⟨-, ⟨⟩⟩ := Option.ite_none_right_eq_some.1 hstep
      exact moves_serve rfl rfl rfl hending
    · cases hstep
  | expireArtifacts now =>
    cases hstep
    exact moves_serve rfl rfl rfl hending
  | getRun k id =>
    have hsame : sys'.phase = sys.phase ∧ sys'.db = sys.db := by
      simp only [Manager.step] at hstep
      split at hstep
      · split at hstep
        · grind
        · split at hstep <;>
          · cases hstep
            exact ⟨rfl, rfl⟩
      · cases hstep
    exact moves_stay hsame.2 rfl hsame.1 rfl hending
  | cancelQueued k now =>
    simp only [Manager.step] at hstep
    split at hstep
    · cases hstep
      exact moves_serve rfl rfl rfl hending
    · cases hstep
  | requestCancel k now =>
    simp only [Manager.step] at hstep
    split at hstep
    case h_2 => cases hstep
    next id hcancel =>
      split at hstep
      · cases hstep
        exact moves_serve rfl rfl rfl hending
      · cases hstep
        exact moves_stay rfl rfl rfl rfl hending
  | signal k =>
    simp only [Manager.step] at hstep
    split at hstep
    case h_2 => cases hstep
    next id hcancel =>
      cases hstep
      by_cases hactive : sys.phase.active id = true
      · exact moves_stay rfl rfl (if_pos hactive) (Manager.Phase.runID_cancel _) hending.cancel
      · exact moves_stay rfl rfl (if_neg hactive) rfl hending
  | close =>
    cases hstep
    exact moves_stay rfl rfl rfl (Manager.Phase.runID_cancel _) hending.cancel

/-- What holds of the rows and of the run in hand, in either mode. -/
structure Orderly (sys : Manager.System) : Prop where
  stored : ∀ r ∈ sys.db.runs, r.Stored
  held : ∀ id, sys.phase.runID = some id → ∃ r ∈ sys.db.runs, r.id = id ∧ r.status ≠ .queued
  ending : Ending sys.phase

theorem Orderly.started (h : Orderly sys) (hr : r ∈ sys.db.runs)
    (hid : sys.phase.runID = some r.id) : r.status ≠ .queued := by
  obtain ⟨r₀, hr₀, hid₀, hstarted⟩ := h.held r.id hid
  obtain rfl := List.inj_on_of_nodup_map sys.db.valid.runs_key hr₀ hr hid₀
  exact hstarted

/-- A step that takes every run on keeps what holds of the run in hand. -/
theorem Orderly.proceed (h : Orderly sys) (hending : Ending sys'.phase)
    (hheld : sys'.phase.runID = none ∨ sys'.phase.runID = sys.phase.runID)
    (hruns : List.Forall₂ Proceeds sys.db.runs sys'.db.runs) : Orderly sys' := by
  refine ⟨?_, ?_, hending⟩
  · intro r' hr'
    obtain ⟨r, -, hproceeds⟩ := Table.exists_old hruns hr'
    exact hproceeds.stored
  · intro id hid
    rcases hheld with hnone | hsame
    · rw [hnone] at hid
      cases hid
    · obtain ⟨r, hr, hid', hstarted⟩ := h.held id (hsame ▸ hid)
      obtain ⟨r', hr', hproceeds⟩ := Table.exists_new hruns hr
      exact ⟨r', hr', hproceeds.id_eq.trans hid', hproceeds.started hstarted⟩

/-- A request creates a run or takes every run on. -/
theorem Orderly.serve (h : Orderly sys) {q : Request} (haccepted : q.Accepted)
    (hdb : sys'.db = (sys.db.serve s q).1) (hheld : sys'.phase.runID = sys.phase.runID)
    (hending : Ending sys'.phase) : Orderly sys' := by
  have hserved : Served s sys.db q sys'.db := hdb.symm
  rcases hserved.runs with ⟨input, snapshot, hinput, -, hruns⟩ | hruns
  · obtain ⟨cfg, hcompiled⟩ := haccepted input hinput
    refine ⟨?_, ?_, hending⟩
    · intro r hr
      rw [hruns] at hr
      rcases List.mem_append.1 hr with hr | hr
      · exact h.stored r hr
      · obtain rfl := List.mem_singleton.1 hr
        exact ⟨(hcompiled.built q.now snapshot).jobs_ne_nil, rfl,
          fun _ j hj => (CreateRun.row_pending hj).1⟩
    · grind [h.held]
  · apply h.proceed hending (.inr hheld)
    refine List.Forall₂.imp ?_ ((List.forall₂_and_left _ _).2 ⟨fun r hr => hr, hruns⟩)
    rintro r r' ⟨hr, rfl | hstep | ⟨input, -, -, rfl⟩⟩
    · exact .refl (h.stored r' hr)
    · exact .of_change (h.stored r hr) (sys.db.valid.runs r hr).jobs_key hstep
    · exact .supersede (h.stored r hr)

/-- A call of the local mode takes every run on. -/
theorem Orderly.serveLocal_runs (h : Orderly sys) {call : LocalCall}
    (hcall : Expected sys.phase call) :
    List.Forall₂ Proceeds sys.db.runs (sys.db.serveLocal s now call).1.runs := by
  refine List.Forall₂.imp ?_ ((List.forall₂_and_left _ _).2
    ⟨fun r hr => hr, sys.db.serveLocal_runs s now call⟩)
  rintro r r' ⟨hr, rfl | hstep⟩
  · exact .refl (h.stored r' hr)
  · exact .of_localChange (h.stored r hr) h.ending hcall (h.started hr) hstep

theorem Orderly.moves (h : Orderly sys) (hmoves : Moves s sys sys')
    (hending : Ending sys'.phase) : Orderly sys' := by
  cases hmoves with
  | stay hdb hheld => grind [h.proceed, h.stored, Orderly, Moves, Ending]
  | serve q haccepted hdb hheld => exact h.serve haccepted hdb hheld hending
  | claim now record hreply hdb hheld =>
    have hruns : List.Forall₂ Proceeds sys.db.runs sys'.db.runs := by
      rw [hdb]
      exact h.serveLocal_runs trivial
    refine ⟨?_, ?_, hending⟩
    · intro r' hr'
      obtain ⟨r, -, hproceeds⟩ := Table.exists_old hruns hr'
      exact hproceeds.stored
    · intro id hid
      obtain ⟨r, hr, -, rfl, hreplaced⟩ := Database.serveLocal_claim hreply
      obtain rfl : r.id = id := Option.some.inj (hheld.symm.trans hid)
      refine ⟨r.claim now, ?_, rfl, fun hqueued => (by cases hqueued)⟩
      rw [hdb, hreplaced]
      exact Table.mem_updateWhere.2 ⟨r, hr, by simp [Run.claim]⟩
  | serveLocal now call hcall hdb hheld => grind [h.proceed, h.serveLocal_runs]

/-- A new process holds no run. -/
theorem Orderly.ofRows {db : Database} (h : ∀ r ∈ db.runs, r.Stored) :
    Orderly { db := db } where
  stored := h
  held := by
    intro id hid
    cases hid
  ending := by
    intro _ _ _ heq
    cases heq

theorem Proceeds.interrupt (hr : r.Stored) (hrunning : r.status = .running) :
    Proceeds r (r.interrupt s now) := by
  have hstatus : (r.interrupt s now).status = .aborted := Run.interrupt_status hrunning
  refine ⟨(r.interrupt_static s now).id,
    ⟨?_, (r.interrupt_static s now).runnerID hr.unleased, ?_⟩, ?_⟩
  · rw [Run.interrupt_jobs hrunning]
    simpa [Table.updateWhere] using hr.jobs_ne_nil
  · grind
  · grind

/-- What a recovery leaves may be taken on by the next process. -/
theorem recover_stored {db : Database} (h : ∀ r ∈ db.runs, r.Stored) (mode : ExecutionMode) :
    ∀ r ∈ (recover s now db mode).1.runs, r.Stored := by
  cases mode with
  | localMode =>
    intro r' hr'
    obtain ⟨r, hr, rfl | hstep⟩ :=
      Table.exists_old (db.serveLocal_runs s now .recoverInterrupted) hr'
    · exact h r' hr
    · cases hstep with
      | interrupt running => exact (Proceeds.interrupt (h r hr) running).stored
  | remoteMode =>
    have haccepted : (⟨now, .recoverRemoteJobs⟩ : Request).Accepted := accepted_of_creates rfl
    have hserved : Orderly { db := (db.serve s ⟨now, .recoverRemoteJobs⟩).1 } :=
      (Orderly.ofRows h).serve haccepted rfl rfl (Orderly.ofRows h).ending
    exact hserved.stored

theorem servedIn_creates {mode : ExecutionMode} {call : Call} (h : servedIn mode call = true) :
    call.creates = none := by
  cases call with
  | createRun => cases h
  | createSCMRun => cases h
  | _ => rfl

variable {srv srv' : Server}

theorem step_orderly (h : Orderly srv.manager) {act : Action} (hstep : step s srv act = some srv') :
    Orderly srv'.manager := by
  cases act with
  | start mode now =>
    simp only [step] at hstep
    split at hstep
    · cases hstep
    · split at hstep
      · cases hstep
        exact .ofRows (recover_stored h.stored mode)
      · grind
  | kill =>
    cases hstep
    exact .ofRows h.stored
  | manager act =>
    simp only [step] at hstep
    split at hstep
    · cases hstep
    · obtain ⟨-, hsome⟩ := Option.ite_none_right_eq_some.1 hstep
      obtain ⟨manager, hmanager, rfl⟩ := Option.map_eq_some_iff.1 hsome
      obtain ⟨hmoves, hending⟩ := step_moves h.ending hmanager
      exact h.moves hmoves hending
  | call now call =>
    simp only [step] at hstep
    split at hstep
    · cases hstep
    · obtain ⟨hserved, ⟨⟩⟩ := Option.ite_none_right_eq_some.1 hstep
      exact h.serve (accepted_of_creates (servedIn_creates hserved)) rfl rfl h.ending
  | createSCMRun now token id cfg g maxParallel snapshot trigger =>
    obtain ⟨⟨-, hvalid, hg⟩, ⟨⟩⟩ := Option.ite_none_right_eq_some.1 hstep
    refine h.serve ?_ rfl rfl h.ending
    intro input hinput
    cases hinput
    exact ⟨cfg, hvalid, g, hg, rfl⟩

theorem Reaches.orderly {tr : List (Step Server Action)} (h : Reaches s tr srv) :
    Orderly srv.manager := by
  apply Trace.final_invariant (fun srv => Orderly srv.manager) _ _ h
  · exact .ofRows fun r hr => (by cases hr)
  · intro srv act srv' horderly hstep
    exact step_orderly horderly hstep

theorem recover_local_ok (s : Settings) (now : Time) (db : Database) :
    (recover s now db .localMode).2 = .ok () ↔
      (db.serveLocal s now .recoverInterrupted).2 = .ok none := by
  rcases db.commit_cases (execLocal s now db.toRows .recoverInterrupted) with
    ⟨rows, reply, hexec, -, hreply⟩ | ⟨-, e, he⟩
  · cases hexec
    simp [recover, Database.serveLocal, hreply, Except.map]
  · simp [recover, Database.serveLocal, he, Except.map]

theorem recover_remote_ok (s : Settings) (now : Time) (db : Database) :
    (recover s now db .remoteMode).2 = .ok () ↔
      (db.serve s ⟨now, .recoverRemoteJobs⟩).2 = .ok .done := by
  rcases db.serve_cases s ⟨now, .recoverRemoteJobs⟩ with ⟨rows, reply, hexec, -, hreply⟩ |
    ⟨-, e, he⟩
  · obtain rfl := (map_done hexec).2
    simp [recover, hreply, Except.map]
  · simp [recover, he, Except.map]

/-- **When the recovery works.**  In local mode the jobs at work must belong to runs that are
`RUNNING`, and be under no lease; in remote mode every `RUNNING` run must have an unfinished
job. -/
theorem recovers_iff {tr : List (Step Server Action)} (h : Reaches s tr srv) (now : Time) :
    (Recovers s now .localMode srv.manager.db ↔
      ∀ r ∈ srv.manager.db.runs, ∀ j ∈ r.jobs, j.status = .running →
        r.status = .running ∧ j.leaseID = none) ∧
    (Recovers s now .remoteMode srv.manager.db ↔
      ∀ r ∈ srv.manager.db.runs, r.status = .running →
        ∃ j ∈ r.jobs, j.status.unfinished = true) := by
  have hstored := h.orderly.stored
  constructor
  · rw [← recoverInterrupted_iff s now hstored]
    exact and_congr_left' (recover_local_ok s now _)
  · rw [← recoverRemoteJobs_iff s now hstored]
    exact and_congr_left' (recover_remote_ok s now _)

open Postgres.Sample (graph pipeline runner settings snapshot)

namespace Sample

/-- A job is leased in remote mode, and the process is killed. -/
def leased : List Action :=
  [.start .remoteMode 0,
    .manager (.submit 1 pipeline graph 1 snapshot 0),
    .call 1 (.registerRunner runner), .call 2 (.leaseJob 7 9), .kill]

/-- The last job of a run has passed in local mode, and the process is killed before
`FinishRun`. -/
def unfinished : List Action :=
  [.start .localMode 0,
    .manager (.submit 1 pipeline graph 1 snapshot 0),
    .manager (.claim 1 false), .manager .register, .manager (.setup none), .manager .turn,
    .manager (.observe 2 false false ""), .manager (.receive ⟨"build", .passed, false⟩),
    .manager (.observe 3 false false ""), .kill]

end Sample

/-- A leased job is recovered in remote mode. -/
theorem leased_job_recovered : ∃ tr srv, Reaches settings tr srv ∧
    Manager.Sample.statuses srv.manager = [(1, .running, [("build", .running)])] ∧
    Recovers settings 5 .remoteMode srv.manager.db := by
  have hrun : (Sample.leased.foldlM (step settings) {}).map
      (fun srv => Manager.Sample.statuses srv.manager) =
      some [(1, .running, [("build", .running)])] := by
    decide +kernel
  obtain ⟨tr, srv, htr, -, hstatuses⟩ := Trace.of_foldlM_map hrun
  refine ⟨tr, srv, htr, hstatuses, (recovers_iff htr 5).2.2 ?_⟩
  intro r hr _
  have hrow : (r.id, r.status, r.jobs.map fun j => (j.name, j.status)) ∈
      Manager.Sample.statuses srv.manager := List.mem_map_of_mem hr
  rw [hstatuses, List.mem_singleton, Prod.mk.injEq, Prod.mk.injEq] at hrow
  obtain ⟨j, hjob, heq⟩ := List.map_eq_singleton_iff.1 hrow.2.2
  refine ⟨j, by simp [hjob], ?_⟩
  rw [(Prod.mk.inj heq).2]
  rfl

/-- **A leased job stops the start in local mode, and a run that was not finished stays
`RUNNING` in remote mode.** -/
theorem recovery_fails :
    (¬ ∀ (s : Settings) (tr : List (Step Server Action)) (srv : Server) (now : Time),
      Reaches s tr srv → Recovers s now .localMode srv.manager.db) ∧
    ¬ ∀ (s : Settings) (tr : List (Step Server Action)) (srv : Server) (now : Time),
      Reaches s tr srv → Recovers s now .remoteMode srv.manager.db := by
  constructor
  · intro hall
    have hrun : (Sample.leased.foldlM (step settings) {}).map (fun srv =>
        (recover settings 5 srv.manager.db .localMode).2.toOption) =
        some none := by
      decide +kernel
    obtain ⟨tr, srv, htr, -, hreply⟩ := Trace.of_foldlM_map hrun
    rw [(hall _ tr srv 5 htr).1] at hreply
    cases hreply
  · intro hall
    have hrun : (Sample.unfinished.foldlM (step settings) {}).map (fun srv =>
        Manager.Sample.statuses
          { db := (recover settings 5 srv.manager.db .remoteMode).1 }) =
        some [(1, .running, [("build", .passed)])] := by
      decide +kernel
    obtain ⟨tr, srv, htr, -, hstatuses⟩ := Trace.of_foldlM_map hrun
    obtain ⟨r, hr, hstatus, hjobs⟩ := Manager.Sample.exists_run hstatuses
    obtain ⟨j, hjob, heq⟩ := List.map_eq_singleton_iff.1 hjobs
    have hterminal := (hall _ tr srv 5 htr).2.ended r hr (by
      rw [hjob, List.forall_mem_singleton, (Prod.mk.inj heq).2]
      rfl)
    rw [hstatus] at hterminal
    cases hterminal

end Startup
