import ForgeCI.Submission

/-!
# The invariants of a run

The invariants of a run built from an accepted pipeline, under every operation
of the store.  `Run.Scheduled` holds of every such run; `Run.Settled` needs
that the run is not superseded, so it holds of the runs without a trigger.
-/

namespace Postgres

open Traces

/-- What holds of every run, at any time between two operations. -/
structure Run.Scheduled (r : Run) : Prop where
  built : ∃ cfg, r.Built cfg
  remote : r.runnerID = none
  snapshot : r.sourceSnapshotSHA256.isSome = true
  queued_pending : r.status = .queued → ∀ j ∈ r.jobs, j.status = .pending
  ended_idle : r.status.terminal = true → ∀ j ∈ r.jobs, j.status ≠ .running
  all_ended : (∀ j ∈ r.jobs, j.status.unfinished = false) → r.status.terminal = true
  pending_clear : ∀ j ∈ r.jobs, j.status = .pending → r.dependencyFailing j = false
  leased_ready : ∀ j ∈ r.jobs, j.leaseGeneration ≠ 0 → r.waiting j = false
  running_leased : ∀ j ∈ r.jobs, j.status = .running → j.leaseGeneration ≠ 0

/-- What holds of a run besides, as long as it is not superseded. -/
structure Run.Settled (r : Run) : Prop where
  ended : r.status.terminal = true → ∀ j ∈ r.jobs, j.status.unfinished = false
  canceling : r.status.terminal = false → r.cancelRequestedAt.isSome = true →
    ∀ j ∈ r.jobs, j.status ≠ .pending

variable {s : Settings} {now : Time} {call : Call} {r r' r₂ : Run} {j j' : Job}

theorem CreateRun.row_pending {input : CreateRun} {snapshot : SourceSnapshot}
    (hj : j ∈ (input.row now snapshot).jobs) :
    j.status = .pending ∧ j.leaseGeneration = 0 := by
  obtain ⟨_, -, rfl⟩ := List.mem_map.1 hj
  exact ⟨rfl, rfl⟩

theorem CreateRun.Compiled.scheduled {input : CreateRun} {cfg : Config.Pipeline}
    (h : input.Compiled cfg) (now : Time) (snapshot : SourceSnapshot) :
    (input.row now snapshot).Scheduled where
  built := ⟨cfg, h.built now snapshot⟩
  remote := rfl
  snapshot := rfl
  queued_pending := fun _ j hj => (row_pending hj).1
  ended_idle := fun hstatus => by cases hstatus
  all_ended := by
    intro hall
    obtain ⟨j, hj⟩ := List.exists_mem_of_ne_nil _ (h.built now snapshot).jobs_ne_nil
    have := hall j hj
    rw [(row_pending hj).1] at this
    cases this
  pending_clear := by
    intro j _ _
    rw [← Bool.not_eq_true, Run.dependencyFailing_iff]
    rintro ⟨-, -, -, u, hu, -, hfailing⟩
    rw [(row_pending hu).1] at hfailing
    cases hfailing
  leased_ready := fun j hj hleased => absurd (row_pending hj).2 hleased
  running_leased := fun j hj hrunning => by
    rw [(row_pending hj).1] at hrunning
    cases hrunning

theorem CreateRun.row_settled (now : Time) (input : CreateRun) (snapshot : SourceSnapshot) :
    (input.row now snapshot).Settled where
  ended := fun hstatus => by cases hstatus
  canceling := fun _ hcancel => by cases hcancel

/-- Dependencies that passed stay passed. -/
theorem Run.waiting_of_steps (hdeps : r'.dependencies = r.dependencies)
    (hjobs : List.Forall₂ (JobStep now r) r.jobs r'.jobs) (hname : j'.name = j.name)
    (h : r.waiting j = false) : r'.waiting j' = false := by
  rw [← Bool.not_eq_true, Run.waiting_iff]
  rintro ⟨d, hd, hdj, u', hu', hud, hpassed⟩
  obtain ⟨u, hu, hstep⟩ := Table.exists_old hjobs hu'
  rw [← Bool.not_eq_true, Run.waiting_iff] at h
  refine h ⟨d, hdeps ▸ hd, hdj.trans hname, u, hu, hstep.name_eq.symm.trans hud, ?_⟩
  intro hu_passed
  rw [hstep.finished (by rw [hu_passed]; rfl)] at hpassed
  exact hpassed hu_passed

theorem JobStep.running_leased (h : JobStep now r j j') (hj' : j'.status = .running)
    (hj : j.status = .running → j.leaseGeneration ≠ 0) : j'.leaseGeneration ≠ 0 := by
  cases h with
  | keep => exact hj hj'
  | grant => exact Nat.succ_ne_zero _
  | renew => exact hj hj'
  | finish running final => grind [Job.releaseLease_status, Job.finish_status, JobStatus.reportable]
  | drop _ final => rcases final with rfl | rfl <;> simp at hj'
  | abandon => simp at hj'

/-- Job-row changes keep `Scheduled`, up to what concerns the status of the run
and the pending jobs. -/
theorem Run.Scheduled.advance (h : r.Scheduled) (hstatic : r.SameStatic r')
    (hjobs : List.Forall₂ (JobStep now r) r.jobs r'.jobs)
    (hqueued : r'.status = .queued → ∀ j ∈ r'.jobs, j.status = .pending)
    (hended : r'.status.terminal = true → ∀ j ∈ r'.jobs, j.status ≠ .running)
    (hall : (∀ j ∈ r'.jobs, j.status.unfinished = false) → r'.status.terminal = true)
    (hclear : ∀ j ∈ r'.jobs, j.status = .pending → r'.dependencyFailing j = false) :
    r'.Scheduled where
  built := by
    obtain ⟨cfg, hcfg⟩ := h.built
    exact ⟨cfg, hcfg.of_static hstatic
      (Table.map_eq_of_forall₂ hjobs fun _ _ hstep => hstep.name_eq)⟩
  remote := hstatic.runnerID h.remote
  snapshot := by rw [hstatic.sourceSnapshotSHA256]; exact h.snapshot
  queued_pending := hqueued
  ended_idle := hended
  all_ended := hall
  pending_clear := hclear
  leased_ready := by
    intro j' hj' hleased
    obtain ⟨j, hj, hstep⟩ := Table.exists_old hjobs hj'
    refine Run.waiting_of_steps hstatic.dependencies hjobs hstep.name_eq ?_
    grind [hstep.leased, h.leased_ready]
  running_leased := by
    intro j' hj' hrunning
    obtain ⟨j, hj, hstep⟩ := Table.exists_old hjobs hj'
    exact hstep.running_leased hrunning (h.running_leased j hj)

/-- A run with a running job is `RUNNING`. -/
theorem Run.Scheduled.running (h : r.Scheduled) (hj : j ∈ r.jobs)
    (hrunning : j.status = .running) : r.status = .running := by
  cases hstatus : r.status with
  | running => rfl
  | queued => grind [h.queued_pending]
  | _ => exact absurd hrunning (h.ended_idle (by rw [hstatus]; rfl) j hj)

/-- A run whose jobs keep their names and statuses keeps its failing
dependencies. -/
theorem Run.dependencyFailing_of_same (hdeps : r'.dependencies = r.dependencies)
    (hjobs : List.Forall₂ (fun j j' : Job => j'.name = j.name ∧ j'.status = j.status)
      r.jobs r'.jobs) (hname : j'.name = j.name) (h : r.dependencyFailing j = false) :
    r'.dependencyFailing j' = false := by
  rw [← Bool.not_eq_true, Run.dependencyFailing_iff]
  rintro ⟨d, hd, hdj, u', hu', hud, hfailing⟩
  obtain ⟨u, hu, hun, hus⟩ := Table.exists_old hjobs hu'
  grind [Run.dependencyFailing_iff]

/-- An operation that changes no status keeps the invariants. -/
theorem Run.Scheduled.quiet (h : r.Scheduled) (hstatic : r.SameStatic r')
    (hjobs : List.Forall₂ (JobStep now r) r.jobs r'.jobs)
    (hsame : List.Forall₂ (fun j j' : Job => j'.name = j.name ∧ j'.status = j.status)
      r.jobs r'.jobs)
    (hstatus : r'.status = r.status) (hcancel : r'.cancelRequestedAt = r.cancelRequestedAt) :
    r'.Scheduled ∧ (r.Settled → r'.Settled) := by
  refine ⟨h.advance hstatic hjobs ?_ ?_ ?_ ?_, fun hs => ⟨?_, ?_⟩⟩
  · intro hqueued j' hj'
    obtain ⟨j, hj, -, hjs⟩ := Table.exists_old hsame hj'
    exact hjs.trans (h.queued_pending (hstatus ▸ hqueued) j hj)
  · intro hended j' hj'
    obtain ⟨j, hj, -, hjs⟩ := Table.exists_old hsame hj'
    rw [hjs]
    exact h.ended_idle (hstatus ▸ hended) j hj
  · grind [h.all_ended, Table.exists_new]
  · intro j' hj' hpending
    obtain ⟨j, hj, hjn, hjs⟩ := Table.exists_old hsame hj'
    grind [hstatic.dependencies, h.pending_clear, Run.dependencyFailing_of_same]
  · intro hended j' hj'
    obtain ⟨j, hj, -, hjs⟩ := Table.exists_old hsame hj'
    rw [hjs]
    exact hs.ended (hstatus ▸ hended) j hj
  · intro hactive hreq j' hj'
    obtain ⟨j, hj, -, hjs⟩ := Table.exists_old hsame hj'
    grind [hs.canceling]

/-- **`finalizeRun` restores the invariants** after some jobs of a running run
have ended and no pending job is left behind a failing dependency. -/
theorem Run.Scheduled.finalize (h : r.Scheduled) (hstatic : r.SameStatic r₂)
    (hjobs : List.Forall₂ (JobStep now r) r.jobs r₂.jobs) (hrunning : r₂.status = .running)
    (hclear : ∀ j ∈ r₂.jobs, j.status = .pending → r₂.dependencyFailing j = false)
    (hfin : r₂.finalizeRun s now = .ok r') :
    r'.Scheduled ∧ ((r₂.cancelRequestedAt.isSome = true →
      ∀ j ∈ r₂.jobs, j.status ≠ .pending) → r'.Settled) := by
  have hactive : r₂.status.terminal = false := by rw [hrunning]; rfl
  rcases Run.finalizeRun_ok hfin with ⟨rfl, hopen⟩ | ⟨hdone, -, -, rfl⟩
  · have hunfinished : ∃ j ∈ r'.jobs, j.status.unfinished = true := by grind
    refine ⟨h.advance hstatic hjobs ?_ ?_ ?_ hclear, fun hcancel => ⟨?_, fun _ => hcancel⟩⟩
    · grind
    · grind
    · grind
    · grind
  · have hterminal : (r₂.finalized s now).status.terminal = true := r₂.finalStatus_terminal
    have hstatic' : r.SameStatic (r₂.finalized s now) :=
      hstatic.trans ⟨rfl, rfl, rfl, rfl, rfl, rfl, fun h => h⟩
    refine ⟨h.advance hstatic' hjobs ?_ ?_ (fun _ => hterminal) hclear,
      fun _ => ⟨fun _ => hdone, ?_⟩⟩
    · intro hqueued
      rw [hqueued] at hterminal
      cases hterminal
    · intro _ j hj hj_running
      have := hdone j hj
      rw [hj_running] at this
      cases this
    · grind

/-- No job of a canceling run becomes pending again. -/
theorem Run.Settled.no_pending (hs : r.Settled) (hactive : r.status.terminal = false)
    (hjobs : List.Forall₂ (JobStep now r) r.jobs r'.jobs)
    (hcancel : r.cancelRequestedAt.isSome = true) : ∀ j ∈ r'.jobs, j.status ≠ .pending := by
  intro j' hj' hpending
  obtain ⟨j, hj, hstep⟩ := Table.exists_old hjobs hj'
  grind [hstep.pending, hs.canceling]

theorem Run.blockDependents_steps {r₁ : Run} (hstatic : r.SameStatic r₁)
    (hjobs : List.Forall₂ (JobStep now r) r.jobs r₁.jobs) :
    r.SameStatic (r₁.blockDependents now) ∧
      List.Forall₂ (JobStep now r) r.jobs (r₁.blockDependents now).jobs ∧
      (r₁.blockDependents now).status = r₁.status ∧
      (r₁.blockDependents now).cancelRequestedAt = r₁.cancelRequestedAt ∧
      ∀ j ∈ (r₁.blockDependents now).jobs, j.status = .pending →
        (r₁.blockDependents now).dependencyFailing j = false := by
  obtain ⟨jobs, heq, hblocks, hclear⟩ := r₁.blockDependents_spec now
  refine ⟨hstatic.trans (Run.blockDependents_static now r₁), ?_⟩
  rw [heq]
  exact ⟨Table.forall₂_trans (fun _ _ _ h h' => h.blocks h') hjobs hblocks, rfl, rfl, hclear⟩

theorem Run.Scheduled.abortJobs {p : Job → Bool} {message : String} (h : r.Scheduled)
    (hp : ∀ j ∈ r.jobs, p j = true → j.status = .running)
    (hok : r.abortJobs s p now message = .ok r') :
    r'.Scheduled ∧ (r.Settled → r'.Settled) := by
  rcases Run.abortJobs_ok hok with ⟨-, rfl⟩ | ⟨⟨j, hj, hpj⟩, hfin⟩
  · exact ⟨h, fun hs => hs⟩
  · have hrunning := h.running hj (hp j hj hpj)
    obtain ⟨hstatic, hjobs, hstatus, hcancel, hclear⟩ :=
      Run.blockDependents_steps (r.updateJobs_static _ _) (Run.abort_jobs message hp)
    obtain ⟨hsched, hsettled⟩ := h.finalize hstatic hjobs (hstatus.trans hrunning) hclear hfin
    refine ⟨hsched, fun hs => hsettled fun hreq => ?_⟩
    exact hs.no_pending (by rw [hrunning]; rfl) hjobs (hcancel ▸ hreq)

/-- Completing a job leaves no pending job behind a failing dependency: a
passed job adds none, any other status is followed by `blockDependents`. -/
theorem Run.Scheduled.completedRows_clear {name : String} {status : JobStatus}
    {message : Option String} (h : r.Scheduled)
    (hj : j ∈ (r.completedRows name status now message).jobs) (hpending : j.status = .pending) :
    (r.completedRows name status now message).dependencyFailing j = false := by
  unfold Run.completedRows at hj ⊢
  split_ifs at hj ⊢ with hpassed
  · subst hpassed
    obtain ⟨k, hk, rfl⟩ := Table.mem_updateWhere.1 hj
    by_cases hname : k.name = name
    · rw [if_pos (by simpa using hname)] at hpending
      simp at hpending
    · rw [if_neg (by simpa using hname)] at hpending ⊢
      have hclear := h.pending_clear k hk hpending
      rw [← Bool.not_eq_true, Run.dependencyFailing_iff] at hclear ⊢
      rintro ⟨d, hd, hdk, u', hu', hud, hfailing⟩
      obtain ⟨u, hu, rfl⟩ := Table.mem_updateWhere.1 hu'
      by_cases huname : u.name = name
      · rw [if_pos (by simpa using huname)] at hfailing
        cases hfailing
      · rw [if_neg (by simpa using huname)] at hud hfailing
        exact hclear ⟨d, hd, hdk, u, hu, hud, hfailing⟩
  · obtain ⟨jobs, heq, -, hclear⟩ :=
      Run.blockDependents_spec now (r.finishJob name status now message)
    rw [heq] at hj ⊢
    exact hclear j hj hpending

theorem Run.Scheduled.complete {owner : Ownership} {status : JobStatus}
    {message : Option String} (h : r.Scheduled) (hkey : (r.jobs.map Job.name).Nodup)
    (hstatus : status.reportable = true) (hok : r.complete s owner status now message = .ok r') :
    r'.Scheduled ∧ (r.Settled → r'.Settled) := by
  obtain ⟨j, hj, hholds, -, hfin⟩ := Run.complete_ok hok
  have hrunning : r.status = .running :=
    h.running (Table.row?_some hj).1 (Job.holdsLease_running hholds)
  have hjobs := Run.completedRows_jobs message hkey hj hholds hstatus
  obtain ⟨jobs, heq, -⟩ := r.completedRows_eq owner.jobName status now message
  obtain ⟨hsched, hsettled⟩ := h.finalize (Run.completedRows_static _ _ _ _ r) hjobs
    (by rw [heq]; exact hrunning) (fun k hk hpending => h.completedRows_clear hk hpending) hfin
  refine ⟨hsched, fun hs => hsettled fun hreq => ?_⟩
  exact hs.no_pending (by rw [hrunning]; rfl) hjobs (by rw [heq] at hreq; exact hreq)

theorem Run.grant_status {runner lease : Uuid} {name : String}
    (h : r.status.terminal = false) : (r.grant now runner lease name).status = .running := by
  rcases RunStatus.terminal_eq_false_iff.1 h with hq | hr
  · simp [grant, start, updateJobs, hq]
  · simp [grant, start, updateJobs, hr]

theorem Run.Scheduled.grant {runner lease : Uuid} {docker : Bool} (h : r.Scheduled)
    (hchange : Change s now call r (r.grant now runner lease j.name))
    (hkey : (r.jobs.map Job.name).Nodup) (hj : j ∈ r.jobs) (hclaim : r.claimable docker j = true) :
    (r.grant now runner lease j.name).Scheduled ∧
      (r.grant now runner lease j.name).Settled := by
  obtain ⟨hactive, hcancel, hpending, -⟩ := Run.claimable_iff.1 hclaim
  have hstatus : (r.grant now runner lease j.name).status = .running := Run.grant_status hactive
  have hrows : ∀ k' ∈ (r.grant now runner lease j.name).jobs, ∃ k ∈ r.jobs,
      k'.name = k.name ∧ (k'.status = .running ∨ k' = k) := by
    intro k' hk'
    rw [Run.grant, Run.start_jobs] at hk'
    obtain ⟨k, hk, rfl⟩ := Table.mem_updateWhere.1 hk'
    split_ifs
    · exact ⟨k, hk, rfl, .inl rfl⟩
    · exact ⟨k, hk, rfl, .inr rfl⟩
  have hgranted : ∃ k ∈ (r.grant now runner lease j.name).jobs, k.status = .running := by
    rw [Run.grant, Run.start_jobs]
    refine ⟨j.grant now runner lease, Table.mem_updateWhere.2 ⟨j, hj, ?_⟩, rfl⟩
    simp [hpending]
  refine ⟨h.advance hchange.static (hchange.jobs hkey) ?_ ?_ ?_ ?_, ?_, ?_⟩
  · grind
  · intro hended
    rw [hstatus] at hended
    cases hended
  · intro hall
    obtain ⟨k, hk, hrunning⟩ := hgranted
    have := hall k hk
    rw [hrunning] at this
    cases this
  · intro k' hk' hk'_pending
    obtain ⟨k, hk, -, hrunning | rfl⟩ := hrows k' hk'
    · rw [hrunning] at hk'_pending
      cases hk'_pending
    have hclear := h.pending_clear k' hk hk'_pending
    rw [← Bool.not_eq_true, Run.dependencyFailing_iff] at hclear ⊢
    rintro ⟨d, hd, hdk, u', hu', hud, hfailing⟩
    obtain ⟨u, hu, hname, hrunning | rfl⟩ := hrows u' hu'
    · rw [hrunning] at hfailing
      cases hfailing
    · exact hclear ⟨d, hchange.static.dependencies ▸ hd, hdk, u', hu, hud, hfailing⟩
  · intro hended
    rw [hstatus] at hended
    cases hended
  · grind [Run.grant_cancelRequestedAt]

theorem Run.Scheduled.cancelQueued (h : r.Scheduled)
    (hchange : Change s now call r (r.canceledRows now)) (hkey : (r.jobs.map Job.name).Nodup)
    (hqueued : r.status = .queued) :
    (r.canceledRows now).Scheduled ∧ (r.canceledRows now).Settled := by
  have hcanceled : ∀ k ∈ (r.canceledRows now).jobs, k.status = .canceled := by
    intro k' hk'
    obtain ⟨k, hk, rfl⟩ := Table.mem_updateWhere.1 hk'
    simp [h.queued_pending hqueued k hk]
  refine ⟨h.advance hchange.static (hchange.jobs hkey) ?_ ?_ (fun _ => rfl) ?_, ?_, ?_⟩
  · intro hq
    cases hq
  · grind
  · grind
  · intro _ k hk
    rw [hcanceled k hk]
    rfl
  · intro hactive
    cases hactive

theorem Run.cancelingRows_not_pending : ∀ k ∈ (r.cancelingRows now).jobs, k.status ≠ .pending := by
  intro k' hk' hpending
  obtain ⟨k, -, rfl⟩ := Table.mem_updateWhere.1 hk'
  split_ifs at hpending with hk
  · simp at hpending
  · exact hk (by simpa using hpending)

theorem Run.cancelingRows_jobs :
    List.Forall₂ (JobStep now r) r.jobs (r.cancelingRows now).jobs := by
  refine Table.forall₂_updateWhere fun k _ => ?_
  by_cases hk : k.status = .pending
  · rw [if_pos (by simpa using hk)]
    exact .drop hk (.inr rfl)
  · rw [if_neg (by simpa using hk)]
    exact .keep k

/-- **One operation keeps the invariants of a run.** -/
theorem Change.scheduled (hkey : (r.jobs.map Job.name).Nodup) (h : r.Scheduled)
    (hchange : Change s now call r r') : r'.Scheduled ∧ (r.Settled → r'.Settled) := by
  cases hchange with
  | grant runner lease mem claimable =>
    obtain ⟨hsched, hsettled⟩ :=
      h.grant (.grant (s := s) runner lease mem claimable) hkey mem claimable
    exact ⟨hsched, fun _ => hsettled⟩
  | @renew _ runner leases part target =>
    have hchange : Change s now (.heartbeatJobLeases runner leases) r
        (r.renewAll runner now part) := .renew r target
    obtain ⟨jobs, heq, hjobs⟩ := r.renewAll_spec runner now part
    rw [heq] at hchange ⊢
    refine h.quiet hchange.static (hchange.jobs hkey) (hjobs.imp fun j j' hj => ?_) rfl rfl
    rcases hj with rfl | ⟨-, -, -, -, rfl⟩ <;> exact ⟨rfl, rfl⟩
  | complete reportable _ ok => exact h.complete hkey reportable ok
  | expireLeases ok =>
    refine h.abortJobs (fun j _ hj => ?_) ok
    grind [Job.expired]
  | recover ok => grind [h.remote, h.abortJobs, Run.abandonLegacy, Run.recover]
  | cancelQueued target ok =>
    obtain ⟨hqueued, rfl⟩ := Run.cancelQueued_ok ok
    obtain ⟨hsched, hsettled⟩ := h.cancelQueued (.cancelQueued (s := s) target ok) hkey hqueued
    exact ⟨hsched, fun _ => hsettled⟩
  | requestCancel _ ok =>
    obtain ⟨hrunning, hfin⟩ := Run.requestCancel_ok ok
    obtain ⟨hsched, hsettled⟩ := h.finalize (r.cancelingRows_static now)
      Run.cancelingRows_jobs hrunning
      (fun k hk hpending => absurd hpending (Run.cancelingRows_not_pending k hk)) hfin
    exact ⟨hsched, fun _ => hsettled fun _ => Run.cancelingRows_not_pending⟩
  | @commitArtifacts _ _ owner items target ok =>
    have hchange : Change s now (.commitArtifacts owner items) r r' :=
      .commitArtifacts target ok
    obtain ⟨_, rfl⟩ := Run.commitArtifacts_frame ok
    exact h.quiet hchange.static (hchange.jobs hkey)
      (List.forall₂_same.2 fun _ _ => ⟨rfl, rfl⟩) rfl rfl
  | expireArtifacts =>
    have hchange : Change s now .expireArtifacts r (r.expireArtifacts now) := .expireArtifacts r
    exact h.quiet hchange.static (hchange.jobs hkey)
      (List.forall₂_same.2 fun _ _ => ⟨rfl, rfl⟩) rfl rfl

/-- A superseded run keeps the invariants of every run. -/
theorem Run.Scheduled.supersede (h : r.Scheduled) (hactive : r.status.terminal = false) :
    (r.supersede now).Scheduled := by
  have hjobs : List.Forall₂ (JobStep now r) r.jobs (r.supersede now).jobs :=
    List.forall₂_same.2 fun j _ => .keep j
  refine h.advance ⟨rfl, rfl, rfl, rfl, rfl, rfl, fun h => h⟩ hjobs ?_ ?_ ?_ h.pending_clear
  · grind [h.queued_pending, Run.supersede]
  · grind [h.queued_pending, Run.supersede, RunStatus.terminal]
  · intro hall
    rw [h.all_ended hall] at hactive
    cases hactive

/-- **Every reachable run is scheduled**, and settled when no trigger references
it. -/
theorem Reaches.scheduled {tr : List (Step Database Request)} {db : Database}
    (h : Reaches s tr db) (hok : ∀ st ∈ tr, st.act.Accepted) :
    ∀ r ∈ db.runs, r.Scheduled ∧ (db.Untriggered r → r.Settled) := by
  refine h.runs Run.Scheduled Run.Settled ?_ ?_ ?_ hok
  · intro q input snapshot hq hcreates _ _
    obtain ⟨cfg, hcfg⟩ := hq input hcreates
    exact ⟨hcfg.scheduled q.now snapshot, CreateRun.row_settled q.now input snapshot⟩
  · exact fun now call r r' hkey hr hchange => hchange.scheduled hkey hr
  · exact fun now r hr hactive => hr.supersede hactive

end Postgres
