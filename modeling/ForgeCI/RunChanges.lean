import ForgeCI.Transactions

/-!
# The changes a run goes through

Every operation of the store changes a run by a few statements.  This module
says once what each of them can do to the run row and to its job rows.
-/

namespace Postgres

/-- One change of a job row of the run `r` at time `now`. -/
inductive JobStep (now : Time) (r : Run) : Job → Job → Prop
  | keep (j : Job) : JobStep now r j j
  | grant {j : Job} {runner lease : Uuid} (pending : j.status = .pending)
      (ready : r.waiting j = false) : JobStep now r j (j.grant now runner lease)
  | renew {j : Job} {owner : Ownership} (holds : j.holdsLease owner now = true) :
      JobStep now r j (j.renew now)
  | finish {j : Job} {status : JobStatus} {message : Option String}
      (running : j.status = .running) (final : status.reportable = true ∨ status = .aborted) :
      JobStep now r j (j.finish status now message).releaseLease
  | drop {j : Job} {status : JobStatus} {message : Option String}
      (pending : j.status = .pending) (final : status = .blocked ∨ status = .canceled) :
      JobStep now r j (j.finish status now message)
  | abandon {j : Job} {message : Option String} (unfinished : j.status.unfinished = true)
      (legacy : r.runnerID.isSome = true) :
      JobStep now r j (j.finish .aborted now message)

@[simp] theorem Job.finish_name (status : JobStatus) (now : Time) (message : Option String)
    (j : Job) : (j.finish status now message).name = j.name := rfl

@[simp] theorem Job.finish_status (status : JobStatus) (now : Time) (message : Option String)
    (j : Job) : (j.finish status now message).status = status := rfl

@[simp] theorem Job.releaseLease_name (j : Job) : j.releaseLease.name = j.name := rfl

@[simp] theorem Job.releaseLease_status (j : Job) : j.releaseLease.status = j.status := rfl

@[simp] theorem Job.grant_name (now : Time) (runner lease : Uuid) (j : Job) :
    (j.grant now runner lease).name = j.name := rfl

@[simp] theorem Job.grant_status (now : Time) (runner lease : Uuid) (j : Job) :
    (j.grant now runner lease).status = .running := rfl

@[simp] theorem Job.renew_status (now : Time) (j : Job) :
    (j.renew now).status = j.status := rfl

variable {owner : Ownership}

/-- What a matching lease says about the row. -/
theorem Job.holdsLease_iff {now : Time} {j : Job} :
    j.holdsLease owner now = true ↔ ∃ runner lease expires,
      owner.runnerID = some runner ∧ owner.leaseID = some lease ∧
      j.runnerID = some runner ∧ j.leaseID = some lease ∧
      j.leaseGeneration = owner.generation ∧ j.status = .running ∧
      j.leaseExpiresAt = some expires ∧ now < expires := by
  simp only [holdsLease, Bool.and_eq_true, decide_eq_true_eq, Option.isSome_iff_exists,
    Option.any_eq_true]
  constructor
  · rintro ⟨⟨⟨⟨⟨⟨⟨runner, hr⟩, hjr⟩, lease, hl⟩, hjl⟩, hg⟩, hs⟩, expires, he, hlt⟩
    exact ⟨runner, lease, expires, hr, hl, hjr.trans hr, hjl.trans hl, hg, hs, he, hlt⟩
  · rintro ⟨runner, lease, expires, hr, hl, hjr, hjl, hg, hs, he, hlt⟩
    exact ⟨⟨⟨⟨⟨⟨⟨runner, hr⟩, hjr.trans hr.symm⟩, lease, hl⟩, hjl.trans hl.symm⟩, hg⟩, hs⟩,
      expires, he, hlt⟩

theorem Job.holdsLease_running {now : Time} {j : Job}
    (h : j.holdsLease owner now = true) : j.status = .running := by
  obtain ⟨-, -, -, -, -, -, -, -, hs, -⟩ := Job.holdsLease_iff.1 h
  exact hs

variable {now : Time} {s : Settings} {call : Call} {r r' : Run} {j j' : Job}

theorem JobStep.name_eq (h : JobStep now r j j') : j'.name = j.name := by
  cases h <;> rfl

/-- **A job that has ended is never touched again.** -/
theorem JobStep.finished (h : JobStep now r j j') (hj : j.status.unfinished = false) :
    j' = j := by
  cases h with
  | keep => rfl
  | grant pending => simp [pending, JobStatus.unfinished] at hj
  | renew holds => simp [Job.holdsLease_running holds, JobStatus.unfinished] at hj
  | finish running => simp [running, JobStatus.unfinished] at hj
  | drop pending => simp [pending, JobStatus.unfinished] at hj
  | abandon unfinished => simp [unfinished] at hj

/-- No job becomes pending. -/
theorem JobStep.pending (h : JobStep now r j j') (hj : j'.status = .pending) : j' = j := by
  cases h with
  | keep => rfl
  | grant => simp at hj
  | renew holds => simp [Job.holdsLease_running holds] at hj
  | finish _ final => grind [Job.releaseLease_status, Job.finish_status, JobStatus.reportable]
  | drop _ final => rcases final with rfl | rfl <;> simp at hj
  | abandon => simp at hj

/-- A leased job was ready when it was leased. -/
theorem JobStep.leased (h : JobStep now r j j') (hj : j'.leaseGeneration ≠ 0) :
    j.leaseGeneration ≠ 0 ∨ r.waiting j = false := by
  cases h with
  | grant _ ready => exact .inr ready
  | keep => exact .inl hj
  | renew => exact .inl hj
  | finish => exact .inl hj
  | drop => exact .inl hj
  | abandon => exact .inl hj

/-- The rows that an update of the jobs leaves alone. -/
def Run.withJobs (r : Run) (jobs : List Job) : Run := { r with jobs := jobs }

/-- A job row before and after `blockDependents`. -/
def Blocks (now : Time) (j j' : Job) : Prop :=
  j' = j ∨ (j.status = .pending ∧
    j' = j.finish .blocked now (some "upstream dependency did not pass"))

theorem Blocks.trans {a b c : Job} (h : Blocks now a b) (h' : Blocks now b c) :
    Blocks now a c := by
  rcases h with rfl | ⟨ha, rfl⟩
  · exact h'
  · rcases h' with rfl | ⟨hb, -⟩
    · exact .inr ⟨ha, rfl⟩
    · simp at hb

theorem Blocks.jobStep (h : Blocks now j j') : JobStep now r j j' := by
  rcases h with rfl | ⟨hj, rfl⟩
  · exact .keep _
  · exact .drop hj (.inl rfl)

theorem Blocks.name_eq (h : Blocks now j j') : j'.name = j.name := by
  rcases h with rfl | ⟨-, rfl⟩ <;> rfl

theorem Run.blockOnce_jobs : List.Forall₂ (Blocks now) r.jobs (r.blockOnce now).jobs := by
  refine Table.forall₂_updateWhere fun j _ => ?_
  grind [blockable, Blocks]

theorem Run.blockLoop_frame (now : Time) (r : Run) (fuel : Nat) :
    ∃ jobs, r.blockLoop now fuel = r.withJobs jobs ∧
      List.Forall₂ (Blocks now) r.jobs jobs := by
  induction fuel generalizing r with
  | zero => exact ⟨r.jobs, rfl, List.forall₂_same.2 fun j _ => .inl rfl⟩
  | succ fuel ih =>
    rw [blockLoop]
    split_ifs with hany
    · obtain ⟨jobs, heq, hjobs⟩ := ih (r.blockOnce now)
      exact ⟨jobs, heq, Table.forall₂_trans (T := Blocks now)
        (fun _ _ _ h h' => h.trans h')
        r.blockOnce_jobs hjobs⟩
    · exact ⟨r.jobs, rfl, List.forall₂_same.2 fun j _ => .inl rfl⟩

/-- An iteration that affects a row leaves fewer pending jobs. -/
theorem Run.countP_pending_blockOnce (now : Time) (h : r.jobs.any r.blockable = true) :
    (r.blockOnce now).jobs.countP (·.status = .pending) <
      r.jobs.countP (·.status = .pending) := by
  obtain ⟨j, hj, hblock⟩ := List.any_eq_true.1 h
  refine Table.countP_updateWhere_lt (fun k _ => by simp) ⟨j, hj, hblock, ?_⟩
  grind [blockable]

theorem Run.blockLoop_closed (now : Time) {fuel : Nat}
    (hfuel : r.jobs.countP (·.status = .pending) < fuel) :
    (r.blockLoop now fuel).jobs.any (r.blockLoop now fuel).blockable = false := by
  induction fuel generalizing r with
  | zero => omega
  | succ fuel ih =>
    rw [blockLoop]
    split_ifs with hany
    · refine ih ?_
      have := Run.countP_pending_blockOnce now hany
      omega
    · simpa using hany

theorem Run.dependencyFailing_iff {r : Run} {j : Job} :
    r.dependencyFailing j = true ↔ ∃ d ∈ r.dependencies, d.jobName = j.name ∧
      ∃ u ∈ r.jobs, u.name = d.dependsOn ∧ u.status.failing = true := by
  simp [dependencyFailing]

theorem Run.waiting_iff {r : Run} {j : Job} :
    r.waiting j = true ↔ ∃ d ∈ r.dependencies, d.jobName = j.name ∧
      ∃ u ∈ r.jobs, u.name = d.dependsOn ∧ u.status ≠ .passed := by
  simp [waiting]

/-- **`blockDependents`** touches pending jobs only, each at most once, and ends
when no pending job has a failing dependency. -/
theorem Run.blockDependents_spec (now : Time) (r : Run) :
    ∃ jobs, r.blockDependents now = r.withJobs jobs ∧
      List.Forall₂ (Blocks now) r.jobs jobs ∧
      ∀ j ∈ jobs, j.status = .pending → (r.withJobs jobs).dependencyFailing j = false := by
  obtain ⟨jobs, heq, hjobs⟩ :=
    r.blockLoop_frame now (r.jobs.countP (·.status = .pending) + 1)
  refine ⟨jobs, heq, hjobs, fun j hj hpending => ?_⟩
  have hclosed := Run.blockLoop_closed (r := r) now
    (Nat.lt_succ_self (r.jobs.countP (·.status = .pending)))
  rw [Nat.succ_eq_add_one, heq] at hclosed
  have hnot := List.any_eq_false.1 hclosed j hj
  simpa [blockable, hpending] using hnot

theorem Run.finalStatus_terminal (r : Run) : r.finalStatus.terminal = true := by
  unfold finalStatus
  split_ifs <;> rfl

/-- The run row a finished run gets. -/
def Run.finalized (s : Settings) (now : Time) (r : Run) : Run :=
  (r.finishAs r.finalStatus now).stampArtifacts s.artifactRetention

/-- **`finalizeRun`** leaves the run alone while a job is unfinished or when it
has ended already, and otherwise ends it. -/
theorem Run.finalizeRun_ok (h : r.finalizeRun s now = .ok r') :
    (r' = r ∧ ((∃ j ∈ r.jobs, j.status.unfinished = true) ∨ r.status.terminal = true)) ∨
      ((∀ j ∈ r.jobs, j.status.unfinished = false) ∧ r.status.terminal = false ∧
        r.jobs ≠ [] ∧ r' = r.finalized s now) := by
  unfold finalizeRun at h
  split_ifs at h with hany hnil hterm
  · exact .inl ⟨(Except.ok.inj h).symm, .inl (List.any_eq_true.1 hany)⟩
  · exact .inl ⟨(Except.ok.inj h).symm, .inr hterm⟩
  · refine .inr ⟨fun j hj => ?_, by simpa using hterm, hnil, (Except.ok.inj h).symm⟩
    simpa using List.any_eq_false.1 (by simpa using hany) j hj

theorem Run.finalizeRun_of_done (hdone : ∀ j ∈ r.jobs, j.status.unfinished = false)
    (hne : r.jobs ≠ []) (hactive : r.status.terminal = false) :
    r.finalizeRun s now = .ok (r.finalized s now) := by
  grind [finalizeRun, finalized]

@[simp] theorem Run.finalized_status (s : Settings) (now : Time) (r : Run) :
    (r.finalized s now).status = r.finalStatus := rfl

theorem Run.finalizeRun_jobs (h : r.finalizeRun s now = .ok r') : r'.jobs = r.jobs := by
  rcases Run.finalizeRun_ok h with ⟨rfl, -⟩ | ⟨-, -, -, rfl⟩ <;> rfl

/-- A job-row change followed by `blockDependents` is a job-row change. -/
theorem JobStep.blocks {k : Job} (h : JobStep now r j k) (hk : Blocks now k j') :
    JobStep now r j j' := by
  rcases hk with rfl | ⟨hpending, rfl⟩
  · exact h
  · obtain rfl := h.pending hpending
    exact .drop hpending (.inl rfl)

variable {status : JobStatus}

/-- `CompleteJob` succeeds for the holder of the lease, through the artifact
gate. -/
theorem Run.complete_ok {message : Option String}
    (h : r.complete s owner status now message = .ok r') :
    ∃ j, r.job? owner.jobName = some j ∧ j.holdsLease owner now = true ∧
      r.passGate s owner.jobName status = .ok () ∧
      (r.completedRows owner.jobName status now message).finalizeRun s now = .ok r' := by
  unfold complete at h
  cases hj : r.job? owner.jobName with
  | none => simp [hj] at h
  | some j =>
    simp only [hj] at h
    split at h
    · cases h
    · rename_i hholds
      cases hgate : r.passGate s owner.jobName status with
      | error e => simp [hgate] at h
      | ok u =>
        rw [hgate] at h
        exact ⟨j, rfl, by simpa using hholds, rfl, h⟩

variable {p : Job → Bool}

/-- Aborting jobs does nothing, or aborts some job and settles the run. -/
theorem Run.abortJobs_ok {message : String} (h : r.abortJobs s p now message = .ok r') :
    ((∀ j ∈ r.jobs, p j = false) ∧ r' = r) ∨
      ((∃ j ∈ r.jobs, p j = true) ∧ ((r.updateJobs p fun j =>
        (j.finish .aborted now (some message)).releaseLease).blockDependents now).finalizeRun
          s now = .ok r') := by
  unfold abortJobs at h
  split_ifs at h with hany
  · exact .inr ⟨List.any_eq_true.1 hany, h⟩
  · refine .inl ⟨fun j hj => ?_, (Except.ok.inj h).symm⟩
    simpa using List.any_eq_false.1 (by simpa using hany) j hj

/-- The same, with the jobs the settling run is left with. -/
theorem Run.abortJobs_spec {message : String} (h : r.abortJobs s p now message = .ok r') :
    r' = r ∨ (∃ j ∈ r.jobs, p j = true) ∧ ∃ jobs,
      List.Forall₂ (Blocks now) (r.updateJobs p fun j =>
        (j.finish .aborted now (some message)).releaseLease).jobs jobs ∧
      (r.withJobs jobs).finalizeRun s now = .ok r' := by
  rcases Run.abortJobs_ok h with ⟨-, rfl⟩ | ⟨hsome, hfin⟩
  · exact .inl rfl
  · obtain ⟨jobs, heq, hblocks, -⟩ := Run.blockDependents_spec now (r.updateJobs p fun j =>
      (j.finish .aborted now (some message)).releaseLease)
    rw [heq] at hfin
    exact .inr ⟨hsome, jobs, hblocks, hfin⟩

theorem Run.cancelQueued_ok (h : r.cancelQueued now = .ok r') :
    r.status = .queued ∧ r' = r.canceledRows now := by
  unfold cancelQueued at h
  split_ifs at h with hstatus
  exact ⟨hstatus, (Except.ok.inj h).symm⟩

theorem Run.requestCancel_ok (h : r.requestCancel s now = .ok r') :
    r.status = .running ∧ (r.cancelingRows now).finalizeRun s now = .ok r' := by
  unfold requestCancel at h
  split_ifs at h with hstatus
  exact ⟨hstatus, h⟩

theorem Run.finishJob_jobs (message : Option String) (hkey : (r.jobs.map Job.name).Nodup)
    (hj : r.job? owner.jobName = some j) (hholds : j.holdsLease owner now = true)
    (hstatus : status.reportable = true) :
    List.Forall₂ (JobStep now r) r.jobs
      (r.finishJob owner.jobName status now message).jobs := by
  refine Table.forall₂_updateWhere fun k hk => ?_
  by_cases hname : k.name = owner.jobName
  · obtain rfl : k = j := Option.some.inj
      (((Table.row?_eq_some_iff hkey).2 ⟨hk, hname⟩).symm.trans hj)
    rw [if_pos (by simpa using hname)]
    exact .finish (Job.holdsLease_running hholds) (.inl hstatus)
  · rw [if_neg (by simpa using hname)]
    exact .keep k

theorem Run.abort_jobs (message : String) (hp : ∀ j ∈ r.jobs, p j = true → j.status = .running) :
    List.Forall₂ (JobStep now r) r.jobs (r.updateJobs p fun j =>
      (j.finish .aborted now (some message)).releaseLease).jobs := by
  refine Table.forall₂_updateWhere fun j hj => ?_
  by_cases hpj : p j = true
  · rw [if_pos hpj]
    exact .finish (hp j hj hpj) (.inr rfl)
  · rw [if_neg hpj]
    exact .keep j

/-- A heartbeat keeps everything but the expiry of the leases it renews. -/
theorem Run.renewAll_spec (runner : Uuid) (now : Time) (part : List LeaseHeartbeat) (r : Run) :
    ∃ jobs, r.renewAll runner now part = r.withJobs jobs ∧
      List.Forall₂ (fun j j' => j' = j ∨ ∃ l ∈ part, l.jobName = j.name ∧
        j.holdsLease (l.owner runner) now = true ∧ j' = j.renew now) r.jobs jobs := by
  induction part generalizing r with
  | nil => exact ⟨r.jobs, rfl, List.forall₂_same.2 fun j _ => .inl rfl⟩
  | cons l rest ih =>
    obtain ⟨jobs, heq, hjobs⟩ := ih (r.renew (l.owner runner) now)
    have hfirst : List.Forall₂ (fun j j' => j' = j ∨ (l.jobName = j.name ∧
        j.holdsLease (l.owner runner) now = true ∧ j' = j.renew now))
        r.jobs (r.renew (l.owner runner) now).jobs := by
      refine Table.forall₂_updateWhere fun j _ => ?_
      split_ifs with hj
      · simp only [Bool.and_eq_true, decide_eq_true_eq] at hj
        exact .inr ⟨hj.1.symm, hj.2, rfl⟩
      · exact .inl rfl
    refine ⟨jobs, heq, Table.forall₂_trans ?_ hfirst hjobs⟩
    rintro a b c (rfl | ⟨hname, hholds, rfl⟩) hbc
    · grind
    · rcases hbc with rfl | ⟨-, -, -, -, rfl⟩
      · exact .inr ⟨l, List.mem_cons_self, hname, hholds, rfl⟩
      · exact .inr ⟨l, List.mem_cons_self, hname, hholds, rfl⟩

/-- What a call does to one run at time `now`, supersession apart. -/
inductive Change (s : Settings) (now : Time) : Call → Run → Run → Prop
  | grant {r : Run} {j : Job} {docker : Bool} (runner lease : Uuid) (mem : j ∈ r.jobs)
      (claimable : r.claimable docker j = true) :
      Change s now (.leaseJob runner lease) r (r.grant now runner lease j.name)
  | renew (r : Run) {runner : Uuid} {leases part : List LeaseHeartbeat}
      (target : ∀ l ∈ part, l ∈ leases ∧ l.runID = r.id) :
      Change s now (.heartbeatJobLeases runner leases) r (r.renewAll runner now part)
  | complete {r r' : Run} {owner : Ownership} {status : JobStatus} {message : Option String}
      (reportable : status.reportable = true) (target : owner.runID = r.id)
      (ok : r.complete s owner status now message = .ok r') :
      Change s now (.completeJob owner status message) r r'
  | expireLeases {r r' : Run} (ok : r.expireLeases s now = .ok r') :
      Change s now .expireJobLeases r r'
  | recover {r r' : Run} (ok : r.recover s now = .ok r') : Change s now .recoverRemoteJobs r r'
  | cancelQueued {r r' : Run} {id : Uuid} (target : id = r.id)
      (ok : r.cancelQueued now = .ok r') : Change s now (.cancelQueued id) r r'
  | requestCancel {r r' : Run} {id : Uuid} (target : id = r.id)
      (ok : r.requestCancel s now = .ok r') : Change s now (.requestCancel id) r r'
  | commitArtifacts {r r' : Run} {owner : Ownership} {items : List Artifact}
      (target : owner.runID = r.id) (ok : r.commitArtifacts owner items now = .ok r') :
      Change s now (.commitArtifacts owner items) r r'
  | expireArtifacts (r : Run) : Change s now .expireArtifacts r (r.expireArtifacts now)

/-- The columns of a run that no operation of the job scheduler writes. -/
structure Run.SameStatic (r r' : Run) : Prop where
  id : r'.id = r.id
  pipelineYAML : r'.pipelineYAML = r.pipelineYAML
  maxParallel : r'.maxParallel = r.maxParallel
  sourceSnapshotSHA256 : r'.sourceSnapshotSHA256 = r.sourceSnapshotSHA256
  createdAt : r'.createdAt = r.createdAt
  dependencies : r'.dependencies = r.dependencies
  /-- No operation leases a run as a whole. -/
  runnerID : r.runnerID = none → r'.runnerID = none

theorem Run.SameStatic.refl (r : Run) : r.SameStatic r :=
  ⟨rfl, rfl, rfl, rfl, rfl, rfl, fun h => h⟩

theorem Run.SameStatic.trans {r₁ r₂ r₃ : Run} (h : r₁.SameStatic r₂)
    (h' : r₂.SameStatic r₃) : r₁.SameStatic r₃ :=
  ⟨h'.id.trans h.id, h'.pipelineYAML.trans h.pipelineYAML,
    h'.maxParallel.trans h.maxParallel,
    h'.sourceSnapshotSHA256.trans h.sourceSnapshotSHA256,
    h'.createdAt.trans h.createdAt, h'.dependencies.trans h.dependencies,
    fun hr => h'.runnerID (h.runnerID hr)⟩

theorem Run.updateJobs_static (p : Job → Bool) (f : Job → Job) (r : Run) :
    r.SameStatic (r.updateJobs p f) :=
  ⟨rfl, rfl, rfl, rfl, rfl, rfl, fun h => h⟩

theorem Run.cancelingRows_static (now : Time) (r : Run) : r.SameStatic (r.cancelingRows now) :=
  ⟨rfl, rfl, rfl, rfl, rfl, rfl, fun h => h⟩

theorem Run.finalizeRun_static (h : r.finalizeRun s now = .ok r') : r.SameStatic r' := by
  rcases Run.finalizeRun_ok h with ⟨rfl, -⟩ | ⟨-, -, -, rfl⟩
  · exact .refl _
  · exact ⟨rfl, rfl, rfl, rfl, rfl, rfl, fun h => h⟩

theorem Run.blockDependents_static (now : Time) (r : Run) :
    r.SameStatic (r.blockDependents now) := by
  obtain ⟨jobs, heq, -⟩ := r.blockDependents_spec now
  rw [heq]
  exact ⟨rfl, rfl, rfl, rfl, rfl, rfl, fun h => h⟩

theorem Run.abortJobs_static {message : String}
    (h : r.abortJobs s p now message = .ok r') : r.SameStatic r' := by
  rcases Run.abortJobs_ok h with ⟨-, rfl⟩ | ⟨-, hfin⟩
  · exact .refl _
  · exact ((r.updateJobs_static _ _).trans (Run.blockDependents_static now _)).trans
      (Run.finalizeRun_static hfin)

theorem Run.abandonLegacy_static : r.SameStatic (r.abandonLegacy s now) := by
  unfold abandonLegacy
  split_ifs
  · exact ⟨rfl, rfl, rfl, rfl, rfl, rfl, fun _ => rfl⟩
  · exact .refl r

/-- Completing a job writes job rows only. -/
theorem Run.completedRows_eq (name : String) (status : JobStatus) (now : Time)
    (message : Option String) (r : Run) :
    ∃ jobs, r.completedRows name status now message = r.withJobs jobs ∧
      List.Forall₂ (Blocks now) (r.finishJob name status now message).jobs jobs := by
  unfold completedRows
  split_ifs
  · exact ⟨_, rfl, List.forall₂_same.2 fun j _ => .inl rfl⟩
  · obtain ⟨jobs, heq, hblocks, -⟩ :=
      Run.blockDependents_spec now (r.finishJob name status now message)
    exact ⟨jobs, heq, hblocks⟩

theorem Run.complete_spec {message : Option String}
    (h : r.complete s owner status now message = .ok r') :
    ∃ jobs, List.Forall₂ (Blocks now) (r.finishJob owner.jobName status now message).jobs jobs ∧
      (r.withJobs jobs).finalizeRun s now = .ok r' := by
  obtain ⟨-, -, -, -, hfin⟩ := Run.complete_ok h
  obtain ⟨jobs, heq, hblocks⟩ := r.completedRows_eq owner.jobName status now message
  exact ⟨jobs, hblocks, heq ▸ hfin⟩

theorem Run.withJobs_static (r : Run) (jobs : List Job) : r.SameStatic (r.withJobs jobs) :=
  ⟨rfl, rfl, rfl, rfl, rfl, rfl, fun h => h⟩

theorem Run.completedRows_static (name : String) (status : JobStatus) (now : Time)
    (message : Option String) (r : Run) :
    r.SameStatic (r.completedRows name status now message) := by
  obtain ⟨jobs, heq, -⟩ := r.completedRows_eq name status now message
  rw [heq]
  exact r.withJobs_static jobs

/-- Completing a job ends it, and blocks pending jobs. -/
theorem Run.completedRows_jobs (message : Option String) (hkey : (r.jobs.map Job.name).Nodup)
    (hj : r.job? owner.jobName = some j) (hholds : j.holdsLease owner now = true)
    (hstatus : status.reportable = true) :
    List.Forall₂ (JobStep now r) r.jobs
      (r.completedRows owner.jobName status now message).jobs := by
  obtain ⟨jobs, heq, hblocks⟩ := r.completedRows_eq owner.jobName status now message
  rw [heq]
  exact Table.forall₂_trans (fun _ _ _ h h' => h.blocks h')
    (Run.finishJob_jobs message hkey hj hholds hstatus) hblocks

/-- A job that is not blocked after the statements of `CompleteJob` is the
completed one, or is as it was. -/
theorem Run.completedRows_unblocked {name : String}
    {message : Option String} (hmem : j' ∈ (r.completedRows name status now message).jobs)
    (hfree : j'.status ≠ .blocked) :
    ∃ j ∈ r.jobs, (j.name = name ∧ j' = (j.finish status now message).releaseLease) ∨
      (j.name ≠ name ∧ j' = j) := by
  obtain ⟨jobs, heq, hblocks⟩ := r.completedRows_eq name status now message
  rw [heq] at hmem
  obtain ⟨k, hk, rfl | ⟨-, rfl⟩⟩ := Table.exists_old hblocks hmem
  · obtain ⟨j, hj, rfl⟩ := Table.mem_updateWhere.1 hk
    grind
  · simp at hfree

/-- What a successful `CommitArtifacts` wrote: nothing, or the rows of a job
that had none. -/
theorem Run.commitArtifacts_ok {items : List Artifact}
    (h : r.commitArtifacts owner items now = .ok r') :
    r.status = .running ∧ ∃ j cfg job, r.job? owner.jobName = some j ∧
      j.status = .running ∧
      (owner.runnerID = none ∨ j.leaseMatches owner now = some true) ∧
      parseBytes r.pipelineYAML = .ok cfg ∧ cfg.job? owner.jobName = some job ∧
      items.length = job.artifacts.upload.length ∧
      checkItems owner (job.artifacts.upload.map fun u => (u.name, GoLib.base u.path))
        [] items = true ∧
      ((r.artifacts.filter (·.producerJob = owner.jobName) = [] ∧
          r' = { r with artifacts := r.artifacts ++ items.map (Artifact.stored owner) }) ∨
        (sameArtifactSet (r.artifacts.filter (·.producerJob = owner.jobName)) items = true ∧
          r' = r)) := by
  unfold commitArtifacts at h
  split at h
  · cases h
  rename_i hstatus
  split at h
  · cases h
  rename_i j hj
  split at h
  · cases h
  rename_i valid hvalid
  split at h
  · cases h
  rename_i hrunning
  split at h
  · cases h
  rename_i cfg hcfg
  split at h
  · cases h
  rename_i job hjob
  simp only at h
  split at h
  · cases h
  rename_i hitems
  simp only [ne_eq, not_or, Bool.not_eq_false, Decidable.not_not] at hstatus hrunning hitems
  refine ⟨hstatus, j, cfg, job, hj, hrunning.2, ?_, hcfg, hjob,
    by simpa using hitems.1, hitems.2, ?_⟩
  · by_cases hrunner : owner.runnerID = none
    · exact .inl hrunner
    · grind
  · split_ifs at h with hnil hsame
    · exact .inl ⟨hnil, (Except.ok.inj h).symm⟩
    · exact .inr ⟨hsame, (Except.ok.inj h).symm⟩

/-- A commit touches artifact rows only. -/
theorem Run.commitArtifacts_frame {items : List Artifact}
    (h : r.commitArtifacts owner items now = .ok r') : ∃ artifacts, r' = { r with artifacts } := by
  obtain ⟨-, -, -, -, -, -, -, -, -, -, -, ⟨-, rfl⟩ | ⟨-, rfl⟩⟩ := Run.commitArtifacts_ok h
  · exact ⟨_, rfl⟩
  · exact ⟨r'.artifacts, rfl⟩

/-- No operation writes the static columns. -/
theorem Change.static (h : Change s now call r r') : r.SameStatic r' := by
  cases h with
  | grant runner lease =>
    unfold Run.grant Run.start
    split_ifs <;> exact ⟨rfl, rfl, rfl, rfl, rfl, rfl, fun h => h⟩
  | @renew _ runner _ part =>
    obtain ⟨jobs, heq, -⟩ := r.renewAll_spec runner now part
    rw [heq]
    exact ⟨rfl, rfl, rfl, rfl, rfl, rfl, fun h => h⟩
  | complete _ _ ok =>
    obtain ⟨-, -, -, -, hfin⟩ := Run.complete_ok ok
    exact (Run.completedRows_static _ _ _ _ r).trans (Run.finalizeRun_static hfin)
  | expireLeases ok => exact Run.abortJobs_static ok
  | recover ok => exact Run.abandonLegacy_static.trans (Run.abortJobs_static ok)
  | cancelQueued _ ok =>
    obtain ⟨-, rfl⟩ := Run.cancelQueued_ok ok
    exact ⟨rfl, rfl, rfl, rfl, rfl, rfl, fun h => h⟩
  | requestCancel _ ok =>
    exact (r.cancelingRows_static now).trans
      (Run.finalizeRun_static (Run.requestCancel_ok ok).2)
  | commitArtifacts _ ok =>
    obtain ⟨_, rfl⟩ := Run.commitArtifacts_frame ok
    exact ⟨rfl, rfl, rfl, rfl, rfl, rfl, fun h => h⟩
  | expireArtifacts => exact ⟨rfl, rfl, rfl, rfl, rfl, rfl, fun h => h⟩

theorem Run.abortJobs_jobs {message : String} (hp : ∀ j ∈ r.jobs, p j = true → j.status = .running)
    (h : r.abortJobs s p now message = .ok r') :
    List.Forall₂ (JobStep now r) r.jobs r'.jobs := by
  rcases Run.abortJobs_spec h with rfl | ⟨-, jobs, hblocks, hfin⟩
  · exact List.forall₂_same.2 fun j _ => .keep j
  · rw [Run.finalizeRun_jobs hfin]
    exact Table.forall₂_trans (fun _ _ _ h h' => h.blocks h') (Run.abort_jobs message hp) hblocks

theorem Run.waiting_congr {k : Job} (h : k.name = j.name) : r.waiting k = r.waiting j := by
  simp only [waiting, h]

theorem Run.start_jobs (now : Time) (r : Run) : (r.start now).jobs = r.jobs := by
  unfold start
  split_ifs <;> rfl

theorem Run.grant_jobs {runner lease : Uuid} {name : String} :
    (r.grant now runner lease name).jobs = Table.updateWhere
      (fun j => j.name = name && j.status = .pending) (Job.grant now runner lease) r.jobs := by
  rw [grant, start_jobs]
  rfl

theorem Run.grant_cancelRequestedAt {runner lease : Uuid} {name : String} :
    (r.grant now runner lease name).cancelRequestedAt = r.cancelRequestedAt := by
  unfold grant start
  split_ifs <;> rfl

theorem Run.claimable_iff {docker : Bool} :
    r.claimable docker j = true ↔ r.status.terminal = false ∧ r.cancelRequestedAt = none ∧
      j.status = .pending ∧ (docker = true ∨ j.image = none) ∧ r.waiting j = false ∧
      r.jobs.countP (·.status = .running) < r.maxParallel := by
  simp only [claimable, Bool.and_eq_true, Bool.or_eq_true, decide_eq_true_eq,
    Option.isNone_iff_eq_none, Bool.not_eq_true', RunStatus.terminal_eq_false_iff]
  tauto

/-- **What an operation does to the job rows of a run.** -/
theorem Change.jobs (hkey : (r.jobs.map Job.name).Nodup) (h : Change s now call r r') :
    List.Forall₂ (JobStep now r) r.jobs r'.jobs := by
  cases h with
  | @grant _ j docker runner lease mem claimable =>
    rw [Run.grant, Run.start_jobs]
    refine Table.forall₂_updateWhere fun k _ => ?_
    by_cases hk : k.name = j.name ∧ k.status = .pending
    · rw [if_pos (by simpa using hk)]
      refine .grant hk.2 ?_
      rw [Run.waiting_congr hk.1]
      exact (Run.claimable_iff.1 claimable).2.2.2.2.1
    · rw [if_neg (by simpa using hk)]
      exact .keep k
  | @renew _ runner _ part =>
    obtain ⟨jobs, heq, hjobs⟩ := r.renewAll_spec runner now part
    rw [heq]
    refine hjobs.imp fun j j' hj => ?_
    rcases hj with rfl | ⟨l, -, -, hholds, rfl⟩
    · exact .keep _
    · exact .renew hholds
  | @complete _ _ owner status message reportable _ ok =>
    grind [Run.complete_ok, Run.finalizeRun_jobs, Run.completedRows_jobs]
  | expireLeases ok =>
    refine Run.abortJobs_jobs (fun j _ hj => ?_) ok
    grind [Job.expired]
  | recover ok =>
    unfold Run.recover Run.abandonLegacy at ok
    split_ifs at ok with hlegacy
    · have hnone : ∀ k ∈ (Table.updateWhere (fun j : Job => j.status.unfinished)
          (Job.finish .aborted now (some "legacy run lease ownership lost")) r.jobs),
          decide (k.status = .running) = false := by
        intro k hk
        obtain ⟨j, -, rfl⟩ := Table.mem_updateWhere.1 hk
        cases hj : j.status <;> simp [hj, JobStatus.unfinished]
      rcases Run.abortJobs_ok ok with ⟨-, rfl⟩ | ⟨⟨k, hk, hrunning⟩, -⟩
      · refine Table.forall₂_updateWhere fun j _ => ?_
        by_cases hj : j.status.unfinished = true
        · rw [if_pos hj]
          exact .abandon hj hlegacy.2
        · rw [if_neg hj]
          exact .keep j
      · simp [hnone k hk] at hrunning
    · exact Run.abortJobs_jobs (fun j _ hj => by simpa using hj) ok
  | cancelQueued _ ok =>
    obtain ⟨-, rfl⟩ := Run.cancelQueued_ok ok
    refine Table.forall₂_updateWhere fun j _ => ?_
    by_cases hj : j.status = .pending
    · rw [if_pos (by simpa using hj)]
      exact .drop hj (.inr rfl)
    · rw [if_neg (by simpa using hj)]
      exact .keep j
  | requestCancel _ ok =>
    rw [Run.finalizeRun_jobs (Run.requestCancel_ok ok).2]
    refine Table.forall₂_updateWhere fun j _ => ?_
    by_cases hj : j.status = .pending
    · rw [if_pos (by simpa using hj)]
      exact .drop hj (.inr rfl)
    · rw [if_neg (by simpa using hj)]
      exact .keep j
  | commitArtifacts _ ok =>
    obtain ⟨_, rfl⟩ := Run.commitArtifacts_frame ok
    exact List.forall₂_same.2 fun j _ => .keep j
  | expireArtifacts => exact List.forall₂_same.2 fun j _ => .keep j

end Postgres
