import ForgeCI.RunInvariants

/-!
# Transactions that commit

A transaction takes effect only when its rows satisfy the constraints.  The
job state machine keeps the constraints of the job rows
(`JobStep.leaseConsistent`), so grants and completions that succeed do commit.
-/

namespace Postgres

variable {s : Settings} {now : Time} {t t' : Rows} {r r' : Run} {j j' : Job}

/-- The state machine keeps the lease columns consistent with the status. -/
theorem JobStep.leaseConsistent (hremote : r.runnerID = none) (h : JobStep now r j j')
    (hj : j.leaseConsistent = true) : j'.leaseConsistent = true := by
  cases h with
  | keep => exact hj
  | grant => simp [Job.leaseConsistent, Job.grant]
  | renew holds =>
    obtain ⟨runner, lease, expires, -, -, hr, hl, -, hs, he, -⟩ := Job.holdsLease_iff.1 holds
    simpa [Job.leaseConsistent, Job.renew, hr, hl, hs, he] using hj
  | finish running final =>
    rcases final with hf | rfl
    · have hne : ∀ status : JobStatus, status.reportable = true → status ≠ .running := by
        rintro status hstatus rfl
        cases hstatus
      simp [Job.leaseConsistent, Job.releaseLease, Job.finish, hne _ hf]
    · simp [Job.leaseConsistent, Job.releaseLease, Job.finish]
  | drop pending final => grind [Job.leaseConsistent, Job.finish]
  | abandon _ legacy => simp [hremote] at legacy

/-- Job-row changes keep the constraints of a run whose artifact rows keep
theirs. -/
theorem Run.Constraints.of_steps (h : r.Constraints) (hremote : r.runnerID = none)
    (hstatic : r.SameStatic r') (hlease : r'.leaseConsistent = r.leaseConsistent)
    (hjobs : List.Forall₂ (JobStep now r) r.jobs r'.jobs)
    (hkey : (r'.artifacts.map fun a => (a.producerJob, a.name)) =
      r.artifacts.map fun a => (a.producerJob, a.name))
    (hchecked : ∀ a ∈ r'.artifacts, a.checked = true) : r'.Constraints := by
  have hnames : r'.jobs.map Job.name = r.jobs.map Job.name :=
    Table.map_eq_of_forall₂ hjobs fun _ _ hstep => hstep.name_eq
  refine ⟨?_, hlease.trans h.lease, ?_, ?_, ?_, ?_, ?_, ?_, hchecked⟩
  · rw [hstatic.maxParallel]
    exact h.max_parallel
  · rw [hnames]
    exact h.jobs_key
  · intro k' hk'
    obtain ⟨k, hk, hstep⟩ := Table.exists_old hjobs hk'
    exact hstep.leaseConsistent hremote (h.jobs_lease k hk)
  · rw [hstatic.dependencies]
    exact h.dependencies_key
  · rw [hstatic.dependencies, hnames]
    exact h.dependencies_jobs
  · rw [hkey]
    exact h.artifacts_key
  · intro a ha
    have hmem := List.mem_map_of_mem (f := fun a : Artifact => (a.producerJob, a.name)) ha
    grind [h.artifacts_jobs]

/-- Ending a run keeps the artifact rows and the run's own lease columns. -/
theorem Run.finalizeRun_artifacts (h : r.finalizeRun s now = .ok r') :
    r'.leaseConsistent = r.leaseConsistent ∧
      ((r'.artifacts.map fun a => (a.producerJob, a.name)) =
        r.artifacts.map fun a => (a.producerJob, a.name)) ∧
      ((∀ a ∈ r.artifacts, a.checked = true) → ∀ a ∈ r'.artifacts, a.checked = true) := by
  rcases Run.finalizeRun_ok h with ⟨rfl, -⟩ | ⟨-, -, -, rfl⟩
  · exact ⟨rfl, rfl, fun h => h⟩
  · refine ⟨rfl, Table.map_updateWhere fun _ _ => rfl, fun hchecked a' ha' => ?_⟩
    obtain ⟨a, ha, rfl⟩ := Table.mem_updateWhere.1 ha'
    have hold := hchecked a ha
    split_ifs
    · simp only [Artifact.checked, Run.finishAs, Bool.and_eq_true, Bool.or_eq_true] at hold ⊢
      exact ⟨hold.1, .inr rfl⟩
    · exact hold

/-- **A successful completion satisfies the constraints**, and keeps which
runner each job was leased to. -/
theorem Run.Constraints.complete {owner : Ownership} {status : JobStatus}
    {message : Option String} (h : r.Constraints) (hremote : r.runnerID = none)
    (hstatus : status.reportable = true) (htarget : owner.runID = r.id)
    (hok : r.complete s owner status now message = .ok r') :
    r'.Constraints ∧ r'.jobs.map Job.runnerID = r.jobs.map Job.runnerID := by
  have hchange : Change s now (.completeJob owner status message) r r' :=
    .complete hstatus htarget hok
  obtain ⟨jobs, hblocks, hfin⟩ := Run.complete_spec hok
  obtain ⟨hlease, hkey, hchecked⟩ := Run.finalizeRun_artifacts hfin
  refine ⟨h.of_steps hremote hchange.static hlease (hchange.jobs h.jobs_key) hkey
    (hchecked h.artifacts_checked), ?_⟩
  rw [Run.finalizeRun_jobs hfin]
  calc jobs.map Job.runnerID
      = (r.finishJob owner.jobName status now message).jobs.map Job.runnerID := by
        refine Table.map_eq_of_forall₂ hblocks fun j j' hj => ?_
        rcases hj with rfl | ⟨-, rfl⟩ <;> rfl
    _ = r.jobs.map Job.runnerID := Table.map_updateWhere fun _ _ => rfl

theorem Run.grant_frame (now : Time) (runner lease : Uuid) (name : String) (r : Run) :
    (r.grant now runner lease name).leaseConsistent = r.leaseConsistent ∧
      (r.grant now runner lease name).artifacts = r.artifacts := by
  unfold grant start
  split_ifs <;> exact ⟨rfl, rfl⟩

/-- A grant breaks no constraint of the run. -/
theorem Run.Constraints.grant {runner lease : Uuid} {docker : Bool} (h : r.Constraints)
    (hremote : r.runnerID = none) (hj : j ∈ r.jobs) (hclaim : r.claimable docker j = true) :
    (r.grant now runner lease j.name).Constraints := by
  have hchange : Change ⟨0, fun _ _ => true⟩ now (.leaseJob runner lease) r
      (r.grant now runner lease j.name) := .grant runner lease hj hclaim
  obtain ⟨hlease, hartifacts⟩ := Run.grant_frame now runner lease j.name r
  exact h.of_steps hremote hchange.static hlease (hchange.jobs h.jobs_key)
    (by rw [hartifacts]) (by rw [hartifacts]; exact h.artifacts_checked)

/-- Writing back a run that satisfies its constraints keeps those of the
tables. -/
theorem Rows.Constraints.putRun {r' : Run} (h : t.Constraints) (hr : r ∈ t.runs)
    (hid : r'.id = r.id) (hsnapshot : r'.sourceSnapshotSHA256 = r.sourceSnapshotSHA256)
    (hr' : r'.Constraints)
    (hrunner : ∀ j ∈ r'.jobs, ∀ i ∈ j.runnerID, i ∈ t.runners.map Runner.id) :
    (t.putRun r').Constraints := by
  have hkey : (t.putRun r').runs.map Run.id = t.runs.map Run.id :=
    Table.map_updateWhere fun x hx => (by simpa using hx : x.id = r'.id).symm
  have hmem : ∀ x ∈ (t.putRun r').runs, x = r' ∨ x ∈ t.runs := by
    intro x hx
    obtain ⟨y, hy, rfl⟩ := Table.mem_updateWhere.1 hx
    split_ifs
    · exact .inl rfl
    · exact .inr hy
  refine { h with runs_key := ?_, runs := ?_, runs_snapshot := ?_, jobs_runner := ?_,
                  triggers_references := ?_ }
  · rw [hkey]
    exact h.runs_key
  · grind [h.runs]
  · intro x hx
    rcases hmem x hx with rfl | hx
    · rw [hsnapshot]
      exact h.runs_snapshot r hr
    · exact h.runs_snapshot x hx
  · intro x hx
    rcases hmem x hx with rfl | hx
    · exact hrunner
    · exact h.jobs_runner x hx
  · intro g hg
    rw [hkey]
    exact h.triggers_references g hg

/-- A completion that succeeds commits. -/
theorem completeJob_constraints {owner : Ownership} {status : JobStatus}
    {message : Option String} (ht : t.Constraints) (hremote : ∀ r ∈ t.runs, r.runnerID = none)
    (h : completeJob s now owner status message t = .ok t') : t'.Constraints := by
  obtain ⟨hstatus, hrun⟩ := completeJob_ok h
  obtain ⟨r, r', hr, hok, rfl⟩ := Rows.onRun_ok hrun
  obtain ⟨hmem, hid⟩ := Table.row?_some hr
  obtain ⟨hvalid, hrunner⟩ :=
    (ht.runs r hmem).complete (hremote r hmem) hstatus hid.symm hok
  have hstatic := (Change.complete hstatus hid.symm hok).static
  refine ht.putRun hmem hstatic.id hstatic.sourceSnapshotSHA256 hvalid ?_
  intro j' hj' i hi
  have hmem' := List.mem_map_of_mem (f := Job.runnerID) hj'
  grind [ht.jobs_runner]

end Postgres
