import ForgeCI.LocalStore

/-!
# What the recovery at startup does to the rows

`RecoverInterrupted` ends every run that is `RUNNING`, with its unfinished jobs, and does not
look at a lease.  `RecoverRemoteJobs` aborts every job that is `RUNNING` and settles the runs
of these jobs, and of no others.
-/

namespace Postgres

variable {s : Settings} {now : Time} {t : Rows} {db : Database} {r r' : Run} {j j' : Job}

/-- A run has jobs, is not leased as a whole, and starts with its first job. -/
structure Run.Stored (r : Run) : Prop where
  jobs_ne_nil : r.jobs ≠ []
  unleased : r.runnerID = none
  queued : r.status = .queued → ∀ j ∈ r.jobs, j.status = .pending

/-- A run whose jobs have ended is `RUNNING` or has ended. -/
theorem Run.Stored.terminal_of_ended (h : r.Stored)
    (hended : ∀ j ∈ r.jobs, j.status.unfinished = false) (hrunning : r.status ≠ .running) :
    r.status.terminal = true := by
  by_contra hopen
  rcases RunStatus.terminal_eq_false_iff.1 (by simpa using hopen) with hqueued | hrun
  · obtain ⟨j, hj⟩ := List.exists_mem_of_ne_nil _ h.jobs_ne_nil
    have hunfinished := hended j hj
    rw [h.queued hqueued j hj] at hunfinished
    cases hunfinished
  · exact hrunning hrun

/-- Nothing is at work, every run whose jobs have ended has ended, and no run has ended with
a pending job, unless it was so before. -/
structure Recovered (before after : Database) : Prop where
  idle : ∀ r ∈ after.runs, ∀ j ∈ r.jobs, j.status ≠ .running
  ended : ∀ r ∈ after.runs, (∀ j ∈ r.jobs, j.status.unfinished = false) →
    r.status.terminal = true
  kept : ∀ r' ∈ after.runs, r'.status.terminal = true → ∀ j' ∈ r'.jobs, j'.status = .pending →
    ∃ r ∈ before.runs, r.id = r'.id ∧ r.status.terminal = true ∧
      ∃ j ∈ r.jobs, j.name = j'.name ∧ j.status = .pending

/-- A run may be rewritten when its constraints hold and it names no new runner. -/
structure Run.Rewrites (r r' : Run) : Prop where
  static : r.SameStatic r'
  valid : r'.Constraints
  runners : r'.jobs.map Job.runnerID = r.jobs.map Job.runnerID

theorem Rows.Constraints.rewrite (h : t.Constraints) {runs : List Run}
    (hruns : List.Forall₂ Run.Rewrites t.runs runs) :
    ({ t with runs := runs } : Rows).Constraints := by
  have hkey : runs.map Run.id = t.runs.map Run.id :=
    Table.map_eq_of_forall₂ hruns fun _ _ hrun => hrun.static.id
  refine { h with runs_key := ?_, runs := ?_, runs_snapshot := ?_, jobs_runner := ?_,
                  triggers_references := ?_ }
  · rw [hkey]
    exact h.runs_key
  · intro r' hr'
    obtain ⟨r, -, hrun⟩ := Table.exists_old hruns hr'
    exact hrun.valid
  · intro r' hr'
    obtain ⟨r, hr, hrun⟩ := Table.exists_old hruns hr'
    rw [hrun.static.sourceSnapshotSHA256]
    exact h.runs_snapshot r hr
  · intro r' hr' j' hj' i hi
    obtain ⟨r, hr, hrun⟩ := Table.exists_old hruns hr'
    have hmem : j'.runnerID ∈ r.jobs.map Job.runnerID :=
      hrun.runners ▸ List.mem_map_of_mem hj'
    grind [h.jobs_runner]
  · intro g hg
    rw [hkey]
    exact h.triggers_references g hg

theorem onRuns_total {f : Run → Except StoreError Run} {l : List Run}
    (h : ∀ r ∈ l, ∃ r', f r = .ok r') : ∃ l', onRuns f l = .ok l' := by
  induction l with
  | nil => exact ⟨[], rfl⟩
  | cons r rest ih =>
    obtain ⟨r', hr'⟩ := h r List.mem_cons_self
    grind [onRuns]

theorem Run.interrupt_static (s : Settings) (now : Time) (r : Run) :
    r.SameStatic (r.interrupt s now) := by
  by_cases hrunning : r.status = .running
  · exact (LocalChange.interrupt hrunning).static
  · rw [interrupt, if_neg hrunning]
    exact .refl r

theorem Run.interrupt_idle (hrunning : r.status ≠ .running) : r.interrupt s now = r :=
  if_neg hrunning

theorem Run.interrupt_status (hrunning : r.status = .running) :
    (r.interrupt s now).status = .aborted := by
  rw [interrupt, if_pos hrunning]
  rfl

theorem Run.interrupt_jobs (hrunning : r.status = .running) :
    (r.interrupt s now).jobs = Table.updateWhere (·.status.unfinished) (Job.finish .aborted now
      (some "control plane restarted before run completed")) r.jobs := by
  rw [interrupt, if_pos hrunning]
  rfl

/-- The run may be interrupted: no job of it is under a lease. -/
theorem Run.Constraints.interrupt (h : r.Constraints)
    (hleases : r.status = .running → ∀ j ∈ r.jobs, j.status = .running → j.leaseID = none) :
    (r.interrupt s now).Constraints := by
  by_cases hrunning : r.status = .running
  · rw [Run.interrupt, if_pos hrunning]
    apply Run.Constraints.stampArtifacts _ _ rfl
    have hended : ({ r with
        status := RunStatus.aborted
        finishedAt := some now
        errorMessage := some "control plane restarted before run completed" } : Run).Constraints :=
      { h with }
    refine hended.updateJobs (fun _ => rfl) ?_
    intro j hj hunfinished
    have hold := h.jobs_lease j hj
    grind [Job.leaseConsistent, JobStatus.unfinished_iff, Job.finish]
  · rw [Run.interrupt_idle hrunning]
    exact h

theorem Run.interrupt_runners (s : Settings) (now : Time) (r : Run) :
    (r.interrupt s now).jobs.map Job.runnerID = r.jobs.map Job.runnerID := by
  by_cases hrunning : r.status = .running
  · rw [Run.interrupt_jobs hrunning]
    exact Table.map_updateWhere fun _ _ => rfl
  · rw [Run.interrupt_idle hrunning]

/-- A recovery that is answered without an error has interrupted every run. -/
theorem Database.recoverInterrupted_runs
    (h : (db.serveLocal s now .recoverInterrupted).2 = .ok none) :
    (db.serveLocal s now .recoverInterrupted).1.runs = db.runs.map (Run.interrupt s now) := by
  rcases db.commit_cases (execLocal s now db.toRows .recoverInterrupted) with
    ⟨rows, reply, hexec, hrows, -⟩ | ⟨-, e, he⟩
  · cases hexec
    exact congrArg Rows.runs hrows
  · rw [serveLocal, he] at h
    cases h

/-- Without leases on the jobs of `RUNNING` runs the recovery commits. -/
theorem Database.recoverInterrupted_commits (hleases : ∀ r ∈ db.runs, r.status = .running →
    ∀ j ∈ r.jobs, j.status = .running → j.leaseID = none) :
    (db.serveLocal s now .recoverInterrupted).2 = .ok none := by
  have hvalid : ({ db.toRows with
      runs := db.runs.map (Run.interrupt s now) } : Rows).Constraints := by
    apply db.valid.rewrite
    rw [List.forall₂_map_right_iff, List.forall₂_same]
    intro r hr
    exact ⟨r.interrupt_static s now, (db.valid.runs r hr).interrupt (hleases r hr),
      r.interrupt_runners s now⟩
  simp [serveLocal, execLocal, Database.commit, hvalid]

/-- **`RecoverInterrupted` leaves everything settled** exactly when the jobs at work belong to
runs that are `RUNNING` and none of them is under a lease. -/
theorem recoverInterrupted_iff (s : Settings) (now : Time) (hstored : ∀ r ∈ db.runs, r.Stored) :
    (db.serveLocal s now .recoverInterrupted).2 = .ok none ∧
        Recovered db (db.serveLocal s now .recoverInterrupted).1 ↔
      ∀ r ∈ db.runs, ∀ j ∈ r.jobs, j.status = .running →
        r.status = .running ∧ j.leaseID = none := by
  constructor
  · rintro ⟨hok, hrecovered⟩ r hr j hj hrun
    have hruns := Database.recoverInterrupted_runs hok
    have hmem : r.interrupt s now ∈ (db.serveLocal s now .recoverInterrupted).1.runs :=
      hruns ▸ List.mem_map_of_mem hr
    have hrunning : r.status = .running := by grind [hrecovered.idle, Run.interrupt_idle]
    refine ⟨hrunning, ?_⟩
    -- the aborted row keeps its lease columns, and satisfies the constraint
    have hjob : j.finish .aborted now (some "control plane restarted before run completed") ∈
        (r.interrupt s now).jobs := by
      rw [Run.interrupt_jobs hrunning]
      exact Table.mem_updateWhere.2 ⟨j, hj, by simp [hrun, JobStatus.unfinished]⟩
    have hlease := (Database.valid _).runs _ hmem |>.jobs_lease _ hjob
    have hnone : j.leaseID = none ∧ j.leaseExpiresAt = none := by
      simpa [Job.leaseConsistent, Job.finish] using hlease
    exact hnone.1
  · intro hclear
    have hok : (db.serveLocal s now .recoverInterrupted).2 = .ok none :=
      Database.recoverInterrupted_commits fun r hr _ j hj hrun => (hclear r hr j hj hrun).2
    have hruns := Database.recoverInterrupted_runs hok
    have hold : ∀ r' ∈ (db.serveLocal s now .recoverInterrupted).1.runs,
        ∃ r ∈ db.runs, r' = r.interrupt s now := by grind
    have hdone : ∀ r : Run, r.status = .running → ∀ j' ∈ (r.interrupt s now).jobs,
        j'.status.unfinished = false := by
      intro r hrunning j' hj'
      rw [Run.interrupt_jobs hrunning] at hj'
      obtain ⟨j, -, rfl⟩ := Table.mem_updateWhere.1 hj'
      split_ifs with hunfinished
      · rfl
      · simpa using hunfinished
    refine ⟨hok, ?_, ?_, ?_⟩
    · intro r' hr' j' hj' hrun
      obtain ⟨r, hr, rfl⟩ := hold r' hr'
      by_cases hrunning : r.status = .running
      · have hended := hdone r hrunning j' hj'
        rw [hrun] at hended
        cases hended
      · grind [Run.interrupt_idle]
    · intro r' hr' hended
      obtain ⟨r, hr, rfl⟩ := hold r' hr'
      by_cases hrunning : r.status = .running
      · rw [Run.interrupt_status hrunning]
        rfl
      · rw [Run.interrupt_idle hrunning] at hended ⊢
        exact (hstored r hr).terminal_of_ended hended hrunning
    · intro r' hr' hterminal j' hj' hpending
      obtain ⟨r, hr, rfl⟩ := hold r' hr'
      by_cases hrunning : r.status = .running
      · have hended := hdone r hrunning j' hj'
        rw [hpending] at hended
        cases hended
      · grind [Run.interrupt_idle]

theorem Run.Stored.recover_eq (h : r.Stored) (s : Settings) (now : Time) :
    r.recover s now = r.abortJobs s (·.status = .running) now
      "control plane restarted during job execution" := by
  have hlegacy : r.abandonLegacy s now = r := by
    simp [Run.abandonLegacy, h.unleased]
  rw [Run.recover, hlegacy]

/-- A run without a job at work is left alone. -/
theorem Run.Stored.recover_idle (h : r.Stored) (hidle : ∀ j ∈ r.jobs, j.status ≠ .running) :
    r.recover s now = .ok r := by
  grind [h.recover_eq, Run.abortJobs]

/-- The rows of a run before `finalizeRun` in `RecoverRemoteJobs`. -/
def Run.recoveredRows (now : Time) (r : Run) : Run :=
  (r.updateJobs (·.status = .running) fun j => (j.finish .aborted now
    (some "control plane restarted during job execution")).releaseLease).blockDependents now

theorem Run.recoveredRows_eq (now : Time) (r : Run) :
    ∃ jobs, r.recoveredRows now = r.withJobs jobs ∧
      (∀ j ∈ jobs, j.status ≠ .running) ∧
      jobs.map Job.runnerID = r.jobs.map Job.runnerID := by
  obtain ⟨jobs, heq, hblocks, -⟩ := Run.blockDependents_spec now
    (r.updateJobs (·.status = .running) fun j => (j.finish .aborted now
      (some "control plane restarted during job execution")).releaseLease)
  refine ⟨jobs, heq, ?_, ?_⟩
  · intro j' hj' hrun
    obtain ⟨j, hj, rfl | ⟨-, rfl⟩⟩ := Table.exists_old hblocks hj'
    · obtain ⟨k, -, rfl⟩ := Table.mem_updateWhere.1 hj
      split_ifs at hrun with hk
      · cases hrun
      · exact hk (by simpa using hrun)
    · cases hrun
  · calc jobs.map Job.runnerID
        = (r.updateJobs (·.status = .running) fun j => (j.finish .aborted now
            (some "control plane restarted during job execution")).releaseLease).jobs.map
              Job.runnerID := by
          apply Table.map_eq_of_forall₂ hblocks
          intro j j' hj
          rcases hj with rfl | ⟨-, rfl⟩ <;> rfl
      _ = r.jobs.map Job.runnerID := Table.map_updateWhere fun _ _ => rfl

/-- A run with a job at work is settled. -/
theorem Run.Stored.recover_settles (h : r.Stored) (hrun : ∃ j ∈ r.jobs, j.status = .running) :
    r.recover s now = (r.recoveredRows now).finalizeRun s now := by
  have hany : (r.jobs.any fun j => decide (j.status = .running)) = true := by grind
  rw [h.recover_eq, Run.abortJobs, if_pos hany]
  rfl

theorem Run.Stored.recover_total (h : r.Stored) (s : Settings) (now : Time) :
    ∃ r', r.recover s now = .ok r' := by
  by_cases hrun : ∃ j ∈ r.jobs, j.status = .running
  · rw [h.recover_settles hrun]
    obtain ⟨jobs, heq, -, hrunners⟩ := r.recoveredRows_eq now
    have hne : jobs ≠ [] := by
      rintro rfl
      exact h.jobs_ne_nil (List.map_eq_nil_iff.1 hrunners.symm)
    rw [heq, Run.finalizeRun]
    split_ifs with _ hnil
    · exact ⟨_, rfl⟩
    · exact absurd hnil hne
    · exact ⟨_, rfl⟩
    · exact ⟨_, rfl⟩
  · push Not at hrun
    exact ⟨r, h.recover_idle hrun⟩

/-- The recovery breaks no constraint of a run. -/
theorem Run.Stored.recover_rewrites (h : r.Stored) (hvalid : r.Constraints)
    (hok : r.recover s now = .ok r') : r.Rewrites r' := by
  have hchange : Change s now .recoverRemoteJobs r r' := .recover hok
  by_cases hrun : ∃ j ∈ r.jobs, j.status = .running
  · rw [h.recover_settles hrun] at hok
    obtain ⟨jobs, heq, -, hrunners⟩ := r.recoveredRows_eq now
    rw [heq] at hok
    obtain ⟨hlease, hkey, hchecked⟩ := Run.finalizeRun_artifacts hok
    refine ⟨hchange.static, ?_, ?_⟩
    · exact hvalid.of_steps h.unleased hchange.static hlease (hchange.jobs hvalid.jobs_key) hkey
        (hchecked hvalid.artifacts_checked)
    · rw [Run.finalizeRun_jobs hok]
      exact hrunners
  · push Not at hrun
    obtain rfl := Except.ok.inj ((h.recover_idle hrun).symm.trans hok)
    exact ⟨.refl r, hvalid, rfl⟩

/-- What is left of a run with a job at work. -/
theorem Run.Stored.recover_done (h : r.Stored) (hrun : ∃ j ∈ r.jobs, j.status = .running)
    (hok : r.recover s now = .ok r') : (∀ j ∈ r'.jobs, j.status ≠ .running) ∧
      ((∀ j ∈ r'.jobs, j.status.unfinished = false) → r'.status.terminal = true) ∧
      (r'.status.terminal = true → r.status.terminal = true ∨
        ∀ j ∈ r'.jobs, j.status.unfinished = false) := by
  rw [h.recover_settles hrun] at hok
  obtain ⟨jobs, heq, hidle, -⟩ := r.recoveredRows_eq now
  rw [heq] at hok
  have hjobs : r'.jobs = jobs := Run.finalizeRun_jobs hok
  refine ⟨hjobs ▸ hidle, ?_, ?_⟩
  · intro hended
    rcases Run.finalizeRun_ok hok with ⟨rfl, ⟨j, hj, hunfinished⟩ | hterminal⟩ | ⟨-, -, -, rfl⟩
    · grind
    · exact hterminal
    · exact Run.finalStatus_terminal _
  · intro hterminal
    rcases Run.finalizeRun_ok hok with ⟨rfl, -⟩ | ⟨hended, -, -, rfl⟩
    · exact .inl hterminal
    · exact .inr hended

/-- **`RecoverRemoteJobs` commits**, and takes every run through its own recovery. -/
theorem Database.recoverRemoteJobs_commits (s : Settings) (now : Time)
    (hstored : ∀ r ∈ db.runs, r.Stored) : (db.serve s ⟨now, .recoverRemoteJobs⟩).2 = .ok .done ∧
      List.Forall₂ (fun r r' => r.recover s now = .ok r') db.runs
        (db.serve s ⟨now, .recoverRemoteJobs⟩).1.runs := by
  obtain ⟨runs, hruns⟩ := onRuns_total fun r hr => (hstored r hr).recover_total s now
  have hsteps := onRuns_ok hruns
  have hvalid : ({ db.toRows with runs := runs } : Rows).Constraints := by
    apply db.valid.rewrite
    refine List.Forall₂.imp ?_ ((List.forall₂_and_left _ _).2 ⟨fun r hr => hr, hsteps⟩)
    intro r r' hr
    exact (hstored r hr.1).recover_rewrites (db.valid.runs r hr.1) hr.2
  have hexec : exec s now db.toRows .recoverRemoteJobs =
      .ok ({ db.toRows with runs := runs }, .done) := by
    simp [exec, recoverRemoteJobs, hruns, Except.map]
  grind [serve, Database.commit]

/-- **`RecoverRemoteJobs` leaves everything settled** exactly when every `RUNNING` run has an
unfinished job. -/
theorem recoverRemoteJobs_iff (s : Settings) (now : Time) (hstored : ∀ r ∈ db.runs, r.Stored) :
    (db.serve s ⟨now, .recoverRemoteJobs⟩).2 = .ok .done ∧
        Recovered db (db.serve s ⟨now, .recoverRemoteJobs⟩).1 ↔
      ∀ r ∈ db.runs, r.status = .running → ∃ j ∈ r.jobs, j.status.unfinished = true := by
  obtain ⟨hok, hruns⟩ := Database.recoverRemoteJobs_commits s now hstored
  constructor
  · rintro ⟨-, hrecovered⟩ r hr hrunning
    by_contra hnone
    have hended : ∀ j ∈ r.jobs, j.status.unfinished = false := by grind
    have hidle : ∀ j ∈ r.jobs, j.status ≠ .running := by
      intro j hj hrun
      have hj := hended j hj
      rw [hrun] at hj
      cases hj
    -- no job is at work, so the run stays as it is
    obtain ⟨r', hr', hrecover⟩ := Table.exists_new hruns hr
    obtain rfl := Except.ok.inj (((hstored r hr).recover_idle hidle).symm.trans hrecover)
    have hterminal := hrecovered.ended r hr' hended
    rw [hrunning] at hterminal
    cases hterminal
  · intro hopen
    refine ⟨hok, ?_, ?_, ?_⟩
    · intro r' hr'
      obtain ⟨r, hr, hrecover⟩ := Table.exists_old hruns hr'
      by_cases hrun : ∃ j ∈ r.jobs, j.status = .running
      · exact ((hstored r hr).recover_done hrun hrecover).1
      · push Not at hrun
        obtain rfl := Except.ok.inj (((hstored r hr).recover_idle hrun).symm.trans hrecover)
        exact hrun
    · intro r' hr' hended
      obtain ⟨r, hr, hrecover⟩ := Table.exists_old hruns hr'
      by_cases hrun : ∃ j ∈ r.jobs, j.status = .running
      · exact ((hstored r hr).recover_done hrun hrecover).2.1 hended
      · push Not at hrun
        obtain rfl := Except.ok.inj (((hstored r hr).recover_idle hrun).symm.trans hrecover)
        apply (hstored r hr).terminal_of_ended hended
        grind
    · intro r' hr' hterminal j' hj' hpending
      obtain ⟨r, hr, hrecover⟩ := Table.exists_old hruns hr'
      have hchange : Change s now .recoverRemoteJobs r r' := .recover hrecover
      obtain ⟨j, hj, hstep⟩ := Table.exists_old (hchange.jobs (db.valid.runs r hr).jobs_key) hj'
      obtain rfl := hstep.pending hpending
      refine ⟨r, hr, hchange.static.id.symm, ?_, j', hj, rfl, hpending⟩
      by_cases hrun : ∃ j ∈ r.jobs, j.status = .running
      · rcases ((hstored r hr).recover_done hrun hrecover).2.2 hterminal with hold | hended
        · exact hold
        · have hj' := hended j' hj'
          rw [hpending] at hj'
          cases hj'
      · push Not at hrun
        obtain rfl := Except.ok.inj (((hstored r hr).recover_idle hrun).symm.trans hrecover)
        exact hterminal

end Postgres
