import ForgeCI.Commits

/-!
# Runs that end `PASSED`

`finalizeRun` looks for `ERROR`, `ABORTED`, `FAILED` and `BLOCKED` jobs and for
a cancel request; a job that a runner reported `CANCELED` without a request is
in none of these, so the run falls through to `PASSED`.
-/

namespace Postgres

open Traces

/-- A run that passed has passed jobs only. -/
def Run.PassedClean (r : Run) : Prop :=
  r.status = .passed → ∀ j ∈ r.jobs, j.status = .passed

def Database.PassedClean (db : Database) : Prop :=
  ∀ r ∈ db.runs, r.PassedClean

instance (db : Database) : Decidable db.PassedClean :=
  inferInstanceAs (Decidable (∀ r ∈ db.runs, r.status = .passed →
    ∀ j ∈ r.jobs, j.status = .passed))

/-- The operations of the job scheduler. -/
def Call.ofScheduler : Call → Bool
  | .createRun _ | .registerRunner _ | .leaseJob _ _ | .heartbeatJobLeases _ _ => true
  | .completeJob _ _ _ | .requestCancel _ | .cancelQueued _ => true
  | .expireJobLeases | .recoverRemoteJobs => true
  | _ => false

/-- A completion by the holder of a lease of a run that was not asked to cancel,
all of whose other jobs have ended `PASSED` or `CANCELED`, where the reported
status or one of those jobs is `CANCELED`. -/
def Run.Masks (s : Settings) (owner : Ownership) (status : JobStatus) (now : Time)
    (r : Run) : Prop :=
  (∃ j, r.job? owner.jobName = some j ∧ j.holdsLease owner now = true) ∧
    r.passGate s owner.jobName status = .ok () ∧ r.cancelRequestedAt = none ∧
    (status = .passed ∨ status = .canceled) ∧
    (∀ k ∈ r.jobs, k.name ≠ owner.jobName → k.status = .passed ∨ k.status = .canceled) ∧
    (status = .canceled ∨ ∃ k ∈ r.jobs, k.name ≠ owner.jobName ∧ k.status = .canceled)

/-- The request is a completion that masks a canceled job. -/
def Database.Masks (s : Settings) (db : Database) (q : Request) : Prop :=
  ∃ owner status message r, q.call = .completeJob owner status message ∧
    db.run? owner.runID = some r ∧ r.Masks s owner status q.now

variable {s : Settings} {now : Time} {call : Call} {r r' r₂ : Run} {j : Job}
variable {owner : Ownership} {status : JobStatus} {message : Option String}

/-- What `PASSED` says about the jobs `finalizeRun` saw. -/
theorem Run.finalStatus_eq_passed_iff : r.finalStatus = .passed ↔
    r.cancelRequestedAt = none ∧ ∀ j ∈ r.jobs, j.status ≠ .error ∧ j.status ≠ .aborted ∧
      j.status ≠ .failed ∧ j.status ≠ .blocked := by
  unfold finalStatus
  simp only [List.any_eq_true, decide_eq_true_eq, Bool.or_eq_true, ← Option.not_isSome_iff_eq_none]
  constructor
  · intro h
    split_ifs at h with h1 h2 h3 h4
    grind
  · grind

/-- `finalizeRun` gives `PASSED` to a run whose jobs all ended `PASSED` or
`CANCELED` with no cancel request. -/
theorem Run.finalizeRun_passed (h : r.finalizeRun s now = .ok r')
    (hactive : r.status.terminal = false) (hpassed : r'.status = .passed) :
    r.cancelRequestedAt = none ∧ r'.jobs = r.jobs ∧
      ∀ j ∈ r.jobs, j.status = .passed ∨ j.status = .canceled := by
  rcases Run.finalizeRun_ok h with ⟨rfl, -⟩ | ⟨hdone, -, -, rfl⟩
  · rw [hpassed] at hactive
    cases hactive
  · obtain ⟨hcancel, hjobs⟩ := Run.finalStatus_eq_passed_iff.1 hpassed
    refine ⟨hcancel, rfl, fun j hj => ?_⟩
    obtain ⟨h1, h2, h3, h4⟩ := hjobs j hj
    have h5 := hdone j hj
    cases hj : j.status <;> simp_all [JobStatus.unfinished]

/-- A job that is `PASSED` or `CANCELED` after the statements of `CompleteJob`
is the reported one, or was so before. -/
theorem Run.completedRows_old (hmem : j ∈ (r.completedRows owner.jobName status now message).jobs)
    (hj : j.status = .passed ∨ j.status = .canceled) :
    (j.name = owner.jobName ∧ j.status = status) ∨
      (j.name ≠ owner.jobName ∧ j ∈ r.jobs) := by
  obtain ⟨jobs, heq, hblocks⟩ := r.completedRows_eq owner.jobName status now message
  rw [heq] at hmem
  obtain ⟨k', hk', rfl | ⟨-, rfl⟩⟩ := Table.exists_old hblocks hmem
  · obtain ⟨k, hk, rfl⟩ := Table.mem_updateWhere.1 hk'
    by_cases hname : k.name = owner.jobName
    · rw [if_pos (by simpa using hname)]
      exact .inl ⟨hname, rfl⟩
    · grind
  · simp at hj

/-- The other jobs are still there, some of them blocked. -/
theorem Run.completedRows_kept (status : JobStatus) (now : Time) (message : Option String)
    (hj : j ∈ r.jobs) (hname : j.name ≠ owner.jobName) :
    ∃ k ∈ (r.completedRows owner.jobName status now message).jobs,
      k.name ≠ owner.jobName ∧ (k = j ∨ (j.status = .pending ∧ k.status = .blocked)) := by
  obtain ⟨jobs, heq, hblocks⟩ := r.completedRows_eq owner.jobName status now message
  rw [heq]
  have hkept : j ∈ (r.finishJob owner.jobName status now message).jobs :=
    Table.mem_updateWhere.2 ⟨j, hj, by simp [hname]⟩
  obtain ⟨k, hk, hjk⟩ := Table.exists_new hblocks hkept
  refine ⟨k, hk, by rw [hjk.name_eq]; exact hname, ?_⟩
  rcases hjk with rfl | ⟨hpending, rfl⟩
  · exact .inl rfl
  · exact .inr ⟨hpending, rfl⟩

/-- The reported job carries the reported status. -/
theorem Run.completedRows_reported (now : Time) (message : Option String)
    (hj : r.job? owner.jobName = some j) (hstatus : status.reportable = true) :
    ∃ k ∈ (r.completedRows owner.jobName status now message).jobs,
      k.name = owner.jobName ∧ k.status = status := by
  obtain ⟨hmem, hname⟩ := Table.row?_some hj
  obtain ⟨jobs, heq, hblocks⟩ := r.completedRows_eq owner.jobName status now message
  rw [heq]
  have hrow : (j.finish status now message).releaseLease ∈
      (r.finishJob owner.jobName status now message).jobs :=
    Table.mem_updateWhere.2 ⟨j, hmem, by simp [hname]⟩
  obtain ⟨k, hk, rfl | ⟨hpending, -⟩⟩ := Table.exists_new hblocks hrow
  · exact ⟨_, hk, hname, rfl⟩
  · grind [Job.releaseLease_status, Job.finish_status, JobStatus.reportable]

/-- A completion that masks nothing ends a run `PASSED` only with passed jobs. -/
theorem Run.complete_passedClean (h : r.Scheduled) (hstatus : status.reportable = true)
    (hok : r.complete s owner status now message = .ok r')
    (hmask : ¬ r.Masks s owner status now) : r'.PassedClean := by
  obtain ⟨j, hj, hholds, hgate, hfin⟩ := Run.complete_ok hok
  have hrunning : r.status = .running :=
    h.running (Table.row?_some hj).1 (Job.holdsLease_running hholds)
  obtain ⟨jobs, heq, -⟩ := r.completedRows_eq owner.jobName status now message
  intro hpassed
  obtain ⟨hnone, hjobs, hclean⟩ := Run.finalizeRun_passed hfin
    (by rw [heq]; simp [Run.withJobs, hrunning, RunStatus.terminal]) hpassed
  rw [hjobs]
  intro k hk
  refine (hclean k hk).resolve_right fun hcanceled => hmask ?_
  obtain ⟨k₀, hk₀, -, hk₀s⟩ := Run.completedRows_reported now message hj hstatus
  refine ⟨⟨j, hj, hholds⟩, hgate, by rw [heq] at hnone; exact hnone,
    hk₀s ▸ hclean k₀ hk₀, ?_, ?_⟩
  · intro u hu huname
    obtain ⟨u', hu', -, rfl | ⟨-, hblocked⟩⟩ :=
      Run.completedRows_kept status now message hu huname
    · exact hclean _ hu'
    · rcases hclean u' hu' with hu's | hu's <;> rw [hblocked] at hu's <;> cases hu's
  · grind [Run.completedRows_old]

/-- A completion that masks a canceled job succeeds and ends the run `PASSED`
with that job in it. -/
theorem Run.Masks.complete (h : r.Scheduled)
    (hmask : r.Masks s owner status now) (message : Option String) :
    status.reportable = true ∧ ∃ r', r.complete s owner status now message = .ok r' ∧
      ¬ r'.PassedClean := by
  obtain ⟨⟨j, hj, hholds⟩, hgate, hcancel, hstatus, hothers, hcanceled⟩ := hmask
  have hreport : status.reportable = true := by rcases hstatus with rfl | rfl <;> rfl
  have hrunning : r.status = .running :=
    h.running (Table.row?_some hj).1 (Job.holdsLease_running hholds)
  obtain ⟨jobs, heq, hblocks⟩ := r.completedRows_eq owner.jobName status now message
  have hrows : ∀ k ∈ jobs, k.status = .passed ∨ k.status = .canceled := by
    intro k hk
    obtain ⟨u', hu', hblock⟩ := Table.exists_old hblocks hk
    have hu's : u'.status = .passed ∨ u'.status = .canceled := by
      obtain ⟨u, hu, rfl⟩ := Table.mem_updateWhere.1 hu'
      by_cases huname : u.name = owner.jobName
      · rw [if_pos (by simpa using huname)]
        exact hstatus
      · grind
    rcases hblock with rfl | ⟨hpending, -⟩
    · exact hu's
    · rcases hu's with hu's | hu's <;> rw [hpending] at hu's <;> cases hu's
  have hne : jobs ≠ [] := by
    obtain ⟨k, hk, -⟩ := Run.completedRows_reported now message hj hreport
    rw [heq] at hk
    exact List.ne_nil_of_mem hk
  have hfinal : (r.withJobs jobs).finalStatus = .passed := by
    refine Run.finalStatus_eq_passed_iff.2 ⟨hcancel, fun k hk => ?_⟩
    rcases hrows k hk with hks | hks <;> rw [hks] <;> simp
  have hfin : (r.withJobs jobs).finalizeRun s now =
      .ok ((r.withJobs jobs).finalized s now) := by
    refine Run.finalizeRun_of_done (fun k hk => ?_) hne ?_
    · rcases hrows k hk with hks | hks <;> rw [hks] <;> rfl
    · simp [Run.withJobs, hrunning, RunStatus.terminal]
  refine ⟨hreport, (r.withJobs jobs).finalized s now, ?_, ?_⟩
  · simp only [Run.complete, hj, hholds, hgate, heq, hfin, Bool.true_eq_false, if_false]
  · intro hclean
    have hpassed := hclean hfinal
    rcases hcanceled with rfl | ⟨k, hk, hkname, hks⟩
    · obtain ⟨k, hk, -, hks⟩ := Run.completedRows_reported now message hj hreport
      rw [heq] at hk
      have := hpassed k hk
      rw [hks] at this
      cases this
    · obtain ⟨k', hk', -, rfl | ⟨hpending, -⟩⟩ :=
        Run.completedRows_kept status now message hk hkname
      · rw [heq] at hk'
        have := hpassed _ hk'
        rw [hks] at this
        cases this
      · rw [hks] at hpending
        cases hpending

/-- Aborting jobs never ends a run `PASSED`. -/
theorem Run.Scheduled.abortJobs_passedClean {p : Job → Bool} {text : String}
    (h : r.Scheduled) (hp : ∀ j ∈ r.jobs, p j = true → j.status = .running)
    (hclean : r.PassedClean) (hok : r.abortJobs s p now text = .ok r') : r'.PassedClean := by
  rcases Run.abortJobs_spec hok with rfl | ⟨⟨j, hj, hpj⟩, jobs, hblocks, hfin⟩
  · exact hclean
  · have hrunning := h.running hj (hp j hj hpj)
    intro hpassed
    obtain ⟨-, -, hjobs⟩ := Run.finalizeRun_passed hfin
      (by simp [Run.withJobs, hrunning, RunStatus.terminal]) hpassed
    obtain ⟨k, hk, rfl | ⟨hpending, -⟩⟩ := Table.exists_new hblocks
      (Table.mem_updateWhere.2 ⟨j, hj, if_pos hpj⟩)
    · rcases hjobs _ hk with hks | hks <;> cases hks
    · cases hpending

/-- A change keeps passed runs clean unless it is a completion that masks. -/
theorem Change.passedClean (h : r.Scheduled) (hclean : r.PassedClean)
    (hchange : Change s now call r r')
    (hmask : ∀ owner status message, call = .completeJob owner status message →
      owner.runID = r.id → ¬ r.Masks s owner status now) : r'.PassedClean := by
  cases hchange with
  | grant runner lease mem claimable =>
    intro hpassed
    grind [Run.grant_status, Run.claimable_iff]
  | @renew _ runner _ part =>
    obtain ⟨jobs, heq, hjobs⟩ := r.renewAll_spec runner now part
    rw [heq]
    intro hpassed j' hj'
    obtain ⟨j, hj, rfl | ⟨-, -, -, -, rfl⟩⟩ := Table.exists_old hjobs hj'
    · exact hclean hpassed _ hj
    · exact hclean hpassed j hj
  | complete reportable target ok =>
    exact Run.complete_passedClean h reportable ok (hmask _ _ _ rfl target)
  | expireLeases ok =>
    refine h.abortJobs_passedClean (fun j _ hj => ?_) hclean ok
    grind [Job.expired]
  | recover ok => grind [h.remote, h.abortJobs_passedClean, Run.abandonLegacy, Run.recover]
  | cancelQueued _ ok =>
    obtain ⟨-, rfl⟩ := Run.cancelQueued_ok ok
    intro hpassed
    cases hpassed
  | requestCancel _ ok =>
    obtain ⟨hrunning, hfin⟩ := Run.requestCancel_ok ok
    intro hpassed
    obtain ⟨hnone, -⟩ := Run.finalizeRun_passed hfin
      (by simp [Run.cancelingRows, Run.updateJobs, hrunning, RunStatus.terminal]) hpassed
    cases hnone
  | commitArtifacts _ ok =>
    obtain ⟨_, rfl⟩ := Run.commitArtifacts_frame ok
    exact hclean
  | expireArtifacts => exact hclean

theorem Run.PassedClean.supersede (h : r.PassedClean) (now : Time) :
    (r.supersede now).PassedClean := by
  intro hpassed
  refine h ?_
  grind [Run.supersede]

variable {tr : List (Step Database Request)} {db db' : Database} {q : Request}

theorem Database.PassedClean.serve (hsched : ∀ r ∈ db.runs, r.Scheduled)
    (h : db.PassedClean) (hmask : ¬ db.Masks s q) (hserve : Served s db q db') :
    db'.PassedClean := by
  intro r' hr'
  rcases hserve.run_origin hr' with
    ⟨input, snapshot, -, -, rfl⟩ | ⟨r, hr, rfl | hchange | ⟨input, -, -, rfl⟩⟩
  · intro hpassed
    cases hpassed
  · exact h _ hr
  · refine hchange.passedClean (hsched r hr) (h r hr) ?_
    intro owner status message hcall hid hr_mask
    exact hmask ⟨owner, status, message, r, hcall,
      (Table.row?_eq_some_iff db.valid.runs_key).2 ⟨hr, hid.symm⟩, hr_mask⟩
  · exact (h r hr).supersede q.now

/-- A masking completion is committed. -/
theorem Database.Masks.serve (hsched : ∀ r ∈ db.runs, r.Scheduled) (hmask : db.Masks s q)
    (hserve : Served s db q db') : ¬ db'.PassedClean := by
  obtain ⟨owner, status, message, r, hcall, hrun, hr⟩ := hmask
  obtain ⟨hmem, hid⟩ := Table.row?_some hrun
  obtain ⟨hreport, r', hok, hdirty⟩ := Run.Masks.complete (hsched r hmem) hr message
  obtain ⟨⟨j, hj, hholds⟩, -⟩ := hr
  obtain ⟨runner, lease, -, hrunner, hlease, -⟩ := Job.holdsLease_iff.1 hholds
  have hcomplete : completeJob s q.now owner status message db.toRows =
      .ok (db.toRows.putRun r') := by grind [completeJob, Rows.onRun]
  have hvalid := completeJob_constraints db.valid (fun r hr => (hsched r hr).remote) hcomplete
  have hrows : db'.runs = (db.toRows.putRun r').runs := by
    rw [← hserve]
    simp only [Database.serve, hcall, exec, hcomplete, Except.map, Database.commit, hvalid,
      dif_pos]
  intro hclean
  refine hdirty (hclean r' ?_)
  rw [hrows]
  refine Table.mem_updateWhere.2 ⟨r, hmem, if_pos ?_⟩
  simpa using (Change.complete hreport hid.symm hok).static.id.symm

/-- **Passed runs.**  Along a run of the system, every run that ended `PASSED`
has only `PASSED` jobs in every state exactly when no completion masked a
canceled job. -/
theorem passed_runs_clean_iff (h : Reaches s tr db) (hok : ∀ st ∈ tr, st.act.Accepted) :
    (∀ st ∈ tr, st.after.PassedClean) ↔ ∀ st ∈ tr, ¬ st.before.Masks s st.act := by
  refine h.exact Request.Accepted Database.PassedClean (fun db q => ¬ db.Masks s q)
    ?_ ?_ ?_ hok
  · intro r hr
    cases hr
  · intro pre db q db' hpre hpre_ok _ hdb hmask hserve
    exact hdb.serve (fun r hr => (Reaches.scheduled hpre hpre_ok r hr).1) hmask hserve
  · intro pre db q db' hpre hpre_ok _ _ hmask hserve
    exact Database.Masks.serve (fun r hr => (Reaches.scheduled hpre hpre_ok r hr).1)
      (not_not.1 hmask) hserve

/-- Lease the only job of a run and report it `CANCELED`. -/
def Sample.canceledRequests : List Request :=
  Sample.requests ++ [⟨3, .completeJob Sample.owner .canceled none⟩]

theorem Sample.canceledRequests_accepted : ∀ q ∈ Sample.canceledRequests, q.Accepted := by
  intro q hq
  rcases List.mem_append.1 hq with hq | hq
  · exact Sample.requests_accepted q hq
  · obtain rfl : q = ⟨3, .completeJob Sample.owner .canceled none⟩ := by simpa using hq
    intro input hinput
    cases hinput

/-- A job reported `CANCELED` without a cancel request ends its run `PASSED`. -/
theorem canceled_job_in_passed_run :
    ¬ ∀ (s : Settings) (tr : List (Step Database Request)) (db : Database), Reaches s tr db →
      (∀ st ∈ tr, st.act.Accepted ∧ st.act.call.ofScheduler = true) → db.PassedClean := by
  intro hall
  have hcalls : ∀ q ∈ Sample.canceledRequests, q.call.ofScheduler = true := by decide
  refine absurd (hall Sample.settings _ _
    (Database.record_trace Sample.settings .empty Sample.canceledRequests) ?_) (by decide)
  intro st hst
  have hmem := Database.act_mem_of_record hst
  exact ⟨Sample.canceledRequests_accepted _ hmem, hcalls _ hmem⟩

/-- The completion of that run masked the canceled job. -/
theorem canceled_completion_masks :
    ∃ st ∈ Database.empty.record Sample.settings Sample.canceledRequests,
      st.before.Masks Sample.settings st.act := by
  have hiff := passed_runs_clean_iff
    (Database.record_trace Sample.settings .empty Sample.canceledRequests)
    fun st hst => Sample.canceledRequests_accepted _ (Database.act_mem_of_record hst)
  by_contra hnone
  push Not at hnone
  exact absurd (hiff.2 hnone) (by decide)

end Postgres
