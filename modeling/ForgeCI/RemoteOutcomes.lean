import ForgeCI.LocalRunner
import ForgeCI.Progress

/-!
# Remote executions with assigned outcomes

A run that remote runners execute without disturbance: nobody cancels it, no
lease of it is lost, and whoever completes a job reports the outcome assigned to
that job.  Leases are granted to any runners in any order, artifacts are
committed, and any other runs may be created and served in between.
-/

namespace Runner

/-- The status a remote runner reports for an outcome. -/
def Outcome.status : Outcome → Postgres.JobStatus
  | .pass => .passed
  | .failure => .failed
  | .infrastructure => .error

end Runner

namespace Postgres

open Traces

/-- The request does not cancel, supersede or abort anything of the run `id`, and
completes its jobs with their outcomes. -/
def Request.Orderly (outcome : String → Runner.Outcome) (id : Uuid) (db : Database)
    (q : Request) : Prop :=
  match q.call with
  | .completeJob owner status _ =>
      owner.runID = id → status = (outcome owner.jobName).status
  | .requestCancel target | .cancelQueued target => target ≠ id
  | .expireJobLeases => ∀ r ∈ db.runs, r.id = id → ∀ j ∈ r.jobs, j.expired q.now = false
  | .recoverRemoteJobs => ∀ r ∈ db.runs, r.id = id → ∀ j ∈ r.jobs, j.status ≠ .running
  | .createSCMDelivery input => ∀ r ∈ db.runs, r.id = id → db.superseded input r = false
  | _ => True

/-- The status of a job of a run. -/
def Run.status? (r : Run) (name : String) : Option JobStatus :=
  (r.job? name).map Job.status

/-- What holds of an undisturbed run at any time. -/
structure Run.Follows (cfg : Config.Pipeline) (outcome : String → Runner.Outcome) (r : Run) :
    Prop where
  built : r.Built cfg
  scheduled : r.Scheduled
  settled : r.Settled
  uncanceled : r.cancelRequestedAt = none
  ran : ∀ j ∈ r.jobs, j.status.unfinished = false → j.status ≠ .blocked →
    j.leaseGeneration ≠ 0 ∧ j.status = (outcome j.name).status
  blocked : ∀ j ∈ r.jobs, j.status = .blocked → r.dependencyFailing j = true
  verdict : r.status.terminal = true → r.status = r.finalStatus

variable {cfg : Config.Pipeline} {outcome : String → Runner.Outcome} {s : Settings} {now : Time}
variable {call : Call} {r r' : Run} {j j' : Job} {id : Uuid}

/-- A failing dependency stays failing. -/
theorem Run.dependencyFailing_mono (hdeps : r'.dependencies = r.dependencies)
    (hjobs : List.Forall₂ (fun u u' : Job =>
      u'.name = u.name ∧ (u.status.failing = true → u'.status.failing = true)) r.jobs r'.jobs)
    (hname : j'.name = j.name) (h : r.dependencyFailing j = true) :
    r'.dependencyFailing j' = true := by
  obtain ⟨d, hd, hdj, u, hu, hud, hfailing⟩ := Run.dependencyFailing_iff.1 h
  obtain ⟨u', hu', hun, hkept⟩ := Table.exists_new hjobs hu
  grind [Run.dependencyFailing_iff]

theorem JobStep.failing (h : JobStep now r j j') :
    j'.name = j.name ∧ (j.status.failing = true → j'.status.failing = true) := by
  refine ⟨h.name_eq, fun hfailing => ?_⟩
  have hended : j.status.unfinished = false := by
    cases hs : j.status <;> simp_all [JobStatus.unfinished, JobStatus.failing]
  rw [h.finished hended]
  exact hfailing

/-- Every blocked job has a failing dependency. -/
def Run.Justified (r : Run) : Prop :=
  ∀ j ∈ r.jobs, j.status = .blocked → r.dependencyFailing j = true

theorem Run.Justified.blockOnce (h : r.Justified) (now : Time) : (r.blockOnce now).Justified := by
  intro j' hj' hblocked
  have hblocks : List.Forall₂ (Blocks now) r.jobs (r.blockOnce now).jobs := r.blockOnce_jobs
  have hjobs := hblocks.imp fun _ _ hb => (hb.jobStep (r := r)).failing
  obtain ⟨j, hj, rfl⟩ := Table.mem_updateWhere.1 hj'
  by_cases hblock : r.blockable j = true
  · rw [if_pos hblock]
    simp only [Run.blockable, Bool.and_eq_true] at hblock
    exact Run.dependencyFailing_mono (r := r) (j := j) rfl hjobs rfl hblock.2
  · rw [if_neg hblock] at hblocked ⊢
    exact Run.dependencyFailing_mono (r := r) rfl hjobs rfl (h j hj hblocked)

/-- The loop of `blockDependents` blocks jobs with a failing dependency only. -/
theorem Run.Justified.blockLoop (h : r.Justified) (now : Time) (fuel : Nat) :
    (r.blockLoop now fuel).Justified := by
  induction fuel generalizing r with
  | zero => exact h
  | succ fuel ih => grind [h.blockOnce, Run.blockLoop]

/-- Completing a job blocks jobs with a failing dependency only. -/
theorem Run.Justified.completedRows {owner : Ownership} {status : JobStatus}
    (message : Option String) (h : r.Justified) (hkey : (r.jobs.map Job.name).Nodup)
    (hj : r.job? owner.jobName = some j) (hholds : j.holdsLease owner now = true)
    (hstatus : status.reportable = true) :
    (r.completedRows owner.jobName status now message).Justified := by
  have hjobs := (Run.finishJob_jobs message hkey hj hholds hstatus).imp fun _ _ hstep =>
    hstep.failing
  have hfinished : (r.finishJob owner.jobName status now message).Justified := by
    intro k' hk' hblocked
    obtain ⟨k, hk, rfl⟩ := Table.mem_updateWhere.1 hk'
    by_cases hname : k.name = owner.jobName
    · rw [if_pos (by simpa using hname)] at hblocked
      obtain rfl : status = .blocked := hblocked
      cases hstatus
    · rw [if_neg (by simpa using hname)] at hblocked ⊢
      exact Run.dependencyFailing_mono (r := r) rfl hjobs rfl (h k hk hblocked)
  unfold Run.completedRows
  split_ifs
  · exact hfinished
  · exact hfinished.blockLoop now _

/-- A change keeps the invariant when every job that ends in it is accounted
for. -/
theorem Run.Follows.advance (h : r.Follows cfg outcome) (hkey : (r.jobs.map Job.name).Nodup)
    (hchange : Change s now call r r') (hcancel : r'.cancelRequestedAt = r.cancelRequestedAt)
    (hran : ∀ j ∈ r.jobs, ∀ j' ∈ r'.jobs, JobStep now r j j' → j.status.unfinished = true →
      j'.status.unfinished = false → j'.status ≠ .blocked →
      j'.leaseGeneration ≠ 0 ∧ j'.status = (outcome j'.name).status)
    (hblocked : r'.Justified) (hverdict : r'.status.terminal = true → r'.status = r'.finalStatus) :
    r'.Follows cfg outcome where
  built := h.built.of_static hchange.static
    (Table.map_eq_of_forall₂ (hchange.jobs hkey) fun _ _ hstep => hstep.name_eq)
  scheduled := (hchange.scheduled hkey h.scheduled).1
  settled := (hchange.scheduled hkey h.scheduled).2 h.settled
  uncanceled := hcancel.trans h.uncanceled
  ran := by
    intro j' hj' hended hfree
    obtain ⟨j, hj, hstep⟩ := Table.exists_old (hchange.jobs hkey) hj'
    cases hj_status : j.status.unfinished with
    | true => exact hran j hj j' hj' hstep hj_status hended hfree
    | false =>
      obtain rfl := hstep.finished hj_status
      exact h.ran _ hj hended hfree
  blocked := hblocked
  verdict := hverdict

/-- `finalizeRun` reads the statuses of the jobs and the cancel request. -/
theorem Run.finalStatus_congr (hcancel : r'.cancelRequestedAt = r.cancelRequestedAt)
    (hjobs : r'.jobs.map Job.status = r.jobs.map Job.status) :
    r'.finalStatus = r.finalStatus := by
  have hany : ∀ p : JobStatus → Bool,
      r'.jobs.any (fun j => p j.status) = r.jobs.any (fun j => p j.status) := by
    intro p
    have := congrArg (List.any · p) hjobs
    simpa [List.any_map, Function.comp_def] using this
  unfold finalStatus
  rw [hcancel, hany fun st => st = .error, hany fun st => st = .aborted,
    hany fun st => st = .failed || st = .blocked]

/-- A change that keeps the statuses of the run and of its jobs. -/
theorem Run.Follows.quiet (h : r.Follows cfg outcome) (hkey : (r.jobs.map Job.name).Nodup)
    (hchange : Change s now call r r') (hcancel : r'.cancelRequestedAt = r.cancelRequestedAt)
    (hstatus : r'.status = r.status)
    (hsame : List.Forall₂ (fun j j' : Job => j'.name = j.name ∧ j'.status = j.status)
      r.jobs r'.jobs) : r'.Follows cfg outcome := by
  have hjobs : r'.jobs.map Job.status = r.jobs.map Job.status :=
    Table.map_eq_of_forall₂ hsame fun _ _ hj => hj.2
  have hsteps := (hchange.jobs hkey).imp fun _ _ hstep => hstep.failing
  refine h.advance hkey hchange hcancel ?_ ?_ ?_
  · intro j hj j' hj' hstep hopen hended
    obtain ⟨k, hk, hkname, hkstatus⟩ := Table.exists_old hsame hj'
    obtain rfl : k = j := List.inj_on_of_nodup_map hkey hk hj
      (hkname.symm.trans hstep.name_eq)
    rw [hkstatus, hopen] at hended
    cases hended
  · intro j' hj' hblocked
    obtain ⟨j, hj, hname, hjs⟩ := Table.exists_old hsame hj'
    exact Run.dependencyFailing_mono hchange.static.dependencies hsteps hname
      (h.blocked j hj (hjs.symm.trans hblocked))
  · grind [h.verdict, Run.finalStatus_congr]

theorem Run.Follows.grant {runner lease : Uuid} {docker : Bool} (h : r.Follows cfg outcome)
    (hkey : (r.jobs.map Job.name).Nodup)
    (hchange : Change s now call r (r.grant now runner lease j.name))
    (hclaim : r.claimable docker j = true) :
    (r.grant now runner lease j.name).Follows cfg outcome := by
  obtain ⟨hactive, -⟩ := Run.claimable_iff.1 hclaim
  have hrows : ∀ k' ∈ (r.grant now runner lease j.name).jobs,
      k'.status = .running ∨ k' ∈ r.jobs := by
    intro k' hk'
    rw [Run.grant_jobs] at hk'
    obtain ⟨k, hk, rfl⟩ := Table.mem_updateWhere.1 hk'
    split_ifs
    · exact .inl rfl
    · exact .inr hk
  refine h.advance hkey hchange Run.grant_cancelRequestedAt ?_ ?_ ?_
  · intro k hk k' hk' hstep hopen hended hfree
    rcases hrows k' hk' with hrunning | hold
    · rw [hrunning] at hended
      cases hended
    · exact h.ran k' hold hended hfree
  · intro k' hk' hblocked
    rcases hrows k' hk' with hrunning | hold
    · rw [hrunning] at hblocked
      cases hblocked
    · exact Run.dependencyFailing_mono hchange.static.dependencies
        ((hchange.jobs hkey).imp fun _ _ hstep => hstep.failing) rfl (h.blocked k' hold hblocked)
  · rw [Run.grant_status hactive]
    intro hterminal
    cases hterminal

theorem Run.Follows.complete {owner : Ownership} {status : JobStatus} {message : Option String}
    (h : r.Follows cfg outcome) (hkey : (r.jobs.map Job.name).Nodup)
    (hreport : status.reportable = true) (htarget : owner.runID = r.id)
    (hstatus : status = (outcome owner.jobName).status)
    (hok : r.complete s owner status now message = .ok r') : r'.Follows cfg outcome := by
  have hchange : Change s now (.completeJob owner status message) r r' :=
    .complete hreport htarget hok
  obtain ⟨j, hj, hholds, -, hfin⟩ := Run.complete_ok hok
  have hrunning : j.status = .running := Job.holdsLease_running hholds
  obtain ⟨hjmem, hjname⟩ := Table.row?_some hj
  have hactive : r.status = .running := h.scheduled.running hjmem hrunning
  have hjustified := Run.Justified.completedRows message h.blocked hkey hj hholds hreport
  obtain ⟨jobs, hrows, -⟩ := r.completedRows_eq owner.jobName status now message
  have hjobs := Run.finalizeRun_jobs hfin
  have hsame : r'.cancelRequestedAt = r.cancelRequestedAt ∧
      r'.dependencies = (r.completedRows owner.jobName status now message).dependencies ∧
      (r'.status.terminal = true → r'.status = r'.finalStatus) := by
    rcases Run.finalizeRun_ok hfin with ⟨rfl, -⟩ | ⟨-, -, -, rfl⟩
    · rw [hrows]
      refine ⟨rfl, rfl, fun hterminal => ?_⟩
      rw [show (r.withJobs jobs).status = .running from hactive] at hterminal
      cases hterminal
    · exact ⟨by rw [hrows]; rfl, rfl, fun _ => rfl⟩
  refine h.advance hkey hchange hsame.1 ?_ ?_ hsame.2.2
  · intro k hk k' hk' hstep hopen hended hfree
    rw [hjobs] at hk'
    obtain ⟨i, hi, ⟨hname, rfl⟩ | ⟨hname, rfl⟩⟩ := Run.completedRows_unblocked hk' hfree
    · obtain rfl : i = j := List.inj_on_of_nodup_map hkey hi hjmem (hname.trans hjname.symm)
      refine ⟨h.scheduled.running_leased i hi hrunning, ?_⟩
      show status = (outcome i.name).status
      rw [hstatus, hname]
    · exact h.ran k' hi hended hfree
  · intro k hk hblocked
    rw [hjobs] at hk
    refine Run.dependencyFailing_mono hsame.2.1 ?_ rfl (hjustified k hk hblocked)
    rw [hjobs]
    exact List.forall₂_same.2 fun _ _ => ⟨rfl, fun hf => hf⟩

/-- **One undisturbed operation.** -/
theorem Change.follows (h : r.Follows cfg outcome) (hkey : (r.jobs.map Job.name).Nodup)
    {db : Database} {q : Request} (horderly : q.Orderly outcome id db) (hr : r ∈ db.runs)
    (hid : r.id = id) (hchange : Change s q.now q.call r r') : r'.Follows cfg outcome := by
  obtain ⟨now, call⟩ := q
  have hchange' := hchange
  cases hchange with
  | grant runner lease mem claimable => exact h.grant hkey hchange' claimable
  | @renew _ runner leases part target =>
    obtain ⟨jobs, heq, hjobs⟩ := r.renewAll_spec runner now part
    simp only [heq] at hchange' ⊢
    refine h.quiet hkey hchange' rfl rfl (hjobs.imp fun j j' hj => ?_)
    rcases hj with rfl | ⟨-, -, -, -, rfl⟩ <;> exact ⟨rfl, rfl⟩
  | complete reportable target ok =>
    exact h.complete hkey reportable target (horderly (target.trans hid)) ok
  | expireLeases ok =>
    rcases Run.abortJobs_ok ok with ⟨-, rfl⟩ | ⟨⟨j, hj, hexpired⟩, -⟩
    · exact h
    · rw [horderly r hr hid j hj] at hexpired
      cases hexpired
  | recover ok =>
    have hremote : r.abandonLegacy s now = r := by
      simp [Run.abandonLegacy, h.scheduled.remote]
    rw [Run.recover, hremote] at ok
    rcases Run.abortJobs_ok ok with ⟨-, rfl⟩ | ⟨⟨j, hj, hrunning⟩, -⟩
    · exact h
    · exact absurd (by simpa using hrunning) (horderly r hr hid j hj)
  | cancelQueued target => exact absurd (target.trans hid) horderly
  | requestCancel target => exact absurd (target.trans hid) horderly
  | commitArtifacts _ ok =>
    obtain ⟨_, rfl⟩ := Run.commitArtifacts_frame ok
    exact h.quiet hkey hchange' rfl rfl (List.forall₂_same.2 fun _ _ => ⟨rfl, rfl⟩)
  | expireArtifacts =>
    exact h.quiet hkey hchange' rfl rfl (List.forall₂_same.2 fun _ _ => ⟨rfl, rfl⟩)

/-- A new run has done nothing yet. -/
theorem CreateRun.Compiled.follows {input : CreateRun} (h : input.Compiled cfg) (now : Time)
    (snapshot : SourceSnapshot) : (input.row now snapshot).Follows cfg outcome where
  built := h.built now snapshot
  scheduled := h.scheduled now snapshot
  settled := CreateRun.row_settled now input snapshot
  uncanceled := rfl
  ran := by
    intro j hj hended
    rw [(CreateRun.row_pending hj).1] at hended
    cases hended
  blocked := by grind [CreateRun.row_pending]
  verdict := fun hterminal => by cases hterminal

/-- **What an undisturbed run keeps.** -/
theorem follows_of_orderly {db₀ db : Database} {tr : List (Step Database Request)}
    (h : Trace (Served s) db₀ tr db) (horderly : ∀ st ∈ tr, st.act.Orderly outcome id st.before)
    (hstart : ∃ r ∈ db₀.runs, r.id = id ∧ r.Follows cfg outcome) :
    ∃ r ∈ db.runs, r.id = id ∧ r.Follows cfg outcome := by
  refine (h.guarded (fun db => ∃ r ∈ db.runs, r.id = id ∧ r.Follows cfg outcome)
    (fun db q => q.Orderly outcome id db) hstart ?_ horderly).1
  rintro db q db' ⟨r, hr, hid, hfollows⟩ hq hserved
  obtain ⟨r', hr', hstep⟩ := hserved.run_step hr
  refine ⟨r', hr', hstep.static.id.trans hid, ?_⟩
  rcases hstep with rfl | hchange | ⟨input, hcall, hsuperseded, -⟩
  · exact hfollows
  · exact hchange.follows hfollows (db.valid.runs r hr).jobs_key hq hr hid
  · grind [Request.Orderly]

/-- The jobs of a built run by their names. -/
theorem Run.Built.status?_eq_some_iff (h : r.Built cfg) {n : String} {status : JobStatus} :
    r.status? n = some status ↔ ∃ j ∈ r.jobs, j.name = n ∧ j.status = status := by
  simp only [Run.status?, Option.map_eq_some_iff, Run.job?, Table.row?_eq_some_iff h.names_nodup,
    and_assoc]

/-- The dependency rows of a job are its needs. -/
theorem Run.Built.mem_needsOf (h : r.Built cfg) {n d : String} :
    d ∈ Pipeline.needsOf cfg n ↔ ⟨n, d⟩ ∈ r.dependencies :=
  Pipeline.mem_needsOf.trans (h.dependencies n d).symm

/-- An undisturbed run with nothing running and nothing to claim has ended. -/
theorem Run.Follows.terminal (h : r.Follows cfg outcome) (hvalid : r.Constraints)
    (hidle : ∀ j ∈ r.jobs, j.status ≠ .running ∧ r.claimable true j = false) :
    r.status.terminal = true := by
  cases hactive : r.status.terminal with
  | true => rfl
  | false =>
    obtain ⟨j, hj, hclaim⟩ := h.scheduled.exists_claimable h.settled hvalid hactive
      fun j hj => (hidle j hj).1
    rw [(hidle j hj).2] at hclaim
    cases hclaim

/-- **How an undisturbed run ends.**  Exactly the jobs with a need that failed or
was blocked are blocked, and the others have the status of their outcome. -/
theorem Run.Follows.ends (h : r.Follows cfg outcome) (hended : r.status.terminal = true) :
    Propagation.Closed (Pipeline.needsOf cfg) cfg.names (outcome · ≠ .pass)
        (r.status? · = some .blocked) ∧
      ∀ n ∈ cfg.names, r.status? n ≠ some .blocked →
        r.status? n = some (outcome n).status := by
  have hjobs := h.settled.ended hended
  have hjob : ∀ n ∈ cfg.names, ∃ j ∈ r.jobs, j.name = n := fun n hn =>
    List.mem_map.1 (h.built.names.mem_iff.2 hn)
  refine ⟨fun n hn => ⟨fun hblocked => ?_, ?_⟩, fun n hn hfree => ?_⟩
  · obtain ⟨j, hj, rfl, hstatus⟩ := h.built.status?_eq_some_iff.1 hblocked
    obtain ⟨⟨_, d⟩, hd, rfl, u, hu, rfl, hfailing⟩ :=
      Run.dependencyFailing_iff.1 (h.blocked j hj hstatus)
    refine ⟨u.name, h.built.mem_needsOf.2 hd, ?_⟩
    by_cases hu_blocked : u.status = .blocked
    · exact .inl (h.built.status?_eq_some_iff.2 ⟨u, hu, rfl, hu_blocked⟩)
    · refine .inr fun hpass => ?_
      rw [(h.ran u hu (hjobs u hu) hu_blocked).2, hpass] at hfailing
      cases hfailing
  · rintro ⟨d, hd, hbad⟩
    obtain ⟨j, hj, rfl⟩ := hjob n hn
    by_contra hfree
    have hj_free : j.status ≠ .blocked := fun hblocked =>
      hfree (h.built.status?_eq_some_iff.2 ⟨j, hj, rfl, hblocked⟩)
    have hready := h.scheduled.leased_ready j hj (h.ran j hj (hjobs j hj) hj_free).1
    rw [← Bool.not_eq_true, Run.waiting_iff] at hready
    obtain ⟨u, hu, rfl⟩ : ∃ u ∈ r.jobs, u.name = d := hjob d
      (Pipeline.mem_names_of_needsOf (Config.accepted_of_validate h.built.accepted) hd)
    have hpassed : u.status = .passed := by
      by_contra hnot
      exact hready ⟨_, h.built.mem_needsOf.1 hd, rfl, u, hu, rfl, hnot⟩
    rcases hbad with hblocked | hfails
    · obtain ⟨v, hv, hname, hv_blocked⟩ := h.built.status?_eq_some_iff.1 hblocked
      obtain rfl := List.inj_on_of_nodup_map h.built.names_nodup hv hu hname
      rw [hpassed] at hv_blocked
      cases hv_blocked
    · have hran := (h.ran u hu (hjobs u hu) (by rw [hpassed]; decide)).2
      rw [hpassed] at hran
      cases ho : outcome u.name with
      | pass => exact hfails ho
      | _ =>
        rw [ho] at hran
        cases hran
  · obtain ⟨j, hj, rfl⟩ := hjob n hn
    refine h.built.status?_eq_some_iff.2 ⟨j, hj, rfl, (h.ran j hj (hjobs j hj) ?_).2⟩
    exact fun hblocked => hfree (h.built.status?_eq_some_iff.2 ⟨j, hj, rfl, hblocked⟩)

end Postgres
