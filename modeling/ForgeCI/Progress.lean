import ForgeCI.Commits

/-!
# No run is stuck

`Run.Live` collects what the scheduler promises about a run between any two
operations: run and job statuses end together, blocked and canceled jobs are
accounted for at once, and an unfinished run has a job that runs or one that is
ready.  `leaseJob_grants` is the other half of progress: a ready job is granted
to any idle capable runner that asks, and the grant commits.
-/

namespace Postgres

open Traces

variable {s : Settings} {now : Time} {t : Rows} {r : Run} {j : Job}

/-- The guarantees of the scheduler about one run. -/
structure Run.Live (r : Run) : Prop where
  ended_iff : r.status.terminal = true ↔ ∀ j ∈ r.jobs, j.status.unfinished = false
  queued_pending : r.status = .queued → ∀ j ∈ r.jobs, j.status = .pending
  pending_clear : ∀ j ∈ r.jobs, j.status = .pending → ∀ d, ⟨j.name, d⟩ ∈ r.dependencies →
    ∀ u ∈ r.jobs, u.name = d → u.status.failing = false
  canceling : r.status.terminal = false → r.cancelRequestedAt.isSome = true →
    ∀ j ∈ r.jobs, j.status ≠ .pending
  not_stuck : r.status.terminal = false → (∃ j ∈ r.jobs, j.status = .running) ∨
    (r.cancelRequestedAt = none ∧ ∃ j ∈ r.jobs, j.status = .pending ∧
      ∀ d, ⟨j.name, d⟩ ∈ r.dependencies → ∃ u ∈ r.jobs, u.name = d ∧ u.status = .passed)

/-- In a run with a pending job and none running, the first pending job in
topological order has all its dependencies passed. -/
theorem Run.Scheduled.exists_ready (h : r.Scheduled)
    (hidle : ∀ j ∈ r.jobs, j.status ≠ .running) (hj : j ∈ r.jobs) (hpending : j.status = .pending) :
    ∃ k ∈ r.jobs, k.status = .pending ∧
      ∀ d, ⟨k.name, d⟩ ∈ r.dependencies → ∃ u ∈ r.jobs, u.name = d ∧ u.status = .passed := by
  obtain ⟨cfg, hcfg⟩ := h.built
  obtain ⟨n, -, ⟨k, hk, rfl, hk_pending⟩, hfirst⟩ := hcfg.topological.exists_first
    (P := fun n => ∃ k ∈ r.jobs, k.name = n ∧ k.status = .pending)
    ⟨j.name, List.mem_map.2 ⟨j, hj, rfl⟩, j, hj, rfl, hpending⟩
  refine ⟨k, hk, hk_pending, fun d hd => ?_⟩
  obtain ⟨hmem, hnot⟩ := hfirst d (Run.mem_needs.2 hd)
  obtain ⟨u, hu, rfl⟩ := List.mem_map.1 hmem
  have hclear := h.pending_clear k hk hk_pending
  rw [← Bool.not_eq_true, Run.dependencyFailing_iff] at hclear
  have hu_clear : u.status.failing = false := by
    rw [← Bool.not_eq_true]
    exact fun hfailing => hclear ⟨_, hd, rfl, u, hu, rfl, hfailing⟩
  grind [JobStatus.failing_eq_false_iff]

/-- An unfinished run has an unfinished job. -/
theorem Run.Scheduled.exists_unfinished (h : r.Scheduled)
    (hactive : r.status.terminal = false) : ∃ j ∈ r.jobs, j.status.unfinished = true := by
  grind [h.all_ended]

theorem Run.Scheduled.live (h : r.Scheduled) (hs : r.Settled) : r.Live where
  ended_iff := ⟨hs.ended, h.all_ended⟩
  queued_pending := h.queued_pending
  pending_clear := by
    intro j hj hpending d hd u hu hud
    have hclear := h.pending_clear j hj hpending
    rw [← Bool.not_eq_true, Run.dependencyFailing_iff] at hclear
    rw [← Bool.not_eq_true]
    exact fun hfailing => hclear ⟨_, hd, rfl, u, hu, hud, hfailing⟩
  canceling := hs.canceling
  not_stuck := by
    intro hactive
    by_cases hrunning : ∃ j ∈ r.jobs, j.status = .running
    · exact .inl hrunning
    push Not at hrunning
    obtain ⟨j, hj, hunfinished⟩ := h.exists_unfinished hactive
    have hpending : j.status = .pending :=
      (JobStatus.unfinished_iff.1 hunfinished).resolve_right (hrunning j hj)
    refine .inr ⟨?_, h.exists_ready hrunning hj hpending⟩
    by_contra hcancel
    exact hs.canceling hactive (Option.isSome_iff_ne_none.2 hcancel) j hj hpending

/-- **There is work to hand out**: in an unfinished run with no job running, some
job can be claimed by a runner that has Docker. -/
theorem Run.Scheduled.exists_claimable (h : r.Scheduled) (hs : r.Settled)
    (hvalid : r.Constraints) (hactive : r.status.terminal = false)
    (hnone : ∀ j ∈ r.jobs, j.status ≠ .running) : ∃ j ∈ r.jobs, r.claimable true j = true := by
  obtain ⟨j, hj, hrunning⟩ | ⟨hcancel, j, hj, hpending, hdeps⟩ := (h.live hs).not_stuck hactive
  · exact absurd hrunning (hnone j hj)
  obtain ⟨cfg, hcfg⟩ := h.built
  have hwaiting : r.waiting j = false :=
    hcfg.ready_iff.2 fun d hd => hdeps d (Run.mem_needs.1 hd)
  have hcount : r.jobs.countP (·.status = .running) = 0 :=
    List.countP_eq_zero.2 fun k hk => by simpa using hnone k hk
  grind [hvalid.max_parallel, Run.claimable_iff]

/-- A run with a stored snapshot takes part in the claim query's join. -/
theorem Rows.exists_candidate {docker : Bool} (ht : t.Constraints) (hr : r ∈ t.runs)
    (hsnapshot : r.sourceSnapshotSHA256.isSome = true) (hj : j ∈ r.jobs)
    (hclaim : r.claimable docker j = true) : ∃ c ∈ t.candidates docker, c.run = r ∧ c.job = j := by
  obtain ⟨d, hd⟩ := Option.isSome_iff_exists.1 hsnapshot
  obtain ⟨snapshot, hmem, hdigest⟩ := List.mem_map.1 (ht.runs_snapshot r hr d hd)
  refine ⟨⟨r, j, snapshot⟩, ?_, rfl, rfl⟩
  simp only [candidates, List.mem_flatMap, List.mem_map, List.mem_filter]
  grind [ht.snapshots_key, Table.row?_eq_some_iff]

/-- **A ready job is granted** to an idle capable runner, and the grant breaks
no constraint. -/
theorem leaseJob_grants (s : Settings) (now : Time) (lease : Uuid) {w : Runner} (ht : t.Constraints)
    (hbuilt : ∀ r ∈ t.runs, ∃ cfg, r.Built cfg) (hremote : ∀ r ∈ t.runs, r.runnerID = none)
    (hw : w ∈ t.runners) (hprotocol : w.protocolVersion = 2) (honline : w.status = .online)
    (hidle : t.activeJobs w.id < w.maxParallel) (hr : r ∈ t.runs)
    (hsnapshot : r.sourceSnapshotSHA256.isSome = true) (hj : j ∈ r.jobs)
    (hclaim : r.claimable w.dockerAvailable j = true) :
    ∃ t' l, leaseJob s now w.id lease t = .ok (t', some l) ∧ t'.Constraints := by
  have hw? : Table.row? Runner.id w.id t.runners = some w :=
    (Table.row?_eq_some_iff ht.runners_key).2 ⟨hw, rfl⟩
  obtain ⟨c₀, hc₀, -⟩ := Rows.exists_candidate ht hr hsnapshot hj hclaim
  have hne := List.ne_nil_of_mem hc₀
  obtain ⟨c, hc⟩ : ∃ c, ((t.candidates w.dockerAvailable).insertionSort
      fun a b => a.precedes s b = true).head? = some c := by
    refine Option.isSome_iff_exists.1 (List.isSome_head?.2 fun hnil => hne ?_)
    have hlen := (List.perm_insertionSort (fun a b : Candidate => a.precedes s b = true)
      (t.candidates w.dockerAvailable)).length_eq
    grind
  have hcmem : c ∈ t.candidates w.dockerAvailable :=
    (List.perm_insertionSort _ _).mem_iff.1 (List.mem_of_mem_head? hc)
  obtain ⟨hcrun, hcjob, hcclaim⟩ := Rows.mem_candidates hcmem
  obtain ⟨cfg, hcfg⟩ := hbuilt c.run hcrun
  obtain ⟨hparse, job, hjob⟩ := hcfg.parse hcjob
  have hstatic : c.run.SameStatic (c.run.grant now w.id lease c.job.name) :=
    (Change.grant (s := s) w.id lease hcjob hcclaim).static
  have hvalid : (t.putRun (c.run.grant now w.id lease c.job.name)).Constraints := by
    refine ht.putRun hcrun hstatic.id hstatic.sourceSnapshotSHA256
      ((ht.runs c.run hcrun).grant (hremote c.run hcrun) hcjob hcclaim) ?_
    intro k' hk' i hi
    rw [Run.grant_jobs] at hk'
    obtain ⟨k, hk, rfl⟩ := Table.mem_updateWhere.1 hk'
    split_ifs at hi
    · obtain rfl : w.id = i := by simpa [Job.grant] using hi
      exact List.mem_map.2 ⟨w, hw, rfl⟩
    · exact ht.jobs_runner c.run hcrun k hk i hi
  refine ⟨_, c.lease now w.id lease job, ?_, hvalid⟩
  grind [leaseJob]

/-- **No run is stuck.**  In every reachable database, whatever requests led to
it, a run that was not created by an SCM trigger keeps the guarantees of
`Run.Live`; and when it is unfinished with no job running, any idle runner that
speaks the protocol and has Docker is granted a job if it asks. -/
theorem run_live {tr : List (Step Database Request)} {db : Database} (h : Reaches s tr db)
    (hok : ∀ st ∈ tr, st.act.Accepted) (hr : r ∈ db.runs) (hu : db.Untriggered r) :
    r.Live ∧ (r.status.terminal = false → (∀ j ∈ r.jobs, j.status ≠ .running) →
      ∀ w ∈ db.runners, w.protocolVersion = 2 → w.status = .online →
        w.dockerAvailable = true → db.activeJobs w.id < w.maxParallel →
        ∀ now lease, ∃ l, (db.serve s ⟨now, .leaseJob w.id lease⟩).2 = .ok (.lease (some l))) := by
  obtain ⟨hsched, hsettled⟩ := h.scheduled hok r hr
  have hlive := hsched.live (hsettled hu)
  refine ⟨hlive, ?_⟩
  intro hactive hnone w hw hprotocol honline hdocker hidle now lease
  obtain ⟨j, hj, hclaim⟩ :=
    hsched.exists_claimable (hsettled hu) (db.valid.runs r hr) hactive hnone
  obtain ⟨t', l, hlease, hvalid⟩ := leaseJob_grants s now lease db.valid
    (fun x hx => (h.scheduled hok x hx).1.built)
    (fun x hx => (h.scheduled hok x hx).1.remote) hw hprotocol honline hidle hr
    hsched.snapshot hj (by rw [hdocker]; exact hclaim)
  refine ⟨l, ?_⟩
  simp only [Database.serve, exec, hlease, Except.map, Database.commit, hvalid, dif_pos]

/-- Between the two jobs of the sample, when the first has passed and the second waits, the run
is alive and the idle runner is granted a job. -/
theorem sample_run_live : ∃ r ∈ (Database.empty.after Sample.settings (Sample.relay.take 4)).runs,
      r.jobs.map Job.status = [.passed, .pending] ∧ r.Live ∧
        ∃ l, ((Database.empty.after Sample.settings (Sample.relay.take 4)).serve Sample.settings
          ⟨4, .leaseJob 7 101⟩).2 = .ok (.lease (some l)) := by
  obtain ⟨r, hr, hjobs, hactive, hnone⟩ :
      ∃ r ∈ (Database.empty.after Sample.settings (Sample.relay.take 4)).runs,
        r.jobs.map Job.status = [.passed, .pending] ∧ r.status.terminal = false ∧
          ∀ j ∈ r.jobs, j.status ≠ .running := by decide
  obtain ⟨w, hw, hid, hprotocol, honline, hdocker, hidle⟩ :
      ∃ w ∈ (Database.empty.after Sample.settings (Sample.relay.take 4)).runners,
        w.id = 7 ∧ w.protocolVersion = 2 ∧ w.status = .online ∧ w.dockerAvailable = true ∧
          (Database.empty.after Sample.settings (Sample.relay.take 4)).activeJobs w.id <
            w.maxParallel := by decide
  have huntriggered :
      (Database.empty.after Sample.settings (Sample.relay.take 4)).triggers = [] := by decide
  obtain ⟨hlive, hgranted⟩ := run_live
    (Database.record_trace Sample.settings .empty (Sample.relay.take 4))
    (fun st hst => Sample.relay_accepted _ (List.mem_of_mem_take (Database.act_mem_of_record hst)))
    hr (fun g hg => by rw [huntriggered] at hg; cases hg)
  exact ⟨r, hr, hjobs, hlive, hid ▸ hgranted hactive hnone w hw hprotocol honline hdocker hidle
    4 101⟩

end Postgres
