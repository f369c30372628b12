import ForgeCI.System

/-!
# Leases as a runner sees them

A lease is known outside the store by its tuple: run, job, runner, lease id and
generation.  This module says which steps of a run of the system granted,
renewed or used a tuple, by the replies, and what that means for the rows.
-/

namespace Postgres

open Traces

/-- The tuple in a job row. -/
def Run.ownership (r : Run) (j : Job) : Ownership where
  runID := r.id
  runnerID := j.runnerID
  leaseID := j.leaseID
  jobName := j.name
  generation := j.leaseGeneration

def JobLease.ownership (l : JobLease) : Ownership where
  runID := l.runID
  runnerID := some l.runnerID
  leaseID := some l.leaseID
  jobName := l.jobName
  generation := l.generation

def LeaseHeartbeatResult.ownership (runner : Uuid) (x : LeaseHeartbeatResult) : Ownership where
  runID := x.runID
  runnerID := some runner
  leaseID := some x.leaseID
  jobName := x.jobName
  generation := x.generation

/-- The reply of a recorded step. -/
def reply (s : Settings) (st : Step Database Request) : Except StoreError Reply :=
  (st.before.serve s st.act).2

/-- `LeaseJob` returned the lease. -/
def Grants (s : Settings) (st : Step Database Request) (o : Ownership) : Prop :=
  ∃ runner lease l, st.act.call = .leaseJob runner lease ∧
    reply s st = .ok (.lease (some l)) ∧ l.ownership = o

/-- `HeartbeatJobLeases` returned a valid result for the lease. -/
def Renews (s : Settings) (st : Step Database Request) (o : Ownership) : Prop :=
  ∃ runner leases results, st.act.call = .heartbeatJobLeases runner leases ∧
    reply s st = .ok (.heartbeat results) ∧
    ∃ x ∈ results, x.valid = true ∧ x.ownership runner = o

/-- `CompleteJob` succeeded under the lease. -/
def Completes (s : Settings) (st : Step Database Request) (o : Ownership) : Prop :=
  ∃ status message, st.act.call = .completeJob o status message ∧ reply s st = .ok .done

/-- `CommitArtifacts` succeeded for a runner under the lease. -/
def Publishes (s : Settings) (st : Step Database Request) (o : Ownership) : Prop :=
  o.runnerID ≠ none ∧ ∃ items, st.act.call = .commitArtifacts o items ∧ reply s st = .ok .done

/-- The step used the lease successfully. -/
def Uses (s : Settings) (st : Step Database Request) (o : Ownership) : Prop :=
  Completes s st o ∨ Renews s st o ∨ Publishes s st o

/-- The step set the time at which the lease expires. -/
def Extends (s : Settings) (st : Step Database Request) (o : Ownership) : Prop :=
  Grants s st o ∨ Renews s st o

/-- A running job is leased to the tuple, and the lease has not expired. -/
def Rows.Leased (t : Rows) (now : Time) (o : Ownership) : Prop :=
  ∃ r ∈ t.runs, ∃ j ∈ r.jobs, r.id = o.runID ∧ j.name = o.jobName ∧
    j.holdsLease o now = true

variable {s : Settings} {now : Time} {t t' : Rows} {o : Ownership} {r r' : Run} {j j' : Job}

/-- The tuple that holds the lease of a row is the tuple in the row. -/
theorem Run.ownership_of_holdsLease (hid : r.id = o.runID) (hname : j.name = o.jobName)
    (h : j.holdsLease o now = true) : r.ownership j = o := by
  obtain ⟨runner, lease, -, hrunner, hlease, hjrunner, hjlease, hgen, -⟩ :=
    Job.holdsLease_iff.1 h
  simp only [ownership, hid, hjrunner, hjlease, hname, hgen, ← hrunner, ← hlease]

theorem Rows.Leased.row (h : t.Leased now o) : ∃ r ∈ t.runs, ∃ j ∈ r.jobs,
    r.ownership j = o ∧ j.status = .running ∧
      ∃ expires, j.leaseExpiresAt = some expires ∧ now < expires := by
  obtain ⟨r, hr, j, hj, hid, hname, hholds⟩ := h
  grind [Job.holdsLease_iff, Run.ownership_of_holdsLease]

/-- The primary keys of the runs and of their jobs. -/
structure Rows.Keyed (t : Rows) : Prop where
  runs : (t.runs.map Run.id).Nodup
  jobs : ∀ r ∈ t.runs, (r.jobs.map Job.name).Nodup

theorem Rows.Constraints.keyed (h : t.Constraints) : t.Keyed :=
  ⟨h.runs_key, fun r hr => (h.runs r hr).jobs_key⟩

theorem jobLeaseTTL_pos : 0 < jobLeaseTTL := by decide

/-- A renewed row is leased to whom it was leased before. -/
theorem Job.holdsLease_renew {o' : Ownership} (h : j.holdsLease o' now = true) :
    (j.renew now).holdsLease o now = j.holdsLease o now := by
  obtain ⟨-, -, expires, -, -, -, -, -, -, hexpires, hlt⟩ := Job.holdsLease_iff.1 h
  have hpos : now < now + jobLeaseTTL := Nat.lt_add_of_pos_right jobLeaseTTL_pos
  rw [Bool.eq_iff_iff, Job.holdsLease_iff, Job.holdsLease_iff]
  constructor
  · rintro ⟨runner, lease, -, h1, h2, h3, h4, h5, h6, -⟩
    exact ⟨runner, lease, expires, h1, h2, h3, h4, h5, h6, hexpires, hlt⟩
  · rintro ⟨runner, lease, -, h1, h2, h3, h4, h5, h6, -⟩
    exact ⟨runner, lease, now + jobLeaseTTL, h1, h2, h3, h4, h5, h6, rfl, hpos⟩

/-- The row of a job after the heartbeats of a list. -/
def Job.renewedBy (runner : Uuid) (now : Time) (ls : List LeaseHeartbeat) (j : Job) : Job :=
  if ls.any (fun l => l.jobName = j.name && j.holdsLease (l.owner runner) now) then
    j.renew now
  else j

theorem Job.renewedBy_cons (runner : Uuid) (now : Time) (l : LeaseHeartbeat)
    (rest : List LeaseHeartbeat) (j : Job) :
    j.renewedBy runner now (l :: rest) = Job.renewedBy runner now rest
      (if j.name = l.jobName && j.holdsLease (l.owner runner) now then j.renew now else j) := by
  by_cases hj : j.name = l.jobName ∧ j.holdsLease (l.owner runner) now = true
  · have hrenewed : (j.renew now).renewedBy runner now rest = j.renew now := by
      unfold renewedBy
      split_ifs <;> rfl
    grind [renewedBy]
  · grind [renewedBy]

/-- The rows the heartbeats of a list leave in one run. -/
theorem Run.renewAll_jobs (runner : Uuid) (now : Time) (ls : List LeaseHeartbeat) (r : Run) :
    (r.renewAll runner now ls).jobs = r.jobs.map (Job.renewedBy runner now ls) := by
  induction ls generalizing r with
  | nil => exact (List.map_id _).symm
  | cons l rest ih =>
    rw [show (r.renewAll runner now (l :: rest)) =
      (r.renew (l.owner runner) now).renewAll runner now rest from rfl, ih]
    simp only [renew, updateJobs, Table.updateWhere, List.map_map]
    refine List.map_congr_left fun j _ => ?_
    exact (j.renewedBy_cons runner now l rest).symm

/-- A heartbeat that matches no row of a run leaves the run alone. -/
theorem Run.renew_eq_self (h : ∀ j ∈ r.jobs, j.name = o.jobName → j.holdsLease o now = false) :
    r.renew o now = r := by
  have hjobs : Table.updateWhere (fun j : Job => j.name = o.jobName && j.holdsLease o now)
      (Job.renew now) r.jobs = r.jobs := by
    refine (List.map_congr_left fun j hj => ?_).trans (List.map_id _)
    grind
  simp only [renew, updateJobs, hjobs]

theorem Rows.leasedRun?_none (hkey : t.Keyed) (h : t.leasedRun? o now = none) (hr : r ∈ t.runs)
    (hid : r.id = o.runID) (hj : j ∈ r.jobs) (hname : j.name = o.jobName) :
    j.holdsLease o now = false := by
  have hrun : t.run? o.runID = some r := (Table.row?_eq_some_iff hkey.runs).2 ⟨hr, hid⟩
  have hjob : r.job? o.jobName = some j :=
    (Table.row?_eq_some_iff (hkey.jobs r hr)).2 ⟨hj, hname⟩
  simpa [leasedRun?, hrun, hjob] using h

/-- One heartbeat, on all the runs. -/
theorem Rows.heartbeat_runs_eq (hkey : t.Keyed) (runner : Uuid) (now : Time) (l : LeaseHeartbeat) :
    (t.heartbeat runner now l).1.runs =
      t.runs.map fun r => if l.runID = r.id then r.renew (l.owner runner) now else r := by
  unfold heartbeat
  split
  · rename_i hnone
    refine ((List.map_congr_left fun r hr => ?_).trans (List.map_id _)).symm
    split_ifs with hid
    · exact Run.renew_eq_self fun j hj hname =>
        Rows.leasedRun?_none hkey hnone hr hid.symm hj hname
    · rfl
  · rename_i r hsome
    obtain ⟨hmem, hid⟩ := Table.row?_some (Rows.leasedRun?_some hsome).1
    refine List.map_congr_left fun x hx => ?_
    by_cases hxr : x.id = r.id
    · obtain rfl := List.inj_on_of_nodup_map hkey.runs hx hmem hxr
      have hl : l.runID = x.id := hid.symm
      simp [hl, Run.renew, Run.updateJobs]
    · have hl : l.runID ≠ x.id := fun heq => hxr (heq.symm.trans hid.symm)
      simp [hl, Run.renew, Run.updateJobs, hxr]

/-- The run after one heartbeat. -/
def Run.heartbeat (runner : Uuid) (now : Time) (l : LeaseHeartbeat) (r : Run) : Run :=
  if l.runID = r.id then r.renew (l.owner runner) now else r

theorem Run.heartbeat_id (runner : Uuid) (now : Time) (l : LeaseHeartbeat) (r : Run) :
    (r.heartbeat runner now l).id = r.id := by
  unfold heartbeat
  split_ifs <;> rfl

/-- The row of a job after one heartbeat is leased to whom it was leased before. -/
theorem Run.heartbeat_jobs (runner : Uuid) (now : Time) (l : LeaseHeartbeat) (r : Run) :
    List.Forall₂ (fun j j' : Job => j'.name = j.name ∧
        ∀ o, j'.holdsLease o now = j.holdsLease o now)
      r.jobs (r.heartbeat runner now l).jobs := by
  unfold heartbeat
  split_ifs
  · refine Table.forall₂_updateWhere fun j _ => ?_
    split_ifs with hj
    · simp only [Bool.and_eq_true] at hj
      exact ⟨rfl, fun o => Job.holdsLease_renew hj.2⟩
    · exact ⟨rfl, fun _ => rfl⟩
  · exact List.forall₂_same.2 fun j _ => ⟨rfl, fun _ => rfl⟩

theorem Rows.Keyed.heartbeat (hkey : t.Keyed) (runner : Uuid) (now : Time)
    (l : LeaseHeartbeat) : (t.heartbeat runner now l).1.Keyed := by
  have hruns := Rows.heartbeat_runs_eq hkey runner now l
  constructor
  · rw [hruns, List.map_map]
    refine (List.map_congr_left fun r _ => ?_).symm ▸ hkey.runs
    exact r.heartbeat_id runner now l
  · intro r' hr'
    rw [hruns] at hr'
    obtain ⟨r, hr, rfl⟩ := List.mem_map.1 hr'
    have hnames := Table.map_eq_of_forall₂ (f := Job.name) (g := Job.name)
      (r.heartbeat_jobs runner now l) fun _ _ h => h.1
    exact hnames ▸ hkey.jobs r hr

theorem Rows.leased_heartbeat (hkey : t.Keyed) (runner : Uuid) (l : LeaseHeartbeat) :
    (t.heartbeat runner now l).1.Leased now o ↔ t.Leased now o := by
  unfold Leased
  rw [Rows.heartbeat_runs_eq hkey]
  constructor
  · rintro ⟨r', hr', j', hj', hid, hname, hholds⟩
    obtain ⟨r, hr, rfl⟩ := List.mem_map.1 hr'
    obtain ⟨j, hj, hjname, hjholds⟩ := Table.exists_old (r.heartbeat_jobs runner now l) hj'
    exact ⟨r, hr, j, hj, (r.heartbeat_id runner now l).symm.trans hid, hjname.symm.trans hname,
      (hjholds o).symm.trans hholds⟩
  · rintro ⟨r, hr, j, hj, hid, hname, hholds⟩
    obtain ⟨j', hj', hjname, hjholds⟩ := Table.exists_new (r.heartbeat_jobs runner now l) hj
    exact ⟨_, List.mem_map.2 ⟨r, hr, rfl⟩, j', hj',
      (r.heartbeat_id runner now l).trans hid, hjname.trans hname, (hjholds o).trans hholds⟩

/-- The loop of heartbeats, on all the runs. -/
theorem Rows.heartbeats_runs_eq (hkey : t.Keyed) (runner : Uuid) (now : Time)
    (leases : List LeaseHeartbeat) : (t.heartbeats runner now leases).1.runs =
      t.runs.map fun r => r.renewAll runner now (leases.filter (·.runID = r.id)) := by
  induction leases generalizing t with
  | nil => exact (List.map_id _).symm
  | cons l rest ih =>
    rw [show (t.heartbeats runner now (l :: rest)).1 =
      ((t.heartbeat runner now l).1.heartbeats runner now rest).1 from rfl,
      ih (hkey.heartbeat runner now l), Rows.heartbeat_runs_eq hkey, List.map_map]
    refine List.map_congr_left fun r _ => ?_
    by_cases hid : l.runID = r.id
    · simp only [Function.comp, if_pos hid, List.filter_cons, decide_eq_true hid]
      rfl
    · simp [Function.comp, hid]

theorem Rows.leasedRun?_isSome (hkey : t.Keyed) :
    (t.leasedRun? o now).isSome = true ↔ t.Leased now o := by
  constructor
  · intro h
    obtain ⟨r, hr⟩ := Option.isSome_iff_exists.1 h
    obtain ⟨hrun, j, hj, hholds⟩ := Rows.leasedRun?_some hr
    obtain ⟨hmem, hid⟩ := Table.row?_some hrun
    obtain ⟨hjmem, hname⟩ := Table.row?_some hj
    exact ⟨r, hmem, j, hjmem, hid, hname, hholds⟩
  · rintro ⟨r, hr, j, hj, hid, hname, hholds⟩
    by_contra hnone
    rw [Bool.not_eq_true, Option.isSome_eq_false_iff, Option.isNone_iff_eq_none] at hnone
    simp [Rows.leasedRun?_none hkey hnone hr hid hj hname] at hholds

/-- One heartbeat is reported valid exactly when the lease is held. -/
theorem Rows.heartbeat_valid (hkey : t.Keyed) (runner : Uuid) (now : Time) (l : LeaseHeartbeat) :
    (t.heartbeat runner now l).2.ownership runner = l.owner runner ∧
      ((t.heartbeat runner now l).2.valid = true ↔ t.Leased now (l.owner runner)) := by
  rw [← Rows.leasedRun?_isSome hkey]
  unfold heartbeat
  split
  · rename_i hnone
    exact ⟨rfl, by simp [hnone, LeaseHeartbeat.lost]⟩
  · rename_i r hsome
    exact ⟨rfl, by simp [hsome]⟩

/-- **A heartbeat call reports as valid exactly the leases it was asked about
that are held.** -/
theorem Rows.heartbeats_valid (hkey : t.Keyed) (runner : Uuid) (leases : List LeaseHeartbeat) :
    (∃ x ∈ (t.heartbeats runner now leases).2, x.valid = true ∧ x.ownership runner = o) ↔
      (∃ l ∈ leases, l.owner runner = o) ∧ t.Leased now o := by
  induction leases generalizing t with
  | nil => simp [heartbeats]
  | cons l rest ih =>
    obtain ⟨howner, hvalid⟩ := Rows.heartbeat_valid hkey runner now l
    have hrest := ih (hkey.heartbeat runner now l)
    rw [Rows.leased_heartbeat hkey] at hrest
    rw [show (t.heartbeats runner now (l :: rest)).2 = (t.heartbeat runner now l).2 ::
      ((t.heartbeat runner now l).1.heartbeats runner now rest).2 from rfl]
    grind

variable {db db' : Database} {q : Request} {st : Step Database Request}

theorem and3_eq_true {a b : Option Bool} :
    and3 a b = some true ↔ a = some true ∧ b = some true := by
  rcases a with _ | _ | _ <;> rcases b with _ | _ | _ <;> simp [and3]

theorem Job.holdsLease_of_leaseMatches
    (hmatches : j.leaseMatches o now = some true) (hrunning : j.status = .running) :
    j.holdsLease o now = true := by
  simp only [leaseMatches, and3_eq_true, Option.map_eq_some_iff, Option.some.injEq,
    decide_eq_true_eq] at hmatches
  obtain ⟨⟨⟨⟨runner, hjr, hr⟩, lease, hjl, hl⟩, hgen⟩, expires, hexpires, hlt⟩ := hmatches
  exact Job.holdsLease_iff.2 ⟨runner, lease, expires, hr.symm, hl.symm, hjr, hjl, hgen,
    hrunning, hexpires, hlt⟩

/-- What a successful heartbeat call did. -/
theorem renews_iff : Renews s st o ↔ ∃ runner leases results,
    st.act.call = .heartbeatJobLeases runner leases ∧
      reply s st = .ok (.heartbeat results) ∧ (∃ l ∈ leases, l.owner runner = o) ∧
      st.before.Leased st.act.now o := by
  refine exists_congr fun runner => exists_congr fun leases => exists_congr fun results =>
    and_congr_right fun hcall => and_congr_right fun hreply => ?_
  have hexec := Database.serve_ok hreply
  rw [hcall] at hexec
  obtain ⟨⟨t₁, results'⟩, hok, heq⟩ := map_ok hexec
  obtain ⟨-, heq⟩ := Prod.mk.inj heq
  obtain rfl : results' = results := by simpa using heq
  obtain ⟨runners, hboth⟩ := heartbeatJobLeases_ok hok
  rw [(Prod.mk.inj hboth).2]
  exact Rows.heartbeats_valid (t := { st.before.toRows with runners := runners })
    ⟨st.before.valid.keyed.runs, st.before.valid.keyed.jobs⟩ runner leases

/-- **Whoever uses a lease successfully holds it, and it has not expired.** -/
theorem Uses.leased (h : Uses s st o) : st.before.Leased st.act.now o := by
  rcases h with ⟨status, message, hcall, hreply⟩ | hrenews | ⟨hrunner, items, hcall, hreply⟩
  · have hexec := Database.serve_ok hreply
    rw [hcall] at hexec
    obtain ⟨-, hrun⟩ := completeJob_ok (map_done hexec).1
    obtain ⟨r, r', hr, hok, -⟩ := Rows.onRun_ok hrun
    obtain ⟨j, hj, hholds, -, -⟩ := Run.complete_ok hok
    obtain ⟨hmem, hid⟩ := Table.row?_some hr
    obtain ⟨hjmem, hname⟩ := Table.row?_some hj
    exact ⟨r, hmem, j, hjmem, hid, hname, hholds⟩
  · obtain ⟨-, -, -, -, -, -, hleased⟩ := renews_iff.1 hrenews
    exact hleased
  · have hexec := Database.serve_ok hreply
    rw [hcall] at hexec
    obtain ⟨r, r', hr, hok, -⟩ := Rows.onRun_ok (map_done hexec).1
    obtain ⟨-, j, -, -, hj, hrunning, hmatches, -⟩ := Run.commitArtifacts_ok hok
    obtain ⟨hmem, hid⟩ := Table.row?_some hr
    obtain ⟨hjmem, hname⟩ := Table.row?_some hj
    exact ⟨r, hmem, j, hjmem, hid, hname,
      Job.holdsLease_of_leaseMatches (hmatches.resolve_left hrunner) hrunning⟩

/-- A job row that is left alone, or ended. -/
def Ends (j j' : Job) : Prop :=
  j' = j ∨ j'.status.unfinished = false

theorem Blocks.ends (h : Blocks now j j') : Ends j j' := by
  rcases h with rfl | ⟨-, rfl⟩
  · exact .inl rfl
  · exact .inr rfl

theorem Ends.trans {j₁ j₂ j₃ : Job} (h : Ends j₁ j₂) (h' : Ends j₂ j₃) : Ends j₁ j₃ := by
  rcases h' with rfl | h'
  · exact h
  · exact .inr h'

variable {p : Job → Bool}

theorem Run.updateJobs_ends {f : Job → Job} (hf : ∀ j, (f j).status.unfinished = false) :
    List.Forall₂ Ends r.jobs (r.updateJobs p f).jobs := by
  refine Table.forall₂_updateWhere fun j _ => ?_
  split_ifs
  · exact .inr (hf j)
  · exact .inl rfl

theorem Run.abortJobs_ends {message : String}
    (h : r.abortJobs s p now message = .ok r') : List.Forall₂ Ends r.jobs r'.jobs := by
  rcases Run.abortJobs_spec h with rfl | ⟨-, jobs, hblocks, hfin⟩
  · exact List.forall₂_same.2 fun j _ => .inl rfl
  · rw [Run.finalizeRun_jobs hfin]
    exact Table.forall₂_trans (T := Ends) (fun _ _ _ h h' => h.trans h'.ends)
      (Run.updateJobs_ends fun _ => rfl) hblocks

/-- Only `LeaseJob` and heartbeats write a row that stays unfinished. -/
theorem Change.ends {call : Call} (h : Change s now call r r') :
    (∃ runner lease, call = .leaseJob runner lease) ∨
      (∃ runner leases, call = .heartbeatJobLeases runner leases) ∨
      List.Forall₂ Ends r.jobs r'.jobs := by
  cases h with
  | grant runner lease => exact .inl ⟨runner, lease, rfl⟩
  | @renew _ runner leases part => exact .inr (.inl ⟨runner, leases, rfl⟩)
  | @complete _ _ owner status message reportable _ ok =>
    obtain ⟨jobs, hblocks, hfin⟩ := Run.complete_spec ok
    refine .inr (.inr ?_)
    rw [Run.finalizeRun_jobs hfin]
    refine Table.forall₂_trans (T := Ends) (fun _ _ _ h h' => h.trans h'.ends)
      (Run.updateJobs_ends fun j => ?_) hblocks
    cases status <;> first | rfl | cases reportable
  | expireLeases ok => exact .inr (.inr (Run.abortJobs_ends ok))
  | recover ok =>
    refine .inr (.inr ?_)
    have hlegacy : List.Forall₂ Ends r.jobs (r.abandonLegacy s now).jobs := by
      unfold Run.abandonLegacy
      split_ifs
      · exact Run.updateJobs_ends (r := { r with jobs := r.jobs }) fun _ => rfl
      · exact List.forall₂_same.2 fun j _ => .inl rfl
    exact Table.forall₂_trans (T := Ends) (fun _ _ _ h h' => h.trans h') hlegacy
      (Run.abortJobs_ends ok)
  | cancelQueued _ ok =>
    obtain ⟨-, rfl⟩ := Run.cancelQueued_ok ok
    exact .inr (.inr (Run.updateJobs_ends (r := { r with jobs := r.jobs }) fun _ => rfl))
  | requestCancel _ ok =>
    rw [Run.finalizeRun_jobs (Run.requestCancel_ok ok).2]
    exact .inr (.inr (Run.updateJobs_ends (r := { r with jobs := r.jobs }) fun _ => rfl))
  | commitArtifacts _ ok =>
    obtain ⟨_, rfl⟩ := Run.commitArtifacts_frame ok
    exact .inr (.inr (List.forall₂_same.2 fun j _ => .inl rfl))
  | expireArtifacts => exact .inr (.inr (List.forall₂_same.2 fun j _ => .inl rfl))

/-- The lease of a running job after a request: set by the request, or as it was
before. -/
def Tracked (s : Settings) (db : Database) (q : Request) (db' : Database) (r' : Run)
    (j' : Job) : Prop :=
  (Extends s ⟨db, q, db'⟩ (r'.ownership j') ∧
      j'.leaseExpiresAt = some (q.now + jobLeaseTTL)) ∨
    (¬ Extends s ⟨db, q, db'⟩ (r'.ownership j') ∧ ∃ r ∈ db.runs, ∃ j ∈ r.jobs,
      r.ownership j = r'.ownership j' ∧ j.status = .running ∧
        j.leaseExpiresAt = j'.leaseExpiresAt)

theorem Extends.call (h : Extends s st o) : (∃ runner lease, st.act.call = .leaseJob runner lease) ∨
      ∃ runner leases, st.act.call = .heartbeatJobLeases runner leases := by
  rcases h with ⟨runner, lease, -, hcall, -⟩ | ⟨runner, leases, -, hcall, -⟩
  · exact .inl ⟨runner, lease, hcall⟩
  · exact .inr ⟨runner, leases, hcall⟩

theorem Extends.reply_ok (h : Extends s st o) : ∃ x, reply s st = .ok x := by
  rcases h with ⟨_, _, _, _, hreply, _⟩ | ⟨_, _, _, _, hreply, _⟩ <;> exact ⟨_, hreply⟩

theorem Run.grant_id (now : Time) (runner lease : Uuid) (name : String) (r : Run) :
    (r.grant now runner lease name).id = r.id := by
  unfold grant start
  split_ifs <;> rfl

/-- A request that failed changed nothing. -/
theorem Tracked.of_error {e : StoreError} (hsame : db' = db)
    (herror : (db.serve s q).2 = .error e) (hr' : r' ∈ db'.runs) (hj' : j' ∈ r'.jobs)
    (hrunning : j'.status = .running) : Tracked s db q db' r' j' := by
  subst hsame
  refine .inr ⟨fun hext => ?_, r', hr', j', hj', rfl, hrunning, rfl⟩
  obtain ⟨x, hx⟩ := hext.reply_ok
  cases herror.symm.trans hx

/-- `LeaseJob` tracks the lease it grants. -/
theorem Served.running_leaseJob {runner lease : Uuid} {granted : Option JobLease}
    (hcall : q.call = .leaseJob runner lease) (hreply : (db.serve s q).2 = .ok (.lease granted))
    (hok : leaseJob s q.now runner lease db.toRows = .ok (db'.toRows, granted))
    (hr' : r' ∈ db'.runs) (hj' : j' ∈ r'.jobs) (hrunning : j'.status = .running) :
    Tracked s db q db' r' j' := by
  have hgrants : ∀ o, Extends s ⟨db, q, db'⟩ o → ∃ l, granted = some l ∧ l.ownership = o := by
    rintro o (⟨_, _, l, _, hl, rfl⟩ | ⟨_, _, _, hheartbeat, _⟩)
    · have hsame : Reply.lease granted = .lease (some l) :=
        Except.ok.inj (hreply.symm.trans hl)
      exact ⟨l, by simpa using hsame, rfl⟩
    · grind
  have hkey := db.valid.keyed
  rcases leaseJob_ok hok with ⟨hrows, rfl⟩ | ⟨w, c, cfg, job, -, hc, -, -, hrows, rfl⟩
  · grind [Tracked]
  · obtain ⟨hrun, hjob, hclaim⟩ := Rows.mem_candidates hc
    have hpending := (Run.claimable_iff.1 hclaim).2.2.1
    have hgranted : ∀ {o : Ownership}, Extends s ⟨db, q, db'⟩ o →
        (c.lease q.now runner lease job).ownership = o := by grind
    rw [hrows] at hr'
    obtain ⟨x, hx, heq⟩ := Table.mem_updateWhere.1 hr'
    by_cases hid : x.id = c.run.id
    · -- The run the grant was made in.
      obtain rfl := List.inj_on_of_nodup_map hkey.runs hx hrun hid
      rw [if_pos (by simpa using (c.run.grant_id _ _ _ _).symm)] at heq
      subst heq
      rw [Run.grant_jobs] at hj'
      obtain ⟨k, hk, heq⟩ := Table.mem_updateWhere.1 hj'
      by_cases hjc : k.name = c.job.name ∧ k.status = .pending
      · obtain rfl := List.inj_on_of_nodup_map (hkey.jobs _ hrun) hk hjob hjc.1
        rw [if_pos (by simpa using hjc)] at heq
        subst heq
        refine .inl ⟨.inl ⟨runner, lease, _, hcall, hreply, ?_⟩, rfl⟩
        simp [JobLease.ownership, Candidate.lease, Run.ownership, Job.grant, Run.grant_id]
      · rw [if_neg (by simpa using hjc)] at heq
        subst heq
        refine .inr ⟨fun hext => ?_, c.run, hrun, k, hk, ?_, hrunning, rfl⟩
        · have hname : c.job.name = k.name := congrArg Ownership.jobName (hgranted hext)
          obtain rfl := List.inj_on_of_nodup_map (hkey.jobs _ hrun) hjob hk hname
          simp [hpending] at hrunning
        · simp [Run.ownership, Run.grant_id]
    · rw [if_neg (by simpa [Run.grant_id] using hid)] at heq
      subst heq
      refine .inr ⟨fun hext => ?_, x, hx, j', hj', rfl, hrunning, rfl⟩
      exact hid (congrArg Ownership.runID (hgranted hext)).symm

/-- A heartbeat call tracks the leases it renews. -/
theorem Served.running_heartbeat {runner : Uuid} {leases : List LeaseHeartbeat}
    {results : List LeaseHeartbeatResult} (hcall : q.call = .heartbeatJobLeases runner leases)
    (hreply : (db.serve s q).2 = .ok (.heartbeat results))
    (hok : heartbeatJobLeases q.now runner leases db.toRows = .ok (db'.toRows, results))
    (hr' : r' ∈ db'.runs) (hj' : j' ∈ r'.jobs) (hrunning : j'.status = .running) :
    Tracked s db q db' r' j' := by
  have hkey := db.valid.keyed
  obtain ⟨runners, hboth⟩ := heartbeatJobLeases_ok hok
  rw [(Prod.mk.inj hboth).1, Rows.heartbeats_runs_eq (t := { db.toRows with runners := runners })
    ⟨hkey.runs, hkey.jobs⟩] at hr'
  obtain ⟨r, hr, rfl⟩ := List.mem_map.1 hr'
  rw [Run.renewAll_jobs] at hj'
  obtain ⟨j, hj, rfl⟩ := List.mem_map.1 hj'
  obtain ⟨jobs, hrenewed, -⟩ := r.renewAll_spec runner q.now (leases.filter (·.runID = r.id))
  rw [hrenewed]
  have hjob : ∀ {l : LeaseHeartbeat}, l ∈ leases → l.runID = r.id → l.jobName = j.name →
      j.holdsLease (l.owner runner) q.now = true →
      j.renewedBy runner q.now (leases.filter (·.runID = r.id)) = j.renew q.now := by
    intro l hl hid hname hholds
    refine if_pos (List.any_eq_true.2 ⟨l, List.mem_filter.2 ⟨hl, by simpa using hid⟩, ?_⟩)
    simp [hname, hholds]
  by_cases hmatch : ∃ l ∈ leases, l.runID = r.id ∧ l.jobName = j.name ∧
      j.holdsLease (l.owner runner) q.now = true
  · obtain ⟨l, hl, hid, hname, hholds⟩ := hmatch
    rw [hjob hl hid hname hholds]
    refine .inl ⟨.inr (renews_iff.2 ⟨runner, leases, results, hcall, hreply, ⟨l, hl, ?_⟩, ?_⟩), rfl⟩
    · exact (Run.ownership_of_holdsLease (r := r) hid.symm hname.symm hholds).symm
    · have hleased : db.Leased q.now (l.owner runner) :=
        ⟨r, hr, j, hj, hid.symm, hname.symm, hholds⟩
      rw [← Run.ownership_of_holdsLease (r := r) hid.symm hname.symm hholds] at hleased
      exact hleased
  · have hrow : j.renewedBy runner q.now (leases.filter (·.runID = r.id)) = j := by
      refine if_neg fun hany => hmatch ?_
      grind
    rw [hrow] at hrunning ⊢
    refine .inr ⟨?_, r, hr, j, hj, rfl, hrunning, rfl⟩
    rintro (⟨_, _, _, hlease, _⟩ | hrenews)
    · grind
    · obtain ⟨runner', leases', -, hcall', -, ⟨l, hl, howner⟩, r₁, hr₁, j₁, hj₁, hid₁, hname₁,
        hholds₁⟩ := renews_iff.1 hrenews
      obtain ⟨rfl, rfl⟩ : runner' = runner ∧ leases' = leases := by
        simpa using hcall'.symm.trans hcall
      obtain rfl := List.inj_on_of_nodup_map hkey.runs hr₁ hr hid₁
      obtain rfl := List.inj_on_of_nodup_map (hkey.jobs _ hr) hj₁ hj hname₁
      refine hmatch ⟨l, hl, congrArg Ownership.runID howner,
        congrArg Ownership.jobName howner, ?_⟩
      rw [howner]
      exact hholds₁

/-- Every other request leaves the leases of running jobs alone. -/
theorem Served.running_other (h : Served s db q db')
    (hlease : ¬ ∃ runner lease, q.call = .leaseJob runner lease)
    (hheartbeat : ¬ ∃ runner leases, q.call = .heartbeatJobLeases runner leases)
    (hr' : r' ∈ db'.runs) (hj' : j' ∈ r'.jobs) (hrunning : j'.status = .running) :
    Tracked s db q db' r' j' := by
  have hnone : ¬ Extends s ⟨db, q, db'⟩ (r'.ownership j') := fun hext =>
    hext.call.elim hlease hheartbeat
  have hkeep : ∀ r ∈ db.runs, r'.id = r.id → j' ∈ r.jobs → Tracked s db q db' r' j' := by
    grind [Run.ownership, Served, Tracked]
  rcases h.run_origin hr' with ⟨input, snapshot, -, -, rfl⟩ | ⟨r, hr, hstep⟩
  · obtain ⟨_, _, rfl⟩ := List.mem_map.1 hj'
    cases hrunning
  · have hid := hstep.static.id
    rcases hstep with rfl | hchange | ⟨-, -, -, rfl⟩
    · exact hkeep _ hr rfl hj'
    · have hends := (hchange.ends.resolve_left hlease).resolve_left hheartbeat
      obtain ⟨j, hj, rfl | hended⟩ := Table.exists_old hends hj'
      · exact hkeep r hr hid hj
      · rw [hrunning] at hended
        cases hended
    · exact hkeep r hr hid hj'

/-- **The lease of a running job is tracked by every request.** -/
theorem Served.running (h : Served s db q db') (hr' : r' ∈ db'.runs) (hj' : j' ∈ r'.jobs)
    (hrunning : j'.status = .running) : Tracked s db q db' r' j' := by
  by_cases hlease : ∃ runner lease, q.call = .leaseJob runner lease
  case neg =>
    by_cases hheartbeat : ∃ runner leases, q.call = .heartbeatJobLeases runner leases
    case neg => exact h.running_other hlease hheartbeat hr' hj' hrunning
    obtain ⟨runner, leases, hcall⟩ := hheartbeat
    subst h
    rcases db.serve_cases s q with ⟨t', reply', hexec, rfl, hreply⟩ | ⟨hsame, e, herror⟩
    · rw [hcall] at hexec
      obtain ⟨⟨t₁, results⟩, hok, heq⟩ := map_ok hexec
      grind [Served.running_heartbeat]
    · exact Tracked.of_error hsame herror hr' hj' hrunning
  obtain ⟨runner, lease, hcall⟩ := hlease
  subst h
  rcases db.serve_cases s q with ⟨t', reply', hexec, rfl, hreply⟩ | ⟨hsame, e, herror⟩
  · rw [hcall] at hexec
    obtain ⟨⟨t₁, granted⟩, hok, heq⟩ := map_ok hexec
    grind [Served.running_leaseJob]
  · exact Tracked.of_error hsame herror hr' hj' hrunning

/-- A property that every change of a job row keeps persists along a run. -/
theorem Served.persists {P : Job → Prop} (hP : ∀ now r j j', JobStep now r j j' → P j → P j')
    {tr : List (Step Database Request)} (h : Trace (Served s) db tr db')
    (hr : r ∈ db.runs) (hj : j ∈ r.jobs) (hPj : P j) :
    ∃ r' ∈ db'.runs, r'.id = r.id ∧ ∃ j' ∈ r'.jobs, j'.name = j.name ∧ P j' := by
  refine Served.run_persists (P := fun r' => ∃ j' ∈ r'.jobs, j'.name = j.name ∧ P j') ?_ h hr
    ⟨j, hj, rfl, hPj⟩
  rintro db₁ q r₁ r₂ hr₁ hstep ⟨j₁, hj₁, hname₁, hP₁⟩
  rcases hstep with rfl | hchange | ⟨-, -, -, rfl⟩
  · exact ⟨j₁, hj₁, hname₁, hP₁⟩
  · obtain ⟨j₂, hj₂, hjob⟩ := Table.exists_new (hchange.jobs (db₁.valid.keyed.jobs r₁ hr₁)) hj₁
    exact ⟨j₂, hj₂, hjob.name_eq.trans hname₁, hP _ _ _ _ hjob hP₁⟩
  · exact ⟨j₁, hj₁, hname₁, hP₁⟩

/-- No change takes a run out of a terminal status. -/
theorem Change.terminal {call : Call} (h : Change s now call r r')
    (hterm : r.status.terminal = true) : r'.status = r.status := by
  have hfinal : ∀ {r₁ r₂ : Run}, r₁.status = r.status → r₁.finalizeRun s now = .ok r₂ →
      r₂.status = r.status := by
    intro r₁ r₂ hsame hfin
    rcases Run.finalizeRun_ok hfin with ⟨rfl, -⟩ | ⟨-, hactive, -⟩
    · exact hsame
    · rw [hsame, hterm] at hactive
      cases hactive
  have habort : ∀ {p : Job → Bool} {message : String},
      r.abortJobs s p now message = .ok r' → r'.status = r.status := by
    intro p message hok
    rcases Run.abortJobs_spec hok with rfl | ⟨-, jobs, -, hfin⟩
    · rfl
    · refine hfinal ?_ hfin
      rfl
  cases h with
  | grant runner lease mem claimable => grind [Run.claimable_iff]
  | @renew _ runner _ part =>
    obtain ⟨jobs, heq, -⟩ := r.renewAll_spec runner now part
    rw [heq]
    rfl
  | complete _ _ ok =>
    obtain ⟨jobs, -, hfin⟩ := Run.complete_spec ok
    refine hfinal ?_ hfin
    rfl
  | expireLeases ok => exact habort ok
  | recover ok =>
    have hlegacy : r.abandonLegacy s now = r := by
      refine if_neg fun hrunning => ?_
      rw [hrunning.1] at hterm
      cases hterm
    rw [Run.recover, hlegacy] at ok
    exact habort ok
  | cancelQueued _ ok =>
    rw [(Run.cancelQueued_ok ok).1] at hterm
    cases hterm
  | requestCancel _ ok =>
    rw [(Run.requestCancel_ok ok).1] at hterm
    cases hterm
  | commitArtifacts _ ok =>
    obtain ⟨_, rfl⟩ := Run.commitArtifacts_frame ok
    rfl
  | expireArtifacts => rfl

theorem Run.finalizeRun_status (h : r.finalizeRun s now = .ok r') :
    r'.status = r.status ∨ r'.status.terminal = true := by
  rcases Run.finalizeRun_ok h with ⟨rfl, -⟩ | ⟨-, -, -, rfl⟩
  · exact .inl rfl
  · exact .inr r.finalStatus_terminal

theorem Run.abortJobs_status {message : String} (h : r.abortJobs s p now message = .ok r') :
    r'.status = r.status ∨ r'.status.terminal = true := by
  rcases Run.abortJobs_spec h with rfl | ⟨-, jobs, -, hfin⟩
  · exact .inl rfl
  · have hstatus := Run.finalizeRun_status hfin
    exact hstatus

/-- No change takes a run back to `QUEUED`. -/
theorem Change.status {call : Call} (h : Change s now call r r') :
    r'.status = r.status ∨ r'.status = .running ∨ r'.status.terminal = true := by
  cases h with
  | grant runner lease mem claimable =>
    unfold Run.grant Run.start
    split_ifs
    · exact .inr (.inl rfl)
    · exact .inl rfl
  | @renew _ runner _ part =>
    obtain ⟨jobs, heq, -⟩ := r.renewAll_spec runner now part
    rw [heq]
    exact .inl rfl
  | complete _ _ ok =>
    obtain ⟨jobs, -, hfin⟩ := Run.complete_spec ok
    have hstatus := Run.finalizeRun_status hfin
    exact hstatus.imp_right .inr
  | expireLeases ok => exact (Run.abortJobs_status ok).imp_right .inr
  | recover ok =>
    rcases Run.abortJobs_status ok with hsame | hterm
    · rw [hsame]
      unfold Run.abandonLegacy
      split_ifs
      · exact .inr (.inr rfl)
      · exact .inl rfl
    · exact .inr (.inr hterm)
  | cancelQueued _ ok =>
    obtain ⟨-, rfl⟩ := Run.cancelQueued_ok ok
    exact .inr (.inr rfl)
  | requestCancel _ ok =>
    have hstatus := Run.finalizeRun_status (Run.requestCancel_ok ok).2
    exact hstatus.imp_right .inr
  | commitArtifacts _ ok =>
    obtain ⟨_, rfl⟩ := Run.commitArtifacts_frame ok
    exact .inl rfl
  | expireArtifacts => exact .inl rfl

/-- A run keeps its terminal status along a run of the system. -/
theorem Served.terminal {tr : List (Step Database Request)} (h : Trace (Served s) db tr db')
    (hr : r ∈ db.runs) (hterm : r.status.terminal = true) :
    ∃ r' ∈ db'.runs, r'.id = r.id ∧ r'.status = r.status := by
  refine Served.run_persists (P := fun r' => r'.status = r.status) ?_ h hr rfl
  intro db₁ q r₁ r₂ hr₁ hstep hstatus₁
  rw [← hstatus₁] at hterm
  rcases hstep with rfl | hchange | ⟨_, _, hsuperseded, _⟩
  · exact hstatus₁
  · exact (hchange.terminal hterm).trans hstatus₁
  · grind [Rows.superseded_iff]

theorem Run.finalizeRun_cancelRequestedAt (h : r.finalizeRun s now = .ok r') :
    r'.cancelRequestedAt = r.cancelRequestedAt := by
  rcases Run.finalizeRun_ok h with ⟨rfl, -⟩ | ⟨-, -, -, rfl⟩ <;> rfl

theorem Run.abortJobs_cancelRequestedAt {message : String}
    (h : r.abortJobs s p now message = .ok r') :
    r'.cancelRequestedAt = r.cancelRequestedAt := by
  rcases Run.abortJobs_spec h with rfl | ⟨-, jobs, -, hfin⟩
  · rfl
  · rw [Run.finalizeRun_cancelRequestedAt hfin]
    rfl

/-- Only a request to cancel a run marks it. -/
theorem Change.cancelRequestedAt (h : Change s now call r r') :
    r'.cancelRequestedAt = r.cancelRequestedAt ∨
      ((call = .requestCancel r.id ∨ call = .cancelQueued r.id) ∧
        r'.cancelRequestedAt.isSome = true) := by
  cases h with
  | grant => exact .inl Run.grant_cancelRequestedAt
  | @renew _ runner _ part =>
    obtain ⟨jobs, heq, -⟩ := r.renewAll_spec runner now part
    rw [heq]
    exact .inl rfl
  | complete _ _ ok =>
    obtain ⟨jobs, -, hfin⟩ := Run.complete_spec ok
    rw [Run.finalizeRun_cancelRequestedAt hfin]
    exact .inl rfl
  | expireLeases ok => exact .inl (Run.abortJobs_cancelRequestedAt ok)
  | recover ok =>
    rw [Run.abortJobs_cancelRequestedAt ok]
    unfold Run.abandonLegacy
    split_ifs <;> exact .inl rfl
  | cancelQueued target ok =>
    obtain ⟨-, rfl⟩ := Run.cancelQueued_ok ok
    exact .inr ⟨.inr (by rw [target]), rfl⟩
  | requestCancel target ok =>
    rw [Run.finalizeRun_cancelRequestedAt (Run.requestCancel_ok ok).2]
    exact .inr ⟨.inl (by rw [target]), rfl⟩
  | commitArtifacts target ok =>
    obtain ⟨_, rfl⟩ := Run.commitArtifacts_frame ok
    exact .inl rfl
  | expireArtifacts => exact .inl rfl

/-- A run that was asked to cancel stays so. -/
theorem RunStep.canceled (h : RunStep s now t call r r')
    (hcanceled : r.cancelRequestedAt.isSome = true) : r'.cancelRequestedAt.isSome = true := by
  rcases h with rfl | hchange | ⟨-, -, -, rfl⟩
  · exact hcanceled
  · grind [hchange.cancelRequestedAt]
  · show (if r.status = .running then some now else r.cancelRequestedAt).isSome = true
    split_ifs
    · rfl
    · exact hcanceled

end Postgres
