import ForgeCI.Submission

/-!
# The remote runner and its heartbeats

`forge-runner`: three loops of a process share the map `active` of leased jobs
under a mutex.  `sendHeartbeat` copies the leases into a request, waits for the
HTTP exchange and then goes through the map again with the response;
`requestLease` adds jobs and a job that is done removes itself.  The sections
under the mutex, the transactions of the server and the messages in between are
separate actions here, so that all of them interleave.

`sendHeartbeat` cancels a job for which the response has no result, and a job
that was added after the request had been built has none.
-/

namespace RemoteRunner

open Postgres Traces

/-- `activeJob`, with whether its context has been cancelled. -/
structure ActiveJob where
  lease : JobLease
  canceled : Bool := false

def ActiveJob.id (j : ActiveJob) : Uuid := j.lease.leaseID

/-- The map `active`, whose keys are the lease ids. -/
structure ActiveJobs where
  jobs : List ActiveJob
  distinct : (jobs.map ActiveJob.id).Nodup

def ActiveJobs.empty : ActiveJobs := ⟨[], List.nodup_nil⟩

/-- `active[id]`. -/
def ActiveJobs.job? (active : ActiveJobs) (id : Uuid) : Option ActiveJob :=
  Table.row? ActiveJob.id id active.jobs

/-- Go through the map and rewrite its values. -/
def ActiveJobs.update (active : ActiveJobs) (f : ActiveJob → ActiveJob)
    (hf : ∀ j, (f j).id = j.id) : ActiveJobs where
  jobs := active.jobs.map f
  distinct := by
    rw [List.map_map, show ActiveJob.id ∘ f = ActiveJob.id from funext hf]
    exact active.distinct

/-- `delete(active, id)`. -/
def ActiveJobs.delete (active : ActiveJobs) (id : Uuid) : ActiveJobs where
  jobs := active.jobs.filter (·.id ≠ id)
  distinct := active.distinct.sublist (List.filter_sublist.map _)

/-- `active[job.lease.LeaseID] = job`. -/
def ActiveJobs.put (active : ActiveJobs) (job : ActiveJob) : ActiveJobs where
  jobs := (active.delete job.id).jobs ++ [job]
  distinct := by
    rw [List.map_append, List.map_singleton, ← List.concat_eq_append]
    refine (active.delete job.id).distinct.concat ?_
    intro hmem
    obtain ⟨j, hj, hid⟩ := List.mem_map.1 hmem
    simp [ActiveJobs.delete, hid] at hj

/-- The body of a heartbeat response. -/
structure HeartbeatResponse where
  leases : List LeaseHeartbeatResult
  serverShutdown : Bool
deriving DecidableEq

/-- Where `sendHeartbeat` stands: the request has been built, or answered. -/
inductive Heartbeat
  | idle
  | sent (leases : List LeaseHeartbeat)
  | answered (leases : List LeaseHeartbeat) (response : HeartbeatResponse)
deriving DecidableEq

/-- Where `requestLease` stands. -/
inductive Leasing
  | idle
  | requested
  | granted (lease : JobLease)
deriving DecidableEq

/-- The part of the configuration that `requestLease` reads. -/
structure Settings where
  maxParallel : Nat
  maxArchiveBytes : Int
  maxLogicalBytes : Int
  maxEntries : Int

/-- The process. -/
structure Process where
  id : Uuid
  config : Settings
  active : ActiveJobs := .empty
  heartbeat : Heartbeat := .idle
  leasing : Leasing := .idle
  stopped : Bool := false

def ActiveJob.heartbeat (j : ActiveJob) : LeaseHeartbeat where
  runID := j.lease.runID
  jobName := j.lease.jobName
  leaseID := j.lease.leaseID
  generation := j.lease.generation

def ActiveJob.cancel (j : ActiveJob) : ActiveJob := { j with canceled := true }

/-- `seen[id]`; of several results for a lease the last counts. -/
def HeartbeatResponse.result? (hb : HeartbeatResponse) (id : Uuid) :
    Option LeaseHeartbeatResult :=
  hb.leases.reverse.find? (·.leaseID = id)

/-- What `sendHeartbeat` does to a job when it has the response. -/
def ActiveJob.heed (hb : HeartbeatResponse) (j : ActiveJob) : ActiveJob :=
  match hb.result? j.id with
  | none => j.cancel
  | some result =>
      if hb.serverShutdown || !result.valid || result.cancelRequested then j.cancel
      else match result.expiresAt with
      | none => j
      | some expires => { j with lease := { j.lease with expiresAt := expires } }

/-- `leaseDeadlineLoop`, on one job. -/
def ActiveJob.expire (now : Time) (j : ActiveJob) : ActiveJob :=
  if j.lease.expiresAt ≤ now then j.cancel else j

theorem ActiveJob.heed_id (hb : HeartbeatResponse) (j : ActiveJob) : (j.heed hb).id = j.id := by
  unfold heed
  split
  · rfl
  · split_ifs
    · rfl
    · split <;> rfl

theorem ActiveJob.expire_id (now : Time) (j : ActiveJob) : (j.expire now).id = j.id := by
  unfold expire
  split_ifs <;> rfl

/-- `cancelActive`. -/
def ActiveJobs.cancelActive (active : ActiveJobs) : ActiveJobs :=
  active.update ActiveJob.cancel fun _ => rfl

/-- The snapshot metadata `requestLease` accepts; it completes other leases with
`ERROR` at once. -/
def Settings.accepts (config : Settings) (lease : JobLease) : Bool :=
  lease.snapshot.format = "tar-gzip-v1" && lease.snapshot.sourceDigest ≠ "" &&
    lease.snapshot.blobDigest ≠ "" && 1 ≤ lease.snapshot.archiveSizeBytes &&
    0 ≤ lease.snapshot.entryCount && 0 ≤ lease.snapshot.logicalSizeBytes &&
    lease.snapshot.archiveSizeBytes ≤ config.maxArchiveBytes &&
    lease.snapshot.logicalSizeBytes ≤ config.maxLogicalBytes &&
    lease.snapshot.entryCount ≤ config.maxEntries

/-- The end of `requestLease`. -/
def Process.addLease (p : Process) (lease : JobLease) : Process :=
  if p.config.accepts lease = true ∧ p.active.jobs.length < p.config.maxParallel then
    { p with active := p.active.put { lease := lease }, leasing := .idle }
  else { p with leasing := .idle }

/-- `Handlers.Heartbeat`; `none` for any status but 200. -/
def handleHeartbeat (s : Postgres.Settings) (now : Time) (shutting : Bool) (runner : Uuid)
    (leases : List LeaseHeartbeat) (db : Database) : Database × Option HeartbeatResponse :=
  if leases.all (fun l => l.jobName ≠ "" && 1 ≤ l.generation) = true ∧
      (leases.map fun l => (l.runID, l.jobName, l.leaseID)).Nodup then
    match db.serve s ⟨now, .heartbeatJobLeases runner leases⟩ with
    | (db, .ok (.heartbeat results)) => (db, some ⟨results, shutting⟩)
    | (db, _) => (db, none)
  else (db, none)

/-- One runner and the server. -/
structure System where
  db : Database
  shutting : Bool := false
  runner : Process

inductive Action
  /-- `sendHeartbeat` builds its request. -/
  | build
  /-- The server handles the request. -/
  | answer (now : Time)
  /-- The exchange fails or ends with another status. -/
  | lose
  /-- `sendHeartbeat` goes through the map with the response. -/
  | process
  /-- The body of the response does not decode. -/
  | garble
  /-- `requestLease` sends its request. -/
  | ask
  /-- The server polls `LeaseJob` for the request. -/
  | lease (now : Time) (lease : Uuid)
  /-- `requestLease` has the response. -/
  | add
  /-- The exchange fails or ends without a lease. -/
  | giveUp
  /-- A job is done and removes itself. -/
  | finish (lease : Uuid)
  | deadline (now : Time)
  /-- The runner shuts down. -/
  | shutdown
  /-- The server starts to shut down. -/
  | stopServer
  /-- Any other request to the store, of this runner or of others. -/
  | other (q : Request)

def System.step (s : Postgres.Settings) (y : System) : Action → Option System
  | .build =>
      -- a tick may still win against the shutdown channel, so `stopped` is not asked
      if y.runner.heartbeat = .idle then
        some { y with runner := { y.runner with
          heartbeat := .sent (y.runner.active.jobs.map ActiveJob.heartbeat) } }
      else none
  | .answer now =>
      match y.runner.heartbeat with
      | .sent leases =>
          match handleHeartbeat s now y.shutting y.runner.id leases y.db with
          | (db, none) => some { y with db := db, runner := { y.runner with heartbeat := .idle } }
          | (db, some hb) =>
              some { y with
                db := db
                runner := { y.runner with heartbeat := .answered leases hb } }
      | _ => none
  | .lose =>
      if y.runner.heartbeat = .idle then none
      else some { y with runner := { y.runner with heartbeat := .idle } }
  | .process =>
      match y.runner.heartbeat with
      | .answered _ hb =>
          some { y with runner := { y.runner with
            active := y.runner.active.update (ActiveJob.heed hb) (ActiveJob.heed_id hb)
            heartbeat := .idle } }
      | _ => none
  | .garble =>
      if y.runner.heartbeat = .idle then none
      else some { y with runner := { y.runner with
        active := y.runner.active.cancelActive
        heartbeat := .idle } }
  | .ask =>
      if y.runner.leasing = .idle ∧ y.runner.stopped = false ∧
          y.runner.active.jobs.length < y.runner.config.maxParallel then
        some { y with runner := { y.runner with leasing := .requested } }
      else none
  | .lease now lease =>
      if y.runner.leasing = .requested then
        match y.db.serve s ⟨now, .leaseJob y.runner.id lease⟩ with
        | (db, .ok (.lease (some l))) =>
            some { y with db := db, runner := { y.runner with leasing := .granted l } }
        | (db, .ok _) => some { y with db := db }
        | (db, .error _) => some { y with db := db, runner := { y.runner with leasing := .idle } }
      else none
  | .add =>
      match y.runner.leasing with
      | .granted lease => some { y with runner := y.runner.addLease lease }
      | _ => none
  | .giveUp =>
      if y.runner.leasing = .idle then none
      else some { y with runner := { y.runner with leasing := .idle } }
  | .finish lease =>
      some { y with runner := { y.runner with active := y.runner.active.delete lease } }
  | .deadline now =>
      some { y with runner := { y.runner with
        active := y.runner.active.update (ActiveJob.expire now) (ActiveJob.expire_id now) } }
  | .shutdown =>
      some { y with runner := { y.runner with
        active := y.runner.active.cancelActive
        stopped := true } }
  | .stopServer => some { y with shutting := true }
  | .other q => some { y with db := (y.db.serve s q).1 }

/-- A runner that has just registered with a server. -/
def System.start (db : Database) (id : Uuid) (config : Settings) : System where
  db := db
  runner := { id := id, config := config }

/-- A run of the runner and the server. -/
abbrev Runs (s : Postgres.Settings) (db : Database) (id : Uuid) (config : Settings)
    (tr : List (Step System Action)) (y : System) : Prop :=
  Trace (fun y a y' => y.step s a = some y') (System.start db id config) tr y

/-- Processing a response cancels a job only if the response reports shutdown or
has a result for the job's lease that is invalid or asks for cancellation. -/
def Heeds (st : Step System Action) : Prop :=
  ∀ leases hb, st.act = .process → st.before.runner.heartbeat = .answered leases hb →
    ∀ id j j', st.before.runner.active.job? id = some j → j.canceled = false →
      st.after.runner.active.job? id = some j' → j'.canceled = true →
      hb.serverShutdown = true ∨
        ∃ x ∈ hb.leases, x.leaseID = id ∧ (x.valid = false ∨ x.cancelRequested = true)

/-- When a response without shutdown is processed, the request carried the lease
of every job that is active and not cancelled. -/
def Current (st : Step System Action) : Prop :=
  ∀ leases hb, st.act = .process → st.before.runner.heartbeat = .answered leases hb →
    hb.serverShutdown = false →
    ∀ id j, st.before.runner.active.job? id = some j → j.canceled = false →
      ∃ l ∈ leases, l.leaseID = id

/-- A response answers the leases of its request, in order. -/
def System.Sane (y : System) : Prop :=
  ∀ leases hb, y.runner.heartbeat = .answered leases hb →
    hb.leases.map LeaseHeartbeatResult.leaseID = leases.map LeaseHeartbeat.leaseID

variable {s : Postgres.Settings} {y y' : System} {a : Action} {hb : HeartbeatResponse}
variable {j : ActiveJob} {id : Uuid}

theorem heartbeat_leaseID (runner : Uuid) (now : Time) (l : LeaseHeartbeat) (t : Rows) :
    (t.heartbeat runner now l).2.leaseID = l.leaseID := by
  unfold Rows.heartbeat
  split <;> rfl

theorem heartbeats_leaseID (runner : Uuid) (now : Time) (leases : List LeaseHeartbeat)
    (t : Rows) : (t.heartbeats runner now leases).2.map LeaseHeartbeatResult.leaseID =
      leases.map LeaseHeartbeat.leaseID := by
  induction leases generalizing t with
  | nil => rfl
  | cons l rest ih =>
    simp only [Rows.heartbeats, List.map_cons]
    rw [heartbeat_leaseID, ih]

/-- The results of `Handlers.Heartbeat` are those of the leases it was sent. -/
theorem handleHeartbeat_answers {now : Time} {shutting : Bool} {runner : Uuid}
    {leases : List LeaseHeartbeat} {db db' : Database}
    (h : handleHeartbeat s now shutting runner leases db = (db', some hb)) :
    hb.leases.map LeaseHeartbeatResult.leaseID = leases.map LeaseHeartbeat.leaseID := by
  unfold handleHeartbeat at h
  split_ifs at h
  · split at h
    · rename_i results hserve
      have hreply : (db.serve s ⟨now, .heartbeatJobLeases runner leases⟩).2 =
          .ok (.heartbeat results) := by rw [hserve]
      obtain ⟨⟨t', results'⟩, hcall, hpair⟩ := map_ok (Database.serve_ok hreply)
      obtain ⟨runners, hresults⟩ := heartbeatJobLeases_ok hcall
      obtain rfl : results' = results := Reply.heartbeat.inj (Prod.mk.inj hpair).2
      rw [← Option.some.inj (Prod.mk.inj h).2, (Prod.mk.inj hresults).2]
      exact heartbeats_leaseID runner now leases _
    · cases (Prod.mk.inj h).2
  · cases (Prod.mk.inj h).2

theorem System.Sane.of_eq (h : y.Sane) (heq : y'.runner.heartbeat = y.runner.heartbeat ∨
    y'.runner.heartbeat = .idle ∨ ∃ leases, y'.runner.heartbeat = .sent leases) : y'.Sane := by
  intro leases hb hanswered
  rcases heq with heq | heq | ⟨sent, heq⟩
  · exact h leases hb (heq ▸ hanswered)
  · rw [heq] at hanswered
    cases hanswered
  · rw [heq] at hanswered
    cases hanswered

/-- Only the server's answer puts a response in the runner's hands. -/
theorem System.Sane.step (h : y.Sane) (hstep : y.step s a = some y') : y'.Sane := by
  cases a with
  | answer now =>
    simp only [System.step] at hstep
    split at hstep
    · rename_i leases _
      split at hstep
      · grind [h.of_eq]
      · rename_i db hb hhandle
        cases hstep
        intro leases' hb' hanswered
        cases hanswered
        exact handleHeartbeat_answers hhandle
    · cases hstep
  | build | process | lease now lease => grind [h.of_eq, System.step]
  | add => grind [h.of_eq, System.step, Process.addLease]
  | lose | garble | ask | giveUp => grind [h.of_eq, System.step]
  | _ =>
    cases hstep
    exact h.of_eq (.inl rfl)

theorem ActiveJobs.job?_update (active : ActiveJobs) {f : ActiveJob → ActiveJob}
    (hf : ∀ j, (f j).id = j.id) (id : Uuid) :
    (active.update f hf).job? id = (active.job? id).map f := by
  simp only [ActiveJobs.job?, ActiveJobs.update, Table.row?, List.find?_map, Function.comp_def, hf]

theorem ActiveJobs.job?_id {active : ActiveJobs} (h : active.job? id = some j) : j.id = id :=
  (Table.row?_some h).2

/-- A response has a result for a lease, or none. -/
theorem HeartbeatResponse.result?_eq_none_iff :
    hb.result? id = none ↔ id ∉ hb.leases.map LeaseHeartbeatResult.leaseID := by
  simp [HeartbeatResponse.result?]

theorem HeartbeatResponse.result?_some {x : LeaseHeartbeatResult} (h : hb.result? id = some x) :
    x ∈ hb.leases ∧ x.leaseID = id :=
  ⟨List.mem_reverse.1 (List.mem_of_find?_eq_some h), by simpa using List.find?_some h⟩

/-- **Which jobs a response cancels.** -/
theorem ActiveJob.heed_canceled (hj : j.canceled = false) : (j.heed hb).canceled = true ↔
    hb.result? j.id = none ∨ ∃ x, hb.result? j.id = some x ∧
      (hb.serverShutdown = true ∨ x.valid = false ∨ x.cancelRequested = true) := by
  unfold heed
  cases hb.result? j.id with
  | none => simp [ActiveJob.cancel]
  | some x =>
    dsimp only
    by_cases hbad : (hb.serverShutdown || !x.valid || x.cancelRequested) = true
    · grind [ActiveJob.cancel]
    · grind

/-- The jobs after a response has been processed. -/
theorem System.process_job? {leases : List LeaseHeartbeat} (hstep : y.step s .process = some y')
    (hanswered : y.runner.heartbeat = .answered leases hb) (id : Uuid) :
    y'.runner.active.job? id = (y.runner.active.job? id).map (ActiveJob.heed hb) := by
  simp only [System.step, hanswered] at hstep
  cases hstep
  exact y.runner.active.job?_update (ActiveJob.heed_id hb) id

/-- **One response.**  It is the server's word that cancels jobs exactly when the
request carried all of them. -/
theorem heeds_iff_current {st : Step System Action} (hsane : st.before.Sane)
    (hstep : st.before.step s st.act = some st.after) : Heeds st ↔ Current st := by
  constructor
  · intro hheeds leases hb hact hanswered hshutdown id j hj hlive
    by_contra hlate
    have hsent : id ∉ hb.leases.map LeaseHeartbeatResult.leaseID := by
      rw [hsane leases hb hanswered]
      grind
    have hnone : hb.result? j.id = none := by
      rw [ActiveJobs.job?_id hj]
      exact HeartbeatResponse.result?_eq_none_iff.2 hsent
    rw [hact] at hstep
    have hafter := System.process_job? hstep hanswered id
    rw [hj] at hafter
    rcases hheeds leases hb hact hanswered id j _ hj hlive hafter
      ((ActiveJob.heed_canceled hlive).2 (.inl hnone)) with hdown | ⟨x, hx, hid, -⟩
    · rw [hshutdown] at hdown
      cases hdown
    · exact hsent (List.mem_map.2 ⟨x, hx, hid⟩)
  · intro hcurrent leases hb hact hanswered id j j' hj hlive hj' hcanceled
    by_cases hshutdown : hb.serverShutdown = true
    · exact .inl hshutdown
    rw [hact] at hstep
    have hafter := System.process_job? hstep hanswered id
    rw [hj, hj'] at hafter
    cases hafter
    obtain ⟨l, hl, hid⟩ :=
      hcurrent leases hb hact hanswered (by simpa using hshutdown) id j hj hlive
    have hjid := ActiveJobs.job?_id hj
    rcases (ActiveJob.heed_canceled hlive).1 hcanceled with hnone | ⟨x, hx, hbad⟩
    · rw [hjid, HeartbeatResponse.result?_eq_none_iff, hsane leases hb hanswered] at hnone
      exact absurd (List.mem_map.2 ⟨l, hl, hid⟩) hnone
    · grind [hbad.resolve_left, HeartbeatResponse.result?_some]

/-- Going through the map with a response ends a computed run. -/
theorem run_process {db : Database} {runner : Uuid} {config : Settings} {acts : List Action}
    {leases : List LeaseHeartbeat}
    (h : acts.foldlM (System.step s) (System.start db runner config) = some y)
    (hanswered : y.runner.heartbeat = .answered leases hb) :
    ∃ tr y', Runs s db runner config (tr ++ [⟨y, .process, y'⟩]) y' ∧
      tr.map Step.act = acts ∧
      ∀ id, y'.runner.active.job? id = (y.runner.active.job? id).map (ActiveJob.heed hb) := by
  obtain ⟨tr, htr, hacts⟩ := Trace.of_foldlM h
  obtain ⟨y', hstep⟩ : ∃ y', y.step s .process = some y' := by
    simp [System.step, hanswered]
  exact ⟨tr, y', htr.snoc hstep, hacts, System.process_job? hstep hanswered⟩

/-- **The runner cancels work only on the server's word, exactly when no response
meets a job that its request did not carry.**  In every run of a runner and a
server, from any database: processing heartbeat responses cancels only what they
report as invalid or canceled, or everything on shutdown, if and only if whenever
a response without shutdown is processed every job that is active and not yet
cancelled was among the leases sent. -/
theorem heartbeats_heeded_iff {db : Database} {runner : Uuid} {config : Settings}
    {tr : List (Step System Action)} (h : Runs s db runner config tr y) :
    (∀ st ∈ tr, Heeds st) ↔ ∀ st ∈ tr, Current st := by
  have hstart : (System.start db runner config).Sane := fun leases hb hanswered => by
    cases hanswered
  have hsane := h.invariant System.Sane hstart fun y a y' hy hs => hy.step hs
  refine forall₂_congr fun st hst => ?_
  obtain ⟨-, -, hstep⟩ := h.step_of_mem hst
  exact heeds_iff_current (hsane st hst).1 hstep

/-- There is room for the lease that is asked for. -/
structure Process.Room (limit : Nat) (p : Process) : Prop where
  active : p.active.jobs.length ≤ limit
  leasing : p.leasing ≠ .idle → p.active.jobs.length < limit

theorem Process.Room.step (h : y.runner.Room y.runner.config.maxParallel)
    (hstep : y.step s a = some y') :
    y'.runner.Room y.runner.config.maxParallel ∧ y'.runner.config = y.runner.config := by
  have hactive := h.active
  have hleasing := h.leasing
  have hdelete (id : Uuid) := List.length_filter_le (·.id ≠ id) y.runner.active.jobs
  -- `ask` leaves a slot free, `add` fills it; no other section adds a job.
  cases a <;> simp only [System.step] at hstep <;> refine ⟨⟨?_, ?_⟩, ?_⟩ <;>
    grind [Process.addLease, ActiveJobs.put, ActiveJobs.delete, ActiveJobs.update,
      ActiveJobs.cancelActive]

/-- **Capacity.**  Whatever interleaves, a runner has no more than `max-parallel`
jobs, and the test of the capacity after the exchange never drops a lease that the
one before it let the runner ask for: every lease granted to it and accepted by it
becomes a job. -/
theorem leases_fit {db : Database} {runner : Uuid} {config : Settings}
    {tr : List (Step System Action)} (h : Runs s db runner config tr y) :
    ∀ st ∈ tr, st.after.runner.active.jobs.length ≤ config.maxParallel ∧
      ∀ lease, st.act = .add → st.before.runner.leasing = .granted lease →
        config.accepts lease = true →
        st.after.runner.active.job? lease.leaseID = some { lease := lease } := by
  intro st hst
  obtain ⟨⟨hroom, hconfig⟩, hroom', -⟩ := h.invariant
    (fun y => y.runner.Room config.maxParallel ∧ y.runner.config = config)
    ⟨⟨Nat.zero_le _, fun hne => absurd rfl hne⟩, rfl⟩
    (fun y a y' hy hs => by
      obtain ⟨hy, rfl⟩ := hy
      exact hy.step hs) st hst
  refine ⟨hroom'.active, fun lease hact hgranted haccepts => ?_⟩
  obtain ⟨-, -, hstep⟩ := h.step_of_mem hst
  have hfree := hroom.leasing (by simp [hgranted])
  simp only [hact, System.step, hgranted, Option.some.injEq] at hstep
  rw [← hstep, Process.addLease, hconfig, if_pos ⟨haccepts, hfree⟩]
  exact (Table.row?_eq_some_iff (ActiveJobs.distinct _)).2 ⟨by simp [ActiveJobs.put], rfl⟩

/-! ## Two runs

The server of the sample pipeline, with its runner registered.  In the first run
the lease is granted while a heartbeat without leases is on its way, in the
second before the heartbeat is built. -/

namespace Sample

open Postgres.Sample (settings input)

def server : Database :=
  Database.empty.after settings [⟨0, .createRun input⟩, ⟨1, .registerRunner Postgres.Sample.runner⟩]

def config : Settings := ⟨1, 100, 100, 100⟩

def late : List Action := [.build, .ask, .lease 2 100, .add, .answer 3]

def early : List Action := [.ask, .lease 2 100, .add, .build, .answer 3]

/-- The state before the response is processed. -/
def reached (acts : List Action) : Option System :=
  acts.foldlM (System.step settings) (System.start server 7 config)

/-- What the response meets: its request, its body and the job. -/
def meets (y : System) : Heartbeat × Option Bool :=
  (y.runner.heartbeat, (y.runner.active.job? 100).map ActiveJob.canceled)

end Sample

/-- **A job leased while a heartbeat is in flight is cancelled** by a response that
does not mention it. -/
theorem late_lease_cancelled :
    ∃ tr y, Runs Postgres.Sample.settings Sample.server 7 Sample.config tr y ∧
      tr.map Step.act = Sample.late ++ [.process] ∧ ¬ ∀ st ∈ tr, Heeds st := by
  have hmeets : (Sample.reached Sample.late).map Sample.meets =
      some (.answered [] ⟨[], false⟩, some false) := by decide
  obtain ⟨y, hy, hpair⟩ := Option.map_eq_some_iff.1 hmeets
  obtain ⟨hanswered, hjob⟩ := Prod.mk.inj hpair
  obtain ⟨j, hj, hlive⟩ := Option.map_eq_some_iff.1 hjob
  obtain ⟨tr, y', hrun, hacts, hafter⟩ := run_process hy hanswered
  refine ⟨_, y', hrun, by simp [hacts], fun hheeds => ?_⟩
  have hcancel : (j.heed ⟨[], false⟩).canceled = true :=
    (ActiveJob.heed_canceled hlive).2 (.inl rfl)
  rcases hheeds ⟨y, .process, y'⟩ (List.mem_append_right _ (List.mem_singleton_self _)) [] _ rfl
    hanswered 100 j _ hj hlive (by rw [hafter, hj]; rfl) hcancel with hdown | ⟨x, hx, -⟩
  · cases hdown
  · cases hx

/-- A heartbeat built after the lease was added keeps to the server's word. -/
theorem early_lease_heeded :
    ∃ tr y, Runs Postgres.Sample.settings Sample.server 7 Sample.config tr y ∧
      tr.map Step.act = Sample.early ++ [.process] ∧ ∀ st ∈ tr, Heeds st := by
  have hmeets : ((Sample.reached Sample.early).map fun y =>
      (y.runner.heartbeat, y.runner.active.jobs.map ActiveJob.id)) =
      some (.answered [⟨1, "build", 100, 1⟩]
        ⟨[⟨1, "build", 100, 1, true, false, some (3 + jobLeaseTTL)⟩], false⟩, [100]) := by decide
  obtain ⟨y, hy, hpair⟩ := Option.map_eq_some_iff.1 hmeets
  obtain ⟨hanswered, hids⟩ := Prod.mk.inj hpair
  obtain ⟨tr, y', hrun, hacts, -⟩ := run_process hy hanswered
  refine ⟨_, y', hrun, by simp [hacts], (heartbeats_heeded_iff hrun).2 fun st hst => ?_⟩
  rcases List.mem_append.1 hst with hst | hst
  · intro leases hb hact
    have hmem : Action.process ∈ Sample.early := hact ▸ hacts ▸ List.mem_map_of_mem hst
    simp [Sample.early] at hmem
  · obtain rfl := List.mem_singleton.1 hst
    intro leases hb _ hanswered' _ id j hj _
    obtain ⟨rfl, -⟩ := Heartbeat.answered.inj (hanswered.symm.trans hanswered')
    obtain ⟨hmem, hid⟩ := Table.row?_some hj
    have hmem' : j.id ∈ y.runner.active.jobs.map ActiveJob.id := List.mem_map_of_mem hmem
    rw [hids, hid] at hmem'
    exact ⟨_, List.mem_singleton_self _, (List.mem_singleton.1 hmem').symm⟩

/-- In the first run the lease takes the only slot. -/
theorem late_lease_fits : ∃ tr y, Runs Postgres.Sample.settings Sample.server 7 Sample.config tr y ∧
      tr.map Step.act = Sample.late ∧ y.runner.active.jobs.length = 1 ∧
      ∀ st ∈ tr, st.after.runner.active.jobs.length ≤ 1 := by
  have hjobs : (Sample.reached Sample.late).map (·.runner.active.jobs.length) = some 1 := by decide
  obtain ⟨tr, y, htr, hacts, hlength⟩ := Trace.of_foldlM_map hjobs
  exact ⟨tr, y, htr, hacts, hlength, fun st hst => (leases_fit htr st hst).1⟩

end RemoteRunner
