import ForgeCI.Commits

/-!
# The store operations of in-process execution

The operations that only the local execution mode calls: the manager claims a queued run as
a whole, writes the status of each job as its scheduler reports it, and ends the run; at
startup it ends the runs that were interrupted.  None of them looks at a lease.
-/

namespace Postgres

/-- The row `UpdateJob` writes. -/
def Job.update (status : JobStatus) (now : Time) (message : Option String) (j : Job) : Job :=
  { j with
    status := status
    startedAt := if status = .running then some (j.startedAt.getD now) else j.startedAt
    finishedAt := if status.unfinished then j.finishedAt else some now
    errorMessage := message }

/-- The `UPDATE` of `UpdateJob`, which does not look at the old status. -/
def Run.updatedRows (name : String) (status : JobStatus) (now : Time) (message : Option String)
    (r : Run) : Run :=
  r.updateJobs (·.name = name) (Job.update status now message)

/-- `UpdateJob`. -/
def Run.updateJob (s : Settings) (name : String) (status : JobStatus) (now : Time)
    (message : Option String) (r : Run) : Except StoreError Run :=
  match r.passGate s name status with
  | .error e => .error e
  | .ok () =>
      match r.job? name with
      | none => .error .notFound
      | some _ => .ok (r.updatedRows name status now message)

/-- `FinishRun`. -/
def Run.finishRun (s : Settings) (status : RunStatus) (now : Time) (message : Option String)
    (r : Run) : Except StoreError Run :=
  if r.status = .running then
    .ok ({ r with
      status := status
      finishedAt := some now
      errorMessage := message }.stampArtifacts s.artifactRetention)
  else .error .conflict

/-- The update of `ClaimNextQueuedRun`. -/
def Run.claim (now : Time) (r : Run) : Run :=
  { r with status := .running, startedAt := some now }

/-- `RecoverInterrupted` on one run: the jobs keep their lease columns. -/
def Run.interrupt (s : Settings) (now : Time) (r : Run) : Run :=
  if r.status = .running then
    ({ r with
      status := RunStatus.aborted
      finishedAt := some now
      errorMessage := some "control plane restarted before run completed" }.updateJobs
        (·.status.unfinished)
        (Job.finish .aborted now (some "control plane restarted before run completed"))
      ).stampArtifacts s.artifactRetention
  else r

/-- `ClaimNextQueuedRun`. -/
def claimNextQueuedRun (now : Time) (t : Rows) : Rows × Option Run :=
  match ((t.runs.filter fun r => r.status = .queued).insertionSort fun a b =>
      a.createdAt < b.createdAt ∨ (a.createdAt = b.createdAt ∧ a.id ≤ b.id)).head? with
  | none => (t, none)
  | some r => (t.putRun (r.claim now), some (r.claim now))

inductive LocalCall
  | claimNextQueuedRun
  | updateJob (id : Uuid) (name : String) (status : JobStatus) (message : Option String)
  | finishRun (id : Uuid) (status : RunStatus) (message : Option String)
  | recoverInterrupted

/-- Execute a call; the reply is the run that was claimed, if one was. -/
def execLocal (s : Settings) (now : Time) (t : Rows) :
    LocalCall → Except StoreError (Rows × Option Run)
  | .claimNextQueuedRun => .ok (claimNextQueuedRun now t)
  | .updateJob id name status message =>
      (t.onRun id .notFound (Run.updateJob s name status now message)).map (·, none)
  | .finishRun id status message =>
      (t.onRun id .conflict (Run.finishRun s status now message)).map (·, none)
  | .recoverInterrupted => .ok ({ t with runs := t.runs.map (Run.interrupt s now) }, none)

def Database.serveLocal (s : Settings) (db : Database) (now : Time) (call : LocalCall) :
    Database × Except StoreError (Option Run) :=
  db.commit (execLocal s now db.toRows call)

variable {s : Settings} {now : Time} {t t' : Rows} {r r' : Run} {j j' : Job}

/-- What a call of the local mode does to one run. -/
inductive LocalChange (s : Settings) (now : Time) : LocalCall → Run → Run → Prop
  | claim {r : Run} (queued : r.status = .queued) :
      LocalChange s now .claimNextQueuedRun r (r.claim now)
  | update {r r' : Run} {id : Uuid} {name : String} {status : JobStatus}
      {message : Option String} (target : id = r.id)
      (ok : r.updateJob s name status now message = .ok r') :
      LocalChange s now (.updateJob id name status message) r r'
  | finish {r r' : Run} {id : Uuid} {status : RunStatus} {message : Option String}
      (target : id = r.id) (ok : r.finishRun s status now message = .ok r') :
      LocalChange s now (.finishRun id status message) r r'
  | interrupt {r : Run} (running : r.status = .running) :
      LocalChange s now .recoverInterrupted r (r.interrupt s now)

theorem Run.updateJob_ok {name : String} {status : JobStatus} {message : Option String}
    (h : r.updateJob s name status now message = .ok r') :
    r.passGate s name status = .ok () ∧ (∃ j, r.job? name = some j) ∧
      r' = r.updatedRows name status now message := by
  grind [updateJob]

theorem Run.finishRun_ok {status : RunStatus} {message : Option String}
    (h : r.finishRun s status now message = .ok r') :
    r.status = .running ∧ r' = { r with
      status := status
      finishedAt := some now
      errorMessage := message }.stampArtifacts s.artifactRetention := by
  unfold finishRun at h
  split_ifs at h with hrunning
  exact ⟨hrunning, (Except.ok.inj h).symm⟩

/-- No operation of the local mode writes the static columns. -/
theorem LocalChange.static {call : LocalCall} (h : LocalChange s now call r r') :
    r.SameStatic r' := by
  cases h with
  | claim => exact ⟨rfl, rfl, rfl, rfl, rfl, rfl, fun h => h⟩
  | update _ ok =>
    obtain ⟨-, -, rfl⟩ := Run.updateJob_ok ok
    exact r.updateJobs_static _ _
  | finish _ ok =>
    obtain ⟨-, rfl⟩ := Run.finishRun_ok ok
    exact ⟨rfl, rfl, rfl, rfl, rfl, rfl, fun h => h⟩
  | interrupt running =>
    rw [Run.interrupt, if_pos running]
    exact ⟨rfl, rfl, rfl, rfl, rfl, rfl, fun h => h⟩

theorem claimNextQueuedRun_cases (now : Time) (t : Rows) :
    claimNextQueuedRun now t = (t, none) ∨ ∃ r ∈ t.runs, r.status = .queued ∧
      claimNextQueuedRun now t = (t.putRun (r.claim now), some (r.claim now)) := by
  unfold claimNextQueuedRun
  split
  · exact .inl rfl
  · rename_i r hr
    have hmem := (List.perm_insertionSort _ _).mem_iff.1 (List.mem_of_mem_head? hr)
    grind

/-- An operation on one run changes that run only. -/
theorem Rows.onRun_forall₂ {id : Uuid} {missing : StoreError} {f : Run → Except StoreError Run}
    {R : Run → Run → Prop} (hkey : (t.runs.map Run.id).Nodup)
    (hf : ∀ r r', id = r.id → f r = .ok r' → r'.id = r.id ∧ R r r') (hrefl : ∀ r, R r r)
    (h : t.onRun id missing f = .ok t') : List.Forall₂ R t.runs t'.runs := by
  obtain ⟨r, r', hr, hok, rfl⟩ := Rows.onRun_ok h
  obtain ⟨hmem, hid⟩ := Table.row?_some hr
  obtain ⟨hid', hstep⟩ := hf r r' hid.symm hok
  exact Table.forall₂_replace hkey hmem hid' hstep fun x _ => hrefl x

theorem execLocal_runs {call : LocalCall} {reply : Option Run}
    (hkey : (t.runs.map Run.id).Nodup) (h : execLocal s now t call = .ok (t', reply)) :
    List.Forall₂ (fun r r' => r' = r ∨ LocalChange s now call r r') t.runs t'.runs := by
  cases call with
  | claimNextQueuedRun =>
    rcases claimNextQueuedRun_cases now t with hnone | ⟨r, hr, hqueued, hsome⟩
    · obtain rfl : t = t' := by simpa [execLocal, hnone] using congrArg Prod.fst (Except.ok.inj h)
      exact List.forall₂_same.2 fun _ _ => .inl rfl
    · obtain rfl : t.putRun (r.claim now) = t' := by
        simpa [execLocal, hsome] using congrArg Prod.fst (Except.ok.inj h)
      have hid : (r.claim now).id = r.id := rfl
      exact Table.forall₂_replace hkey hr hid (.inr (.claim hqueued)) fun _ _ => .inl rfl
  | updateJob id name status message =>
    obtain ⟨rows, hrows, ⟨⟩⟩ := map_ok h
    exact Rows.onRun_forall₂ hkey (fun r r' hid hok =>
      have hchange := LocalChange.update hid hok
      ⟨hchange.static.id, .inr hchange⟩) (fun _ => .inl rfl) hrows
  | finishRun id status message =>
    obtain ⟨rows, hrows, ⟨⟩⟩ := map_ok h
    exact Rows.onRun_forall₂ hkey (fun r r' hid hok =>
      have hchange := LocalChange.finish hid hok
      ⟨hchange.static.id, .inr hchange⟩) (fun _ => .inl rfl) hrows
  | recoverInterrupted =>
    cases h
    rw [List.forall₂_map_right_iff, List.forall₂_same]
    intro r hr
    by_cases hrunning : r.status = .running
    · exact .inr (.interrupt hrunning)
    · rw [Run.interrupt, if_neg hrunning]
      exact .inl rfl

/-- **What a call of the local mode does to the runs.** -/
theorem Database.serveLocal_runs (s : Settings) (db : Database) (now : Time) (call : LocalCall) :
    List.Forall₂ (fun r r' => r' = r ∨ LocalChange s now call r r') db.runs
      (db.serveLocal s now call).1.runs := by
  rcases db.commit_cases (execLocal s now db.toRows call) with ⟨rows, reply, hexec, hrows, -⟩ |
    ⟨hsame, -⟩
  · rw [serveLocal, hrows]
    exact execLocal_runs db.valid.runs_key hexec
  · rw [serveLocal, hsame]
    exact List.forall₂_same.2 fun _ _ => .inl rfl

/-- A claim that is answered with a run has written it. -/
theorem Database.serveLocal_claim {db : Database} {record : Run}
    (h : (db.serveLocal s now .claimNextQueuedRun).2 = .ok (some record)) :
    ∃ r ∈ db.runs, r.status = .queued ∧ record = r.claim now ∧
      (db.serveLocal s now .claimNextQueuedRun).1.runs = Table.replace Run.id record db.runs := by
  rcases db.commit_cases (execLocal s now db.toRows .claimNextQueuedRun) with
    ⟨rows, reply, hexec, hrows, hreply⟩ | ⟨-, e, he⟩
  · obtain rfl : reply = some record := Except.ok.inj (hreply.symm.trans h)
    rcases claimNextQueuedRun_cases now db.toRows with hnone | ⟨r, hr, hqueued, hsome⟩
    · simp [execLocal, hnone] at hexec
    · simp only [execLocal, hsome, Except.ok.injEq, Prod.mk.injEq, Option.some.injEq] at hexec
      obtain ⟨rfl, rfl⟩ := hexec
      exact ⟨r, hr, hqueued, rfl, congrArg Rows.runs hrows⟩
  · rw [serveLocal, he] at h
    cases h

/-- Rewriting jobs keeps the constraints if the lease columns stay consistent. -/
theorem Run.Constraints.updateJobs {p : Job → Bool} {f : Job → Job} (h : r.Constraints)
    (hname : ∀ j, (f j).name = j.name)
    (hlease : ∀ j ∈ r.jobs, p j = true → (f j).leaseConsistent = true) :
    (r.updateJobs p f).Constraints := by
  have hnames : (r.updateJobs p f).jobs.map Job.name = r.jobs.map Job.name :=
    Table.map_updateWhere fun j _ => hname j
  refine { h with jobs_key := ?_, jobs_lease := ?_, dependencies_jobs := ?_, artifacts_jobs := ?_ }
  · rw [hnames]
    exact h.jobs_key
  · intro j' hj'
    obtain ⟨j, hj, rfl⟩ := Table.mem_updateWhere.1 hj'
    grind [h.jobs_lease]
  · rw [hnames]
    exact h.dependencies_jobs
  · rw [hnames]
    exact h.artifacts_jobs

/-- A run that has a time of ending may stamp its artifacts. -/
theorem Run.Constraints.stampArtifacts (h : r.Constraints) (retention : Time)
    (hfinished : r.finishedAt.isSome = true) : (r.stampArtifacts retention).Constraints := by
  have hkey : ((r.stampArtifacts retention).artifacts.map fun a => (a.producerJob, a.name)) =
      r.artifacts.map fun a => (a.producerJob, a.name) := Table.map_updateWhere fun _ _ => rfl
  refine { h with artifacts_key := ?_, artifacts_jobs := ?_, artifacts_checked := ?_ }
  · rw [hkey]
    exact h.artifacts_key
  · intro a' ha'
    obtain ⟨a, ha, rfl⟩ := Table.mem_updateWhere.1 ha'
    split_ifs
    · exact h.artifacts_jobs a ha
    · exact h.artifacts_jobs a ha
  · intro a' ha'
    obtain ⟨a, ha, rfl⟩ := Table.mem_updateWhere.1 ha'
    have hold := h.artifacts_checked a ha
    grind [Artifact.checked]

/-- No lease was ever granted on the job. -/
structure Job.Unleased (j : Job) : Prop where
  runnerID : j.runnerID = none
  leaseID : j.leaseID = none
  leaseGeneration : j.leaseGeneration = 0
  leaseExpiresAt : j.leaseExpiresAt = none

theorem Job.Unleased.leaseConsistent (h : j.Unleased) : j.leaseConsistent = true := by
  simp [Job.leaseConsistent, h.runnerID, h.leaseID, h.leaseGeneration, h.leaseExpiresAt]

theorem Job.Unleased.update (h : j.Unleased) (status : JobStatus) (now : Time)
    (message : Option String) : (j.update status now message).Unleased :=
  ⟨h.runnerID, h.leaseID, h.leaseGeneration, h.leaseExpiresAt⟩

/-- **Without leases an update commits**, whatever the old and the new status are. -/
theorem Database.serveLocal_updateJob {db : Database} {name : String} {status : JobStatus}
    (now : Time) (message : Option String) (hr : r ∈ db.runs)
    (hgate : r.passGate s name status = .ok ()) (hname : name ∈ r.jobs.map Job.name)
    (hunleased : ∀ j ∈ r.jobs, j.Unleased) :
    (db.serveLocal s now (.updateJob r.id name status message)).2 = .ok none ∧
      (db.serveLocal s now (.updateJob r.id name status message)).1.runs =
        Table.replace Run.id (r.updatedRows name status now message) db.runs := by
  have hrun : db.run? r.id = some r := (Table.row?_eq_some_iff db.valid.runs_key).2 ⟨hr, rfl⟩
  obtain ⟨j, hj, hjname⟩ := List.mem_map.1 hname
  have hjob : r.job? name = some j :=
    (Table.row?_eq_some_iff (db.valid.runs r hr).jobs_key).2 ⟨hj, hjname⟩
  have hvalid : (r.updatedRows name status now message).Constraints :=
    (db.valid.runs r hr).updateJobs (fun _ => rfl) fun j hj _ =>
      ((hunleased j hj).update status now message).leaseConsistent
  have hrows : (db.putRun (r.updatedRows name status now message)).Constraints := by
    refine db.valid.putRun hr rfl rfl hvalid ?_
    intro j' hj' i hi
    obtain ⟨j, hj, rfl⟩ := Table.mem_updateWhere.1 hj'
    have hnone := (hunleased j hj).runnerID
    grind [Job.update]
  have hexec : execLocal s now db.toRows (.updateJob r.id name status message) =
      .ok (db.putRun (r.updatedRows name status now message), none) := by
    simp only [execLocal, Rows.onRun, hrun, Run.updateJob, hgate, hjob]
    rfl
  rw [serveLocal, hexec]
  simp only [Database.commit, hrows, dite_true, true_and]
  rfl

end Postgres
