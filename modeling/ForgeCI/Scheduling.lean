import ForgeCI.Schema

/-!
# What the statements do to one run

The store addresses the rows of one run at a time, so its transactions are
assembled here run by run: granting and renewing a lease, completing a job,
`blockDependents`, `finalizeRun`, expiry, recovery, cancellation, supersession
and the artifact statements, each as a function on a run row and the rows that
reference it.
-/

namespace Postgres

open GoLib

/-- The configuration of the store: the artifact retention, and the order in
which the database's collation sorts text. -/
structure Settings where
  artifactRetention : Time
  collation : String → String → Bool

/-- `store.ArtifactOwnership`; a runner or lease id is `none` for the empty
string, which only in-process execution passes. -/
structure Ownership where
  runID : Uuid
  runnerID : Option Uuid
  leaseID : Option Uuid
  jobName : String
  generation : Nat
deriving DecidableEq

def Run.job? (r : Run) (name : String) : Option Job :=
  Table.row? Job.name name r.jobs

def Run.updateJobs (p : Job → Bool) (f : Job → Job) (r : Run) : Run :=
  { r with jobs := Table.updateWhere p f r.jobs }

/-- Move a job to a final status. -/
def Job.finish (status : JobStatus) (now : Time) (message : Option String) (j : Job) : Job :=
  { j with status := status, finishedAt := some now, errorMessage := message }

/-- `lease_id=NULL,lease_expires_at=NULL`. -/
def Job.releaseLease (j : Job) : Job :=
  { j with leaseID := none, leaseExpiresAt := none }

/-- The row `LeaseJob` writes. -/
def Job.grant (now : Time) (runner lease : Uuid) (j : Job) : Job :=
  { j with
    status := .running
    runnerID := some runner
    leaseID := some lease
    leaseGeneration := j.leaseGeneration + 1
    leaseExpiresAt := some (now + jobLeaseTTL)
    startedAt := some (j.startedAt.getD now)
    finishedAt := none
    errorMessage := none }

/-- `UPDATE pipeline_runs SET status='RUNNING' … WHERE status='QUEUED'`. -/
def Run.start (now : Time) (r : Run) : Run :=
  if r.status = .queued then
    { r with status := .running, startedAt := some (r.startedAt.getD now) }
  else r

def Run.grant (now : Time) (runner lease : Uuid) (name : String) (r : Run) : Run :=
  (r.updateJobs (fun j => j.name = name && j.status = .pending)
    (Job.grant now runner lease)).start now

/-- The jobs a pending job waits for: a dependency that is not `PASSED`. -/
def Run.waiting (r : Run) (j : Job) : Bool :=
  r.dependencies.any fun d => d.jobName = j.name &&
    r.jobs.any fun u => u.name = d.dependsOn && u.status ≠ .passed

/-- The conditions of the claim query of `LeaseJob` on the joined rows. -/
def Run.claimable (docker : Bool) (r : Run) (j : Job) : Bool :=
  (r.status = .queued || r.status = .running) && r.cancelRequestedAt.isNone &&
    j.status = .pending && (docker || j.image.isNone) && !r.waiting j &&
    r.jobs.countP (·.status = .running) < r.maxParallel

/-- A row owned by exactly this lease, running and not expired. -/
def Job.holdsLease (owner : Ownership) (now : Time) (j : Job) : Bool :=
  owner.runnerID.isSome && j.runnerID = owner.runnerID &&
    owner.leaseID.isSome && j.leaseID = owner.leaseID &&
    j.leaseGeneration = owner.generation && j.status = .running &&
    j.leaseExpiresAt.any (now < ·)

def Job.renew (now : Time) (j : Job) : Job :=
  { j with leaseExpiresAt := some (now + jobLeaseTTL) }

def Run.renew (owner : Ownership) (now : Time) (r : Run) : Run :=
  r.updateJobs (fun j => j.name = owner.jobName && j.holdsLease owner now) (Job.renew now)

/-- `EXISTS` a dependency that did not pass. -/
def Run.dependencyFailing (r : Run) (j : Job) : Bool :=
  r.dependencies.any fun d => d.jobName = j.name &&
    r.jobs.any fun u => u.name = d.dependsOn && u.status.failing

/-- The rows one iteration of `blockDependents` updates. -/
def Run.blockable (r : Run) (j : Job) : Bool :=
  j.status = .pending && r.dependencyFailing j

def Run.blockOnce (now : Time) (r : Run) : Run :=
  r.updateJobs r.blockable
    (Job.finish .blocked now (some "upstream dependency did not pass"))

/-- The loop of `blockDependents`, which stops when no row was affected. -/
def Run.blockLoop (now : Time) : Nat → Run → Run
  | 0, r => r
  | fuel + 1, r =>
      if r.jobs.any r.blockable then Run.blockLoop now fuel (r.blockOnce now) else r

/-- `blockDependents`.  Every iteration but the last takes a job out of
`PENDING`, so the bound is never reached. -/
def Run.blockDependents (now : Time) (r : Run) : Run :=
  r.blockLoop now (r.jobs.countP (·.status = .pending) + 1)

/-- The switch of `finalizeRun`. -/
def Run.finalStatus (r : Run) : RunStatus :=
  if r.jobs.any (·.status = .error) then .error
  else if r.jobs.any (·.status = .aborted) then .aborted
  else if r.cancelRequestedAt.isSome then .canceled
  else if r.jobs.any (fun j => j.status = .failed || j.status = .blocked) then .failed
  else .passed

/-- `UPDATE artifacts SET expires_at=finished_at+retention WHERE expires_at IS NULL`. -/
def Run.stampArtifacts (retention : Time) (r : Run) : Run :=
  let stamp (a : Artifact) := { a with expiresAt := r.finishedAt.map (· + retention) }
  { r with artifacts := Table.updateWhere (·.expiresAt.isNone) stamp r.artifacts }

def Run.finishAs (status : RunStatus) (now : Time) (r : Run) : Run :=
  { r with
    status := status
    finishedAt := some now
    errorMessage := match status with
      | .error => some "job infrastructure failure"
      | .aborted => some "job execution ownership lost"
      | _ => r.errorMessage }

/-- `finalizeRun`.  The aggregate query has no row when the run has no job. -/
def Run.finalizeRun (s : Settings) (now : Time) (r : Run) : Except StoreError Run :=
  if r.jobs.any (·.status.unfinished) then .ok r
  else if r.jobs = [] then .error .noRows
  else if r.status.terminal then .ok r
  else .ok ((r.finishAs r.finalStatus now).stampArtifacts s.artifactRetention)

/-- `artifactSetCommittedTx`. -/
def Run.artifactSetCommitted (s : Settings) (r : Run) (jobName : String) :
    Except StoreError Bool :=
  match parseBytes r.pipelineYAML with
  | .error e => .error e
  | .ok cfg =>
      match cfg.job? jobName with
      | none => .error .notFound
      | some job =>
          let actual := ((r.artifacts.filter fun a =>
            a.producerJob = jobName && a.deletedAt.isNone).map Artifact.name).insertionSort
              fun a b => s.collation a b = true
          let expected := sortStrings (job.artifacts.upload.map (·.name))
          .ok (expected = actual)

/-- A job may be reported `PASSED` only with its declared artifacts committed. -/
def Run.passGate (s : Settings) (r : Run) (jobName : String) (status : JobStatus) :
    Except StoreError Unit :=
  if status = .passed then
    match r.artifactSetCommitted s jobName with
    | .error e => .error e
    | .ok ok => if ok then .ok () else .error .conflict
  else .ok ()

/-- The `UPDATE` of `CompleteJob`. -/
def Run.finishJob (name : String) (status : JobStatus) (now : Time)
    (message : Option String) (r : Run) : Run :=
  r.updateJobs (·.name = name) fun j => (j.finish status now message).releaseLease

/-- The rows `CompleteJob` writes before `finalizeRun`. -/
def Run.completedRows (name : String) (status : JobStatus) (now : Time)
    (message : Option String) (r : Run) : Run :=
  if status = .passed then r.finishJob name status now message
  else (r.finishJob name status now message).blockDependents now

/-- `CompleteJob` from the locking query on. -/
def Run.complete (s : Settings) (owner : Ownership) (status : JobStatus) (now : Time)
    (message : Option String) (r : Run) : Except StoreError Run :=
  match r.job? owner.jobName with
  | none => .error .conflict
  | some j =>
      if j.holdsLease owner now = false then .error .conflict
      else match r.passGate s owner.jobName status with
      | .error e => .error e
      | .ok () => (r.completedRows owner.jobName status now message).finalizeRun s now

/-- The rows `ExpireJobLeases` aborts. -/
def Job.expired (now : Time) (j : Job) : Bool :=
  j.status = .running && j.leaseExpiresAt.any (· ≤ now)

/-- Abort the jobs that satisfy `p` and settle the run when there was one. -/
def Run.abortJobs (s : Settings) (p : Job → Bool) (now : Time) (message : String) (r : Run) :
    Except StoreError Run :=
  if r.jobs.any p then
    ((r.updateJobs p fun j =>
      (j.finish .aborted now (some message)).releaseLease).blockDependents now).finalizeRun
        s now
  else .ok r

/-- `ExpireJobLeases` on one run. -/
def Run.expireLeases (s : Settings) (now : Time) (r : Run) : Except StoreError Run :=
  r.abortJobs s (Job.expired now) now "job lease expired"

/-- A run leased as a whole, before jobs were leased one by one.  Its jobs keep
their lease columns. -/
def Run.abandonLegacy (s : Settings) (now : Time) (r : Run) : Run :=
  if r.status = .running ∧ r.runnerID.isSome then
    let r := { r with
      status := .aborted
      finishedAt := some now
      errorMessage := some "control plane restarted during legacy run lease"
      runnerID := none
      leaseID := none
      leaseExpiresAt := none
      effectiveParallel := none }
    (r.updateJobs (·.status.unfinished)
      (Job.finish .aborted now (some "legacy run lease ownership lost"))).stampArtifacts
        s.artifactRetention
  else r

/-- `RecoverRemoteJobs` on one run. -/
def Run.recover (s : Settings) (now : Time) (r : Run) : Except StoreError Run :=
  (r.abandonLegacy s now).abortJobs s (·.status = .running) now
    "control plane restarted during job execution"

/-- The rows `CancelQueued` writes. -/
def Run.canceledRows (now : Time) (r : Run) : Run :=
  { r with
    status := .canceled
    cancelRequestedAt := some now
    finishedAt := some now }.updateJobs (fun j => j.status = JobStatus.pending)
      fun j => j.finish .canceled now j.errorMessage

/-- `CancelQueued`. -/
def Run.cancelQueued (now : Time) (r : Run) : Except StoreError Run :=
  if r.status = .queued then .ok (r.canceledRows now) else .error .conflict

/-- The rows `RequestCancel` writes before `finalizeRun`. -/
def Run.cancelingRows (now : Time) (r : Run) : Run :=
  { r with cancelRequestedAt := some (r.cancelRequestedAt.getD now) }.updateJobs
    (fun j => j.status = JobStatus.pending)
    (Job.finish .canceled now (some "run cancellation requested"))

/-- `RequestCancel`. -/
def Run.requestCancel (s : Settings) (now : Time) (r : Run) : Except StoreError Run :=
  if r.status = .running then (r.cancelingRows now).finalizeRun s now else .error .conflict

/-- The update of a superseded run in `CreateSCMDelivery`, made of runs in
status `QUEUED` or `RUNNING`. -/
def Run.supersede (now : Time) (r : Run) : Run :=
  { r with
    status := if r.status = .queued then .canceled else r.status
    finishedAt := if r.status = .queued then some now else r.finishedAt
    cancelRequestedAt := if r.status = .running then some now else r.cancelRequestedAt }

/-- `AND` of three-valued logic, `none` for `NULL`. -/
def and3 : Option Bool → Option Bool → Option Bool
  | some false, _ => some false
  | _, some false => some false
  | some true, b => b
  | none, _ => none

/-- The lease test of `CommitArtifacts`, a `SELECT` column. -/
def Job.leaseMatches (owner : Ownership) (now : Time) (j : Job) : Option Bool :=
  and3 (and3 (and3 (j.runnerID.map fun i => some i = owner.runnerID)
    (j.leaseID.map fun i => some i = owner.leaseID)) (some (j.leaseGeneration = owner.generation)))
    (j.leaseExpiresAt.map (now < ·))

/-- `artifact.ValidDigest`, which also takes upper-case digits. -/
def validDigest (s : String) : Bool :=
  s.toList.length = 64 && s.toList.all fun c => c.isDigit ||
    ('a'.toNat ≤ c.toNat && c.toNat ≤ 'f'.toNat) || ('A'.toNat ≤ c.toNat && c.toNat ≤ 'F'.toNat)

/-- The metadata test `CommitArtifacts` makes of one item. -/
def Artifact.acceptable (owner : Ownership) (root : String) (item : Artifact) : Bool :=
  item.producerJob = owner.jobName &&
    (item.runID = none || item.runID = some owner.runID) &&
    validDigest item.contentSHA256 && validDigest item.blobSHA256 &&
    item.format = "artifact-tar-gzip-v1" && item.rootName = root &&
    (item.rootKind = "file" || item.rootKind = "directory") &&
    0 ≤ item.archiveSizeBytes && 0 ≤ item.logicalSizeBytes && 1 ≤ item.entryCount

/-- The item loop of `CommitArtifacts`; `seen` is the set of names met. -/
def checkItems (owner : Ownership) (expected : List (String × String)) :
    List String → List Artifact → Bool
  | _, [] => true
  | seen, item :: rest =>
      match expected.lookup item.name with
      | none => false
      | some root =>
          item.name ∉ seen && item.acceptable owner root &&
            checkItems owner expected (item.name :: seen) rest

/-- The comparison `sameArtifactSet` makes of two rows of one name. -/
def Artifact.sameContent (x y : Artifact) : Bool :=
  x.rootName = y.rootName && x.rootKind = y.rootKind &&
    x.contentSHA256 = y.contentSHA256 && x.blobSHA256 = y.blobSHA256 &&
    x.format = y.format && x.archiveSizeBytes = y.archiveSizeBytes &&
    x.logicalSizeBytes = y.logicalSizeBytes && x.entryCount = y.entryCount

/-- `sameArtifactSet`; in the map `byName` the last item of a name wins. -/
def sameArtifactSet (a b : List Artifact) : Bool :=
  a.length = b.length &&
    a.all fun x => (b.reverse.find? (·.name = x.name)).any x.sameContent

/-- The row `CommitArtifacts` inserts for an item. -/
def Artifact.stored (owner : Ownership) (item : Artifact) : Artifact :=
  { item with
    runID := some owner.runID
    producerJob := owner.jobName
    expiresAt := none
    deletedAt := none }

/-- `CommitArtifacts` on one run.  The names of `expected` are distinct,
`ParseBytes` has just checked them. -/
def Run.commitArtifacts (owner : Ownership) (items : List Artifact) (now : Time) (r : Run) :
    Except StoreError Run :=
  if r.status ≠ .running then .error .notFound
  else match r.job? owner.jobName with
  | none => .error .notFound
  | some j =>
      match if owner.runnerID = none then some true else j.leaseMatches owner now with
      | none => .error .nullScan
      | some valid =>
          if valid = false ∨ j.status ≠ .running then .error .conflict
          else match parseBytes r.pipelineYAML with
          | .error e => .error e
          | .ok cfg =>
              match cfg.job? owner.jobName with
              | none => .error .notFound
              | some job =>
                  let expected := job.artifacts.upload.map fun u => (u.name, base u.path)
                  let existing := r.artifacts.filter (·.producerJob = owner.jobName)
                  if items.length ≠ expected.length ∨
                      checkItems owner expected [] items = false then .error .conflict
                  else if existing = [] then
                    .ok { r with artifacts := r.artifacts ++ items.map (Artifact.stored owner) }
                  else if sameArtifactSet existing items then .ok r
                  else .error .conflict

/-- The rows `ExpireArtifacts` deletes. -/
def Artifact.expiring (now : Time) (a : Artifact) : Bool :=
  a.deletedAt.isNone && a.expiresAt.any (· ≤ now)

def Run.expireArtifacts (now : Time) (r : Run) : Run :=
  let delete (a : Artifact) := { a with deletedAt := some now }
  { r with artifacts := Table.updateWhere (Artifact.expiring now) delete r.artifacts }

/-- The joined query of `GetArtifactForLease` on one run. -/
def Run.artifactForLease (owner : Ownership) (producer name : String) (now : Time)
    (r : Run) : Option Artifact :=
  r.artifacts.find? fun a =>
    a.producerJob = producer && a.name = name && a.deletedAt.isNone &&
      r.status = .running &&
      r.jobs.any (fun c => c.name = owner.jobName && c.holdsLease owner now) &&
      r.jobs.any (fun j => j.name = a.producerJob && j.status = .passed) &&
      r.dependencies.any fun d => d.jobName = owner.jobName && d.dependsOn = a.producerJob

end Postgres
