import ForgeCI.Scheduling

/-!
# The store operations as transactions

Each exported operation of the store that the job scheduler, the artifact
index and the SCM code call, as one function on the rows.  `Call` is a request
to the store and `exec` runs it; `Database.step` commits the result, so that a
failed call leaves the database as it was.  Ids and tokens the source draws at
random are arguments, as is the current time.
-/

namespace Postgres

open GoLib

/-- `store.CreateRun`; of a job only its name and image are read. -/
structure CreateRun where
  id : Uuid
  pipelineYAML : Document
  maxParallel : Nat
  jobs : List (String × Option String)
  dependencies : List JobDependency
  snapshot : Option SourceSnapshot

/-- `store.JobDefinition`. -/
structure JobDefinition where
  image : Option String
  steps : List String
  uploads : List Config.ArtifactUpload
  downloads : List Config.ArtifactDownload
  cacheRestore : List Config.CacheEntry
  cacheSave : List Config.CacheEntry
deriving DecidableEq

structure JobLease where
  runID : Uuid
  jobName : String
  runnerID : Uuid
  leaseID : Uuid
  generation : Nat
  expiresAt : Time
  job : JobDefinition
  snapshot : SourceSnapshot
deriving DecidableEq

structure LeaseHeartbeat where
  runID : Uuid
  jobName : String
  leaseID : Uuid
  generation : Nat
deriving DecidableEq

structure LeaseHeartbeatResult where
  runID : Uuid
  jobName : String
  leaseID : Uuid
  generation : Nat
  valid : Bool := false
  cancelRequested : Bool := false
  expiresAt : Option Time := none
deriving DecidableEq

def Rows.run? (t : Rows) (id : Uuid) : Option Run :=
  Table.row? Run.id id t.runs

def Rows.putRun (t : Rows) (r : Run) : Rows :=
  { t with runs := Table.replace Run.id r t.runs }

/-- Run the statements `f` on the run `id`, failing with `missing` when there is
none. -/
def Rows.onRun (t : Rows) (id : Uuid) (missing : StoreError)
    (f : Run → Except StoreError Run) : Except StoreError Rows :=
  match t.run? id with
  | none => .error missing
  | some r =>
      match f r with
      | .error e => .error e
      | .ok r' => .ok (t.putRun r')

/-- Run the statements `f` on every run. -/
def onRuns (f : Run → Except StoreError Run) : List Run → Except StoreError (List Run)
  | [] => .ok []
  | r :: rest =>
      match f r with
      | .error e => .error e
      | .ok r' =>
          match onRuns f rest with
          | .error e => .error e
          | .ok rest' => .ok (r' :: rest')

/-- The row `createRun` inserts, with its jobs and dependencies. -/
def CreateRun.row (now : Time) (input : CreateRun) (snapshot : SourceSnapshot) : Run where
  id := input.id
  status := .queued
  pipelineYAML := input.pipelineYAML
  maxParallel := input.maxParallel
  sourceSnapshotSHA256 := some snapshot.sourceDigest
  createdAt := now
  jobs := input.jobs.map fun job => { name := job.1, status := .pending, image := job.2 }
  dependencies := input.dependencies

/-- `createRun`. -/
def createRun (now : Time) (input : CreateRun) (t : Rows) : Except StoreError Rows :=
  match input.snapshot with
  | none => .error .snapshotRequired
  | some snapshot =>
      match Table.row? SourceSnapshot.sourceDigest snapshot.sourceDigest t.snapshots with
      | some stored =>
          if stored ≠ snapshot then .error .conflictingSnapshot
          else .ok { t with runs := t.runs ++ [input.row now snapshot] }
      | none =>
          .ok { t with
            snapshots := t.snapshots ++ [snapshot]
            runs := t.runs ++ [input.row now snapshot] }

/-- `RegisterRunner`. -/
def registerRunner (now : Time) (w : Runner) (t : Rows) : Rows :=
  let row := { w with status := .online, lastSeenAt := now }
  match Table.row? Runner.id w.id t.runners with
  | none => { t with runners := t.runners ++ [row] }
  | some _ => { t with runners := Table.replace Runner.id row t.runners }

/-- `SELECT count(*) … WHERE runner_id=$1 AND status='RUNNING'`. -/
def Rows.activeJobs (t : Rows) (runner : Uuid) : Nat :=
  (t.runs.flatMap Run.jobs).countP fun j => j.runnerID = some runner && j.status = .running

/-- A row of the claim query's join. -/
structure Candidate where
  run : Run
  job : Job
  snapshot : SourceSnapshot

def Rows.candidates (t : Rows) (docker : Bool) : List Candidate :=
  t.runs.flatMap fun r =>
    (r.sourceSnapshotSHA256.bind fun d =>
      Table.row? SourceSnapshot.sourceDigest d t.snapshots).toList.flatMap fun snapshot =>
        (r.jobs.filter (r.claimable docker)).map fun j => ⟨r, j, snapshot⟩

/-- `ORDER BY p.created_at,p.id,j.job_name`. -/
def Candidate.precedes (s : Settings) (a b : Candidate) : Bool :=
  a.run.createdAt < b.run.createdAt || (a.run.createdAt = b.run.createdAt &&
    (a.run.id < b.run.id || (a.run.id = b.run.id && s.collation a.job.name b.job.name)))

def JobDefinition.ofJob (job : Config.Job) : JobDefinition where
  image := job.image
  steps := job.steps
  uploads := job.artifacts.upload
  downloads := job.artifacts.download
  cacheRestore := job.cache.restore
  cacheSave := job.cache.save

/-- The lease `LeaseJob` returns for a candidate. -/
def Candidate.lease (now : Time) (runner lease : Uuid) (job : Config.Job) (c : Candidate) :
    JobLease where
  runID := c.run.id
  jobName := c.job.name
  runnerID := runner
  leaseID := lease
  generation := c.job.leaseGeneration + 1
  expiresAt := now + jobLeaseTTL
  job := .ofJob job
  snapshot := c.snapshot

/-- `LeaseJob`. -/
def leaseJob (s : Settings) (now : Time) (runner lease : Uuid) (t : Rows) :
    Except StoreError (Rows × Option JobLease) :=
  match Table.row? Runner.id runner t.runners with
  | none => .error .notFound
  | some w =>
      if w.protocolVersion ≠ 2 ∨ w.status ≠ .online then .error .conflict
      else if w.maxParallel ≤ t.activeJobs runner then .ok (t, none)
      else match ((t.candidates w.dockerAvailable).insertionSort
          fun a b => a.precedes s b = true).head? with
      | none => .ok (t, none)
      | some c =>
          match parseBytes c.run.pipelineYAML with
          | .error e => .error e
          | .ok cfg =>
              match cfg.job? c.job.name with
              | none => .error .jobMissing
              | some job =>
                  .ok (t.putRun (c.run.grant now runner lease c.job.name),
                    some (c.lease now runner lease job))

/-- The owner a heartbeat claims for a lease. -/
def LeaseHeartbeat.owner (runner : Uuid) (l : LeaseHeartbeat) : Ownership where
  runID := l.runID
  runnerID := some runner
  leaseID := some l.leaseID
  jobName := l.jobName
  generation := l.generation

/-- The renewals a heartbeat call makes in one run. -/
def Run.renewAll (runner : Uuid) (now : Time) (leases : List LeaseHeartbeat) (r : Run) : Run :=
  leases.foldl (fun r l => r.renew (l.owner runner) now) r

/-- The result of a heartbeat that matched no row. -/
def LeaseHeartbeat.lost (l : LeaseHeartbeat) : LeaseHeartbeatResult where
  runID := l.runID
  jobName := l.jobName
  leaseID := l.leaseID
  generation := l.generation

/-- The run whose job holds a lease. -/
def Rows.leasedRun? (t : Rows) (owner : Ownership) (now : Time) : Option Run :=
  (t.run? owner.runID).filter fun r =>
    (r.job? owner.jobName).any (Job.holdsLease owner now)

/-- One iteration of the loop of `HeartbeatJobLeases`. -/
def Rows.heartbeat (runner : Uuid) (now : Time) (l : LeaseHeartbeat) (t : Rows) :
    Rows × LeaseHeartbeatResult :=
  match t.leasedRun? (l.owner runner) now with
  | none => (t, l.lost)
  | some r =>
      (t.putRun (r.renew (l.owner runner) now), { l.lost with
        valid := true
        cancelRequested := r.cancelRequestedAt.isSome
        expiresAt := some (now + jobLeaseTTL) })

def Rows.heartbeats (runner : Uuid) (now : Time) :
    List LeaseHeartbeat → Rows → Rows × List LeaseHeartbeatResult
  | [], t => (t, [])
  | l :: rest, t =>
      let first := t.heartbeat runner now l
      let others := first.1.heartbeats runner now rest
      (others.1, first.2 :: others.2)

/-- `HeartbeatJobLeases`. -/
def heartbeatJobLeases (now : Time) (runner : Uuid) (leases : List LeaseHeartbeat) (t : Rows) :
    Except StoreError (Rows × List LeaseHeartbeatResult) :=
  match Table.row? Runner.id runner t.runners with
  | none => .error .notFound
  | some w =>
      let seen := { w with lastSeenAt := now, status := .online }
      .ok ({ t with runners := Table.replace Runner.id seen t.runners }.heartbeats
        runner now leases)

/-- The statuses `CompleteJob` admits. -/
def JobStatus.reportable : JobStatus → Bool
  | .passed | .failed | .error | .canceled => true
  | _ => false

/-- `CompleteJob`. -/
def completeJob (s : Settings) (now : Time) (owner : Ownership) (status : JobStatus)
    (message : Option String) (t : Rows) : Except StoreError Rows :=
  if status.reportable = false then .error .conflict
  else if owner.runnerID = none ∨ owner.leaseID = none then .error .invalidText
  else t.onRun owner.runID .conflict (Run.complete s owner status now message)

/-- `ExpireJobLeases`. -/
def expireJobLeases (s : Settings) (now : Time) (t : Rows) : Except StoreError Rows :=
  match onRuns (Run.expireLeases s now) t.runs with
  | .error e => .error e
  | .ok runs =>
      .ok { t with
        runs := runs
        runners := Table.updateWhere (fun w => w.lastSeenAt < now - jobLeaseTTL)
          (fun w => { w with status := .offline }) t.runners }

/-- `RecoverRemoteJobs`. -/
def recoverRemoteJobs (s : Settings) (now : Time) (t : Rows) : Except StoreError Rows :=
  match onRuns (Run.recover s now) t.runs with
  | .error e => .error e
  | .ok runs => .ok { t with runs := runs }

/-- `CancelQueued`. -/
def cancelQueued (now : Time) (id : Uuid) (t : Rows) : Except StoreError Rows :=
  t.onRun id .conflict (Run.cancelQueued now)

/-- `RequestCancel`; the status it returns next to a conflict is left out. -/
def requestCancel (s : Settings) (now : Time) (id : Uuid) (t : Rows) : Except StoreError Rows :=
  t.onRun id .notFound (Run.requestCancel s now)

/-- `CommitArtifacts`. -/
def commitArtifacts (now : Time) (owner : Ownership) (items : List Artifact) (t : Rows) :
    Except StoreError Rows :=
  t.onRun owner.runID .notFound (Run.commitArtifacts owner items now)

/-- `GetArtifactForLease`. -/
def getArtifactForLease (now : Time) (owner : Ownership) (producer name : String) (t : Rows) :
    Except StoreError Artifact :=
  match (t.run? owner.runID).bind (Run.artifactForLease owner producer name now) with
  | none => .error .notFound
  | some a => .ok a

def Rows.artifacts (t : Rows) : List Artifact :=
  t.runs.flatMap Run.artifacts

/-- `LiveArtifactBlobs`. -/
def liveArtifactBlobs (t : Rows) : List String :=
  ((t.artifacts.filter (·.deletedAt.isNone)).map Artifact.blobSHA256).dedup

/-- `ExpireArtifacts`: the digests of the rows just deleted that no live row
refers to, sorted. -/
def expireArtifacts (now : Time) (t : Rows) : Rows × List String :=
  let candidates :=
    ((t.artifacts.filter (Artifact.expiring now)).map Artifact.blobSHA256).dedup
  let t := { t with runs := t.runs.map (Run.expireArtifacts now) }
  (t, sortStrings (candidates.filter (· ∉ liveArtifactBlobs t)))

/-- `CreateSCMRepository`, given the normalised name. -/
def createSCMRepository (row : Repository) (t : Rows) : Except StoreError Rows :=
  if t.repositories.any fun r => r.id = row.id ||
      (r.provider = row.provider && r.normalizedFullName = row.normalizedFullName) then
    .error .conflict
  else .ok { t with repositories := t.repositories ++ [row] }

/-- The commit of a delivery as the Go string. -/
def Delivery.commit (d : Delivery) : String := d.commitSHA.getD ""

/-- A pull-request delivery that supersedes earlier work. -/
def Delivery.supersedes (d : Delivery) : Bool :=
  d.eventType = "pull_request" && d.pullRequestNumber.isSome &&
    (d.status = .pending || d.action = "closed")

/-- The deliveries a new delivery turns `IGNORED`. -/
def Delivery.overtakes (input d : Delivery) : Bool :=
  d.repositoryID = input.repositoryID && d.eventType = "pull_request" &&
    d.pullRequestNumber = input.pullRequestNumber && d.id ≠ input.id &&
    (d.status = .pending || d.status = .processing || d.status = .failed) &&
    (input.action = "closed" || d.commitSHA ≠ some input.commit)

def Delivery.ignore (now : Time) (d : Delivery) : Delivery :=
  { d with
    status := .ignored
    processedAt := some now
    lastError := some "superseded by newer pull request delivery"
    claimToken := none
    claimedBy := none
    claimExpiresAt := none
    nextAttemptAt := none }

/-- The runs a new delivery supersedes. -/
def Rows.superseded (t : Rows) (input : Delivery) (r : Run) : Bool :=
  !r.status.terminal && t.triggers.any fun g => g.runID = r.id &&
    g.repositoryID = input.repositoryID && g.pullRequestNumber = input.pullRequestNumber &&
    (input.action = "closed" || g.commitSHA ≠ input.commit)

/-- The row `CreateSCMDelivery` inserts, under no claim. -/
def Delivery.inserted (d : Delivery) : Delivery :=
  { d with
    commitSHA := if d.commit = "" then none else some d.commit
    claimToken := none
    claimedBy := none
    claimExpiresAt := none }

/-- `CreateSCMDelivery`. -/
def createSCMDelivery (now : Time) (input : Delivery) (t : Rows) :
    Except StoreError (Rows × Delivery) :=
  if input.provider = "" ∨ input.deliveryID = "" ∨ 256 < input.deliveryID.utf8ByteSize ∨
      input.payloadSHA256.utf8ByteSize ≠ 64 ∨ input.eventType = "" then
    .error .invalidDelivery
  else match t.deliveries.find? fun d =>
      d.provider = input.provider && d.deliveryID = input.deliveryID with
  | some stored =>
      if stored.payloadSHA256 ≠ input.payloadSHA256 then .error .conflict
      else .ok (t, stored)
  | none =>
      let t := { t with deliveries := t.deliveries ++ [input.inserted] }
      if input.supersedes then
        .ok ({ t with
          deliveries := Table.updateWhere input.overtakes (Delivery.ignore now) t.deliveries
          runs := Table.updateWhere (t.superseded input) (Run.supersede now) t.runs },
          input.inserted)
      else .ok (t, input.inserted)

/-- The deliveries `ClaimSCMDelivery` may take. -/
def Delivery.claimable (now : Time) (d : Delivery) : Bool :=
  (d.status = .pending && d.nextAttemptAt.all (· ≤ now)) ||
    (d.status = .failed && d.nextAttemptAt.any (· ≤ now)) ||
    (d.status = .processing && d.claimExpiresAt.any (· ≤ now))

/-- `ClaimSCMDelivery`. -/
def claimSCMDelivery (now : Time) (token : Uuid) (worker : String) (lease : Time) (t : Rows) :
    Except StoreError (Rows × Option Delivery) :=
  if worker = "" ∨ 256 < worker.utf8ByteSize ∨ lease = 0 then .error .invalidClaim
  else match ((t.deliveries.filter (Delivery.claimable now)).insertionSort fun a b =>
      a.receivedAt < b.receivedAt ∨ (a.receivedAt = b.receivedAt ∧ a.id ≤ b.id)).head? with
  | none => .ok (t, none)
  | some d =>
      let claimed := { d with
        status := .processing
        attemptCount := d.attemptCount + 1
        claimToken := some token
        claimedBy := some worker
        claimExpiresAt := some (now + lease)
        nextAttemptAt := none }
      .ok ({ t with deliveries := Table.replace Delivery.id claimed t.deliveries }, some claimed)

/-- A delivery under an unexpired claim. -/
def Delivery.claimedWith (token : Uuid) (now : Time) (d : Delivery) : Bool :=
  d.status = .processing && d.claimToken = some token && d.claimExpiresAt.any (now < ·)

/-- Rewrite the delivery `id` when it is under the claim `token`. -/
def updateClaimed (now : Time) (id token : Uuid) (f : Delivery → Delivery) (t : Rows) :
    Except StoreError Rows :=
  match Table.row? Delivery.id id t.deliveries with
  | none => .error .conflict
  | some d =>
      if d.claimedWith token now then
        .ok { t with deliveries := Table.replace Delivery.id (f d) t.deliveries }
      else .error .conflict

def Delivery.renewClaim (expires : Time) (d : Delivery) : Delivery :=
  { d with claimExpiresAt := some expires }

def Delivery.complete (status : DeliveryStatus) (now : Time) (d : Delivery) : Delivery :=
  { d with
    status := status
    processedAt := some now
    claimToken := none
    claimedBy := none
    claimExpiresAt := none
    nextAttemptAt := none
    lastError := none }

def Delivery.fail (retryAt : Option Time) (message : String) (d : Delivery) : Delivery :=
  { d with
    status := .failed
    lastError := some (String.ofList (message.toList.take 4096))
    nextAttemptAt := retryAt
    claimToken := none
    claimedBy := none
    claimExpiresAt := none }

/-- `RenewSCMDeliveryClaim`. -/
def renewSCMDeliveryClaim (now : Time) (id token : Uuid) (lease : Time) (t : Rows) :
    Except StoreError Rows :=
  if lease = 0 then .error .invalidRenewal
  else updateClaimed now id token (Delivery.renewClaim (now + lease)) t

/-- `CompleteSCMDelivery`. -/
def completeSCMDelivery (now : Time) (id token : Uuid) (status : DeliveryStatus) (t : Rows) :
    Except StoreError Rows :=
  if status ≠ .processed ∧ status ≠ .ignored then .error .invalidCompletion
  else updateClaimed now id token (Delivery.complete status now) t

/-- `FailSCMDelivery`; the messages it cuts to 4096 bytes are taken as ASCII. -/
def failSCMDelivery (now : Time) (id token : Uuid) (retryAt : Option Time) (message : String)
    (t : Rows) : Except StoreError Rows :=
  updateClaimed now id token (Delivery.fail retryAt message) t

/-- `CreateSCMRun`. -/
def createSCMRun (now : Time) (token : Uuid) (input : CreateRun) (trigger : RunTrigger)
    (t : Rows) : Except StoreError Rows :=
  if trigger.runID ≠ input.id then .error .invalidRun
  else if (Table.row? Delivery.id trigger.deliveryID t.deliveries).all
      (fun d => d.claimedWith token now = false) then .error .conflict
  else match createRun now input t with
  | .error e => .error e
  | .ok t => .ok { t with triggers := t.triggers ++ [trigger] }

inductive Call
  | createRun (input : CreateRun)
  | registerRunner (runner : Runner)
  | leaseJob (runner lease : Uuid)
  | heartbeatJobLeases (runner : Uuid) (leases : List LeaseHeartbeat)
  | completeJob (owner : Ownership) (status : JobStatus) (message : Option String)
  | requestCancel (id : Uuid)
  | cancelQueued (id : Uuid)
  | expireJobLeases
  | recoverRemoteJobs
  | commitArtifacts (owner : Ownership) (items : List Artifact)
  | expireArtifacts
  | createSCMRepository (row : Repository)
  | createSCMDelivery (input : Delivery)
  | claimSCMDelivery (token : Uuid) (worker : String) (lease : Time)
  | renewSCMDeliveryClaim (id token : Uuid) (lease : Time)
  | completeSCMDelivery (id token : Uuid) (status : DeliveryStatus)
  | failSCMDelivery (id token : Uuid) (retryAt : Option Time) (message : String)
  | createSCMRun (token : Uuid) (input : CreateRun) (trigger : RunTrigger)

/-- What a successful call returns. -/
inductive Reply
  | done
  | lease (lease : Option JobLease)
  | heartbeat (results : List LeaseHeartbeatResult)
  | removable (digests : List String)
  | delivery (delivery : Option Delivery)
deriving DecidableEq

/-- A call and the time at which it is executed. -/
structure Request where
  now : Time
  call : Call

/-- Execute a call on the rows. -/
def exec (s : Settings) (now : Time) (t : Rows) : Call → Except StoreError (Rows × Reply)
  | .createRun input => (createRun now input t).map (·, .done)
  | .registerRunner w => .ok (registerRunner now w t, .done)
  | .leaseJob runner lease =>
      (leaseJob s now runner lease t).map fun p => (p.1, .lease p.2)
  | .heartbeatJobLeases runner leases =>
      (heartbeatJobLeases now runner leases t).map fun p => (p.1, .heartbeat p.2)
  | .completeJob owner status message =>
      (completeJob s now owner status message t).map (·, .done)
  | .requestCancel id => (requestCancel s now id t).map (·, .done)
  | .cancelQueued id => (cancelQueued now id t).map (·, .done)
  | .expireJobLeases => (expireJobLeases s now t).map (·, .done)
  | .recoverRemoteJobs => (recoverRemoteJobs s now t).map (·, .done)
  | .commitArtifacts owner items => (commitArtifacts now owner items t).map (·, .done)
  | .expireArtifacts =>
      let expired := expireArtifacts now t
      .ok (expired.1, .removable expired.2)
  | .createSCMRepository row => (createSCMRepository row t).map (·, .done)
  | .createSCMDelivery input =>
      (createSCMDelivery now input t).map fun p => (p.1, .delivery (some p.2))
  | .claimSCMDelivery token worker lease =>
      (claimSCMDelivery now token worker lease t).map fun p => (p.1, .delivery p.2)
  | .renewSCMDeliveryClaim id token lease =>
      (renewSCMDeliveryClaim now id token lease t).map (·, .done)
  | .completeSCMDelivery id token status =>
      (completeSCMDelivery now id token status t).map (·, .done)
  | .failSCMDelivery id token retryAt message =>
      (failSCMDelivery now id token retryAt message t).map (·, .done)
  | .createSCMRun token input trigger =>
      (createSCMRun now token input trigger t).map (·, .done)

/-- Serve a request: execute the call and commit. -/
def Database.serve (s : Settings) (db : Database) (q : Request) :
    Database × Except StoreError Reply :=
  db.commit (exec s q.now db.toRows q.call)

end Postgres
