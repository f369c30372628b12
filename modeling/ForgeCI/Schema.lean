import ForgeCI.Config
import ForgeCI.Table

/-!
# The tables of the control plane

The rows of the PostgreSQL schema (migrations 001 to 011) that the scheduler,
the artifact index and the SCM trigger code read and write.  A run row carries
the rows of `job_runs`, `job_dependencies` and `artifacts` that reference it:
their `run_id` columns are foreign keys, so these tables are partitioned by
run and every statement of the store addresses one part of them.

`Database` is a set of rows together with a proof of the constraints the
migrations declare.  A transaction works on `Rows`; `Database.commit` accepts
the result only when the constraints hold and otherwise keeps the old
database, as PostgreSQL does.  No statement of a transaction repairs a row
that an earlier one broke, so checking at the end is checking each statement.
-/

namespace Postgres

open GoLib

/-- UUIDs; PostgreSQL orders them as numbers. -/
abbrev Uuid := Nat

/-- Microseconds, the resolution of `timestamptz`. -/
abbrev Time := Nat

/-- `jobLeaseTTL`, 30 seconds. -/
def jobLeaseTTL : Time := 30000000

inductive RunStatus
  | queued | running | passed | failed | canceled | error | aborted
deriving DecidableEq

/-- No status but `QUEUED` and `RUNNING` is ever left. -/
def RunStatus.terminal : RunStatus → Bool
  | .queued | .running => false
  | _ => true

inductive JobStatus
  | pending | running | passed | failed | error | blocked | canceled | aborted
deriving DecidableEq

/-- `status IN ('PENDING','RUNNING')`. -/
def JobStatus.unfinished : JobStatus → Bool
  | .pending | .running => true
  | _ => false

/-- `status IN ('FAILED','ERROR','BLOCKED','CANCELED','ABORTED')`. -/
def JobStatus.failing : JobStatus → Bool
  | .failed | .error | .blocked | .canceled | .aborted => true
  | _ => false

inductive RunnerStatus
  | online | offline
deriving DecidableEq

/-- A row of `job_runs`. -/
structure Job where
  name : String
  status : JobStatus
  image : Option String
  startedAt : Option Time := none
  finishedAt : Option Time := none
  errorMessage : Option String := none
  runnerID : Option Uuid := none
  leaseID : Option Uuid := none
  leaseGeneration : Nat := 0
  leaseExpiresAt : Option Time := none
deriving DecidableEq

/-- A row of `job_dependencies`. -/
structure JobDependency where
  jobName : String
  dependsOn : String
deriving DecidableEq

/-- A row of `artifacts`, and an item of `CommitArtifacts`; in an item `runID`
is `none` for the empty string. -/
structure Artifact where
  runID : Option Uuid := none
  producerJob : String
  name : String
  rootName : String
  rootKind : String
  contentSHA256 : String
  blobSHA256 : String
  format : String
  archiveSizeBytes : Int
  logicalSizeBytes : Int
  entryCount : Int
  createdAt : Time
  expiresAt : Option Time := none
  deletedAt : Option Time := none
deriving DecidableEq

/-- `pipeline_yaml`: the pipeline the bytes decode to, if they do. -/
abbrev Document := Option Config.Pipeline

/-- A row of `pipeline_runs` with the rows that reference it. -/
structure Run where
  id : Uuid
  status : RunStatus
  pipelineYAML : Document
  maxParallel : Nat
  sourceSnapshotSHA256 : Option String
  createdAt : Time
  startedAt : Option Time := none
  finishedAt : Option Time := none
  cancelRequestedAt : Option Time := none
  errorMessage : Option String := none
  runnerID : Option Uuid := none
  leaseID : Option Uuid := none
  leaseGeneration : Nat := 0
  leaseExpiresAt : Option Time := none
  effectiveParallel : Option Nat := none
  jobs : List Job
  dependencies : List JobDependency
  artifacts : List Artifact := []
deriving DecidableEq

structure Runner where
  id : Uuid
  protocolVersion : Nat
  dockerAvailable : Bool
  maxParallel : Nat
  status : RunnerStatus
  lastSeenAt : Time

structure SourceSnapshot where
  sourceDigest : String
  blobDigest : String
  format : String
  archiveSizeBytes : Int
  logicalSizeBytes : Int
  entryCount : Int
deriving DecidableEq

/-- A row of `scm_repositories`. -/
structure Repository where
  id : Uuid
  provider : String
  normalizedFullName : String

inductive DeliveryStatus
  | pending | processing | processed | failed | ignored
deriving DecidableEq

/-- A row of `scm_deliveries`, and the argument of `CreateSCMDelivery`. -/
structure Delivery where
  id : Uuid
  provider : String
  deliveryID : String
  repositoryID : Uuid
  eventType : String
  action : String
  /-- `NULLIF` stores an empty commit as `NULL`. -/
  commitSHA : Option String
  pullRequestNumber : Option Int
  payloadSHA256 : String
  status : DeliveryStatus
  attemptCount : Nat := 0
  nextAttemptAt : Option Time := none
  lastError : Option String := none
  claimToken : Option Uuid := none
  claimedBy : Option String := none
  claimExpiresAt : Option Time := none
  receivedAt : Time
  processedAt : Option Time := none
deriving DecidableEq

/-- A row of `scm_run_triggers`. -/
structure RunTrigger where
  id : Uuid
  deliveryID : Uuid
  repositoryID : Uuid
  runID : Uuid
  provider : String
  commitSHA : String
  pullRequestNumber : Option Int
deriving DecidableEq

structure Rows where
  runs : List Run := []
  runners : List Runner := []
  snapshots : List SourceSnapshot := []
  repositories : List Repository := []
  deliveries : List Delivery := []
  triggers : List RunTrigger := []

/-- `~ '^[0-9a-f]{64}$'`. -/
def hexDigest (s : String) : Bool :=
  s.toList.length = 64 &&
    s.toList.all fun c => c.isDigit || ('a'.toNat ≤ c.toNat && c.toNat ≤ 'f'.toNat)

/-- `job_lease_consistent`. -/
def Job.leaseConsistent (j : Job) : Bool :=
  (j.status ≠ .running && j.leaseID.isNone && j.leaseExpiresAt.isNone) ||
    (j.status = .running &&
      ((j.runnerID.isNone && j.leaseID.isNone && j.leaseGeneration = 0 &&
          j.leaseExpiresAt.isNone) ||
        (j.runnerID.isSome && j.leaseID.isSome && 0 < j.leaseGeneration &&
          j.leaseExpiresAt.isSome)))

/-- `remote_lease_consistent` and `effective_parallel_valid`. -/
def Run.leaseConsistent (r : Run) : Bool :=
  ((r.runnerID.isNone && r.leaseID.isNone && r.leaseExpiresAt.isNone) ||
    (r.runnerID.isSome && r.leaseID.isSome && r.leaseExpiresAt.isSome &&
      r.effectiveParallel.isSome && 0 < r.leaseGeneration)) &&
    r.effectiveParallel.all (0 < ·)

/-- The column checks of `artifacts`. -/
def Artifact.checked (a : Artifact) : Bool :=
  Config.artifactNamePattern a.name &&
    a.rootName ≠ "" && a.rootName.toList.all (fun c => c ≠ '/' && c ≠ '\\') &&
    (a.rootKind = "file" || a.rootKind = "directory") &&
    hexDigest a.contentSHA256 && hexDigest a.blobSHA256 &&
    a.format = "artifact-tar-gzip-v1" &&
    0 ≤ a.archiveSizeBytes && 0 ≤ a.logicalSizeBytes && 0 < a.entryCount &&
    (a.deletedAt.isNone || a.expiresAt.isSome)

/-- The column checks of `source_snapshots`. -/
def SourceSnapshot.checked (s : SourceSnapshot) : Bool :=
  hexDigest s.sourceDigest && hexDigest s.blobDigest && s.format = "tar-gzip-v1" &&
    0 ≤ s.archiveSizeBytes && 0 ≤ s.logicalSizeBytes && 0 ≤ s.entryCount

/-- The constraints of a run row and of the rows that reference it. -/
structure Run.Constraints (r : Run) : Prop where
  max_parallel : 0 < r.maxParallel
  lease : r.leaseConsistent = true
  jobs_key : (r.jobs.map Job.name).Nodup
  jobs_lease : ∀ j ∈ r.jobs, j.leaseConsistent = true
  dependencies_key : r.dependencies.Nodup
  dependencies_jobs : ∀ d ∈ r.dependencies, d.jobName ∈ r.jobs.map Job.name ∧
    d.dependsOn ∈ r.jobs.map Job.name ∧ d.jobName ≠ d.dependsOn
  artifacts_key : (r.artifacts.map fun a => (a.producerJob, a.name)).Nodup
  artifacts_jobs : ∀ a ∈ r.artifacts, a.producerJob ∈ r.jobs.map Job.name
  artifacts_checked : ∀ a ∈ r.artifacts, a.checked = true

instance : DecidablePred Run.Constraints := fun r =>
  decidable_of_iff (0 < r.maxParallel ∧ r.leaseConsistent = true ∧
    (r.jobs.map Job.name).Nodup ∧ (∀ j ∈ r.jobs, j.leaseConsistent = true) ∧
    r.dependencies.Nodup ∧
    (∀ d ∈ r.dependencies, d.jobName ∈ r.jobs.map Job.name ∧
      d.dependsOn ∈ r.jobs.map Job.name ∧ d.jobName ≠ d.dependsOn) ∧
    (r.artifacts.map fun a => (a.producerJob, a.name)).Nodup ∧
    (∀ a ∈ r.artifacts, a.producerJob ∈ r.jobs.map Job.name) ∧ ∀ a ∈ r.artifacts, a.checked = true)
    ⟨fun ⟨h1, h2, h3, h4, h5, h6, h7, h8, h9⟩ => ⟨h1, h2, h3, h4, h5, h6, h7, h8, h9⟩,
      fun ⟨h1, h2, h3, h4, h5, h6, h7, h8, h9⟩ => ⟨h1, h2, h3, h4, h5, h6, h7, h8, h9⟩⟩

/-- The keys and references between the tables. -/
structure Rows.Constraints (t : Rows) : Prop where
  runs_key : (t.runs.map Run.id).Nodup
  runs : ∀ r ∈ t.runs, r.Constraints
  runs_snapshot : ∀ r ∈ t.runs, ∀ d ∈ r.sourceSnapshotSHA256,
    d ∈ t.snapshots.map SourceSnapshot.sourceDigest
  jobs_runner : ∀ r ∈ t.runs, ∀ j ∈ r.jobs, ∀ i ∈ j.runnerID,
    i ∈ t.runners.map Runner.id
  runners_key : (t.runners.map Runner.id).Nodup
  runners_checked : ∀ r ∈ t.runners, 0 < r.protocolVersion ∧ 0 < r.maxParallel
  snapshots_key : (t.snapshots.map SourceSnapshot.sourceDigest).Nodup
  snapshots_checked : ∀ s ∈ t.snapshots, s.checked = true
  repositories_key : (t.repositories.map Repository.id).Nodup
  repositories_name :
    (t.repositories.map fun r => (r.provider, r.normalizedFullName)).Nodup
  deliveries_key : (t.deliveries.map Delivery.id).Nodup
  deliveries_identity : (t.deliveries.map fun d => (d.provider, d.deliveryID)).Nodup
  deliveries_repository : ∀ d ∈ t.deliveries,
    d.repositoryID ∈ t.repositories.map Repository.id
  triggers_key : (t.triggers.map RunTrigger.id).Nodup
  triggers_delivery : (t.triggers.map RunTrigger.deliveryID).Nodup
  triggers_run : (t.triggers.map RunTrigger.runID).Nodup
  triggers_references : ∀ g ∈ t.triggers, g.deliveryID ∈ t.deliveries.map Delivery.id ∧
    g.repositoryID ∈ t.repositories.map Repository.id ∧ g.runID ∈ t.runs.map Run.id

instance : DecidablePred Rows.Constraints := fun t =>
  decidable_of_iff ((t.runs.map Run.id).Nodup ∧ (∀ r ∈ t.runs, r.Constraints) ∧
    (∀ r ∈ t.runs, ∀ d ∈ r.sourceSnapshotSHA256,
      d ∈ t.snapshots.map SourceSnapshot.sourceDigest) ∧
    (∀ r ∈ t.runs, ∀ j ∈ r.jobs, ∀ i ∈ j.runnerID, i ∈ t.runners.map Runner.id) ∧
    (t.runners.map Runner.id).Nodup ∧ (∀ r ∈ t.runners, 0 < r.protocolVersion ∧ 0 < r.maxParallel) ∧
    (t.snapshots.map SourceSnapshot.sourceDigest).Nodup ∧ (∀ s ∈ t.snapshots, s.checked = true) ∧
    (t.repositories.map Repository.id).Nodup ∧
    (t.repositories.map fun r => (r.provider, r.normalizedFullName)).Nodup ∧
    (t.deliveries.map Delivery.id).Nodup ∧
    (t.deliveries.map fun d => (d.provider, d.deliveryID)).Nodup ∧
    (∀ d ∈ t.deliveries, d.repositoryID ∈ t.repositories.map Repository.id) ∧
    (t.triggers.map RunTrigger.id).Nodup ∧ (t.triggers.map RunTrigger.deliveryID).Nodup ∧
    (t.triggers.map RunTrigger.runID).Nodup ∧
    ∀ g ∈ t.triggers, g.deliveryID ∈ t.deliveries.map Delivery.id ∧
      g.repositoryID ∈ t.repositories.map Repository.id ∧ g.runID ∈ t.runs.map Run.id)
    ⟨fun ⟨h1, h2, h3, h4, h5, h6, h7, h8, h9, h10, h11, h12, h13, h14, h15, h16, h17⟩ =>
        ⟨h1, h2, h3, h4, h5, h6, h7, h8, h9, h10, h11, h12, h13, h14, h15, h16, h17⟩,
      fun ⟨h1, h2, h3, h4, h5, h6, h7, h8, h9, h10, h11, h12, h13, h14, h15, h16, h17⟩ =>
        ⟨h1, h2, h3, h4, h5, h6, h7, h8, h9, h10, h11, h12, h13, h14, h15, h16, h17⟩⟩

/-- A committed database: rows that satisfy the constraints. -/
structure Database extends Rows where
  valid : toRows.Constraints

/-- The database after the migrations. -/
def Database.empty : Database where
  toRows := {}
  valid := by decide

/-- The errors of the store; `parse` is an error of `config.ParseBytes`, with
the message of `Validate` when the document decodes. -/
inductive StoreError
  | notFound
  | conflict
  | noRows
  | constraintViolation
  | invalidText
  | nullScan
  | snapshotRequired
  | conflictingSnapshot
  | parse (cause : Option Config.ValidateError)
  | jobMissing
  | invalidDelivery
  | invalidClaim
  | invalidRenewal
  | invalidCompletion
  | invalidRun
deriving DecidableEq

/-- `config.ParseBytes` on a stored document. -/
def parseBytes : Document → Except StoreError Config.Pipeline
  | none => .error (.parse none)
  | some cfg =>
      match Config.validate cfg with
      | .error e => .error (.parse (some e))
      | .ok () => .ok cfg

/-- End a transaction: a failed one, or one whose rows break a constraint,
leaves the database as it was. -/
def Database.commit {α : Type} (db : Database) (result : Except StoreError (Rows × α)) :
    Database × Except StoreError α :=
  match result with
  | .error e => (db, .error e)
  | .ok (rows, a) =>
      if h : rows.Constraints then (⟨rows, h⟩, .ok a) else (db, .error .constraintViolation)

theorem parseBytes_ok {doc : Document} {cfg : Config.Pipeline}
    (h : parseBytes doc = .ok cfg) : doc = some cfg ∧ Config.validate cfg = .ok () := by
  cases doc with
  | none => cases h
  | some c => grind [parseBytes]

/-- What a committed transaction did: either it succeeded and its rows are the
new database, or nothing changed. -/
theorem Database.commit_cases {α : Type} (db : Database) (result : Except StoreError (Rows × α)) :
    (∃ rows a, result = .ok (rows, a) ∧ (db.commit result).1.toRows = rows ∧
        (db.commit result).2 = .ok a) ∨
      ((db.commit result).1 = db ∧ ∃ e, (db.commit result).2 = .error e) := by
  cases result with
  | error e => exact .inr ⟨rfl, e, rfl⟩
  | ok pair => grind [commit]

@[simp] theorem JobStatus.failing_eq_false_iff {s : JobStatus} :
    s.failing = false ↔ s = .pending ∨ s = .running ∨ s = .passed := by
  cases s <;> simp [failing]

theorem JobStatus.unfinished_iff {s : JobStatus} :
    s.unfinished = true ↔ s = .pending ∨ s = .running := by
  cases s <;> simp [unfinished]

theorem RunStatus.terminal_eq_false_iff {s : RunStatus} :
    s.terminal = false ↔ s = .queued ∨ s = .running := by
  cases s <;> simp [terminal]

end Postgres
