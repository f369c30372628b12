import ForgeCI.Submission
import ForgeCI.Webhook

/-!
# Source preparation

`PrepareSource` obtains a token and materializes the commit of a delivery with git;
every way it can fail is classified as transient or permanent.  What the outside world
does is an `Environment`: one outcome for each operation that leaves the program.
-/

namespace Scm

open GoLib Postgres

inductive FailureKind where
  | transient
  | permanent
deriving DecidableEq

inductive GitCommand where
  | init
  | remoteAdd
  | fetch
  | checkout
  | revParse
deriving DecidableEq

/-- The errors of `InstallationToken`: an `APIError`, or any other. -/
inductive TokenError where
  | api (status : Nat)
  | other

/-- `APIError.Transient`; every other error is transient too. -/
def TokenError.transient : TokenError → Bool
  | .api status => status = 429 || 500 ≤ status
  | .other => true

/-- What went wrong. -/
inductive Cause where
  | store
  | repositoryDisabled
  | invalidGitHubRequest
  | invalidInstallation
  | token (e : TokenError)
  | invalidSourceRequest
  | invalidRepository
  | invalidPipelinePath
  | invalidCloneBase
  | mkdirTemp
  | git (command : GitCommand) (output : String)
  | missingSourceRef
  | revisionUnavailable
  | unsafePath
  | readPipeline
  | parse (e : StoreError)
  | compile (e : Pipeline.CompileError)
  | captureSnapshot

/-- An error, and its kind when it is wrapped in a `ProcessingError`. -/
structure ProcessingError where
  kind : Option FailureKind := none
  cause : Cause

/-- `Transient`. -/
def transient (cause : Cause) : ProcessingError :=
  ⟨some .transient, cause⟩

/-- `Permanent`. -/
def permanent (cause : Cause) : ProcessingError :=
  ⟨some .permanent, cause⟩

/-- `Failure`: what is not classified is transient. -/
def ProcessingError.failure (e : ProcessingError) : FailureKind :=
  e.kind.getD .transient

/-- What becomes of a git command; it is interrupted when its context is done or its
time is up.  The error does not tell the difference. -/
inductive GitOutcome where
  | done (output : String)
  | failed (output : String)
  | interrupted (output : String)

/-- The outcomes of the operations `PrepareSource` depends on; `none` is a provider or a
store that is not configured. -/
structure Environment where
  tokens : Option (Except TokenError String)
  snapshots : Option (Except Unit SourceSnapshot)
  cloneBase : String
  mkdirTemp : Bool
  git : GitCommand → GitOutcome
  safePath : Bool
  readFile : Option Document
  lower : Char → Char := Char.toLower

/-- Pass on a condition, or fail. -/
def require (ok : Bool) (e : ProcessingError) : Except ProcessingError Unit :=
  if ok then .ok () else .error e

/-- Pass on a value, or fail. -/
def demand {α : Type} (x : Option α) (e : ProcessingError) : Except ProcessingError α :=
  x.elim (.error e) .ok

/-- `run` and `output`. -/
def Environment.run (env : Environment) (command : GitCommand) : Except ProcessingError String :=
  match env.git command with
  | .done output => .ok output
  | .failed output | .interrupted output => .error { cause := .git command (trimSpace output) }

/-- `scm.Repository`. -/
structure SourceRepository where
  id : Uuid
  provider : String
  fullName : String
  pipelinePath : String
  enabled : Bool

/-- The columns of a delivery that only `PrepareSource` reads. -/
structure Origin where
  installationID : String
  ref : String

/-- `Prepared`. -/
structure Prepared where
  provider : String
  repository : String
  gitCommitSHA : String
  ref : String
  pullRequestNumber : Option Int
  pipelinePath : String
  config : Config.Pipeline
  snapshot : SourceSnapshot
  pipeline : Pipeline.Graph

/-- `ValidatePipelinePath`. -/
def validatePipelinePath (v : String) : Option String :=
  let drive : Bool := match v.toList with
    | c :: ':' :: _ => c.toNat < 128
    | _ => false
  if v = "" ∨ 512 < v.utf8ByteSize ∨ '\x00' ∈ v.toList ∨ '\\' ∈ v.toList ∨ startsWith v "/" ∨
      drive then none
  else if clean v = "." ∨ clean v = ".." ∨ clean v ≠ v ∨ startsWith (clean v) "../" then none
  else some v

/-- `Remote`. -/
def remote (lower : Char → Char) (base repo : String) : Option String :=
  if normalizeRepository lower repo = none then none
  else if startsWith base "https://" = false ∧ startsWith base "http://" = false ∧
      startsWith base "file://" = false then none
  else
    let trimmed :=
      if base.toList.getLast? = some '/' then String.ofList base.toList.dropLast else base
    some (trimmed ++ "/" ++ repo ++ ".git")

/-- `strconv.ParseInt` to 64 bits. -/
def parseInt64 (v : String) : Option Int :=
  let number (digits : List Char) : Option Nat :=
    if digits ≠ [] ∧ digits.all Char.isDigit then
      some (digits.foldl (fun n c => 10 * n + (c.toNat - '0'.toNat)) 0)
    else none
  match v.toList with
  | '-' :: digits => (number digits).bind fun n => if n ≤ 2 ^ 63 then some (-n) else none
  | '+' :: digits => (number digits).bind fun n => if n < 2 ^ 63 then some n else none
  | digits => (number digits).bind fun n => if n < 2 ^ 63 then some n else none

/-- The ref that is fetched. -/
def sourceRef (d : Delivery) (origin : Origin) : String :=
  match d.pullRequestNumber with
  | some n => "refs/pull/" ++ toString n ++ "/head"
  | none => origin.ref

/-- `git.Prepare`. -/
def prepare (env : Environment) (r : SourceRepository) (d : Delivery) (origin : Origin) :
    Except ProcessingError Prepared := do
  require (env.snapshots.isSome && r.provider = "github" && validSHA d.commit)
    (permanent .invalidSourceRequest)
  let repo ← demand (normalizeRepository env.lower r.fullName) (permanent .invalidRepository)
  let pipelinePath ← demand (validatePipelinePath r.pipelinePath) (permanent .invalidPipelinePath)
  let _ ← demand (remote env.lower env.cloneBase repo) (permanent .invalidCloneBase)
  require env.mkdirTemp { cause := .mkdirTemp }
  let _ ← env.run .init
  let _ ← env.run .remoteAdd
  require (sourceRef d origin ≠ "") (permanent .missingSourceRef)
  let _ ← env.run .fetch
  let _ ← (env.run .checkout).mapError fun _ => permanent .revisionUnavailable
  let head ← (env.run .revParse).mapError fun _ => permanent .revisionUnavailable
  -- `EqualFold`; the hexadecimal letters of the hash fold with no letter beyond ASCII.
  require (toLower (trimSpace head) = toLower d.commit) (permanent .revisionUnavailable)
  require env.safePath (permanent .unsafePath)
  let data ← demand env.readFile (permanent .readPipeline)
  let config ← (parseBytes data).mapError fun e => permanent (.parse e)
  let graph ← (Pipeline.compile config).mapError fun e => permanent (.compile e)
  let snapshot ← demand (env.snapshots.bind Except.toOption) { cause := .captureSnapshot }
  return {
    provider := r.provider
    repository := repo
    gitCommitSHA := toLower d.commit
    ref := sourceRef d origin
    pullRequestNumber := d.pullRequestNumber
    pipelinePath := pipelinePath
    config := config
    snapshot := snapshot
    pipeline := graph }

/-- The token, or the failure of its request. -/
def Environment.token (env : Environment) : Except ProcessingError String :=
  match env.tokens with
  | none => .error (permanent .invalidGitHubRequest)
  | some (.error e) => .error (if e.transient then transient (.token e) else permanent (.token e))
  | some (.ok token) => .ok token

/-- `PrepareSource`. -/
def prepareSource (env : Environment) (r : SourceRepository) (d : Delivery) (origin : Origin) :
    Except ProcessingError Prepared := do
  require (env.tokens.isSome && r.provider = "github" && d.repositoryID = r.id)
    (permanent .invalidGitHubRequest)
  require ((parseInt64 origin.installationID).any (1 ≤ ·)) (permanent .invalidInstallation)
  let _ ← env.token
  prepare env r d origin

section Results

variable {α β : Type} {x : Except ProcessingError α} {f : α → Except ProcessingError β}
variable {e : ProcessingError} {b : β}

theorem bind_ok_iff : (x >>= f) = .ok b ↔ ∃ a, x = .ok a ∧ f a = .ok b := by
  cases x <;> simp [bind, Except.bind]

@[simp] theorem require_ok_iff {ok : Bool} {u : Unit} : require ok e = .ok u ↔ ok = true := by
  unfold require
  split_ifs <;> simp_all

@[simp] theorem demand_ok_iff {x : Option α} {a : α} : demand x e = .ok a ↔ x = some a := by
  cases x <;> simp [demand]

theorem mapError_ok_iff {ε : Type} {x : Except ε α} {g : ε → ProcessingError} {a : α} :
    x.mapError g = .ok a ↔ x = .ok a := by
  cases x <;> simp [Except.mapError]

/-- The failure is permanent. -/
def Hopeless (x : Except ProcessingError α) : Prop :=
  ∃ e, x = .error e ∧ e.failure = .permanent

theorem hopeless_bind : Hopeless (x >>= f) ↔ Hopeless x ∨ ∃ a, x = .ok a ∧ Hopeless (f a) := by
  cases x <;> simp [Hopeless, bind, Except.bind]

theorem hopeless_pure (a : α) : ¬ Hopeless (pure a) := by
  simp [Hopeless, pure, Except.pure]

theorem hopeless_require {ok : Bool} :
    Hopeless (require ok e) ↔ ok = false ∧ e.failure = .permanent := by
  cases ok <;> simp [Hopeless, require]

theorem hopeless_demand {x : Option α} :
    Hopeless (demand x e) ↔ x = none ∧ e.failure = .permanent := by
  cases x <;> simp [Hopeless, demand]

theorem hopeless_mapError {ε : Type} {x : Except ε α} {g : ε → Cause} :
    Hopeless (x.mapError fun e => permanent (g e)) ↔ ∃ e, x = .error e := by
  cases x <;> simp [Hopeless, Except.mapError, permanent, ProcessingError.failure]

end Results

variable {env : Environment} {r : SourceRepository} {d : Delivery} {origin : Origin}
variable {p : Prepared} {e : ProcessingError}

theorem prepare_ok (h : prepare env r d origin = .ok p) :
    validSHA d.commit = true ∧ p.provider = r.provider ∧ p.gitCommitSHA = toLower d.commit ∧
      p.pullRequestNumber = d.pullRequestNumber ∧ Config.validate p.config = .ok () ∧
      Pipeline.compile p.config = .ok p.pipeline := by
  simp only [prepare, bind_ok_iff, require_ok_iff, demand_ok_iff, mapError_ok_iff] at h
  obtain ⟨-, hrequest, repo, -, path, -, -, -, -, -, -, -, -, -, -, -, -, -, -, -, head, -, -, -, -,
    -, data, -, config, hparse, graph, hcompile, snapshot, -, hp⟩ := h
  cases hp
  simp only [Bool.and_eq_true, decide_eq_true_eq] at hrequest
  exact ⟨hrequest.2, rfl, rfl, rfl, (parseBytes_ok hparse).2, hcompile⟩

/-- **A prepared source is that of the delivery.** -/
theorem prepareSource_ok (h : prepareSource env r d origin = .ok p) :
    d.repositoryID = r.id ∧ validSHA d.commit = true ∧ p.gitCommitSHA = toLower d.commit ∧
      p.pullRequestNumber = d.pullRequestNumber ∧ Config.validate p.config = .ok () ∧
      Pipeline.compile p.config = .ok p.pipeline := by
  simp only [prepareSource, bind_ok_iff, require_ok_iff] at h
  obtain ⟨-, hrequest, -, -, -, -, hprepare⟩ := h
  obtain ⟨hsha, -, hrest⟩ := prepare_ok hprepare
  grind

/-- Neither the source nor the configuration has a defect: whatever fails was
interrupted. -/
structure Environment.Clean (env : Environment) (r : SourceRepository) (d : Delivery)
    (origin : Origin) : Prop where
  tokens : env.tokens.isSome = true
  snapshots : env.snapshots.isSome = true
  provider : r.provider = "github"
  repository : d.repositoryID = r.id
  installation : (parseInt64 origin.installationID).any (1 ≤ ·) = true
  token : ∀ e, env.tokens = some (.error e) → e.transient = true
  commit : validSHA d.commit = true
  remote : ∃ repo, normalizeRepository env.lower r.fullName = some repo ∧
    (Scm.remote env.lower env.cloneBase repo).isSome = true
  path : (validatePipelinePath r.pipelinePath).isSome = true
  ref : sourceRef d origin ≠ ""
  git : ∀ command output, env.git command ≠ .failed output
  head : ∀ output, env.git .revParse = .done output →
    toLower (trimSpace output) = toLower d.commit
  safePath : env.safePath = true
  pipeline : ∃ data config graph, env.readFile = some data ∧ parseBytes data = .ok config ∧
    Pipeline.compile config = .ok graph

/-- The context is done, or the time is up, while the command runs. -/
def Environment.interrupts (env : Environment) (command : GitCommand) : Prop :=
  ∃ output, env.git command = .interrupted output

/-- All that comes before the checkout is done. -/
structure Environment.Fetched (env : Environment) : Prop where
  token : ∃ token, env.tokens = some (.ok token)
  mkdirTemp : env.mkdirTemp = true
  commands : ∀ command ∈ [GitCommand.init, .remoteAdd, .fetch],
    ∃ output, env.git command = .done output

theorem Environment.run_ok_iff {command : GitCommand} {output : String} :
    env.run command = .ok output ↔ env.git command = .done output := by
  unfold Environment.run
  split <;> simp_all

/-- A failed command is not classified. -/
theorem hopeless_run {command : GitCommand} : ¬ Hopeless (env.run command) := by
  unfold Environment.run
  split <;> simp [Hopeless, ProcessingError.failure]

theorem Environment.Clean.run_error_iff (h : env.Clean r d origin) {command : GitCommand} :
    (∃ e, env.run command = .error e) ↔ env.interrupts command := by
  have hgit := h.git command
  unfold Environment.run Environment.interrupts
  split <;> simp_all

theorem Environment.token_ok_iff {token : String} :
    env.token = .ok token ↔ env.tokens = some (.ok token) := by
  unfold Environment.token
  split <;> simp_all

theorem Environment.Clean.token_hopeless (h : env.Clean r d origin) : ¬ Hopeless env.token := by
  grind [h.token, h.tokens, Hopeless, transient, ProcessingError.failure, Environment.token]

/-- **Without a defect, only an interrupted `checkout` or `rev-parse` fails for good.** -/
theorem prepareSource_hopeless_iff (h : env.Clean r d origin) :
    Hopeless (prepareSource env r d origin) ↔ env.Fetched ∧
      (env.interrupts .checkout ∨
        (∃ output, env.git .checkout = .done output) ∧ env.interrupts .revParse) := by
  obtain ⟨repo, hrepo, hremote⟩ := h.remote
  obtain ⟨remote, hremote⟩ := Option.isSome_iff_exists.1 hremote
  obtain ⟨path, hpath⟩ := Option.isSome_iff_exists.1 h.path
  obtain ⟨data, config, graph, hdata, hparse, hcompile⟩ := h.pipeline
  simp only [prepareSource, prepare, hopeless_bind, hopeless_require, hopeless_demand,
    hopeless_mapError, hopeless_run, hopeless_pure, require_ok_iff, demand_ok_iff,
    mapError_ok_iff, Environment.run_ok_iff]
  simp [h.tokens, h.snapshots, h.provider, h.repository, h.installation, h.token_hopeless, h.commit,
    hrepo, hpath, hremote, h.ref, h.run_error_iff, h.safePath, hdata, hparse, hcompile,
    ProcessingError.failure]
  have hhead := h.head
  constructor
  · rintro ⟨⟨token, htoken⟩, hdir, hinit, hadd, hfetch, hrest⟩
    refine ⟨⟨⟨token, Environment.token_ok_iff.1 htoken⟩, hdir, by simp [hinit, hadd, hfetch]⟩, ?_⟩
    grind
  · rintro ⟨⟨⟨token, htoken⟩, hdir, hcommands⟩, hrest⟩
    refine ⟨⟨token, Environment.token_ok_iff.2 htoken⟩, hdir, hcommands _ (by simp),
      hcommands _ (by simp), hcommands _ (by simp), ?_⟩
    grind

end Scm
