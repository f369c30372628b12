import ForgeCI.GoLib

/-!
# Pipeline configuration and its validation

The types of package `config` and `Validate`, check by check in the order of
the source.  A Go map from job names to jobs is an association list without
repeated names; the order of the list stands for the iteration order of the
map, and `Validate` sorts the names before it looks at them.

The rest of the development uses an accepted pipeline only through `Accepted`.
-/

namespace Config

open GoLib

structure ArtifactUpload where
  name : String
  path : String
deriving DecidableEq

structure ArtifactDownload where
  fromJob : String
  name : String
  into : String
deriving DecidableEq

structure Artifacts where
  upload : List ArtifactUpload := []
  download : List ArtifactDownload := []
deriving DecidableEq

structure CacheEntry where
  key : String
  path : String
deriving DecidableEq

structure Cache where
  restore : List CacheEntry := []
  save : List CacheEntry := []
deriving DecidableEq

structure Job where
  needs : List String := []
  image : Option String := none
  steps : List String
  artifacts : Artifacts := {}
  cache : Cache := {}
deriving DecidableEq

/-- A decoded pipeline document.  The keys of a map do not repeat. -/
structure Pipeline where
  version : Int
  jobs : List (String × Job)
  jobs_nodup : (jobs.map Prod.fst).Nodup
deriving DecidableEq

/-- The job names, in map iteration order. -/
def Pipeline.names (cfg : Pipeline) : List String :=
  cfg.jobs.map Prod.fst

/-- `cfg.Jobs[name]`. -/
def Pipeline.job? (cfg : Pipeline) (name : String) : Option Job :=
  cfg.jobs.lookup name

/-- The errors of `Validate`, one constructor for each message, with the
values the message names. -/
inductive ValidateError
  | unsupportedVersion (version : Int)
  | noJobs
  | invalidJobName (job : String)
  | noSteps (job : String)
  | invalidImage (job : String)
  | emptyStep (job : String) (index : Nat)
  | selfDependency (job : String)
  | unknownDependency (job dependency : String)
  | duplicateDependency (job dependency : String)
  | invalidArtifactName (job name : String)
  | duplicateUpload (job name : String)
  | unsafeUploadPath (job name path : String)
  | invalidProducer (job producer : String)
  | unsafeDownloadPath (job name into : String)
  | unknownProducer (job name producer : String)
  | notDirectDependency (job name producer : String)
  | undeclaredArtifact (job name producer : String)
  | duplicateDownload (job name producer : String)
  | conflictingDestination (job target : String)
  | invalidRestoreKey (job key : String)
  | unsafeRestorePath (job key path : String)
  | duplicateRestoreKey (job key : String)
  | invalidSaveKey (job key : String)
  | unsafeSavePath (job key path : String)
  | duplicateSaveKey (job key : String)
  | conflictingCachePaths (job key : String)
  | restoreConflictsDownload (job path into : String)
  | restoreConflictsUpload (job path upload : String)
deriving DecidableEq

/-- `^[A-Za-z0-9][A-Za-z0-9<extra>]*$`, with at most `limit` characters after
the first when there is a limit. -/
def matchesPattern (extra : List Char) (limit : Option Nat) (s : String) : Bool :=
  match s.toList with
  | [] => false
  | c :: cs =>
      c.isAlphanum && cs.all (fun c => c.isAlphanum || extra.contains c) &&
        limit.all (cs.length ≤ ·)

/-- `jobNamePattern`. -/
def jobNamePattern : String → Bool :=
  matchesPattern ['_', '-'] none

/-- `artifactNamePattern`. -/
def artifactNamePattern : String → Bool :=
  matchesPattern ['.', '_', '-'] (some 63)

/-- `cacheKeyPattern`. -/
def cacheKeyPattern : String → Bool :=
  matchesPattern ['.', '_', ':', '-'] (some 127)

/-- The body `safeArtifactPath` and `safeCachePath` share. -/
def safePath (value : String) : Bool :=
  if value = "" ∨ value = "." ∨ isAbs value = true ∨ '\x00' ∈ value.toList ∨
      '\\' ∈ value.toList ∨ value.toList.any isControl = true then false
  else clean value = value ∧ clean value ≠ ".." ∧ startsWith (clean value) "../" = false

def safeArtifactPath (value : String) : Bool := safePath value

def safeCachePath (value : String) : Bool := safePath value

def cachePathsConflict (a b : String) : Bool :=
  let a := clean a
  let b := clean b
  a = b || startsWith a (b ++ "/") || startsWith b (a ++ "/")

/-- Return an error when a test succeeds. -/
def reject (bad : Bool) (e : ValidateError) : Except ValidateError Unit :=
  if bad then .error e else .ok ()

/-- Run a check on every element, stopping at the first error. -/
def checkAll {α : Type} (check : α → Except ValidateError Unit) :
    List α → Except ValidateError Unit
  | [] => .ok ()
  | a :: rest =>
      match check a with
      | .error e => .error e
      | .ok () => checkAll check rest

/-- The upload loop of `validateArtifacts`; `uploads` is the set of names met. -/
def checkUploads (jobName : String) :
    List String → List ArtifactUpload → Except ValidateError Unit
  | _, [] => .ok ()
  | uploads, item :: rest =>
      if artifactNamePattern item.name = false ∨ item.name = ".." then
        .error (.invalidArtifactName jobName item.name)
      else if item.name ∈ uploads then .error (.duplicateUpload jobName item.name)
      else if safeArtifactPath item.path = false then
        .error (.unsafeUploadPath jobName item.name item.path)
      else checkUploads jobName (item.name :: uploads) rest

/-- The download loop of `validateArtifacts`; `refs` and `targets` are the sets
`seenRefs` and `seenTargets`. -/
def checkDownloads (jobName : String) (job : Job) (jobs : List (String × Job)) :
    List (String × String) → List String → List ArtifactDownload →
      Except ValidateError Unit
  | _, _, [] => .ok ()
  | refs, targets, item :: rest =>
      if jobNamePattern item.fromJob = false then
        .error (.invalidProducer jobName item.fromJob)
      else if artifactNamePattern item.name = false ∨ item.name = ".." then
        .error (.invalidArtifactName jobName item.name)
      else if safeArtifactPath item.into = false then
        .error (.unsafeDownloadPath jobName item.name item.into)
      else match jobs.lookup item.fromJob with
      | none => .error (.unknownProducer jobName item.name item.fromJob)
      | some producer =>
          if item.fromJob ∉ job.needs then
            .error (.notDirectDependency jobName item.name item.fromJob)
          else match producer.artifacts.upload.find? (·.name = item.name) with
          | none => .error (.undeclaredArtifact jobName item.name item.fromJob)
          | some upload =>
              let target := joinPath item.into (base upload.path)
              if (item.fromJob, item.name) ∈ refs then
                .error (.duplicateDownload jobName item.name item.fromJob)
              else if target ∈ targets then
                .error (.conflictingDestination jobName target)
              else
                checkDownloads jobName job jobs ((item.fromJob, item.name) :: refs)
                  (target :: targets) rest

def validateArtifacts (jobName : String) (job : Job) (jobs : List (String × Job)) :
    Except ValidateError Unit :=
  match checkUploads jobName [] job.artifacts.upload with
  | .error e => .error e
  | .ok () => checkDownloads jobName job jobs [] [] job.artifacts.download

/-- The restore loop of `validateCache`. -/
def checkRestores (jobName : String) :
    List String → List CacheEntry → Except ValidateError Unit
  | _, [] => .ok ()
  | seen, item :: rest =>
      if cacheKeyPattern item.key = false then
        .error (.invalidRestoreKey jobName item.key)
      else if safeCachePath item.path = false then
        .error (.unsafeRestorePath jobName item.key item.path)
      else if item.key ∈ seen then .error (.duplicateRestoreKey jobName item.key)
      else checkRestores jobName (item.key :: seen) rest

/-- The save loop of `validateCache`; `restore` is the restore list, whose keys
are distinct by now. -/
def checkSaves (jobName : String) (restore : List CacheEntry) :
    List String → List CacheEntry → Except ValidateError Unit
  | _, [] => .ok ()
  | seen, item :: rest =>
      if cacheKeyPattern item.key = false then
        .error (.invalidSaveKey jobName item.key)
      else if safeCachePath item.path = false then
        .error (.unsafeSavePath jobName item.key item.path)
      else if item.key ∈ seen then .error (.duplicateSaveKey jobName item.key)
      else if (restore.find? (·.key = item.key)).any (·.path ≠ item.path) then
        .error (.conflictingCachePaths jobName item.key)
      else checkSaves jobName restore (item.key :: seen) rest

def validateCache (jobName : String) (job : Job) : Except ValidateError Unit := do
  checkRestores jobName [] job.cache.restore
  checkSaves jobName job.cache.restore [] job.cache.save
  checkAll (fun item => checkAll (fun artifact =>
    reject (cachePathsConflict item.path artifact.into)
      (.restoreConflictsDownload jobName item.path artifact.into))
    job.artifacts.download) job.cache.restore
  checkAll (fun item => checkAll (fun artifact =>
    reject (cachePathsConflict item.path artifact.path)
      (.restoreConflictsUpload jobName item.path artifact.path))
    job.artifacts.upload) job.cache.restore

/-- An image reference `Validate` refuses. -/
def invalidImage (image : String) : Bool :=
  image = "" || trimSpace image ≠ image ||
    image.toList.any (fun r => isSpace r || isControl r)

/-- The step loop, counting from `index`. -/
def checkSteps (name : String) : Nat → List String → Except ValidateError Unit
  | _, [] => .ok ()
  | index, step :: rest =>
      if trimSpace step = "" then .error (.emptyStep name index)
      else checkSteps name (index + 1) rest

/-- The dependency loop; `seen` is the set of dependencies met. -/
def checkNeeds (name : String) (names : List String) :
    List String → List String → Except ValidateError Unit
  | _, [] => .ok ()
  | seen, dependency :: rest =>
      if dependency = name then .error (.selfDependency name)
      else if dependency ∉ names then .error (.unknownDependency name dependency)
      else if dependency ∈ seen then .error (.duplicateDependency name dependency)
      else checkNeeds name names (dependency :: seen) rest

/-- The checks `Validate` makes of one job. -/
def validateJob (cfg : Pipeline) (name : String) (job : Job) :
    Except ValidateError Unit := do
  reject (!jobNamePattern name) (.invalidJobName name)
  reject (job.steps = []) (.noSteps name)
  reject (job.image.any invalidImage) (.invalidImage name)
  checkSteps name 1 job.steps
  validateArtifacts name job cfg.jobs
  validateCache name job
  checkNeeds name cfg.names [] job.needs

/-- `Validate`. -/
def validate (cfg : Pipeline) : Except ValidateError Unit :=
  if cfg.version ≠ 1 then .error (.unsupportedVersion cfg.version)
  else if cfg.jobs = [] then .error .noJobs
  else checkAll (fun name =>
    match cfg.job? name with
    | none => .ok ()
    | some job => validateJob cfg name job) (sortStrings cfg.names)

variable {name : String}

theorem lookup_eq_some_iff {α : Type} {l : List (String × α)}
    (hl : (l.map Prod.fst).Nodup) {a : α} : l.lookup name = some a ↔ (name, a) ∈ l := by
  induction l with
  | nil => simp
  | cons head rest ih =>
    obtain ⟨key, b⟩ := head
    rw [List.map_cons, List.nodup_cons] at hl
    by_cases hkey : name = key
    · subst hkey
      have hrest : ∀ c, (name, c) ∉ rest := fun c hc =>
        hl.1 (List.mem_map.2 ⟨(name, c), hc, rfl⟩)
      simp [hrest, eq_comm]
    · have hbeq : (name == key) = false := by simp [hkey]
      grind

theorem lookup_isSome_iff {α : Type} {l : List (String × α)} :
    (l.lookup name).isSome ↔ name ∈ l.map Prod.fst := by
  induction l with
  | nil => simp
  | cons head rest ih => grind

variable {cfg : Pipeline}

theorem Pipeline.job?_eq_some_iff {job : Job} : cfg.job? name = some job ↔ (name, job) ∈ cfg.jobs :=
  lookup_eq_some_iff cfg.jobs_nodup

theorem Pipeline.job?_isSome_iff : (cfg.job? name).isSome ↔ name ∈ cfg.names :=
  lookup_isSome_iff

theorem checkAll_ok_iff {α : Type} {check : α → Except ValidateError Unit}
    {l : List α} : checkAll check l = .ok () ↔ ∀ a ∈ l, check a = .ok () := by
  induction l with
  | nil => simp [checkAll]
  | cons a rest ih => grind [checkAll]

/-- The dependency loop accepts a duplicate-free list of other, known jobs. -/
theorem checkNeeds_ok {names seen needs : List String}
    (h : checkNeeds name names seen needs = .ok ()) :
    needs.Nodup ∧ ∀ d ∈ needs, d ≠ name ∧ d ∈ names ∧ d ∉ seen := by
  induction needs generalizing seen with
  | nil => simp
  | cons d rest ih =>
    simp only [checkNeeds] at h
    split_ifs at h with h1 h2 h3
    obtain ⟨hnodup, hrest⟩ := ih h
    have hd : d ∉ rest := fun hmem => (hrest d hmem).2.2 List.mem_cons_self
    refine ⟨List.nodup_cons.2 ⟨hd, hnodup⟩, ?_⟩
    intro x hx
    rcases List.mem_cons.1 hx with rfl | hx
    · exact ⟨h1, h2, h3⟩
    · obtain ⟨hne, hknown, hseen⟩ := hrest x hx
      exact ⟨hne, hknown, fun hmem => hseen (List.mem_cons_of_mem _ hmem)⟩

variable {jobName : String}

variable {seen : List String}

/-- The upload loop accepts distinct names only. -/
theorem checkUploads_ok
    {items : List ArtifactUpload} (h : checkUploads jobName seen items = .ok ()) :
    (items.map (·.name)).Nodup ∧ ∀ item ∈ items, item.name ∉ seen := by
  induction items generalizing seen with
  | nil => simp
  | cons item rest ih =>
    simp only [checkUploads] at h
    split_ifs at h with h1 h2 h3
    obtain ⟨hnodup, hrest⟩ := ih h
    have hitem : item.name ∉ rest.map (·.name) := by
      intro hmem
      obtain ⟨other, hother, hname⟩ := List.mem_map.1 hmem
      exact hrest other hother (by rw [hname]; exact List.mem_cons_self)
    refine ⟨List.nodup_cons.2 ⟨hitem, hnodup⟩, ?_⟩
    intro x hx
    rcases List.mem_cons.1 hx with rfl | hx
    · exact h2
    · exact fun hmem => hrest x hx (List.mem_cons_of_mem _ hmem)

/-- Every accepted download names an upload of a direct dependency. -/
theorem checkDownloads_ok {job : Job} {jobs : List (String × Job)}
    {refs : List (String × String)} {targets : List String} {items : List ArtifactDownload}
    (h : checkDownloads jobName job jobs refs targets items = .ok ()) :
    ∀ item ∈ items, item.fromJob ∈ job.needs ∧
      ∃ producer upload, jobs.lookup item.fromJob = some producer ∧
        producer.artifacts.upload.find? (·.name = item.name) = some upload := by
  induction items generalizing refs targets with
  | nil => simp
  | cons item rest ih =>
    simp only [checkDownloads] at h
    cases hproducer : jobs.lookup item.fromJob with
    | none => simp only [hproducer] at h; split_ifs at h
    | some producer =>
      simp only [hproducer] at h
      cases hupload : producer.artifacts.upload.find? (·.name = item.name) with
      | none => simp only [hupload] at h; split_ifs at h
      | some upload =>
        simp only [hupload] at h
        grind

/-- Peel the first of two sequenced checks. -/
theorem bind_ok {a : Except ValidateError Unit} {f : Unit → Except ValidateError Unit}
    (h : (a >>= f) = .ok ()) : a = .ok () ∧ f () = .ok () := by
  cases a with
  | error e => cases h
  | ok u => exact ⟨rfl, h⟩

theorem validateJob_ok {job : Job} (h : validateJob cfg name job = .ok ()) :
    jobNamePattern name = true ∧ validateArtifacts name job cfg.jobs = .ok () ∧
      checkNeeds name cfg.names [] job.needs = .ok () ∧ validateCache name job = .ok () := by
  unfold validateJob at h
  obtain ⟨hname, h⟩ := bind_ok h
  obtain ⟨-, h⟩ := bind_ok h
  obtain ⟨-, h⟩ := bind_ok h
  obtain ⟨-, h⟩ := bind_ok h
  obtain ⟨hartifacts, h⟩ := bind_ok h
  obtain ⟨hcache, hneeds⟩ := bind_ok h
  grind [reject]

/-- The facts about an accepted pipeline that later modules use. -/
structure Accepted (cfg : Pipeline) : Prop where
  jobs_ne_nil : cfg.jobs ≠ []
  names_ne_empty : "" ∉ cfg.names
  needs_nodup : ∀ {name job}, cfg.job? name = some job → job.needs.Nodup
  needs_known : ∀ {name job d}, cfg.job? name = some job → d ∈ job.needs →
    d ≠ name ∧ d ∈ cfg.names
  uploads_nodup : ∀ {name job}, cfg.job? name = some job →
    (job.artifacts.upload.map (·.name)).Nodup
  download_declared : ∀ {name job item}, cfg.job? name = some job →
    item ∈ job.artifacts.download → item.fromJob ∈ job.needs ∧
      ∃ producer upload, cfg.job? item.fromJob = some producer ∧
        upload ∈ producer.artifacts.upload ∧ upload.name = item.name

theorem validate_ok (h : validate cfg = .ok ()) :
    cfg.jobs ≠ [] ∧ ∀ {name job}, cfg.job? name = some job →
      validateJob cfg name job = .ok () := by
  unfold validate at h
  split_ifs at h with hversion hjobs
  refine ⟨hjobs, ?_⟩
  intro name job hjob
  have hmem : name ∈ sortStrings cfg.names :=
    mem_sortStrings.2 (Pipeline.job?_isSome_iff.1 (by rw [hjob]; rfl))
  simpa [hjob] using checkAll_ok_iff.1 h name hmem

theorem validateArtifacts_ok {job : Job} {jobs : List (String × Job)}
    (h : validateArtifacts name job jobs = .ok ()) :
    checkUploads name [] job.artifacts.upload = .ok () ∧
      checkDownloads name job jobs [] [] job.artifacts.download = .ok () := by
  grind [validateArtifacts]

theorem accepted_of_validate (h : validate cfg = .ok ()) : Accepted cfg := by
  obtain ⟨hjobs, hjob⟩ := validate_ok h
  have hartifacts : ∀ {name job}, cfg.job? name = some job →
      checkUploads name [] job.artifacts.upload = .ok () ∧
        checkDownloads name job cfg.jobs [] [] job.artifacts.download = .ok () := by
    intro name job hname
    exact validateArtifacts_ok (validateJob_ok (hjob hname)).2.1
  refine ⟨hjobs, ?_, ?_, ?_, ?_, ?_⟩
  · intro hmem
    obtain ⟨job, hname⟩ := Option.isSome_iff_exists.1 (Pipeline.job?_isSome_iff.2 hmem)
    exact absurd (validateJob_ok (hjob hname)).1 (by decide)
  · intro name job hname
    exact (checkNeeds_ok (validateJob_ok (hjob hname)).2.2.1).1
  · intro name job d hname hd
    obtain ⟨hne, hknown, -⟩ := (checkNeeds_ok (validateJob_ok (hjob hname)).2.2.1).2 d hd
    exact ⟨hne, hknown⟩
  · intro name job hname
    exact (checkUploads_ok (hartifacts hname).1).1
  · intro name job item hname hitem
    obtain ⟨hneeds, producer, upload, hproducer, hupload⟩ :=
      checkDownloads_ok (hartifacts hname).2 item hitem
    refine ⟨hneeds, producer, upload, hproducer, List.mem_of_find?_eq_some hupload, ?_⟩
    simpa using List.find?_some hupload

/-- Every name in the pipeline matches the pattern for its kind. -/
structure WellNamed (cfg : Pipeline) : Prop where
  jobs : ∀ name ∈ cfg.names, jobNamePattern name = true
  artifacts : ∀ {name job upload}, cfg.job? name = some job → upload ∈ job.artifacts.upload →
    artifactNamePattern upload.name = true
  keys : ∀ {name job entry}, cfg.job? name = some job →
    entry ∈ job.cache.restore ++ job.cache.save → cacheKeyPattern entry.key = true

theorem checkUploads_names
    {items : List ArtifactUpload} (h : checkUploads jobName seen items = .ok ()) :
    ∀ item ∈ items, artifactNamePattern item.name = true := by
  induction items generalizing seen with
  | nil => simp
  | cons item rest ih => grind [checkUploads]

theorem checkRestores_keys
    {items : List CacheEntry} (h : checkRestores jobName seen items = .ok ()) :
    ∀ item ∈ items, cacheKeyPattern item.key = true := by
  induction items generalizing seen with
  | nil => simp
  | cons item rest ih => grind [checkRestores]

theorem checkSaves_keys {restore : List CacheEntry}
    {items : List CacheEntry} (h : checkSaves jobName restore seen items = .ok ()) :
    ∀ item ∈ items, cacheKeyPattern item.key = true := by
  induction items generalizing seen with
  | nil => simp
  | cons item rest ih => grind [checkSaves]

theorem wellNamed_of_validate (h : validate cfg = .ok ()) : WellNamed cfg where
  jobs := by
    intro name hname
    obtain ⟨job, hjob⟩ := Option.isSome_iff_exists.1 (Pipeline.job?_isSome_iff.2 hname)
    exact (validateJob_ok ((validate_ok h).2 hjob)).1
  artifacts := by
    intro name job upload hjob hupload
    have hartifacts := (validateJob_ok ((validate_ok h).2 hjob)).2.1
    exact checkUploads_names (validateArtifacts_ok hartifacts).1 upload hupload
  keys := by
    intro name job entry hjob hentry
    have hcache := (validateJob_ok ((validate_ok h).2 hjob)).2.2.2
    unfold validateCache at hcache
    obtain ⟨hrestore, hcache⟩ := bind_ok hcache
    obtain ⟨hsave, -⟩ := bind_ok hcache
    rcases List.mem_append.1 hentry with hentry | hentry
    · exact checkRestores_keys hrestore entry hentry
    · exact checkSaves_keys hsave entry hentry

end Config
