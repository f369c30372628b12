import ForgeCI.Compile
import ForgeCI.System

/-!
# Runs created from pipelines

`Manager.Submit` and the SCM worker parse, validate and compile a pipeline and
create a run from the graph: a job for every name in topological order, a
dependency for every need.  `Run.Built` is what such a run keeps for its whole
life, whatever the store does to it.
-/

namespace Postgres

/-- The request that `Manager.Submit` and the SCM worker build from a graph. -/
def submission (id : Uuid) (cfg : Config.Pipeline) (g : Pipeline.Graph) (maxParallel : Nat)
    (snapshot : Option SourceSnapshot) : CreateRun where
  id := id
  pipelineYAML := some cfg
  maxParallel := maxParallel
  jobs := g.order.map fun name => (name, (g.node? name).bind fun node => node.job.image)
  dependencies := g.order.flatMap fun name =>
    ((g.node? name).elim [] fun node => node.job.needs).map fun d => ⟨name, d⟩
  snapshot := snapshot

/-- The request was built from a pipeline that `Validate` and `Compile` accept. -/
def CreateRun.Compiled (input : CreateRun) (cfg : Config.Pipeline) : Prop :=
  Config.validate cfg = .ok () ∧ ∃ g, Pipeline.compile cfg = .ok g ∧
    input = submission input.id cfg g input.maxParallel input.snapshot

/-- A request that creates runs from accepted pipelines only. -/
def Request.Accepted (q : Request) : Prop :=
  ∀ input, q.call.creates = some input → ∃ cfg, input.Compiled cfg

/-- The dependencies of a job of a run. -/
def Run.needs (r : Run) (name : String) : List String :=
  (r.dependencies.filter (·.jobName = name)).map JobDependency.dependsOn

theorem Run.mem_needs {r : Run} {name d : String} :
    d ∈ r.needs name ↔ ⟨name, d⟩ ∈ r.dependencies := by
  simp only [needs, List.mem_map, List.mem_filter, decide_eq_true_eq]
  constructor
  · rintro ⟨⟨n, m⟩, ⟨hmem, rfl⟩, rfl⟩
    exact hmem
  · exact fun hmem => ⟨⟨name, d⟩, ⟨hmem, rfl⟩, rfl⟩

/-- The jobs and dependencies of a run are those of a pipeline. -/
structure Run.Built (cfg : Config.Pipeline) (r : Run) : Prop where
  accepted : Config.validate cfg = .ok ()
  yaml : r.pipelineYAML = some cfg
  names : (r.jobs.map Job.name).Perm cfg.names
  topological : Kahn.Topological r.needs (r.jobs.map Job.name)
  dependencies : ∀ n d, ⟨n, d⟩ ∈ r.dependencies ↔
    ∃ job, cfg.job? n = some job ∧ d ∈ job.needs

variable {cfg : Config.Pipeline}

theorem mem_submission_dependencies {g : Pipeline.Graph}
    (hcfg : Config.Accepted cfg) (hg : Pipeline.compile cfg = .ok g) {id : Uuid}
    {maxParallel : Nat} {snapshot : Option SourceSnapshot} {n d : String} :
    ⟨n, d⟩ ∈ (submission id cfg g maxParallel snapshot).dependencies ↔
      ∃ job, cfg.job? n = some job ∧ d ∈ job.needs := by
  simp only [submission, List.mem_flatMap, List.mem_map, JobDependency.mk.injEq]
  constructor
  · rintro ⟨name, hname, dep, hdep, rfl, rfl⟩
    rw [Pipeline.compile_node? hg] at hdep
    cases hjob : cfg.job? name with
    | none => simp [hjob] at hdep
    | some job => exact ⟨job, rfl, by simpa [hjob] using hdep⟩
  · rintro ⟨job, hjob, hd⟩
    have hname : n ∈ g.order := (Pipeline.compile_spec hcfg hg).1.mem_iff.2
      (Config.Pipeline.job?_isSome_iff.1 (by rw [hjob]; rfl))
    grind [Pipeline.compile_node?]

theorem CreateRun.row_names (now : Time) (input : CreateRun) (snapshot : SourceSnapshot) :
    (input.row now snapshot).jobs.map Job.name = input.jobs.map Prod.fst := by
  simp [row, Function.comp_def]

/-- A new run has the jobs and dependencies of its pipeline. -/
theorem CreateRun.Compiled.built {input : CreateRun}
    (h : input.Compiled cfg) (now : Time) (snapshot : SourceSnapshot) :
    (input.row now snapshot).Built cfg := by
  obtain ⟨hvalid, g, hg, hinput⟩ := h
  have hcfg := Config.accepted_of_validate hvalid
  obtain ⟨hperm, htop⟩ := Pipeline.compile_spec hcfg hg
  have hdeps : ∀ n d, ⟨n, d⟩ ∈ (input.row now snapshot).dependencies ↔
      ∃ job, cfg.job? n = some job ∧ d ∈ job.needs := by
    intro n d
    show ⟨n, d⟩ ∈ input.dependencies ↔ _
    rw [hinput]
    exact mem_submission_dependencies hcfg hg
  have hnames : (input.row now snapshot).jobs.map Job.name = g.order := by
    rw [row_names, hinput]
    simp [submission, Function.comp_def]
  refine ⟨hvalid, ?_, ?_, ?_, hdeps⟩
  · show input.pipelineYAML = some cfg
    rw [hinput]
    rfl
  · rw [hnames]
    exact hperm
  · rw [hnames]
    intro pre n post heq d hd
    refine htop pre n post heq d (Pipeline.mem_needsOf.2 ?_)
    exact (hdeps n d).1 (Run.mem_needs.1 hd)

/-- A run stays built from its pipeline. -/
theorem Run.Built.of_static {r r' : Run} (h : r.Built cfg)
    (hstatic : r.SameStatic r') (hnames : r'.jobs.map Job.name = r.jobs.map Job.name) :
    r'.Built cfg := by
  have hneeds : r'.needs = r.needs := by
    funext name
    simp only [needs, hstatic.dependencies]
  exact ⟨h.accepted, hstatic.pipelineYAML.trans h.yaml, by rw [hnames]; exact h.names,
    by rw [hneeds, hnames]; exact h.topological,
    by rw [hstatic.dependencies]; exact h.dependencies⟩

theorem Run.Built.names_nodup {r : Run} (h : r.Built cfg) : (r.jobs.map Job.name).Nodup :=
  h.names.nodup_iff.2 cfg.jobs_nodup

/-- The jobs of a built run are defined in its stored pipeline. -/
theorem Run.Built.parse {r : Run} {j : Job} (h : r.Built cfg) (hj : j ∈ r.jobs) :
    parseBytes r.pipelineYAML = .ok cfg ∧ ∃ job, cfg.job? j.name = some job := by
  have hname : j.name ∈ cfg.names := h.names.mem_iff.1 (List.mem_map.2 ⟨j, hj, rfl⟩)
  refine ⟨?_, Option.isSome_iff_exists.1 (Config.Pipeline.job?_isSome_iff.2 hname)⟩
  rw [h.yaml, parseBytes, h.accepted]

theorem Run.Built.jobs_ne_nil {r : Run} (h : r.Built cfg) : r.jobs ≠ [] := by
  intro hnil
  have hlen := h.names.length_eq
  rw [hnil] at hlen
  refine (Config.accepted_of_validate h.accepted).jobs_ne_nil (List.length_eq_zero_iff.1 ?_)
  simpa [Config.Pipeline.names] using hlen.symm

/-- A job of a built run waits for nothing exactly when all it needs has passed. -/
theorem Run.Built.ready_iff {r : Run} {j : Job} (h : r.Built cfg) : r.waiting j = false ↔
      ∀ d ∈ r.needs j.name, ∃ u ∈ r.jobs, u.name = d ∧ u.status = .passed := by
  rw [← Bool.not_eq_true, Run.waiting_iff]
  constructor
  · intro hready d hd
    have hdep := Run.mem_needs.1 hd
    obtain ⟨job, hjob, hneed⟩ := (h.dependencies _ _).1 hdep
    have hknown := ((Config.accepted_of_validate h.accepted).needs_known hjob hneed).2
    obtain ⟨u, hu, hname⟩ := List.mem_map.1 (h.names.mem_iff.2 hknown)
    refine ⟨u, hu, hname, ?_⟩
    by_contra hpassed
    exact hready ⟨_, hdep, rfl, u, hu, hname, hpassed⟩
  · rintro hpassed ⟨⟨n, d⟩, hd, rfl, u, hu, hud, hnot⟩
    obtain ⟨v, hv, hvd, hv_passed⟩ := hpassed d (Run.mem_needs.2 hd)
    obtain rfl := List.inj_on_of_nodup_map h.names_nodup hu hv (hud.trans hvd.symm)
    exact hnot hv_passed

/-! ## An instance

A pipeline with one job, submitted to a store that a runner has joined. -/

namespace Sample

def settings : Settings where
  artifactRetention := 60000000
  collation := fun a b => decide (a ≤ b)

def digest : String := String.ofList (List.replicate 64 'a')

def snapshot : SourceSnapshot where
  sourceDigest := digest
  blobDigest := digest
  format := "tar-gzip-v1"
  archiveSizeBytes := 1
  logicalSizeBytes := 1
  entryCount := 1

def build : Config.Job where
  steps := ["make"]

def pipeline : Config.Pipeline where
  version := 1
  jobs := [("build", build)]
  jobs_nodup := by decide

def graph : Pipeline.Graph where
  nodes := [("build", ⟨"build", build, [], []⟩)]
  order := ["build"]

def input : CreateRun := submission 1 pipeline graph 1 (some snapshot)

theorem compiled_input : input.Compiled pipeline :=
  ⟨by decide, graph, by decide, rfl⟩

def runner : Runner where
  id := 7
  protocolVersion := 2
  dockerAvailable := true
  maxParallel := 1
  status := .online
  lastSeenAt := 0

/-- Submit the pipeline, register the runner, lease the job. -/
def requests : List Request :=
  [⟨0, .createRun input⟩, ⟨1, .registerRunner runner⟩, ⟨2, .leaseJob 7 100⟩]

/-- The owner of the lease that was granted. -/
def owner : Ownership where
  runID := 1
  runnerID := some 7
  leaseID := some 100
  jobName := "build"
  generation := 1

theorem requests_accepted : ∀ q ∈ requests, q.Accepted := by
  intro q hq input' hinput'
  have hq' : q = ⟨0, .createRun input⟩ ∨ q = ⟨1, .registerRunner runner⟩ ∨
      q = ⟨2, .leaseJob 7 100⟩ := by simpa [requests] using hq
  rcases hq' with rfl | rfl | rfl
  · obtain rfl : input = input' := by simpa [Call.creates] using hinput'
    exact ⟨pipeline, compiled_input⟩
  · cases hinput'
  · cases hinput'

/-- A pipeline of two independent jobs. -/
def pair : Config.Pipeline where
  version := 1
  jobs := [("build", build), ("lint", build)]
  jobs_nodup := by decide

def pairGraph : Pipeline.Graph where
  nodes := [("build", ⟨"build", build, [], []⟩), ("lint", ⟨"lint", build, [], []⟩)]
  order := ["build", "lint"]

theorem compiled_pair (maxParallel : Nat) :
    (submission 1 pair pairGraph maxParallel (some snapshot)).Compiled pair :=
  ⟨by decide, pairGraph, by decide, rfl⟩

/-- A job after the build. -/
def check : Config.Job where
  steps := ["make check"]
  needs := ["build"]

/-- A pipeline of two jobs, one of which needs the other. -/
def sequence : Config.Pipeline where
  version := 1
  jobs := [("build", build), ("test", check)]
  jobs_nodup := by decide

def sequenceGraph : Pipeline.Graph where
  nodes := [("build", ⟨"build", build, [], ["test"]⟩), ("test", ⟨"test", check, ["build"], []⟩)]
  order := ["build", "test"]

/-- Submit this pipeline, and lease the second job after the first has passed. -/
def relay : List Request :=
  [⟨0, .createRun (submission 1 sequence sequenceGraph 1 (some snapshot))⟩,
    ⟨1, .registerRunner runner⟩, ⟨2, .leaseJob 7 100⟩, ⟨3, .completeJob owner .passed none⟩,
    ⟨4, .leaseJob 7 101⟩]

theorem relay_accepted : ∀ q ∈ relay, q.Accepted := by
  intro q hq input hinput
  simp only [relay, List.mem_cons, List.not_mem_nil, or_false] at hq
  rcases hq with rfl | rfl | rfl | rfl | rfl
  · obtain rfl : _ = input := Option.some.inj hinput
    exact ⟨sequence, by decide, sequenceGraph, by decide, rfl⟩
  all_goals cases hinput

/-- A job that uploads an artifact. -/
def producer : Config.Job where
  steps := ["make"]
  artifacts := { upload := [⟨"dist", "out/dist"⟩], download := [] }

/-- A pipeline of this job alone. -/
def solo : Config.Pipeline where
  version := 1
  jobs := [("build", producer)]
  jobs_nodup := by decide

def soloGraph : Pipeline.Graph where
  nodes := [("build", ⟨"build", producer, [], []⟩)]
  order := ["build"]

/-- The artifact of this job. -/
def dist : Artifact where
  producerJob := "build"
  name := "dist"
  rootName := "dist"
  rootKind := "file"
  contentSHA256 := digest
  blobSHA256 := digest
  format := "artifact-tar-gzip-v1"
  archiveSizeBytes := 1
  logicalSizeBytes := 1
  entryCount := 1
  createdAt := 0

/-- A job that downloads it. -/
def consumer : Config.Job where
  steps := ["make check"]
  needs := ["build"]
  artifacts := { upload := [], download := [⟨"build", "dist", "in"⟩] }

/-- A pipeline of two jobs, one after the other. -/
def chain : Config.Pipeline where
  version := 1
  jobs := [("build", producer), ("test", consumer)]
  jobs_nodup := by decide

def chainGraph : Pipeline.Graph where
  nodes := [("build", ⟨"build", producer, [], ["test"]⟩),
    ("test", ⟨"test", consumer, ["build"], []⟩)]
  order := ["build", "test"]

theorem chain_accepted : Config.validate chain = .ok () ∧ Pipeline.compile chain = .ok chainGraph :=
  ⟨by decide, by decide⟩

end Sample

end Postgres
