import ForgeCI.Config
import ForgeCI.Kahn

/-!
# Compiling a pipeline into its graph

Package `pipeline`: nodes with sorted needs and dependents, and `Compile`,
which orders the jobs with Kahn's algorithm and refuses a cyclic pipeline.
`Compile` looks nodes up without checking that they exist; a missing node is
the error `missingNode` here and a nil dereference there.
-/

namespace Pipeline

open GoLib

structure Node where
  name : String
  job : Config.Job
  needs : List String
  dependents : List String
deriving DecidableEq

structure Graph where
  nodes : List (String × Node)
  order : List String
deriving DecidableEq

inductive CompileError
  | missingNode (name : String)
  | cycle (jobs : List String)
deriving DecidableEq

/-- `graph.Nodes[name]`. -/
def Graph.node? (g : Graph) (name : String) : Option Node :=
  g.nodes.lookup name

/-- `graph.Nodes[name].Needs`. -/
def Graph.needs (g : Graph) (name : String) : List String :=
  (g.node? name).elim [] Node.needs

/-- `Graph.InitialJobs`. -/
def Graph.initialJobs (g : Graph) : List String :=
  g.order.filter fun name => g.needs name = []

/-- The sorted needs of a job, as its node carries them. -/
def needsOf (cfg : Config.Pipeline) (name : String) : List String :=
  (cfg.job? name).elim [] fun job => sortStrings job.needs

/-- What the two nested loops append to the dependents of `name`: the name of
every job, once for each of its needs that is `name`; sorted afterwards. -/
def dependentsOf (cfg : Config.Pipeline) (name : String) : List String :=
  sortStrings (cfg.jobs.flatMap fun entry =>
    ((sortStrings entry.2.needs).filter (· = name)).map fun _ => entry.1)

def nodesOf (cfg : Config.Pipeline) : List (String × Node) :=
  cfg.jobs.map fun entry =>
    (entry.1, ⟨entry.1, entry.2, sortStrings entry.2.needs, dependentsOf cfg entry.1⟩)

/-- The state of the ordering loop when it ends. -/
def kahnOf (cfg : Config.Pipeline) : Kahn.State String :=
  Kahn.loop (dependentsOf cfg) sortStrings cfg.jobs.length
    (Kahn.start cfg.names (needsOf cfg) sortStrings)

/-- `Compile`. -/
def compile (cfg : Config.Pipeline) : Except CompileError Graph :=
  match (cfg.jobs.flatMap fun entry => sortStrings entry.2.needs).find?
      (· ∉ cfg.names) with
  | some missing => .error (.missingNode missing)
  | none =>
      if (kahnOf cfg).order.length ≠ (nodesOf cfg).length then
        .error (.cycle (sortStrings
          (cfg.names.filter fun name => 0 < (kahnOf cfg).indegree name)))
      else .ok { nodes := nodesOf cfg, order := (kahnOf cfg).order }

variable {cfg : Config.Pipeline}

theorem needsOf_eq {name : String} {job : Config.Job}
    (h : cfg.job? name = some job) : needsOf cfg name = sortStrings job.needs := by
  simp [needsOf, h]

theorem mem_needsOf {name d : String} :
    d ∈ needsOf cfg name ↔ ∃ job, cfg.job? name = some job ∧ d ∈ job.needs := by
  cases h : cfg.job? name <;> simp [needsOf, h]

theorem mem_dependentsOf {name m : String} : m ∈ dependentsOf cfg name ↔ name ∈ needsOf cfg m := by
  rw [mem_needsOf]
  simp only [dependentsOf, mem_sortStrings, List.mem_flatMap, List.mem_map,
    List.mem_filter, decide_eq_true_eq, Config.Pipeline.job?_eq_some_iff]
  grind

/-- The needs of a job of an accepted pipeline are jobs. -/
theorem mem_names_of_needsOf (hcfg : Config.Accepted cfg)
    {name d : String} (h : d ∈ needsOf cfg name) : d ∈ cfg.names := by
  obtain ⟨job, hjob, hd⟩ := mem_needsOf.1 h
  exact (hcfg.needs_known hjob hd).2

/-- Distinct needs make distinct dependents. -/
theorem dependentsOf_nodup (hcfg : Config.Accepted cfg)
    (name : String) : (dependentsOf cfg name).Nodup := by
  rw [dependentsOf, nodup_sortStrings, List.nodup_flatMap]
  constructor
  · rintro ⟨n, job⟩ hmem
    have hneeds := hcfg.needs_nodup (Config.Pipeline.job?_eq_some_iff.2 hmem)
    have hone : ((sortStrings job.needs).filter (· = name)).length ≤ 1 := by
      have hcount := List.nodup_iff_count_le_one.1 (nodup_sortStrings.2 hneeds) name
      grind
    rcases hfilter : (sortStrings job.needs).filter (· = name) with _ | ⟨a, _ | ⟨b, l⟩⟩
    · simp
    · simp
    · simp [hfilter] at hone
  · refine (List.pairwise_map.1 cfg.jobs_nodup).imp ?_
    intro a b hab x hxa hxb
    grind

/-- The needs and dependents of an accepted pipeline are one edge relation. -/
theorem edges_of_accepted (hcfg : Config.Accepted cfg) :
    Kahn.Edges cfg.names (needsOf cfg) (dependentsOf cfg) where
  names_nodup := cfg.jobs_nodup
  needs_nodup := by
    intro n hn
    obtain ⟨job, hjob⟩ := Option.isSome_iff_exists.1 (Config.Pipeline.job?_isSome_iff.2 hn)
    rw [needsOf_eq hjob, nodup_sortStrings]
    exact hcfg.needs_nodup hjob
  dependents_nodup := fun n _ => dependentsOf_nodup hcfg n
  mem_dependents := by
    intro n _ m
    rw [mem_dependentsOf]
    refine ⟨fun hm => ⟨?_, hm⟩, fun hm => hm.2⟩
    obtain ⟨job, hjob, -⟩ := mem_needsOf.1 hm
    exact Config.Pipeline.job?_isSome_iff.1 (by rw [hjob]; rfl)

theorem inv_kahnOf (hcfg : Config.Accepted cfg) : Kahn.Inv cfg.names (needsOf cfg) (kahnOf cfg) :=
  Kahn.inv_loop (edges_of_accepted hcfg) perm_sortStrings _
    (Kahn.inv_start (edges_of_accepted hcfg) perm_sortStrings)

/-- What a compiled graph is. -/
theorem compile_eq_ok {g : Graph} (h : compile cfg = .ok g) :
    g = { nodes := nodesOf cfg, order := (kahnOf cfg).order } ∧
      (kahnOf cfg).order.length = cfg.names.length := by
  unfold compile at h
  split at h
  · cases h
  · split_ifs at h with hlen
    refine ⟨(Except.ok.inj h).symm, ?_⟩
    simpa [nodesOf, Config.Pipeline.names] using hlen

/-- **A compiled graph is topologically ordered.** -/
theorem compile_spec {g : Graph} (hcfg : Config.Accepted cfg) (h : compile cfg = .ok g) :
    g.order.Perm cfg.names ∧ Kahn.Topological (needsOf cfg) g.order := by
  obtain ⟨rfl, hlen⟩ := compile_eq_ok h
  exact ⟨(inv_kahnOf hcfg).perm_of_complete hlen, (inv_kahnOf hcfg).topological⟩

theorem lookup_nodesOf {name : String} : (nodesOf cfg).lookup name = (cfg.job? name).map fun job =>
      ⟨name, job, sortStrings job.needs, dependentsOf cfg name⟩ := by
  have hgen : ∀ l : List (String × Config.Job),
      (l.map fun entry => (entry.1, (⟨entry.1, entry.2, sortStrings entry.2.needs,
        dependentsOf cfg entry.1⟩ : Node))).lookup name =
      (l.lookup name).map fun job =>
        ⟨name, job, sortStrings job.needs, dependentsOf cfg name⟩ := by
    intro l
    induction l with
    | nil => rfl
    | cons entry rest ih => grind
  exact hgen cfg.jobs

/-- The node of a job carries the job and its sorted needs. -/
theorem compile_node? {g : Graph} (h : compile cfg = .ok g)
    {name : String} : g.node? name = (cfg.job? name).map fun job =>
      ⟨name, job, sortStrings job.needs, dependentsOf cfg name⟩ := by
  obtain ⟨rfl, -⟩ := compile_eq_ok h
  exact lookup_nodesOf

theorem compile_needs {g : Graph} (h : compile cfg = .ok g)
    (name : String) : g.needs name = needsOf cfg name := by
  rw [Graph.needs, compile_node? h, needsOf]
  cases cfg.job? name <;> rfl

end Pipeline
