import ForgeCI.Compile
import ForgeCI.KahnOrders

/-!
# The order of a compiled graph

`Compile` ranges over maps: over the jobs, to make the nodes; over the nodes, to link them, to
find the ready ones and to report those in cycles.  Each range may come in any order.
-/

namespace Pipeline

open GoLib Relation

variable {cfg : Config.Pipeline} {g : Graph} {name : String}

/-- The orders of the four ranges. -/
structure Ranges (cfg : Config.Pipeline) where
  build : List (String × Config.Job)
  link : List (String × Config.Job)
  seed : List (String × Config.Job)
  report : List (String × Config.Job)
  build_perm : build.Perm cfg.jobs
  link_perm : link.Perm cfg.jobs
  seed_perm : seed.Perm cfg.jobs
  report_perm : report.Perm cfg.jobs

/-- The dependents of a node once they are sorted; they were appended in the order of `link`. -/
def dependentsIn (link : List (String × Config.Job)) (name : String) : List String :=
  sortStrings (link.flatMap fun entry =>
    ((sortStrings entry.2.needs).filter (· = name)).map fun _ => entry.1)

/-- The state of the ordering loop when it ends. -/
def kahnIn (cfg : Config.Pipeline) (r : Ranges cfg) : Kahn.State String :=
  Kahn.loop (dependentsIn r.link) sortStrings r.build.length
    (Kahn.start (r.seed.map Prod.fst) (needsOf cfg) sortStrings)

/-- `Compile`, with the orders of its ranges. -/
def compileIn (cfg : Config.Pipeline) (r : Ranges cfg) : Except CompileError Graph :=
  match (r.link.flatMap fun entry => sortStrings entry.2.needs).find? (· ∉ cfg.names) with
  | some missing => .error (.missingNode missing)
  | none =>
      if (kahnIn cfg r).order.length ≠ r.build.length then
        .error (.cycle (sortStrings
          ((r.report.map Prod.fst).filter fun name => 0 < (kahnIn cfg r).indegree name)))
      else .ok {
        nodes := r.build.map fun entry =>
          (entry.1, ⟨entry.1, entry.2, sortStrings entry.2.needs, dependentsIn r.link entry.1⟩)
        order := (kahnIn cfg r).order }

theorem sortStrings_pairwise (l : List String) : (sortStrings l).Pairwise (· ≤ ·) :=
  List.pairwise_insertionSort _ _

theorem sortStrings_congr {l l' : List String} (h : l.Perm l') :
    sortStrings l = sortStrings l' := by
  apply List.Perm.eq_of_pairwise _ (sortStrings_pairwise l) (sortStrings_pairwise l')
  · exact (perm_sortStrings l).trans (h.trans (perm_sortStrings l').symm)
  · intro a b _ _ hab hba
    exact le_antisymm hab hba

theorem dependentsIn_eq (r : Ranges cfg) : dependentsIn r.link = dependentsOf cfg := by
  funext name
  exact sortStrings_congr (r.link_perm.flatMap_right _)

theorem kahnIn_eq (r : Ranges cfg) : kahnIn cfg r = kahnOf cfg := by
  unfold kahnIn kahnOf Kahn.start
  have hseed : sortStrings ((r.seed.map Prod.fst).filter fun n => needsOf cfg n = []) =
      sortStrings (cfg.names.filter fun n => needsOf cfg n = []) :=
    sortStrings_congr ((r.seed_perm.map Prod.fst).filter _)
  rw [dependentsIn_eq, r.build_perm.length_eq, hseed]

theorem lookup_perm {α : Type} {l l' : List (String × α)} (h : l.Perm l')
    (hnodup : (l'.map Prod.fst).Nodup) (name : String) : l.lookup name = l'.lookup name := by
  have hnodup' : (l.map Prod.fst).Nodup := (h.map Prod.fst).nodup_iff.2 hnodup
  apply Option.ext
  grind [h.mem_iff, Config.lookup_eq_some_iff]

/-- No lookup misses in an accepted pipeline. -/
theorem find?_missing (hcfg : Config.Accepted cfg) {jobs : List (String × Config.Job)}
    (hjobs : jobs.Perm cfg.jobs) :
    (jobs.flatMap fun entry => sortStrings entry.2.needs).find? (· ∉ cfg.names) = none := by
  apply List.find?_eq_none.2
  intro d hd
  obtain ⟨⟨name, job⟩, hmem, hneed⟩ := List.mem_flatMap.1 hd
  have hjob := Config.Pipeline.job?_eq_some_iff.2 (hjobs.mem_iff.1 hmem)
  simpa using (hcfg.needs_known hjob (mem_sortStrings.1 hneed)).2

/-- The graph of a pipeline, with its nodes listed in the order of `build`. -/
def graphIn (cfg : Config.Pipeline) (r : Ranges cfg) : Graph where
  nodes := r.build.map fun entry =>
    (entry.1, ⟨entry.1, entry.2, sortStrings entry.2.needs, dependentsOf cfg entry.1⟩)
  order := (kahnOf cfg).order

/-- **The orders of the ranges** do not matter but for the listing of the nodes. -/
theorem compileIn_eq (hcfg : Config.Accepted cfg) (r : Ranges cfg) : compileIn cfg r =
    if (kahnOf cfg).order.length ≠ cfg.names.length then
      .error (.cycle (sortStrings (cfg.names.filter fun name => 0 < (kahnOf cfg).indegree name)))
    else .ok (graphIn cfg r) := by
  have hreport : sortStrings
      ((r.report.map Prod.fst).filter fun name => 0 < (kahnOf cfg).indegree name) =
      sortStrings (cfg.names.filter fun name => 0 < (kahnOf cfg).indegree name) :=
    sortStrings_congr ((r.report_perm.map Prod.fst).filter _)
  have hlength : r.build.length = cfg.names.length := by
    rw [r.build_perm.length_eq, Config.Pipeline.names, List.length_map]
  unfold compileIn
  rw [find?_missing hcfg r.link_perm, kahnIn_eq, dependentsIn_eq, hreport, hlength]
  rfl

theorem graphIn_node? (r : Ranges cfg) (name : String) :
    (graphIn cfg r).node? name = (cfg.job? name).map fun job =>
      ⟨name, job, sortStrings job.needs, dependentsOf cfg name⟩ := by
  rw [← lookup_nodesOf]
  apply lookup_perm (r.build_perm.map _)
  have hkeys : (nodesOf cfg).map Prod.fst = cfg.jobs.map Prod.fst := by
    rw [nodesOf, List.map_map]
    rfl
  exact hkeys ▸ cfg.jobs_nodup

theorem kahnOf_ready (hcfg : Config.Accepted cfg) : (kahnOf cfg).ready = [] := by
  have hE := edges_of_accepted hcfg
  apply Kahn.loop_ready hE perm_sortStrings (Kahn.inv_start hE perm_sortStrings)
  grind [Config.Pipeline.names]

theorem mem_kahnOf_order (hcfg : Config.Accepted cfg) (hname : name ∈ cfg.names) :
    name ∈ (kahnOf cfg).order ↔ ¬ Kahn.ReachesCycle (needsOf cfg) name :=
  (inv_kahnOf hcfg).mem_order_iff (kahnOf_ready hcfg)
    (fun _ _ _ hd => mem_names_of_needsOf hcfg hd) hname

/-- A node with a cycle below it is a job: it has needs. -/
theorem mem_names_of_reachesCycle (h : Kahn.ReachesCycle (needsOf cfg) name) :
    name ∈ cfg.names := by
  obtain ⟨m, hreach, hcycle⟩ := h
  obtain ⟨d, hneed, -⟩ := TransGen.head'_iff.1 (hcycle.trans_right hreach)
  obtain ⟨job, hjob, -⟩ := mem_needsOf.1 hneed
  exact Config.Pipeline.job?_isSome_iff.1 (by rw [hjob]; rfl)

theorem kahnOf_complete_iff (hcfg : Config.Accepted cfg) :
    (kahnOf cfg).order.length = cfg.names.length ↔
      ∀ name, ¬ TransGen (Kahn.Needs (needsOf cfg)) name name := by
  have hinv := inv_kahnOf hcfg
  constructor
  · intro hlen name hcycle
    have hreaches : Kahn.ReachesCycle (needsOf cfg) name := ⟨name, .refl, hcycle⟩
    have hname := mem_names_of_reachesCycle hreaches
    exact (mem_kahnOf_order hcfg hname).1 ((hinv.perm_of_complete hlen).mem_iff.2 hname) hreaches
  · intro hacyclic
    have hnodup := hinv.nodup
    rw [kahnOf_ready hcfg, List.append_nil] at hnodup
    have hall : cfg.names ⊆ (kahnOf cfg).order := by
      intro name hname
      apply (mem_kahnOf_order hcfg hname).2
      rintro ⟨m, -, hcycle⟩
      exact hacyclic m hcycle
    have hle := hinv.length_le
    have hge := (List.subperm_of_subset cfg.jobs_nodup hall).length_le
    have hnames : cfg.names.length = (cfg.jobs.map Prod.fst).length := rfl
    omega

theorem kahnOf_least (hcfg : Config.Accepted cfg)
    (hlen : (kahnOf cfg).order.length = cfg.names.length) {other : List String}
    (hother : other.Perm cfg.names) (htopological : Kahn.Topological (needsOf cfg) other) :
    (kahnOf cfg).order = other ∨ List.Lex (· < ·) (kahnOf cfg).order other := by
  have hE := edges_of_accepted hcfg
  have hordered : Kahn.Ordered (· ≤ ·) cfg.names (needsOf cfg) (kahnOf cfg) :=
    Kahn.ordered_loop (fun a => le_refl a) perm_sortStrings sortStrings_pairwise hE _
      (Kahn.inv_start hE perm_sortStrings) (Kahn.ordered_start sortStrings_pairwise)
  exact hordered.greedy.least (fun _ _ hle hne => lt_of_le_of_ne hle hne) cfg.jobs_nodup
    ((inv_kahnOf hcfg).perm_of_complete hlen) hother htopological

theorem mem_cyclic (hcfg : Config.Accepted cfg) :
    name ∈ sortStrings (cfg.names.filter fun name => 0 < (kahnOf cfg).indegree name) ↔
      Kahn.ReachesCycle (needsOf cfg) name := by
  rw [mem_sortStrings, List.mem_filter, decide_eq_true_eq]
  constructor
  · rintro ⟨hname, hpos⟩
    rw [(inv_kahnOf hcfg).indegree_pos_iff (kahnOf_ready hcfg) hname,
      mem_kahnOf_order hcfg hname, not_not] at hpos
    exact hpos
  · intro hreaches
    have hname := mem_names_of_reachesCycle hreaches
    refine ⟨hname, ?_⟩
    rw [(inv_kahnOf hcfg).indegree_pos_iff (kahnOf_ready hcfg) hname, mem_kahnOf_order hcfg hname,
      not_not]
    exact hreaches

/-- The job `a` lists the job `b` in its needs. -/
def NeedsJob (cfg : Config.Pipeline) (a b : String) : Prop :=
  ∃ job, cfg.job? a = some job ∧ b ∈ job.needs

theorem needsJob_eq (cfg : Config.Pipeline) : NeedsJob cfg = Kahn.Needs (needsOf cfg) := by
  funext a b
  exact propext mem_needsOf.symm

/-- A list of the jobs in which every job comes after its needs. -/
def IsSchedule (cfg : Config.Pipeline) (order : List String) : Prop :=
  order.Perm cfg.names ∧
    ∀ pre name post, order = pre ++ name :: post → ∀ d, NeedsJob cfg name d → d ∈ pre

theorem isSchedule_iff {order : List String} : IsSchedule cfg order ↔
    order.Perm cfg.names ∧ Kahn.Topological (needsOf cfg) order := by
  unfold IsSchedule
  rw [needsJob_eq]
  rfl

/-- The graph that `Compile` returns is right. -/
structure Canonical (cfg : Config.Pipeline) (g : Graph) : Prop where
  schedule : IsSchedule cfg g.order
  /-- The order is the least of all, by the names in turn. -/
  least : ∀ order, IsSchedule cfg order → g.order = order ∨ List.Lex (· < ·) g.order order
  nodes : ∀ name, (g.node? name).isSome = true ↔ name ∈ cfg.names
  needs : ∀ name node, g.node? name = some node →
    node.needs.Pairwise (· ≤ ·) ∧ ∀ d, d ∈ node.needs ↔ NeedsJob cfg name d
  dependents : ∀ name node, g.node? name = some node →
    node.dependents.Pairwise (· ≤ ·) ∧ ∀ d, d ∈ node.dependents ↔ NeedsJob cfg d name

theorem graphIn_canonical (hcfg : Config.Accepted cfg) (r : Ranges cfg)
    (hlen : (kahnOf cfg).order.length = cfg.names.length) : Canonical cfg (graphIn cfg r) where
  schedule := isSchedule_iff.2
    ⟨(inv_kahnOf hcfg).perm_of_complete hlen, (inv_kahnOf hcfg).topological⟩
  least := by
    intro order horder
    obtain ⟨hperm, htopological⟩ := isSchedule_iff.1 horder
    exact kahnOf_least hcfg hlen hperm htopological
  nodes := by
    intro name
    rw [graphIn_node?, Option.isSome_map]
    exact Config.Pipeline.job?_isSome_iff
  needs := by
    intro name node hnode
    rw [graphIn_node?] at hnode
    obtain ⟨job, hjob, rfl⟩ := Option.map_eq_some_iff.1 hnode
    refine ⟨sortStrings_pairwise _, ?_⟩
    intro d
    rw [needsJob_eq, Kahn.Needs, needsOf_eq hjob]
  dependents := by
    intro name node hnode
    rw [graphIn_node?] at hnode
    obtain ⟨job, hjob, rfl⟩ := Option.map_eq_some_iff.1 hnode
    refine ⟨sortStrings_pairwise _, ?_⟩
    intro d
    rw [needsJob_eq]
    exact mem_dependentsOf

/-- **`Compile` is a canonical topological sort.**  For every pipeline that `Validate` accepts and
all orders of the ranges: it succeeds exactly when no job needs itself, however indirectly; the
graph is then the right one, with the least order; otherwise the error names, sorted, the jobs
from which a cycle is reachable; no lookup misses; and another choice of orders returns the same
error, or the same order and the same node under every name. -/
theorem compile_canonical (h : Config.validate cfg = .ok ()) (r : Ranges cfg) :
    ((∃ g, compileIn cfg r = .ok g) ↔ ∀ name, ¬ TransGen (NeedsJob cfg) name name) ∧
      (∀ g, compileIn cfg r = .ok g → Canonical cfg g) ∧
      (∀ e, compileIn cfg r = .error e → ∃ jobs, e = .cycle jobs ∧ jobs.Pairwise (· < ·) ∧
        ∀ name, name ∈ jobs ↔
          ∃ m, ReflTransGen (NeedsJob cfg) name m ∧ TransGen (NeedsJob cfg) m m) ∧
      ∀ r' : Ranges cfg, (∀ e, compileIn cfg r = .error e → compileIn cfg r' = .error e) ∧
        ∀ g, compileIn cfg r = .ok g → ∃ g', compileIn cfg r' = .ok g' ∧ g'.order = g.order ∧
          ∀ name, g'.node? name = g.node? name := by
  have hcfg := Config.accepted_of_validate h
  have hcomplete := kahnOf_complete_iff hcfg
  rw [needsJob_eq]
  by_cases hlen : (kahnOf cfg).order.length = cfg.names.length
  · have hok : ∀ r : Ranges cfg, compileIn cfg r = .ok (graphIn cfg r) := by
      intro r
      rw [compileIn_eq hcfg, if_neg (not_not.2 hlen)]
    rw [hok r]
    refine ⟨⟨fun _ => hcomplete.1 hlen, fun _ => ⟨_, rfl⟩⟩, ?_, ?_, ?_⟩
    · intro g hg
      obtain rfl := Except.ok.inj hg
      exact graphIn_canonical hcfg r hlen
    · intro e he
      cases he
    · intro r'
      refine ⟨?_, ?_⟩
      · intro e he
        cases he
      intro g hg
      obtain rfl := Except.ok.inj hg
      refine ⟨_, hok r', rfl, ?_⟩
      intro name
      rw [graphIn_node?, graphIn_node?]
  · have herror : ∀ r : Ranges cfg, compileIn cfg r = .error (.cycle (sortStrings
        (cfg.names.filter fun name => 0 < (kahnOf cfg).indegree name))) := by
      intro r
      rw [compileIn_eq hcfg, if_pos hlen]
    rw [herror r]
    refine ⟨⟨?_, fun hacyclic => absurd (hcomplete.2 hacyclic) hlen⟩, ?_, ?_, ?_⟩
    · rintro ⟨g, hg⟩
      cases hg
    · intro g hg
      cases hg
    · intro e he
      obtain rfl := Except.error.inj he
      refine ⟨_, rfl, ?_, fun name => mem_cyclic hcfg⟩
      have hnodup := nodup_sortStrings.2
        (cfg.jobs_nodup.filter fun name => 0 < (kahnOf cfg).indegree name)
      exact ((sortStrings_pairwise _).and hnodup).imp fun hboth => lt_of_le_of_ne hboth.1 hboth.2
    · intro r'
      refine ⟨?_, ?_⟩
      · intro e he
        rw [herror r', he]
      · intro g hg
        cases hg

namespace Sample

/-- Two builds after a check, in a map that lists them backwards. -/
def fanOut : Config.Pipeline where
  version := 1
  jobs := [("web", { steps := ["make web"], needs := ["lint"] }),
    ("api", { steps := ["make api"], needs := ["lint"] }), ("lint", { steps := ["make lint"] })]
  jobs_nodup := by decide

def ranges : Ranges fanOut :=
  ⟨_, _, _, _, List.Perm.refl _, List.Perm.refl _, List.Perm.refl _, List.Perm.refl _⟩

end Sample

theorem compile_canonical_fanOut : ∃ g, compileIn Sample.fanOut Sample.ranges = .ok g ∧
    g.order = ["lint", "api", "web"] ∧ Canonical Sample.fanOut g := by
  have hrun : (compileIn Sample.fanOut Sample.ranges).toOption.map (·.order) =
      some ["lint", "api", "web"] := by decide +kernel
  cases hg : compileIn Sample.fanOut Sample.ranges with
  | error e =>
      rw [hg] at hrun
      cases hrun
  | ok g =>
      rw [hg] at hrun
      have hvalid : Config.validate Sample.fanOut = .ok () := by decide +kernel
      exact ⟨g, rfl, Option.some.inj hrun, (compile_canonical hvalid Sample.ranges).2.1 g hg⟩

end Pipeline
