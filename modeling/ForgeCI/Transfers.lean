import ForgeCI.Mirrors

/-!
# From a listing to the extraction of its archive

The archive of a tree that was listed passes every test of extraction: the limits are those of
the listing, and each directory comes before what it contains.  `Plan` gathers what has to be
known about the names of a package for that.
-/

namespace Archive

open FileTree

/-- The entries of a listing under the names they get below the destination, and the tree `T` of
their nodes. -/
structure Plan (pkg : Package) (d : Disk) (p : Path) (full : List Bytes → List Bytes) (T : Tree) :
    Prop where
  inj : Function.Injective full
  named : ∀ rel ∈ pkg.ranked d p, pkg.nameOf rel = path (full rel)
  safe : ∀ rel ∈ pkg.ranked d p, Safe (full rel)
  nodes : ∀ rel ∈ pkg.ranked d p, T (full rel) = d.node (p ++ rel)
  parents : ∀ rel ∈ pkg.ranked d p, ∀ pre, pre <+: full rel → pre ≠ [] → pre ≠ full rel →
    ∃ dir ∈ pkg.ranked d p, pre = full dir ∧ dir <+: rel ∧ dir ≠ rel

namespace Plan

variable {pkg : Package} {sum : Bytes → Bytes} {limits : Limits} {d : Disk} {abs : List Bytes}
  {p : Path} {top : Node} {es : List Entry} {n : Nat} {full : List Bytes → List Bytes} {T : Tree}
  {dm : Mode → Mode} {belongs : Bytes → Except Failure Unit} {texts : Texts}

/-- The names in the order of the archive. -/
abbrev order (pkg : Package) (d : Disk) (p : Path) (full : List Bytes → List Bytes) :
    List (List Bytes) := (pkg.ranked d p).map full

theorem node_eq (h : Plan pkg d p full T) (htop : d.lstat abs = .ok (p, top))
    (hscan : pkg.scan sum limits d abs = .ok (es, n)) {rel : List Bytes}
    (hrel : rel ∈ pkg.ranked d p) : T (full rel) = some (nodeAt d p rel) := by
  obtain ⟨node, hnode, -⟩ := (Package.ranked_accepts htop hscan hrel).fit
  rw [h.nodes rel hrel, hnode, nodeAt_eq hnode]

theorem layout (h : Plan pkg d p full T) (htop : d.lstat abs = .ok (p, top))
    (hscan : pkg.scan sum limits d abs = .ok (es, n)) : Layout T (order pkg d p full) where
  safe := by grind [h.safe]
  there := by
    intro names hnames
    obtain ⟨rel, hrel, rfl⟩ := List.mem_map.1 hnames
    exact ⟨_, h.node_eq htop hscan hrel⟩
  nodup := Package.nodup_ranked.map h.inj
  first := by
    intro before names after hsplit pre hpre hne hother
    obtain ⟨before', rest', hranked, rfl, hrest⟩ := List.map_eq_append_iff.1 hsplit
    obtain ⟨rel, after', rfl, rfl, rfl⟩ := List.map_eq_cons_iff.1 hrest
    have hrel : rel ∈ pkg.ranked d p := by simp [hranked]
    obtain ⟨dir, hdir, rfl, hshort, hproper⟩ := h.parents rel hrel pre hpre hne hother
    obtain ⟨more, hmore⟩ := hpre
    have hmoreNe : more ≠ [] := by
      rintro rfl
      exact hother (by simpa using hmore)
    have hname : pkg.nameOf rel = pkg.nameOf dir ++ slash :: path more := by
      rw [h.named rel hrel, h.named dir hdir, ← hmore, path_append hne hmoreNe]
    refine ⟨List.mem_map_of_mem (Package.ranked_first hranked hdir (by simp) hname), ?_⟩
    obtain ⟨node, hnode, -⟩ := (Package.ranked_accepts htop hscan hrel).fit
    grind [h.nodes, Disk.dir_of_node]

theorem bytesOf_eq (h : Plan pkg d p full T) (htop : d.lstat abs = .ok (p, top))
    (hscan : pkg.scan sum limits d abs = .ok (es, n)) : bytesOf T (order pkg d p full) = n := by
  rw [(Package.scan_limits htop hscan).1, bytesOf, List.map_map]
  congr 1
  apply List.map_congr_left
  intro rel hrel
  simp [h.node_eq htop hscan hrel]

/-- **The archive holds the headers of the tree.** -/
theorem stream (h : Plan pkg d p full T) (htop : d.lstat abs = .ok (p, top))
    (hscan : pkg.scan sum limits d abs = .ok (es, n)) (texts : Texts) :
    es.mapM (Entry.tar texts sum d) = .ok (headers T (order pkg d p full)) := by
  rw [Package.scan_stream htop hscan texts h.named, headers, List.filterMap_map,
    ← List.filterMap_eq_map]
  congr 1
  apply List.filterMap_congr
  intro rel hrel
  simp [h.node_eq htop hscan hrel]

/-- **The archive of a listing can be extracted**, as far as its tests go. -/
theorem transfer (h : Plan pkg d p full T) (htop : d.lstat abs = .ok (p, top))
    (hscan : pkg.scan sum limits d abs = .ok (es, n))
    (hbelongs : ∀ rel ∈ pkg.ranked d p, belongs (path (full rel)) = .ok ())
    (hsearch : ∀ rel ∈ pkg.ranked d p, ∀ dir, dir <+: rel → dir ≠ rel → ∀ mode,
      d.node (p ++ dir) = some (.dir mode) → searchable (dm mode) = true) :
    Transfer pkg belongs limits T dm (order pkg d p full) where
  toLayout := h.layout htop hscan
  passes := by
    intro names hnames node hnode
    obtain ⟨rel, hrel, rfl⟩ := List.mem_map.1 hnames
    have haccepts := Package.ranked_accepts htop hscan hrel
    obtain ⟨node', hnode', hfit⟩ := haccepts.fit
    obtain rfl : node' = node := by grind [h.nodes]
    have hsafe := haccepts.named.safe
    have hshort := haccepts.named.short
    rw [h.named rel hrel] at hsafe hshort hfit
    exact ⟨hsafe, hshort, hbelongs rel hrel, hfit⟩
  entries := by
    intro names hnames
    obtain ⟨rel, hrel, -⟩ := List.mem_map.1 hnames
    rw [List.length_map]
    exact (Package.scan_limits htop hscan).2.2.1 rel hrel
  bytes := by
    intro names hnames mode content hnode
    obtain ⟨rel, hrel, rfl⟩ := List.mem_map.1 hnames
    rw [h.nodes rel hrel] at hnode
    rw [h.bytesOf_eq htop hscan]
    exact (Package.scan_limits htop hscan).2.2.2 rel hrel mode content hnode
  search := by grind [h.parents, h.nodes]

end Plan

end Archive
