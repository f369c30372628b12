import ForgeCI.Confinement

/-!
# A tree under construction

While an archive of the program's own making is extracted, the disk is known at every point: it
is the disk as it was, with a tree of nodes below the destination.  `Staged` says so, and the
operations of extraction become changes of one node of that tree.
-/

namespace Archive

open FileTree

/-- The nodes below a directory, by their names from there. -/
abbrev Tree := List Bytes → Option Node

/-- All directories up to `dir` are there and may be searched. -/
def Tree.Opens (t : Tree) (dir : List Bytes) : Prop :=
  ∀ pre, pre <+: dir → pre ≠ [] → ∃ mode, t pre = some (.dir mode) ∧ searchable mode = true

/-- A node in a directory is not on the way to it. -/
theorem Tree.Opens.update {t : Tree} {dir : List Bytes} (h : t.Opens dir) (last : Bytes)
    (value : Option Node) : Tree.Opens (Function.update t (dir ++ [last]) value) dir := by
  intro pre hpre hne
  have hother : pre ≠ dir ++ [last] := by grind [hpre.length_le]
  rw [Function.update_of_ne hother]
  exact h pre hpre hne

/-- New nodes may be made in the directory `dir`; the one all others lie in is not restricted. -/
def Tree.Writes (t : Tree) (dir : List Bytes) : Prop :=
  dir = [] ∨ ∃ mode, t dir = some (.dir mode) ∧ writable mode = true

/-- An empty directory in which its owner may make nodes. -/
structure Workplace (d : Disk) (dest : List Bytes) (p : Path) : Prop
    extends Destination d dest p where
  usable : ∃ mode, d.node p = some (.dir mode) ∧ writable mode = true ∧ searchable mode = true

/-- The disk `d` with the tree `t` below the directory `p`. -/
structure Staged (d : Disk) (p : Path) (t : Tree) (d' : Disk) : Prop where
  below : ∀ names, names ≠ [] → d'.node (p ++ names) = t names
  outside : ∀ q, (∀ names, names ≠ [] → q ≠ p ++ names) → d'.node q = d.node q

section Operations

variable {d d' : Disk} {dest dir names : List Bytes} {last : Bytes} {p : Path} {t : Tree}
  {w : Work} {node : Node} {mode : Mode} (texts : Texts) (umask : Umask)

theorem Workplace.staged (h : Workplace d dest p) : Staged d p (fun _ => none) d :=
  ⟨h.empty, fun _ _ => rfl⟩

namespace Staged

theorem extends_disk (h : Staged d p t d') (hplace : Workplace d dest p) : d.Extends d' := by
  intro q node hnode
  grind [h.outside, hplace.empty]

theorem leads (h : Staged d p t d') (hplace : Workplace d dest p) : d'.Leads dest p :=
  hplace.leads.mono (h.extends_disk hplace)

/-- The directory a name is looked up in. -/
theorem dir_node (h : Staged d p t d') (hplace : Workplace d dest p) (hopens : t.Opens dir) :
    ∃ mode, d'.node (p ++ dir) = some (.dir mode) ∧ searchable mode = true ∧
      (writable mode = true ↔ t.Writes dir) := by
  by_cases hdir : dir = []
  · subst hdir
    obtain ⟨mode, hmode, hwrite, hsearch⟩ := hplace.usable
    refine ⟨mode, ?_, hsearch, by simp [hwrite, Tree.Writes]⟩
    rw [h.outside _ (by simp), List.append_nil, hmode]
  · obtain ⟨mode, hmode, hsearch⟩ := hopens dir (List.prefix_refl _) hdir
    grind [h.below, Tree.Writes]

theorem leads_dir (h : Staged d p t d') (hplace : Workplace d dest p) (hopens : t.Opens dir) :
    d'.Leads (dest ++ dir) (p ++ dir) := by
  obtain ⟨mode, hmode, -, -⟩ := h.dir_node hplace hopens
  apply (h.leads hplace).append
  apply Disk.clear_of_open hmode _ rfl
  intro pre m hpre _ hm
  have hpreOpens : t.Opens pre := fun q hq => hopens q (hq.trans hpre)
  grind [h.dir_node]

theorem lstat_eq (h : Staged d p t d') (hplace : Workplace d dest p) (hopens : t.Opens dir)
    (hname : Name last) :
    d'.lstat (dest ++ (dir ++ [last])) =
      match t (dir ++ [last]) with
      | none => .error .noEntry
      | some node => .ok (p ++ (dir ++ [last]), node) := by
  obtain ⟨mode, hmode, hsearch, -⟩ := h.dir_node hplace hopens
  have hlstat := Disk.lstat_eq (h.leads_dir hplace hopens) hmode hsearch hname
  rw [List.append_assoc, List.append_assoc, h.below (dir ++ [last]) (by simp)] at hlstat
  exact hlstat.trans (by cases t (dir ++ [last]) <;> rfl)

/-- Nothing is found where there is nothing. -/
theorem stat_missing (h : Staged d p t d') (hplace : Workplace d dest p) (hopens : t.Opens dir)
    (hname : Name last) (hnew : t (dir ++ [last]) = none) :
    d'.stat (dest ++ (dir ++ [last])) = .error .noEntry := by
  obtain ⟨mode, hmode, hsearch, -⟩ := h.dir_node hplace hopens
  have hmissing : d'.node (p ++ dir ++ [last]) = none := by
    rw [List.append_assoc, h.below _ (by simp), hnew]
  rw [← List.append_assoc]
  exact Disk.stat_missing (h.leads_dir hplace hopens) hmode hsearch hname hmissing

/-- One node of the tree is new or has changed. -/
theorem update (h : Staged d p t w.disk) (hne : names ≠ []) {value : Option Node}
    (hnode : ∀ q, d'.node q = if q = p ++ names then value else w.disk.node q) :
    Staged d p (Function.update t names value) d' where
  below := by
    intro other hother
    rw [hnode]
    by_cases heq : other = names
    · subst heq
      simp
    · rw [if_neg (by simpa using heq), Function.update_of_ne heq, h.below other hother]
  outside := by grind [h.outside]

/-- What a name that is free leaves to the permissions of its directory. -/
theorem create_cases (h : Staged d p t w.disk) (hplace : Workplace d dest p)
    (hopens : t.Opens dir) (hname : Name last) (hnew : t (dir ++ [last]) = none) (node : Node) :
    (t.Writes dir → ∃ d', w.disk.create (dest ++ dir ++ [last]) node =
      .ok (p ++ dir ++ [last], d')) ∧
    (¬t.Writes dir → w.disk.create (dest ++ dir ++ [last]) node = .error .access) := by
  obtain ⟨mode, hmode, hsearch, hwrite⟩ := h.dir_node hplace hopens
  have hfresh : w.disk.node (p ++ dir ++ [last]) = none := by
    rw [List.append_assoc, h.below _ (by simp), hnew]
  have hcreate : if writable mode = true then _
      else w.disk.create (dest ++ dir ++ [last]) node = _ :=
    Disk.create_eq (h.leads_dir hplace hopens) hmode hsearch hname hfresh
  constructor
  · intro hwrites
    rwa [if_pos (hwrite.2 hwrites)] at hcreate
  · intro hwrites
    rwa [if_neg fun hw => hwrites (hwrite.1 hw)] at hcreate

/-- **A node is made** where there is none, in a directory that may be written. -/
theorem make_ok (h : Staged d p t w.disk) (hplace : Workplace d dest p) (hopens : t.Opens dir)
    (hname : Name last) (hnew : t (dir ++ [last]) = none) (hwrites : t.Writes dir) (node : Node) :
    ∃ w', make (dest ++ (dir ++ [last])) node w = .ok () w' ∧
      Staged d p (Function.update t (dir ++ [last]) (some node)) w'.disk := by
  obtain ⟨d', hd'⟩ := (h.create_cases hplace hopens hname hnew node).1 hwrites
  obtain ⟨-, -, -, -, -, -, -, -, hnodes⟩ := Disk.create_ok hd'
  refine ⟨⟨d', w.log ++ [⟨.create node, dest ++ (dir ++ [last]), p ++ dir ++ [last]⟩]⟩, ?_, ?_⟩
  · rw [make, ← List.append_assoc, hd']
  · apply h.update (by simp)
    intro q
    rw [hnodes, List.append_assoc]

/-- In any other directory nothing is made. -/
theorem make_error (h : Staged d p t w.disk) (hplace : Workplace d dest p) (hopens : t.Opens dir)
    (hname : Name last) (hnew : t (dir ++ [last]) = none) (hwrites : ¬t.Writes dir)
    (node : Node) : make (dest ++ (dir ++ [last])) node w = .error (.call .access) w := by
  rw [make, ← List.append_assoc, (h.create_cases hplace hopens hname hnew node).2 hwrites]

/-- **Permissions are changed** behind directories that may be searched. -/
theorem chmod_ok (h : Staged d p t w.disk) (hplace : Workplace d dest p) (hopens : t.Opens dir)
    (hname : Name last) (hnode : t (dir ++ [last]) = some node) (hlink : node.isLink = false)
    (mode : Mode) : ∃ w', chmod (dest ++ (dir ++ [last])) mode w = .ok () w' ∧
      Staged d p (Function.update t (dir ++ [last]) (some (node.setMode mode))) w'.disk := by
  have hlstat := h.lstat_eq hplace hopens hname
  rw [hnode] at hlstat
  obtain ⟨hthere, hlead⟩ := Disk.lstat_ok hlstat
  refine ⟨⟨w.disk.setMode (p ++ (dir ++ [last])) mode,
    w.log ++ [⟨.chmod mode, dest ++ (dir ++ [last]), p ++ (dir ++ [last])⟩]⟩, ?_, ?_⟩
  · rw [chmod, Disk.chmod_eq (hlead hlink) hthere]
  · apply h.update (by simp)
    grind [Disk.node_setMode]

theorem checkParents_ok (h : Staged d p t w.disk) (hplace : Workplace d dest p)
    (done : List Bytes) (hopens : t.Opens (done ++ dir)) (hnames : ∀ part ∈ dir, Name part) :
    checkParents texts umask (dest ++ done) dir w = .ok () w := by
  induction dir generalizing done with
  | nil => rfl
  | cons part rest ih =>
    obtain ⟨hname, hrest⟩ := List.forall_mem_cons.1 hnames
    have hdone : t.Opens done := fun q hq => hopens q (hq.trans (List.prefix_append _ _))
    obtain ⟨mode, hmode, -⟩ := hopens (done ++ [part]) (by simp) (by simp)
    have hlstat := h.lstat_eq hplace hdone hname
    rw [hmode] at hlstat
    have hparent : checkParent texts umask (dest ++ done ++ [part]) w = .ok () w := by
      rw [checkParent, Effects.get_bind, List.append_assoc, hlstat]
      rfl
    rw [checkParents, Effects.bind_ok hparent, List.append_assoc]
    exact ih (done ++ [part]) (by simpa using hopens) hrest

/-- **The directories of a target are there.** -/
theorem safeParents_ok (h : Staged d p t w.disk) (hplace : Workplace d dest p)
    (hopens : t.Opens dir) (hnames : ∀ part ∈ dir, Name part) :
    safeParents texts umask dest (dest ++ dir) w = .ok () w := by
  have hcheck := h.checkParents_ok texts umask hplace [] (by simpa using hopens) hnames
  rw [List.append_nil] at hcheck
  rw [safeParents, within_append hnames, if_neg (by simp), rel_append]
  exact hcheck

end Staged

end Operations

end Archive
