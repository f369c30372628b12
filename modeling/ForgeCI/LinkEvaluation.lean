import ForgeCI.TreeWalks

/-!
# Paths with all their links resolved

`filepath.EvalSymlinks` looks at a path element by element and writes down the path without
links that leads to the same place.  Unlike the kernel it follows up to 255 links, and it takes
`..` off the text it has written.

A path that it returns is `Physical`: no element of it is a link, so a file that is found under
such a path lies where the path says (`Physical.lstat_concat`).
-/

namespace FileTree

namespace Disk

variable {d : Disk} {here parent p q : Path} {part last : Bytes} {rest parts : List Bytes}
  {links : Nat} {node : Node}

/-- Look at the element `part` after `here`, before `rest`. -/
def evalElement (d : Disk) (here : Path) (part : Bytes) (rest : List Bytes) : Except Errno Move :=
  if part = [] ∨ part = [dot] then .ok (.enter here)
  else if part = [dot, dot] then .ok (.enter here.dropLast)
  else match d.lstat (here ++ [part]) with
    | .error e => .error e
    | .ok (_, .link target) =>
        .ok (.follow ⟨if Lexical.isAbs slash target then [] else here,
          Lexical.split slash target ++ rest⟩)
    | .ok (_, .dir _) => .ok (.enter (here ++ [part]))
    | .ok _ => if rest = [] then .ok (.enter (here ++ [part])) else .error .notDirectory

/-- Look at elements up to the next link, or to the end. -/
def evalElements (d : Disk) : Path → List Bytes → Except Errno Move
  | here, [] => .ok (.enter here)
  | here, part :: rest =>
      match d.evalElement here part rest with
      | .error e => .error e
      | .ok (.enter here') => d.evalElements here' rest
      | .ok (.follow walk) => .ok (.follow walk)

def evalFrom (d : Disk) : Nat → Path → List Bytes → Except Errno Path
  | links, here, parts =>
      match d.evalElements here parts with
      | .error e => .error e
      | .ok (.enter p) => .ok p
      | .ok (.follow walk) =>
          match links with
          | 0 => .error .loop
          | links + 1 => d.evalFrom links walk.here walk.todo

/-- `filepath.EvalSymlinks` of an absolute path. -/
def evalSymlinks (d : Disk) (path : List Bytes) : Except Errno Path := d.evalFrom 255 [] path

/-- Names, and no link among the nodes they lead through. -/
structure Physical (d : Disk) (p : Path) : Prop where
  names : ∀ part ∈ p, Name part
  linkless : ∀ pre, pre <+: p → ∀ node, d.node pre = some node → node.isLink = false

theorem Physical.of_front (h : d.Physical p) (hpre : q <+: p) : d.Physical q :=
  ⟨fun part hpart => h.names part (hpre.subset hpart),
    fun pre hq => h.linkless pre (hq.trans hpre)⟩

theorem physical_nil : d.Physical [] := by
  refine ⟨by simp, fun pre hpre node hnode => ?_⟩
  obtain rfl := List.prefix_nil.1 hpre
  obtain ⟨mode, hmode⟩ := d.root_dir
  obtain rfl : node = .dir mode := Option.some.inj (hnode.symm.trans hmode)
  rfl

/-- A physical path leads nowhere else. -/
theorem Physical.leads (h : d.Physical p) (hlead : d.Leads p q) : q = p := by
  have hroot : d.Leads [] [] := rfl
  have hlong : d.Leads ([] ++ p) q := hlead
  grind [hroot.eq_of_linkless, h.names, h.linkless]

/-- **What is found under a name in a physical directory lies there.** -/
theorem Physical.lstat_concat (h : d.Physical parent) (hname : Name last)
    (hlstat : d.lstat (parent ++ [last]) = .ok (q, node)) :
    q = parent ++ [last] ∧ d.node q = some node := by
  obtain ⟨dir, hlead, rfl, hnode, -⟩ := lstat_append_ok hname hlstat
  obtain rfl := h.leads hlead
  exact ⟨rfl, hnode⟩

theorem Physical.concat (h : d.Physical parent) (hname : Name last)
    (hnode : d.node (parent ++ [last]) = some node) (hlink : node.isLink = false) :
    d.Physical (parent ++ [last]) := by
  refine ⟨?_, fun pre hpre n hn => ?_⟩
  · grind [h.names]
  · rcases List.prefix_concat_iff.1 hpre with rfl | hpre
    · grind
    · exact h.linkless pre hpre n hn

/-- The elements still to be read have no slash in them. -/
def Move.Physical (d : Disk) : Move → Prop
  | .enter here => d.Physical here
  | .follow walk => d.Physical walk.here ∧ ∀ part ∈ walk.todo, slash ∉ part

theorem evalElement_physical (h : d.Physical here) (hpart : slash ∉ part)
    (hrest : ∀ x ∈ rest, slash ∉ x) {move : Move}
    (heval : d.evalElement here part rest = .ok move) : Move.Physical d move := by
  unfold evalElement at heval
  by_cases hskip : part = [] ∨ part = [dot]
  · rw [if_pos hskip] at heval
    cases heval
    exact h
  rw [if_neg hskip] at heval
  by_cases hup : part = [dot, dot]
  · rw [if_pos hup] at heval
    cases heval
    exact h.of_front (List.dropLast_prefix here)
  rw [if_neg hup] at heval
  rw [not_or] at hskip
  have hname : Name part := ⟨hskip.1, hskip.2, hup, hpart⟩
  cases hlstat : d.lstat (here ++ [part]) with
  | error e => simp [hlstat] at heval
  | ok found =>
    obtain ⟨q, node⟩ := found
    obtain ⟨rfl, hnode⟩ := h.lstat_concat hname hlstat
    have hstays : node.isLink = false → move = .enter (here ++ [part]) →
        Move.Physical d move := by
      rintro hlink rfl
      exact h.concat hname hnode hlink
    rw [hlstat] at heval
    cases node with
    | link target =>
      cases heval
      refine ⟨?_, ?_⟩
      · dsimp only
        split_ifs
        · exact physical_nil
        · exact h
      · grind [Lexical.slash_free_of_mem_split]
    | dir mode => exact hstays rfl (Except.ok.inj heval).symm
    | file mode content | other mode =>
      dsimp only at heval
      split_ifs at heval
      exact hstays rfl (Except.ok.inj heval).symm

theorem evalElements_physical (h : d.Physical here) (hparts : ∀ part ∈ parts, slash ∉ part)
    {move : Move} (heval : d.evalElements here parts = .ok move) : Move.Physical d move := by
  induction parts generalizing here with
  | nil =>
    cases heval
    exact h
  | cons part rest ih =>
    obtain ⟨hpart, hrest⟩ := List.forall_mem_cons.1 hparts
    rw [evalElements] at heval
    cases hone : d.evalElement here part rest with
    | error e => simp [hone] at heval
    | ok m =>
      have hm := evalElement_physical h hpart hrest hone
      rw [hone] at heval
      cases m with
      | enter next => exact ih hm hrest heval
      | follow walk =>
        cases heval
        exact hm

theorem evalFrom_physical (h : d.Physical here) (hparts : ∀ part ∈ parts, slash ∉ part)
    (heval : d.evalFrom links here parts = .ok p) : d.Physical p := by
  induction links generalizing here parts with
  | zero =>
    rw [evalFrom] at heval
    cases hone : d.evalElements here parts with
    | error e => simp [hone] at heval
    | ok m =>
      have hm := evalElements_physical h hparts hone
      rw [hone] at heval
      cases m with
      | enter next =>
        cases heval
        exact hm
      | follow walk => cases heval
  | succ links ih =>
    rw [evalFrom] at heval
    cases hone : d.evalElements here parts with
    | error e => simp [hone] at heval
    | ok m =>
      have hm := evalElements_physical h hparts hone
      rw [hone] at heval
      cases m with
      | enter next =>
        cases heval
        exact hm
      | follow walk => exact ih hm.1 hm.2 heval

/-- **What is returned has no link on its way.** -/
theorem evalSymlinks_physical (hpath : ∀ part ∈ parts, slash ∉ part)
    (heval : d.evalSymlinks parts = .ok p) : d.Physical p :=
  evalFrom_physical physical_nil hpath heval

end Disk

end FileTree
