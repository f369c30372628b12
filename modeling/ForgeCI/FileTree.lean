import Mathlib.Data.List.AList
import ForgeCI.LexicalPaths

/-!
# A file tree and its kernel

Directories, regular files and symbolic links, under the permission rules that apply to an owner
who is not the superuser.  A node is found under its physical path: the names of the directories
that lead to it, and its own.  Every node but the root lies in a directory.
-/

namespace FileTree

/-- Strings as the kernel sees them. -/
abbrev Bytes := List UInt8

def slash : UInt8 := 0x2f

def dot : UInt8 := 0x2e

theorem slash_ne_dot : slash ≠ dot := by decide

/-- An element of a path that can name a node. -/
abbrev Name (part : Bytes) : Prop := Lexical.Name slash dot part

/-- The names from the root directory to a node. -/
abbrev Path := List Bytes

/-- Permission bits. -/
abbrev Mode := BitVec 9

def readable (mode : Mode) : Bool := mode.getLsbD 8

def writable (mode : Mode) : Bool := mode.getLsbD 7

def searchable (mode : Mode) : Bool := mode.getLsbD 6

inductive Node
  | dir (mode : Mode)
  | file (mode : Mode) (content : Bytes)
  | link (target : Bytes)
  /-- A device, a socket or a pipe. -/
  | other (mode : Mode)
deriving DecidableEq

namespace Node

def isLink : Node → Bool
  | .link _ => true
  | _ => false

/-- Change the permission bits; a link has none of its own. -/
def setMode (mode : Mode) : Node → Node
  | .dir _ => .dir mode
  | .file _ content => .file mode content
  | .link target => .link target
  | .other _ => .other mode

@[simp] theorem isLink_setMode (node : Node) (mode : Mode) :
    (node.setMode mode).isLink = node.isLink := by
  cases node <;> rfl

end Node

inductive Errno
  | noEntry
  | notDirectory
  | access
  | fileExists
  | loop
  | invalid
deriving DecidableEq

/-- The nodes by physical path. -/
structure Disk where
  nodes : AList fun _ : Path => Node
  root_dir : ∃ mode, nodes.lookup [] = some (.dir mode)
  in_dir : ∀ p name node, nodes.lookup (p ++ [name]) = some node →
    Name name ∧ ∃ mode, nodes.lookup p = some (.dir mode)

/-- A resolution: where it stands, and the elements still to be read. -/
structure Walk where
  here : Path
  todo : List Bytes
deriving DecidableEq

/-- What reading one element leads to. -/
inductive Move
  | enter (here : Path)
  | follow (walk : Walk)

namespace Disk

def node (d : Disk) (p : Path) : Option Node := d.nodes.lookup p

def isDir (d : Disk) (p : Path) : Bool :=
  match d.node p with
  | some (.dir _) => true
  | _ => false

variable {d : Disk} {p q here parent : Path} {name part : Bytes} {rest rel : List Bytes}
  {links : Nat}

theorem isDir_iff : d.isDir p = true ↔ ∃ mode, d.node p = some (.dir mode) := by
  unfold isDir
  split
  · next mode h => simp [h]
  · next h => simpa using h

/-- Put a new node into a directory. -/
def add (d : Disk) (parent : Path) (name : Bytes) (node : Node) (hname : Name name)
    (hdir : d.isDir parent = true) (hnew : d.node (parent ++ [name]) = none) : Disk where
  nodes := d.nodes.insert (parent ++ [name]) node
  root_dir := by
    rw [AList.lookup_insert_ne (by simp)]
    exact d.root_dir
  in_dir := by
    intro p x n h
    have hold : ∀ q, q ≠ parent ++ [name] →
        (d.nodes.insert (parent ++ [name]) node).lookup q = d.nodes.lookup q :=
      fun q hq => AList.lookup_insert_ne hq
    by_cases hp : p ++ [x] = parent ++ [name]
    · obtain ⟨rfl, hx⟩ := List.append_inj' hp rfl
      obtain rfl := List.singleton_inj.1 hx
      rw [hold _ (by simp)]
      exact ⟨hname, isDir_iff.1 hdir⟩
    · rw [hold _ hp] at h
      obtain ⟨hx, mode, hmode⟩ := d.in_dir p x n h
      refine ⟨hx, mode, ?_⟩
      rw [hold]
      · exact hmode
      · intro hpnew
        rw [hpnew] at hmode
        exact absurd (hnew.symm.trans hmode) (by simp)

/-- Change the permission bits of a node. -/
def setMode (d : Disk) (p : Path) (mode : Mode) : Disk where
  nodes :=
    match d.nodes.lookup p with
    | none => d.nodes
    | some node => d.nodes.insert p (node.setMode mode)
  root_dir := by
    split
    · exact d.root_dir
    · next node h =>
        obtain ⟨old, hold⟩ := d.root_dir
        by_cases hp : p = []
        · subst hp
          obtain rfl := Option.some.inj (h.symm.trans hold)
          exact ⟨mode, AList.lookup_insert _⟩
        · rw [AList.lookup_insert_ne (Ne.symm hp)]
          exact ⟨old, hold⟩
  in_dir := by
    split
    · exact d.in_dir
    · next node h =>
        intro q x n hn
        have hthere : ∃ n', d.nodes.lookup (q ++ [x]) = some n' := by
          by_cases hq : q ++ [x] = p
          · exact ⟨node, hq ▸ h⟩
          · rw [AList.lookup_insert_ne hq] at hn
            exact ⟨n, hn⟩
        obtain ⟨n', hn'⟩ := hthere
        obtain ⟨hx, old, hold⟩ := d.in_dir q x n' hn'
        refine ⟨hx, ?_⟩
        by_cases hq : q = p
        · subst hq
          obtain rfl := Option.some.inj (h.symm.trans hold)
          exact ⟨mode, AList.lookup_insert _⟩
        · rw [AList.lookup_insert_ne hq]
          exact ⟨old, hold⟩

/-- A tree with a root directory and nothing in it. -/
def blank (mode : Mode) : Disk where
  nodes := AList.singleton [] (.dir mode)
  root_dir := ⟨mode, AList.lookup_insert ∅⟩
  in_dir := by
    intro p x n h
    have hmem := AList.lookup_isSome.1 (Option.isSome_of_eq_some h)
    simp [AList.mem_keys] at hmem

/-- Put a new node into a directory, if it can lie there. -/
def plant (d : Disk) (parent : Path) (name : Bytes) (node : Node) : Disk :=
  if h : Name name ∧ d.isDir parent = true ∧ d.node (parent ++ [name]) = none then
    d.add parent name node h.1 h.2.1 h.2.2
  else d

theorem node_add {node : Node} {hname hdir hnew} : (d.add parent name node hname hdir hnew).node q =
      if q = parent ++ [name] then some node else d.node q := by
  by_cases hq : q = parent ++ [name]
  · subst hq
    rw [if_pos rfl]
    exact AList.lookup_insert _
  · rw [if_neg hq]
    exact AList.lookup_insert_ne hq

theorem node_setMode {mode : Mode} : (d.setMode p mode).node q =
      if q = p then (d.node q).map (Node.setMode mode) else d.node q := by
  unfold setMode Disk.node
  dsimp only
  cases h : d.nodes.lookup p with
  | none => grind
  | some node =>
    by_cases hq : q = p
    · subst hq
      simp [h, AList.lookup_insert]
    · simp [hq, AList.lookup_insert_ne hq]

/-- Every node but the root has a name and lies in a directory. -/
theorem in_dir_of_node {node : Node} (h : d.node (p ++ [name]) = some node) :
    Name name ∧ ∃ mode, d.node p = some (.dir mode) :=
  d.in_dir p name node h

/-- Read the element `part` in the directory `here`, before `rest`. -/
def advance (d : Disk) (here : Path) (part : Bytes) (rest : List Bytes) : Except Errno Move :=
  match d.node here with
  | none => .error .noEntry
  | some (.dir mode) =>
      if searchable mode = false then .error .access
      else if part = [] ∨ part = [dot] then .ok (.enter here)
      else if part = [dot, dot] then .ok (.enter here.dropLast)
      else match d.node (here ++ [part]) with
        | none => .error .noEntry
        | some (.link target) =>
            .ok (.follow ⟨if Lexical.isAbs slash target then [] else here,
              Lexical.split slash target ++ rest⟩)
        | some _ => .ok (.enter (here ++ [part]))
  | some _ => .error .notDirectory

/-- One step of a resolution, unless it has ended or fails. -/
def next (d : Disk) (w : Walk) : Option Walk :=
  match w.todo with
  | [] => none
  | part :: rest =>
      match d.advance w.here part rest with
      | .error _ => none
      | .ok (.enter here) => some ⟨here, rest⟩
      | .ok (.follow walk) => some walk

/-- Read elements up to the next link, or to the end. -/
def descend (d : Disk) : Path → List Bytes → Except Errno Move
  | here, [] => .ok (.enter here)
  | here, part :: rest =>
      match d.advance here part rest with
      | .error e => .error e
      | .ok (.enter here') => d.descend here' rest
      | .ok (.follow walk) => .ok (.follow walk)

/-- Resolve a path from the directory `here`, following at most `links` links. -/
def resolve (d : Disk) : Nat → Path → List Bytes → Except Errno Path
  | links, here, parts =>
      match d.descend here parts with
      | .error e => .error e
      | .ok (.enter p) => .ok p
      | .ok (.follow walk) =>
          match links with
          | 0 => .error .loop
          | links + 1 => d.resolve links walk.here walk.todo

/-- The links the kernel follows in one call. -/
def maxLinks : Nat := 40

/-- Where an absolute path leads. -/
def Leads (d : Disk) (path : List Bytes) (p : Path) : Prop :=
  d.resolve maxLinks [] path = .ok p

/-- The directory that holds the last element of a path, and that element. -/
def place (d : Disk) (path : List Bytes) : Except Errno (Path × Bytes) :=
  match path.getLast? with
  | none => .error .fileExists
  | some last =>
      if Name last then
        match d.resolve maxLinks [] path.dropLast with
        | .error e => .error e
        | .ok parent =>
            match d.node parent with
            | some (.dir mode) =>
                if searchable mode then .ok (parent, last) else .error .access
            | _ => .error .notDirectory
      else .error .fileExists

/-- The node a path leads to, and where it is. -/
def stat (d : Disk) (path : List Bytes) : Except Errno (Path × Node) :=
  match d.resolve maxLinks [] path with
  | .error e => .error e
  | .ok p =>
      match d.node p with
      | none => .error .noEntry
      | some node => .ok (p, node)

/-- The same without following a link that the last element names. -/
def lstat (d : Disk) (path : List Bytes) : Except Errno (Path × Node) :=
  if path.getLast?.any (fun last => Name last) then
    match d.place path with
    | .error e => .error e
    | .ok (parent, last) =>
        match d.node (parent ++ [last]) with
        | none => .error .noEntry
        | some node => .ok (parent ++ [last], node)
  else d.stat path

/-- The content of a regular file. -/
def readFile (d : Disk) (path : List Bytes) : Except Errno Bytes :=
  match d.stat path with
  | .error e => .error e
  | .ok (_, .file mode content) => if readable mode then .ok content else .error .access
  | .ok _ => .error .invalid

/-- Make a new node; the answer is its physical path and the tree with it. -/
def create (d : Disk) (path : List Bytes) (node : Node) : Except Errno (Path × Disk) :=
  match d.place path with
  | .error e => .error e
  | .ok (parent, last) =>
      if hnew : d.node (parent ++ [last]) = none then
        if h : Name last ∧ d.isDir parent = true then
          match d.node parent with
          | some (.dir mode) =>
              if writable mode then .ok (parent ++ [last], d.add parent last node h.1 h.2 hnew)
              else .error .access
          | _ => .error .notDirectory
        else .error .notDirectory
      else .error .fileExists

/-- Change the permission bits of the node a path leads to, through links. -/
def chmod (d : Disk) (path : List Bytes) (mode : Mode) : Except Errno (Path × Disk) :=
  match d.stat path with
  | .error e => .error e
  | .ok (p, _) => .ok (p, d.setMode p mode)

theorem advance_append (extra : List Bytes) :
    d.advance here part (rest ++ extra) =
      match d.advance here part rest with
      | .error e => .error e
      | .ok (.enter p) => .ok (.enter p)
      | .ok (.follow w) => .ok (.follow ⟨w.here, w.todo ++ extra⟩) := by
  unfold advance
  split
  · rfl
  · split_ifs
    · rfl
    · rfl
    · rfl
    all_goals
      split
      · rfl
      · simp
      · rfl
  · rfl

theorem descend_append (extra : List Bytes) :
    d.descend here (rel ++ extra) =
      match d.descend here rel with
      | .error e => .error e
      | .ok (.enter p) => d.descend p extra
      | .ok (.follow w) => .ok (.follow ⟨w.here, w.todo ++ extra⟩) := by
  induction rel generalizing here with
  | nil => rfl
  | cons part rest ih =>
    rw [List.cons_append, descend, descend, advance_append]
    cases d.advance here part rest with
    | error e => rfl
    | ok move =>
      cases move with
      | enter p => exact ih
      | follow w => rfl

/-- A path that goes on where another one leads; some links have been followed by then. -/
theorem resolve_append (h : d.resolve links here rel = .ok p) :
    ∃ left, ∀ extra, d.resolve links here (rel ++ extra) = d.resolve left p extra := by
  induction links generalizing here rel with
  | zero =>
    refine ⟨0, fun extra => ?_⟩
    grind [resolve, descend_append]
  | succ links ih =>
    rw [resolve] at h
    cases hmove : d.descend here rel with
    | error e => simp [hmove] at h
    | ok move =>
      cases move with
      | enter q =>
        obtain rfl : q = p := by simpa [hmove] using h
        refine ⟨links + 1, fun extra => ?_⟩
        grind [resolve, descend_append]
      | follow w =>
        simp only [hmove] at h
        obtain ⟨left, hleft⟩ := ih h
        refine ⟨left, fun extra => ?_⟩
        grind [resolve, descend_append]

/-- A path that leads somewhere does so from the start. -/
theorem resolve_of_append {extra : List Bytes} (h : d.resolve links here (rel ++ extra) = .ok q) :
    ∃ p, d.resolve links here rel = .ok p := by
  induction links generalizing here rel with
  | zero | succ links ih =>
    rw [resolve, descend_append] at h
    rw [resolve]
    cases hmove : d.descend here rel with
    | error e => simp [hmove] at h
    | ok move => grind

/-- Every node on the way of a path is there, and no link; the directories may be searched. -/
def Clear (d : Disk) : Path → List Bytes → Prop
  | _, [] => True
  | here, part :: rest =>
      Name part ∧ (∃ mode, d.node here = some (.dir mode) ∧ searchable mode = true) ∧
        (∃ node, d.node (here ++ [part]) = some node ∧ node.isLink = false) ∧
        d.Clear (here ++ [part]) rest

theorem clear_append {more : List Bytes} :
    d.Clear here (rel ++ more) ↔ d.Clear here rel ∧ d.Clear (here ++ rel) more := by
  induction rel generalizing here with
  | nil => simp [Clear]
  | cons part rest ih =>
    simp only [List.cons_append, Clear, ih, and_assoc, List.append_assoc, List.nil_append]

theorem advance_clear (hname : Name part) {mode : Mode}
    (hdir : d.node here = some (.dir mode)) (hsearch : searchable mode = true) {node : Node}
    (hnode : d.node (here ++ [part]) = some node) (hlink : node.isLink = false) :
    d.advance here part rest = .ok (.enter (here ++ [part])) := by
  have hskip : ¬(part = [] ∨ part = [dot]) := by
    simp [hname.ne_nil, hname.ne_dot]
  simp only [advance, hdir, hsearch, hnode, if_neg hskip, if_neg hname.ne_up]
  cases node with
  | link => cases hlink
  | _ => rfl

theorem descend_clear (h : d.Clear here rel) : d.descend here rel = .ok (.enter (here ++ rel)) := by
  induction rel generalizing here with
  | nil => simp [descend]
  | cons part rest ih =>
    obtain ⟨hname, ⟨mode, hdir, hsearch⟩, ⟨node, hnode, hlink⟩, hrest⟩ := h
    rw [descend, advance_clear hname hdir hsearch hnode hlink]
    simpa using ih hrest

theorem resolve_clear (h : d.Clear here rel) : d.resolve links here rel = .ok (here ++ rel) := by
  rw [resolve, descend_clear h]

/-- Where no link lies on the way, a path leads nowhere else, and all directories on the way may
be searched. -/
theorem descend_linkless (hnames : ∀ part ∈ rel, Name part)
    (hlinks : ∀ pre, pre <+: rel → ∀ node, d.node (here ++ pre) = some node →
      node.isLink = false) {move : Move} (h : d.descend here rel = .ok move) :
    move = .enter (here ++ rel) ∧ d.Clear here rel := by
  induction rel generalizing here with
  | nil => exact ⟨by simpa [descend] using h.symm, trivial⟩
  | cons part rest ih =>
    have hname := hnames part List.mem_cons_self
    have hskip : ¬(part = [] ∨ part = [dot]) := by
      simp [hname.ne_nil, hname.ne_dot]
    have henter : ∀ m, d.advance here part rest = .ok m → m = .enter (here ++ [part]) ∧
        (∃ mode, d.node here = some (.dir mode) ∧ searchable mode = true) ∧
        (∃ node, d.node (here ++ [part]) = some node ∧ node.isLink = false) := by
      intro m hm
      unfold advance at hm
      split at hm
      · cases hm
      · rename_i mode hmode
        rw [if_neg hskip, if_neg hname.ne_up] at hm
        split_ifs at hm with hsearch
        split at hm
        · cases hm
        · rename_i target hnode
          have hlink := hlinks [part] (by simp) _ hnode
          cases hlink
        · next node _ hnode => grind
      · cases hm
    rw [descend] at h
    split at h
    · cases h
    · rename_i here' hadvance
      obtain ⟨hmove, hdir, hnode⟩ := henter _ hadvance
      obtain rfl : here' = here ++ [part] := Move.enter.inj hmove
      have hrest := ih (fun x hx => hnames x (List.mem_cons_of_mem _ hx)) ?_ h
      · exact ⟨by simpa using hrest.1, hname, hdir, hnode, hrest.2⟩
      · grind
    · next walk hadvance => cases (henter _ hadvance).1

theorem resolve_linkless (hnames : ∀ part ∈ rel, Name part)
    (hlinks : ∀ pre, pre <+: rel → ∀ node, d.node (here ++ pre) = some node →
      node.isLink = false) (h : d.resolve links here rel = .ok p) :
    p = here ++ rel ∧ d.Clear here rel := by
  have hdescend : ∀ move, d.descend here rel = .ok move →
      move = .enter (here ++ rel) ∧ d.Clear here rel :=
    fun _ => descend_linkless hnames hlinks
  grind [resolve]

variable {path : List Bytes}

theorem Leads.unique (h : d.Leads path p) (h' : d.Leads path q) : p = q :=
  Except.ok.inj (h.symm.trans h')

/-- The last name of a path that leads somewhere is that of a node. -/
theorem Leads.last_there {last : Bytes} (h : d.Leads (path ++ [last]) q) (hname : Name last) :
    ∃ parent, d.Leads path parent ∧ d.node (parent ++ [last]) ≠ none := by
  obtain ⟨parent, hparent⟩ := resolve_of_append h
  obtain ⟨left, hleft⟩ := resolve_append hparent
  refine ⟨parent, hparent, fun hnone => ?_⟩
  have hskip : ¬(last = [] ∨ last = [dot]) := by simp [hname.ne_nil, hname.ne_dot]
  rw [Leads, hleft, resolve, descend] at h
  cases hadvance : d.advance parent last [] with
  | error e => simp [hadvance] at h
  | ok move => grind [advance, hname.ne_up]

/-- **Names without a link on the way lead where they say.** -/
theorem Leads.append (h : d.Leads path p) (hclear : d.Clear p rel) :
    d.Leads (path ++ rel) (p ++ rel) := by
  obtain ⟨left, hleft⟩ := resolve_append h
  rw [Leads, hleft]
  exact resolve_clear hclear

/-- **Names without a link on the way lead nowhere else.** -/
theorem Leads.eq_of_linkless (h : d.Leads path p) (hnames : ∀ part ∈ rel, Name part)
    (hlinks : ∀ pre, pre <+: rel → ∀ node, d.node (p ++ pre) = some node →
      node.isLink = false) (hq : d.Leads (path ++ rel) q) : q = p ++ rel ∧ d.Clear p rel := by
  obtain ⟨left, hleft⟩ := resolve_append h
  rw [Leads, hleft] at hq
  exact resolve_linkless hnames hlinks hq

variable {d' : Disk} {last : Bytes} {mode : Mode} {node : Node}

/-- Every node is still as it was. -/
def Extends (d d' : Disk) : Prop := ∀ p node, d.node p = some node → d'.node p = some node

theorem Extends.advance (hext : d.Extends d') {move : Move}
    (h : d.advance here part rest = .ok move) : d'.advance here part rest = .ok move := by
  unfold Disk.advance at h ⊢
  split at h
  · cases h
  · rename_i mode hmode
    rw [hext _ _ hmode]
    dsimp only
    split_ifs at h ⊢ with hsearch hskip hup
    · exact h
    · exact h
    · split at h
      · cases h
      · rename_i target htarget
        rw [hext _ _ htarget]
        exact h
      · rename_i node hnot hnode
        rw [hext _ _ hnode]
        grind
  · cases h

theorem Extends.descend (hext : d.Extends d') {move : Move}
    (h : d.descend here rel = .ok move) : d'.descend here rel = .ok move := by
  induction rel generalizing here with
  | nil => exact h
  | cons part rest ih =>
    rw [Disk.descend] at h ⊢
    cases hadvance : d.advance here part rest with
    | error e => simp [hadvance] at h
    | ok m =>
      rw [hext.advance hadvance]
      rw [hadvance] at h
      cases m with
      | enter p => exact ih h
      | follow w => exact h

theorem Extends.resolve (hext : d.Extends d') (h : d.resolve links here rel = .ok p) :
    d'.resolve links here rel = .ok p := by
  induction links generalizing here rel with
  | zero =>
    rw [Disk.resolve] at h ⊢
    cases hmove : d.descend here rel with
    | error e => simp [hmove] at h
    | ok m =>
      rw [hext.descend hmove]
      rw [hmove] at h
      exact h
  | succ links ih => grind [hext.descend, Disk.resolve]

/-- A path leads to the same place while nodes are added. -/
theorem Leads.mono (h : d.Leads path p) (hext : d.Extends d') : d'.Leads path p :=
  hext.resolve h

/-- Every node is still there, with the same or other permissions. -/
def Retains (d d' : Disk) : Prop :=
  ∀ p node, d.node p = some node → ∃ node', d'.node p = some node' ∧
    node'.setMode 0 = node.setMode 0

theorem Retains.trans {d'' : Disk} (h : d.Retains d') (h' : d'.Retains d'') : d.Retains d'' := by
  intro p node hnode
  obtain ⟨node', hnode', hsame⟩ := h p node hnode
  obtain ⟨node'', hnode'', hsame'⟩ := h' p node' hnode'
  exact ⟨node'', hnode'', hsame'.trans hsame⟩

theorem Retains.advance_eq (hret : d.Retains d') {move move' : Move}
    (h : d.advance here part rest = .ok move) (h' : d'.advance here part rest = .ok move') :
    move' = move := by
  unfold Disk.advance at h h'
  split at h
  · cases h
  · rename_i mode hmode
    obtain ⟨node', hnode', hsame⟩ := hret _ _ hmode
    cases node' with
    | dir mode' =>
      rw [hnode'] at h'
      dsimp only at h'
      split_ifs at h h' with hsearch hsearch' hskip hup
      · exact Except.ok.inj (h'.symm.trans h)
      · exact Except.ok.inj (h'.symm.trans h)
      · split at h
        · cases h
        · rename_i target htarget
          obtain ⟨last, hlast, heq⟩ := hret _ _ htarget
          cases last with
          | link target' =>
            obtain rfl : target' = target := Node.link.inj heq
            grind
          | _ => cases heq
        · rename_i node hnot hnode
          obtain ⟨last, hlast, heq⟩ := hret _ _ hnode
          rw [hlast] at h'
          cases last with
          | link target =>
            cases node with
            | link target' => exact absurd rfl (hnot target')
            | _ => cases heq
          | _ => exact Except.ok.inj (h'.symm.trans h)
    | _ => cases hsame
  · cases h

theorem Retains.descend_eq (hret : d.Retains d') {move move' : Move}
    (h : d.descend here rel = .ok move) (h' : d'.descend here rel = .ok move') :
    move' = move := by
  induction rel generalizing here with
  | nil => exact Except.ok.inj (h'.symm.trans h)
  | cons part rest ih =>
    rw [Disk.descend] at h h'
    cases hadvance : d.advance here part rest with
    | error e => simp [hadvance] at h
    | ok m =>
      cases hadvance' : d'.advance here part rest with
      | error e => simp [hadvance'] at h'
      | ok m' =>
        obtain rfl := hret.advance_eq hadvance hadvance'
        rw [hadvance] at h
        rw [hadvance'] at h'
        cases m' with
        | enter p => exact ih h h'
        | follow w => exact Except.ok.inj (h'.symm.trans h)

theorem Retains.resolve_descend (hret : d.Retains d')
    (h : d.resolve links here rel = .ok p) (h' : d'.resolve links here rel = .ok q) :
    ∃ move, d.descend here rel = .ok move ∧ d'.descend here rel = .ok move := by
  rw [Disk.resolve] at h h'
  cases hmove : d.descend here rel with
  | error e => simp [hmove] at h
  | ok m =>
    cases hmove' : d'.descend here rel with
    | error e => simp [hmove'] at h'
    | ok m' =>
      obtain rfl := hret.descend_eq hmove hmove'
      exact ⟨m', rfl, rfl⟩

theorem Retains.resolve_eq (hret : d.Retains d') (h : d.resolve links here rel = .ok p)
    (h' : d'.resolve links here rel = .ok q) : q = p := by
  induction links generalizing here rel with
  | zero | succ links ih => grind [hret.resolve_descend, Disk.resolve]

/-- **A path that still leads somewhere leads to the same place** while nodes are added and
permissions change. -/
theorem Retains.leads_eq (hret : d.Retains d') (h : d.Leads path p) (h' : d'.Leads path q) :
    q = p :=
  hret.resolve_eq h h'

theorem place_ok (h : d.place path = .ok (parent, last)) :
    path = path.dropLast ++ [last] ∧ Name last ∧ d.Leads path.dropLast parent ∧
      ∃ mode, d.node parent = some (.dir mode) ∧ searchable mode = true := by
  unfold place at h
  split at h
  · cases h
  · rename_i x hx
    split_ifs at h with hname
    split at h
    · cases h
    · rename_i q hq
      split at h
      · rename_i mode hmode
        split_ifs at h with hsearch
        cases h
        refine ⟨?_, hname, hq, mode, hmode, hsearch⟩
        rw [List.dropLast_append_getLast? _ hx]
      · cases h

theorem place_eq (hlead : d.Leads path parent)
    (hdir : d.node parent = some (.dir mode)) (hsearch : searchable mode = true)
    (hname : Name last) : d.place (path ++ [last]) = .ok (parent, last) := by
  have hresolve : d.resolve maxLinks [] path = .ok parent := hlead
  simp [place, hname, hresolve, hdir, hsearch]

theorem stat_ok (h : d.stat path = .ok (p, node)) : d.Leads path p ∧ d.node p = some node := by
  unfold stat at h
  split at h
  · cases h
  · rename_i q hq
    split at h
    · cases h
    · rename_i n hn
      cases h
      exact ⟨hq, hn⟩

theorem stat_eq (hlead : d.Leads path p) (hnode : d.node p = some node) :
    d.stat path = .ok (p, node) := by
  have hresolve : d.resolve maxLinks [] path = .ok p := hlead
  simp [stat, hresolve, hnode]

theorem stat_missing (hlead : d.Leads path parent)
    (hdir : d.node parent = some (.dir mode)) (hsearch : searchable mode = true)
    (hname : Name last) (hnone : d.node (parent ++ [last]) = none) :
    d.stat (path ++ [last]) = .error .noEntry := by
  have hskip : ¬(last = [] ∨ last = [dot]) := by simp [hname.ne_nil, hname.ne_dot]
  have hadvance : d.advance parent last [] = .error .noEntry := by
    simp [advance, hdir, hsearch, hskip, hname.ne_up, hnone]
  obtain ⟨left, hleft⟩ := resolve_append hlead
  rw [stat, hleft, resolve, descend, hadvance]

theorem lstat_eq (hlead : d.Leads path parent)
    (hdir : d.node parent = some (.dir mode)) (hsearch : searchable mode = true)
    (hname : Name last) :
    d.lstat (path ++ [last]) =
      match d.node (parent ++ [last]) with
      | none => .error .noEntry
      | some node => .ok (parent ++ [last], node) := by
  simp [lstat, hname, place_eq hlead hdir hsearch hname]

/-- The node is where the answer says; unless it is a link, the path leads there. -/
theorem lstat_ok (h : d.lstat path = .ok (p, node)) :
    d.node p = some node ∧ (node.isLink = false → d.Leads path p) := by
  unfold lstat at h
  split_ifs at h with hname
  · cases hplace : d.place path with
    | error e => simp [hplace] at h
    | ok found =>
      obtain ⟨parent, last⟩ := found
      simp only [hplace] at h
      split at h
      · cases h
      · rename_i n hn
        cases h
        refine ⟨hn, fun hlink => ?_⟩
        obtain ⟨hpath, hlast, hlead, mode, hmode, hsearch⟩ := place_ok hplace
        rw [hpath]
        exact hlead.append ⟨hlast, ⟨mode, hmode, hsearch⟩, ⟨node, hn, hlink⟩, trivial⟩
  · obtain ⟨hlead, hnode⟩ := stat_ok h
    exact ⟨hnode, fun _ => hlead⟩

/-- What was found is still found while nodes are added. -/
theorem Extends.lstat (hext : d.Extends d') (h : d.lstat path = .ok (p, node)) :
    d'.lstat path = .ok (p, node) := by
  unfold Disk.lstat at h ⊢
  split_ifs at h ⊢ with hname
  · cases hplace : d.place path with
    | error e => simp [hplace] at h
    | ok found =>
      obtain ⟨parent, last⟩ := found
      obtain ⟨hpath, hlast, hlead, mode, hmode, hsearch⟩ := place_ok hplace
      simp only [hplace] at h
      split at h
      · cases h
      · rename_i n hn
        cases h
        rw [hpath, place_eq (hlead.mono hext) (hext _ _ hmode) hsearch hlast]
        simp only [hext _ _ hn]
  · obtain ⟨hlead, hnode⟩ := stat_ok h
    exact stat_eq (hlead.mono hext) (hext _ _ hnode)

/-- The last element of a path is not followed: it lies in the directory the others lead to. -/
theorem lstat_append_ok (hname : Name last) (h : d.lstat (path ++ [last]) = .ok (p, node)) :
    ∃ parent, d.Leads path parent ∧ p = parent ++ [last] ∧ d.node p = some node ∧
      ∃ mode, d.node parent = some (.dir mode) ∧ searchable mode = true := by
  unfold lstat at h
  rw [if_pos (by simpa using hname)] at h
  cases hplace : d.place (path ++ [last]) with
  | error e => simp [hplace] at h
  | ok found =>
    obtain ⟨parent, last'⟩ := found
    simp only [hplace] at h
    obtain ⟨hpath, -, hlead, hdir⟩ := place_ok hplace
    simp only [List.dropLast_concat] at hpath hlead
    obtain rfl : last = last' := by simpa using hpath
    grind

theorem readFile_eq {content : Bytes} (hlead : d.Leads path p)
    (hnode : d.node p = some (.file mode content)) :
    d.readFile path = if readable mode then .ok content else .error .access := by
  rw [readFile, stat_eq hlead hnode]

theorem create_eq (hlead : d.Leads path parent)
    (hdir : d.node parent = some (.dir mode)) (hsearch : searchable mode = true)
    (hname : Name last) (hnew : d.node (parent ++ [last]) = none) :
    if writable mode = true then
      ∃ d', d.create (path ++ [last]) node = .ok (parent ++ [last], d')
    else d.create (path ++ [last]) node = .error .access := by
  have hisDir : d.isDir parent = true := isDir_iff.2 ⟨mode, hdir⟩
  unfold create
  rw [place_eq hlead hdir hsearch hname]
  dsimp only
  rw [dif_pos hnew, dif_pos ⟨hname, hisDir⟩]
  split_ifs with hwrite
  · refine ⟨d.add parent last node hname hisDir hnew, ?_⟩
    simp [hdir, hwrite]
  · simp [hdir, hwrite]

/-- A call that makes a node makes that node only, in a directory that may be written. -/
theorem create_ok (h : d.create path node = .ok (q, d')) :
    ∃ parent last, path = path.dropLast ++ [last] ∧ Name last ∧ d.Leads path.dropLast parent ∧
      q = parent ++ [last] ∧ d.node q = none ∧
      (∃ mode, d.node parent = some (.dir mode) ∧ searchable mode = true ∧
        writable mode = true) ∧
      ∀ x, d'.node x = if x = q then some node else d.node x := by
  unfold create at h
  split at h
  · cases h
  · rename_i parent last hplace
    obtain ⟨hpath, hname, hlead, m, hm, hsearch⟩ := place_ok hplace
    split_ifs at h with hnew hguard
    split at h
    · rename_i mode hmode
      split_ifs at h with hwrite
      cases h
      obtain rfl : m = mode := by simpa [hm] using hmode
      exact ⟨parent, last, hpath, hname, hlead, rfl, hnew, ⟨m, hm, hsearch, hwrite⟩,
        fun x => node_add⟩
    · cases h

/-- The new node is found under its path, unless it is a link. -/
theorem create_leads (h : d.create path node = .ok (q, d'))
    (hlink : node.isLink = false) : d'.Leads path q := by
  obtain ⟨parent, last, hpath, hname, hlead, rfl, hnew, ⟨mode, hmode, hsearch, -⟩, hnodes⟩ :=
    create_ok h
  have hext : d.Extends d' := by
    intro x n hx
    grind
  rw [hpath]
  exact (hlead.mono hext).append ⟨hname, ⟨mode, hext _ _ hmode, hsearch⟩,
    ⟨node, by rw [hnodes, if_pos rfl], hlink⟩, trivial⟩

/-- What is there already cannot be made. -/
theorem resolve_ne_fileExists {links : Nat} {here : Path} {parts : List Bytes} :
    d.resolve links here parts ≠ .error .fileExists := by
  have hdescend : ∀ (here : Path) (parts : List Bytes),
      d.descend here parts ≠ .error .fileExists := by
    intro here parts
    induction parts generalizing here with
    | nil => simp [descend]
    | cons part rest ih =>
      have hadvance : d.advance here part rest ≠ .error .fileExists := by
        unfold advance
        grind
      unfold descend
      grind
  fun_induction resolve d links here parts <;> grind

/-- A path is taken only by a node in the directory that the path before leads to. -/
theorem node_of_fileExists (hname : Name last)
    (h : d.create (path ++ [last]) node = .error .fileExists) :
    ∃ parent, d.Leads path parent ∧ d.node (parent ++ [last]) ≠ none := by
  unfold create at h
  split at h
  · rename_i e hplace
    obtain rfl : e = .fileExists := by simpa using h
    simp only [place, List.getLast?_concat, List.dropLast_concat, if_pos hname] at hplace
    split at hplace
    · rename_i e hresolve
      cases hplace
      exact absurd hresolve resolve_ne_fileExists
    · split at hplace
      · split_ifs at hplace
        cases hplace
      · cases hplace
  · rename_i parent name hplace
    obtain ⟨hpath, -, hlead, -⟩ := place_ok hplace
    rw [List.dropLast_concat] at hpath hlead
    obtain rfl : last = name := by simpa using hpath
    refine ⟨parent, hlead, fun hnew => ?_⟩
    rw [dif_pos hnew] at h
    grind

theorem chmod_ok (h : d.chmod path mode = .ok (q, d')) :
    d.Leads path q ∧ (∃ node, d.node q = some node) ∧
      ∀ x, d'.node x = if x = q then (d.node x).map (Node.setMode mode) else d.node x := by
  unfold chmod at h
  split at h
  · cases h
  · rename_i p node hstat
    cases h
    obtain ⟨hlead, hnode⟩ := stat_ok hstat
    exact ⟨hlead, ⟨node, hnode⟩, fun x => node_setMode⟩

theorem chmod_eq (hlead : d.Leads path p)
    (hnode : d.node p = some node) : d.chmod path mode = .ok (p, d.setMode p mode) := by
  rw [chmod, stat_eq hlead hnode]

end Disk

end FileTree
