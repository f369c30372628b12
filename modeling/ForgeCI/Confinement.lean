import ForgeCI.ArtifactArchives
import ForgeCI.Listings
import ForgeCI.Snapshots

/-!
# Extraction keeps to its destination

Whatever an archive contains, extraction only makes nodes where there was nothing, changes the
permissions of nodes that are no links, and does both strictly below the directory it was given.
`Kept` says so of all changes made so far, so it speaks about every point at which extraction
can stop.
-/

namespace Archive

open FileTree Lexical Effects

/-- The nodes after a change. -/
def Touch.apply (nodes : Path → Option Node) (t : Touch) : Path → Option Node := fun q =>
  if q = t.actual then
    match t.change with
    | .create node => some node
    | .chmod mode => (nodes q).map (Node.setMode mode)
  else nodes q

/-- A node is made where there is none; permissions are those of a node that is no link. -/
def Touch.Fair (nodes : Path → Option Node) (t : Touch) : Prop :=
  match t.change with
  | .create _ => nodes t.actual = none
  | .chmod _ => ∃ node, nodes t.actual = some node ∧ node.isLink = false

/-- Every change is fair when it is made. -/
def AllFair : (Path → Option Node) → List Touch → Prop
  | _, [] => True
  | nodes, t :: rest => t.Fair nodes ∧ AllFair (t.apply nodes) rest

theorem allFair_append {nodes : Path → Option Node} {log : List Touch} {t : Touch} :
    AllFair nodes (log ++ [t]) ↔ AllFair nodes log ∧ t.Fair (log.foldl Touch.apply nodes) := by
  induction log generalizing nodes with
  | nil => simp [AllFair]
  | cons first log ih => simp [AllFair, ih, and_assoc]

/-- An empty directory to extract into. -/
structure Destination (d : Disk) (dest : List Bytes) (p : Path) : Prop where
  names : ∀ part ∈ dest, Name part
  leads : d.Leads dest p
  isDir : d.isDir p = true
  empty : ∀ rel, rel ≠ [] → d.node (p ++ rel) = none

/-- All changes so far were made strictly below the destination, where they were asked for. -/
structure Kept (d : Disk) (dest : List Bytes) (p : Path) (w : Work) : Prop where
  below : ∀ t ∈ w.log, ∃ rel, Safe rel ∧ t.named = dest ++ rel ∧ t.actual = p ++ rel
  fair : AllFair d.node w.log
  replayed : w.disk.node = w.log.foldl Touch.apply d.node

/-- One more change below the destination. -/
structure Step (dest : List Bytes) (p : Path) (rel : List Bytes) (change : Change) (w w' : Work) :
    Prop where
  safe : Safe rel
  logged : w'.log = w.log ++ [⟨change, dest ++ rel, p ++ rel⟩]
  applied : w'.disk.node = Touch.apply w.disk.node ⟨change, dest ++ rel, p ++ rel⟩
  fair : Touch.Fair w.disk.node ⟨change, dest ++ rel, p ++ rel⟩

/-- What the changes of a phase may be. -/
def Permits (allow : List Bytes → Node → Prop) (rel : List Bytes) : Change → Prop
  | .create node => allow rel node
  | .chmod _ => True

/-- Every permitted change keeps the invariant, which implies that the destination was kept. -/
structure Stable (d : Disk) (dest : List Bytes) (p : Path) (allow : List Bytes → Node → Prop)
    (I : Work → Prop) : Prop where
  kept : ∀ {w}, I w → Kept d dest p w
  step : ∀ {w w' rel change}, I w → Permits allow rel change → Step dest p rel change w w' → I w'

section Operations

variable {d : Disk} {dest : List Bytes} {p : Path} {allow : List Bytes → Node → Prop}
  {I : Work → Prop} {w w' : Work} {rel pre rest : List Bytes} {name : Bytes} {node : Node}
  {mode : Mode} {change : Change} {texts : Texts} {umask : Umask}

theorem Kept.initial : Kept d dest p ⟨d, []⟩ := ⟨by simp, trivial, rfl⟩

theorem Kept.step (h : Kept d dest p w) (hstep : Step dest p rel change w w') :
    Kept d dest p w' where
  below := by grind [hstep.logged, h.below, hstep.safe]
  fair := by grind [hstep.logged, h.replayed, h.fair, hstep.fair, allFair_append]
  replayed := by grind [hstep.logged, h.replayed, hstep.applied]

/-- What lies elsewhere is as it was. -/
theorem Kept.node_eq (h : Kept d dest p w) {q : Path} (hq : ∀ rel, rel ≠ [] → q ≠ p ++ rel) :
    w.disk.node q = d.node q := by
  have hlog : ∀ (log : List Touch) (nodes : Path → Option Node), (∀ t ∈ log, t.actual ≠ q) →
      log.foldl Touch.apply nodes q = nodes q := by
    intro log
    induction log with
    | nil => exact fun _ _ => rfl
    | cons t log ih =>
      intro nodes hne
      rw [List.foldl_cons, ih _ fun x hx => hne x (List.mem_cons_of_mem _ hx)]
      exact if_neg (hne t List.mem_cons_self).symm
  rw [h.replayed]
  apply hlog
  intro t ht
  obtain ⟨rel, hsafe, -, hactual⟩ := h.below t ht
  rw [hactual]
  exact (hq rel hsafe.ne_nil).symm

theorem Kept.leads (h : Kept d dest p w) (hd : Destination d dest p) : w.disk.Leads dest p := by
  apply hd.leads.mono
  intro q node hnode
  grind [h.node_eq, hd.empty]

theorem Kept.isDir (h : Kept d dest p w) (hd : Destination d dest p) : w.disk.isDir p = true := by
  rw [Disk.isDir_iff, h.node_eq (by simp), ← Disk.isDir_iff]
  exact hd.isDir

/-- Whatever was there is still there, and what it was. -/
theorem Step.persists (hstep : Step dest p rel change w w') {q : Path}
    (h : w.disk.node q = some node) :
    ∃ node', w'.disk.node q = some node' ∧ node'.isLink = node.isLink ∧
      ((∃ mode, node = .dir mode) → ∃ mode, node' = .dir mode) := by
  rw [hstep.applied]
  unfold Touch.apply
  split_ifs with hq
  · cases change with
    | create made =>
      have hfair : w.disk.node (p ++ rel) = none := hstep.fair
      grind
    | chmod mode =>
      refine ⟨node.setMode mode, by simp [h], by simp, ?_⟩
      rintro ⟨old, rfl⟩
      exact ⟨mode, rfl⟩
  · exact ⟨node, h, rfl, id⟩

/-- A path below the destination leads where it says, if a node that is no link is there. -/
theorem Kept.leads_below (h : Kept d dest p w) (hd : Destination d dest p)
    (hnode : w.disk.node (p ++ rel) = some node) (hlink : node.isLink = false) {q : Path}
    (hq : w.disk.Leads (dest ++ rel) q) : q = p ++ rel := by
  obtain ⟨hnames, hdirs⟩ := Disk.dir_of_node hnode
  refine ((h.leads hd).eq_of_linkless hnames (fun pre hpre n hn => ?_) hq).1
  by_cases hwhole : pre = rel
  · grind
  · obtain ⟨m, hm⟩ := hdirs pre hpre hwhole
    obtain rfl := Option.some.inj (hn.symm.trans hm)
    rfl

/-- The directory `pre` below the destination is there, and its path leads there. -/
structure Ready (dest : List Bytes) (p : Path) (pre : List Bytes) (w : Work) : Prop where
  isDir : w.disk.isDir (p ++ pre) = true
  leads : w.disk.Leads (dest ++ pre) (p ++ pre)

theorem Kept.ready (h : Kept d dest p w) (hd : Destination d dest p) : Ready dest p [] w :=
  ⟨by simpa using h.isDir hd, by simpa using h.leads hd⟩

/-- A node is made below the destination, once its directory is ready. -/
theorem make_keeps (hI : Stable d dest p allow I) (hsafe : Safe (pre ++ [name]))
    (hallow : allow (pre ++ [name]) node) :
    Ensures (fun w => I w ∧ Ready dest p pre w) (make (dest ++ (pre ++ [name])) node)
      (fun _ w => I w ∧ w.disk.node (p ++ (pre ++ [name])) = some node ∧
        (node.isLink = false →
          w.disk.Leads (dest ++ (pre ++ [name])) (p ++ (pre ++ [name])))) I := by
  rintro w ⟨hw, hready⟩
  unfold make
  cases hcreate : w.disk.create (dest ++ (pre ++ [name])) node with
  | error e => exact hw
  | ok made =>
    obtain ⟨q, d'⟩ := made
    have hleads := fun hlink => Disk.create_leads hcreate hlink
    obtain ⟨parent, last, hpath, -, hlead, rfl, hnew, -, hnodes⟩ := Disk.create_ok hcreate
    simp only [← List.append_assoc, List.dropLast_concat] at hpath hlead
    obtain rfl : name = last := by simpa using hpath
    obtain rfl := hlead.unique hready.leads
    have hplace : p ++ pre ++ [name] = p ++ (pre ++ [name]) := by simp
    have hpermits : Permits allow (pre ++ [name]) (.create node) := hallow
    have hstep : Step dest p (pre ++ [name]) (.create node) w
        ⟨d', w.log ++ [⟨.create node, dest ++ (pre ++ [name]), p ++ pre ++ [name]⟩]⟩ := by
      refine ⟨hsafe, by simp, ?_, by simpa [Touch.Fair] using hnew⟩
      funext x
      rw [hnodes, hplace]
      rfl
    grind [hI.step]

/-- Permissions are changed below the destination, if the node is there and no link. -/
theorem chmod_keeps (hd : Destination d dest p) (hI : Stable d dest p allow I) (hsafe : Safe rel) :
    Ensures (fun w => I w ∧ ∃ node, w.disk.node (p ++ rel) = some node ∧ node.isLink = false)
      (chmod (dest ++ rel) mode) (fun _ => I) I := by
  rintro w ⟨hw, node, hnode, hlink⟩
  unfold chmod
  cases hchmod : w.disk.chmod (dest ++ rel) mode with
  | error e => exact hw
  | ok changed =>
    obtain ⟨q, d'⟩ := changed
    obtain ⟨hlead, -, hnodes⟩ := Disk.chmod_ok hchmod
    obtain rfl := (hI.kept hw).leads_below hd hnode hlink hlead
    have hpermits : Permits allow rel (.chmod mode) := trivial
    have hstep : Step dest p rel (.chmod mode) w
        ⟨d', w.log ++ [⟨.chmod mode, dest ++ rel, p ++ rel⟩]⟩ :=
      ⟨hsafe, rfl, funext hnodes, node, hnode, hlink⟩
    exact hI.step hw hpermits hstep

/-- A directory is made. -/
theorem mkdir_keeps (hI : Stable d dest p allow I) (hallow : ∀ rel mode, allow rel (.dir mode))
    (hsafe : Safe (pre ++ [name])) :
    Ensures (fun w => I w ∧ Ready dest p pre w) (mkdir umask (dest ++ (pre ++ [name])) mode)
      (fun _ w => I w ∧ Ready dest p (pre ++ [name]) w) I := by
  have hmake : Ensures (fun w => I w ∧ Ready dest p pre w)
      (make (dest ++ (pre ++ [name])) (.dir (umask.apply mode)))
      (fun _ w => I w ∧ w.disk.node (p ++ (pre ++ [name])) = some (.dir (umask.apply mode)) ∧
        ((Node.dir (umask.apply mode)).isLink = false →
          w.disk.Leads (dest ++ (pre ++ [name])) (p ++ (pre ++ [name])))) I :=
    make_keeps hI hsafe (hallow _ _)
  refine hmake.post ?_
  rintro _ w ⟨hw, hnode, hleads⟩
  exact ⟨hw, Disk.isDir_iff.2 ⟨_, hnode⟩, hleads rfl⟩

theorem checkParent_keeps (hI : Stable d dest p allow I)
    (hallow : ∀ rel mode, allow rel (.dir mode)) (hsafe : Safe (pre ++ [name])) :
    Ensures (fun w => I w ∧ Ready dest p pre w)
      (checkParent texts umask (dest ++ (pre ++ [name])))
      (fun _ w => I w ∧ Ready dest p (pre ++ [name]) w) I := by
  apply Ensures.get_bind
  rintro w ⟨hw, hready⟩
  split
  · refine (mkdir_keeps hI hallow hsafe).pre ?_
    rintro _ rfl
    exact ⟨hw, hready⟩
  · apply Ensures.throw
    rintro _ rfl
    exact hw
  · rename_i q mode hlstat
    apply Ensures.pure
    rintro _ rfl
    have hleads := (Disk.lstat_ok hlstat).2 rfl
    rw [← List.append_assoc] at hlstat
    obtain ⟨parent, hlead, rfl, hnode, -⟩ :=
      Disk.lstat_append_ok (hsafe.names name (by simp)) hlstat
    obtain rfl := hlead.unique hready.leads
    rw [List.append_assoc] at hnode hleads
    exact ⟨hw, Disk.isDir_iff.2 ⟨mode, hnode⟩, hleads⟩
  · apply Ensures.throw
    rintro _ rfl
    exact hw

/-- `safeParents` makes the directory ready, or fails. -/
theorem safeParents_keeps (hd : Destination d dest p) (hI : Stable d dest p allow I)
    (hallow : ∀ rel mode, allow rel (.dir mode)) (hnames : ∀ part ∈ rel, Name part) :
    Ensures I (safeParents texts umask dest (dest ++ rel))
      (fun _ w => I w ∧ Ready dest p rel w) I := by
  have hloop : ∀ pre, (∀ part ∈ pre ++ rel, Name part) →
      Ensures (fun w => I w ∧ Ready dest p pre w) (checkParents texts umask (dest ++ pre) rel)
        (fun _ w => I w ∧ Ready dest p (pre ++ rel) w) I := by
    clear hnames
    induction rel with
    | nil =>
      intro pre _
      rw [List.append_nil]
      exact .pure fun w hw => hw
    | cons part rest ih =>
      intro pre hnames
      have happend : pre ++ part :: rest = pre ++ [part] ++ rest := by simp
      rw [happend] at hnames ⊢
      have hsafe : Safe (pre ++ [part]) :=
        ⟨by simp, fun x hx => hnames x (List.mem_append_left _ hx)⟩
      rw [checkParents, List.append_assoc dest]
      exact (checkParent_keeps hI hallow hsafe).bind fun _ => ih _ hnames
  unfold safeParents
  rw [within_append hnames, rel_append, if_neg (by simp)]
  have hwhole := hloop [] (by simpa using hnames)
  rw [List.append_nil] at hwhole
  exact hwhole.pre fun w hw => ⟨hw, (hI.kept hw).ready hd⟩

end Operations

namespace Package

variable {pkg : Package} {d : Disk} {dest : List Bytes} {p : Path} {pr : Progress} {w : Work}
  {umask : Umask} {limits : Limits} {entryCount logicalSize : Int} {header : TarEntry}
  {rel pre : List Bytes} {name : Bytes}
  {onDir : OnDir}
  {belongs : Bytes → Except Failure Unit}

/-- The tests of a link at `rel`. -/
def LinkOk (pkg : Package) (rel : List Bytes) (target : Bytes) : Prop :=
  unsafeLink target = false ∧ pkg.escapes (resolved (path rel) target) = false

/-- What is left for later: tested links, and directories that are there. -/
structure Pending (pkg : Package) (dest : List Bytes) (p : Path) (pr : Progress) (w : Work) :
    Prop where
  links : ∀ link ∈ pr.links, ∃ rel, Safe rel ∧ link.1 = dest ++ rel ∧ pkg.LinkOk rel link.2
  directories : ∀ dir ∈ pr.directories, ∃ rel node, Safe rel ∧ dir.1 = dest ++ rel ∧
    w.disk.node (p ++ rel) = some node ∧ node.isLink = false

/-- The invariant of the loop over the archive: there is no link below the destination. -/
structure Looping (pkg : Package) (d : Disk) (dest : List Bytes) (p : Path) (pr : Progress)
    (w : Work) : Prop where
  kept : Kept d dest p w
  linkless : ∀ rel node, w.disk.node (p ++ rel) = some node → node.isLink = false
  pending : pkg.Pending dest p pr w

/-- The invariant after that: every link below the destination has been tested. -/
structure Linking (pkg : Package) (d : Disk) (dest : List Bytes) (p : Path) (pr : Progress)
    (w : Work) : Prop where
  kept : Kept d dest p w
  tested : ∀ rel target, w.disk.node (p ++ rel) = some (.link target) → pkg.LinkOk rel target
  pending : pkg.Pending dest p pr w

theorem Pending.step (h : pkg.Pending dest p pr w) {w' : Work} {change : Change}
    (hstep : Step dest p rel change w w') : pkg.Pending dest p pr w' where
  links := h.links
  directories := by grind [h.directories, hstep.persists]

theorem Looping.stable :
    Stable d dest p (fun _ node => node.isLink = false) (pkg.Looping d dest p pr) where
  kept := Looping.kept
  step := by
    intro w w' rel change h hpermits hstep
    refine ⟨h.kept.step hstep, ?_, h.pending.step hstep⟩
    intro r node hnode
    rw [hstep.applied] at hnode
    unfold Touch.apply at hnode
    split_ifs at hnode with hr
    · cases change with
      | create made =>
        cases hnode
        exact hpermits
      | chmod mode =>
        obtain ⟨old, hold, rfl⟩ := Option.map_eq_some_iff.1 hnode
        rw [Node.isLink_setMode]
        exact h.linkless r old hold
    · exact h.linkless r node hnode

theorem Linking.stable :
    Stable d dest p (fun rel node => ∀ target, node = .link target → pkg.LinkOk rel target)
      (pkg.Linking d dest p pr) where
  kept := Linking.kept
  step := by
    intro w w' rel change h hpermits hstep
    refine ⟨h.kept.step hstep, ?_, h.pending.step hstep⟩
    intro r target hnode
    rw [hstep.applied] at hnode
    unfold Touch.apply at hnode
    split_ifs at hnode with hr
    · obtain rfl : r = rel := by simpa using hr
      cases change with
      | create made =>
        cases hnode
        exact hpermits target rfl
      | chmod mode =>
        obtain ⟨old, hold, hset⟩ := Option.map_eq_some_iff.1 hnode
        have hlink := congrArg Node.isLink hset
        rw [Node.isLink_setMode] at hlink
        cases old with
        | link t =>
          cases hset
          exact h.tested r target hold
        | _ => cases hlink
    · exact h.tested r target hnode

theorem Looping.linking (h : pkg.Looping d dest p pr w) : pkg.Linking d dest p pr w where
  kept := h.kept
  tested := by
    intro rel target hnode
    have hlink := h.linkless rel _ hnode
    cases hlink
  pending := h.pending

/-- What is required of the case of a directory. -/
def DirKeeps (pkg : Package) (d : Disk) (dest : List Bytes) (p : Path) (onDir : OnDir) : Prop :=
  ∀ pr pre name mode, Safe (pre ++ [name]) →
    Ensures (fun w => pkg.Looping d dest p pr w ∧ Ready dest p pre w)
      (onDir (dest ++ (pre ++ [name])) mode pr) (fun pr' => pkg.Looping d dest p pr')
      (Kept d dest p)

theorem Looping.throw {α : Type} {Q : α → Work → Prop} (e : Failure) :
    Ensures (pkg.Looping d dest p pr) (throw e : Extraction α) Q (Kept d dest p) :=
  .throw fun _ hw => hw.kept

/-- Counting changes nothing. -/
theorem Looping.recount (h : pkg.Looping d dest p pr w) (entries total : Int) :
    pkg.Looping d dest p { pr with entries := entries, total := total } w :=
  ⟨h.kept, h.linkless, h.pending.links, h.pending.directories⟩

theorem writeFile_keeps (hd : Destination d dest p) (hsafe : Safe (pre ++ [name])) :
    Ensures (fun w => pkg.Looping d dest p pr w ∧ Ready dest p pre w)
      (writeFile pkg.texts umask (dest ++ (pre ++ [name])) header)
      (fun _ => pkg.Looping d dest p pr) (Kept d dest p) := by
  have hmake : Ensures (fun w => pkg.Looping d dest p pr w ∧ Ready dest p pre w)
      (make (dest ++ (pre ++ [name]))
        (.file (umask.apply header.perm) (header.data.take header.size.toNat)))
      (fun _ w => pkg.Looping d dest p pr w ∧
        ∃ node, w.disk.node (p ++ (pre ++ [name])) = some node ∧ node.isLink = false)
      (Kept d dest p) := by
    refine (make_keeps Looping.stable hsafe ?_).mono (fun _ h => h) ?_ fun _ h => h.kept
    · rfl
    · rintro _ w ⟨hw, hnode, -⟩
      exact ⟨hw, _, hnode, rfl⟩
  refine hmake.bind fun _ => Ensures.ite (fun _ => .throw fun w hw => hw.1.kept) fun _ => ?_
  exact (chmod_keeps hd Looping.stable hsafe).fails fun _ h => h.kept

theorem unpackNode_keeps (hd : Destination d dest p) (hdir : pkg.DirKeeps d dest p onDir)
    (hsafe : Safe (pre ++ [name])) (hname : header.name = path (pre ++ [name])) :
    Ensures (fun w => pkg.Looping d dest p pr w ∧ Ready dest p pre w)
      (pkg.unpackNode onDir umask limits logicalSize (dest ++ (pre ++ [name])) pr header)
      (fun pr' => pkg.Looping d dest p pr') (Kept d dest p) := by
  have hfail : ∀ e : Failure, Ensures (fun w => pkg.Looping d dest p pr w ∧ Ready dest p pre w)
      (throw e : Extraction Progress) (fun pr' => pkg.Looping d dest p pr') (Kept d dest p) :=
    fun e => .throw fun w hw => hw.1.kept
  unfold unpackNode
  split
  · exact hdir pr pre name _ hsafe
  · refine .ite (fun _ => hfail _) fun _ => .ite (fun _ => hfail _) fun _ => ?_
    exact (writeFile_keeps hd hsafe).bind fun _ => .pure fun w hw => hw.recount _ _
  · refine .ite (fun _ => hfail _) fun hplain => .ite (fun _ => hfail _) fun hescapes => ?_
    apply Ensures.pure
    rintro w ⟨hw, -⟩
    refine ⟨hw.kept, hw.linkless, ?_, hw.pending.directories⟩
    intro link hlink
    rcases List.mem_append.1 hlink with hlink | hlink
    · exact hw.pending.links link hlink
    · obtain rfl := List.mem_singleton.1 hlink
      rw [hname] at hescapes
      exact ⟨pre ++ [name], hsafe, rfl, by simpa using hplain, by simpa using hescapes⟩
  · exact hfail _

/-- One round of the loop. -/
theorem unpackEntry_keeps (hd : Destination d dest p) (hdir : pkg.DirKeeps d dest p onDir) :
    Ensures (pkg.Looping d dest p pr)
      (pkg.unpackEntry onDir belongs umask limits entryCount logicalSize dest pr header)
      (fun pr' => pkg.Looping d dest p pr') (Kept d dest p) := by
  refine .ite (fun _ => Looping.throw _) fun _ => .ite (fun _ => Looping.throw _) fun hplain => ?_
  obtain ⟨-, -, rel, hsafe, hname⟩ := unsafePath_iff.1 (by simpa using (not_or.1 hplain).1)
  obtain ⟨pre, name, rfl⟩ := (List.eq_nil_or_concat' rel).resolve_left hsafe.ne_nil
  have hjoin : join dest header.name = dest ++ (pre ++ [name]) := by
    rw [hname]
    exact join_path hd.names hsafe
  have hparent : (dest ++ (pre ++ [name])).dropLast = dest ++ pre := by
    rw [← List.append_assoc, List.dropLast_concat]
  have hpre : ∀ part ∈ pre, Name part := fun part hpart => hsafe.names part (by simp [hpart])
  split
  · exact Looping.throw _
  · rw [hjoin, hparent]
    refine .ite (fun _ => Looping.throw _) fun _ => ?_
    have hparents : Ensures (pkg.Looping d dest p pr)
        (safeParents pkg.texts umask dest (dest ++ pre))
        (fun _ w => pkg.Looping d dest p { pr with entries := pr.entries + 1 } w ∧
          Ready dest p pre w) (Kept d dest p) := by
      refine (safeParents_keeps hd Looping.stable (fun _ _ => rfl) hpre).mono (fun _ h => h) ?_
        fun _ h => h.kept
      rintro _ w ⟨hw, hready⟩
      exact ⟨hw.recount _ _, hready⟩
    exact hparents.bind fun _ => unpackNode_keeps hd hdir hsafe hname

theorem unpackLink_keeps (hd : Destination d dest p) {link : List Bytes × Bytes}
    (hlink : ∃ rel, Safe rel ∧ link.1 = dest ++ rel ∧ pkg.LinkOk rel link.2) :
    Ensures (pkg.Linking d dest p pr) (pkg.unpackLink umask dest link)
      (fun _ => pkg.Linking d dest p pr) (Kept d dest p) := by
  obtain ⟨rel, hsafe, hpath, hok⟩ := hlink
  obtain ⟨pre, name, rfl⟩ := (List.eq_nil_or_concat' rel).resolve_left hsafe.ne_nil
  have hparent : (dest ++ (pre ++ [name])).dropLast = dest ++ pre := by
    rw [← List.append_assoc, List.dropLast_concat]
  have hpre : ∀ part ∈ pre, Name part := fun part hpart => hsafe.names part (by simp [hpart])
  unfold unpackLink
  rw [hpath, hparent]
  refine Ensures.bind (Q := fun _ w => pkg.Linking d dest p pr w ∧ Ready dest p pre w) ?_
    fun _ => ?_
  · exact (safeParents_keeps hd Linking.stable (fun _ _ _ h => by cases h) hpre).fails
      fun _ h => h.kept
  · refine (make_keeps Linking.stable hsafe ?_).mono (fun _ h => h) (fun _ _ h => h.1)
      fun _ h => h.kept
    rintro target ⟨⟩
    exact hok

/-- **The two phases of extraction.** -/
theorem unpack_keeps (hd : Destination d dest p) (hdir : pkg.DirKeeps d dest p onDir)
    {reading : Reading} :
    Ensures (fun w => w = ⟨d, []⟩)
      (pkg.unpack onDir belongs umask limits entryCount logicalSize reading dest)
      (fun pr => pkg.Linking d dest p pr) (Kept d dest p) := by
  have hstart : pkg.Looping d dest p {} ⟨d, []⟩ := by
    refine ⟨.initial, ?_, by simp, by simp⟩
    intro rel node hnode
    by_cases hrel : rel = []
    · obtain ⟨mode, hmode⟩ := Disk.isDir_iff.1 hd.isDir
      obtain rfl : node = .dir mode := by simpa [hrel, hmode] using hnode.symm
      rfl
    · rw [hd.empty rel hrel] at hnode
      cases hnode
  refine .ite (fun _ => .throw ?_) fun _ => ?_
  · rintro w rfl
    exact .initial
  · have hloop : Ensures (pkg.Looping d dest p {}) (reading.stream.foldlM
        (pkg.unpackEntry onDir belongs umask limits entryCount logicalSize dest) {})
        (fun pr => pkg.Looping d dest p pr) (Kept d dest p) :=
      Ensures.foldlM (fun _ _ => unpackEntry_keeps hd hdir) _ _
    refine (hloop.pre ?_).bind fun pr => ?_
    · rintro w rfl
      exact hstart
    · refine .ite (fun _ => Looping.throw _) fun _ => .ite (fun _ => Looping.throw _) fun _ =>
        .ite (fun _ => Looping.throw _) fun _ => ?_
      intro w hw
      have hlinks : Ensures (pkg.Linking d dest p pr) (pr.links.forM (pkg.unpackLink umask dest))
          (fun _ => pkg.Linking d dest p pr) (Kept d dest p) :=
        Ensures.forM fun link hlink => unpackLink_keeps hd (hw.pending.links link hlink)
      have hwhole : Ensures (pkg.Linking d dest p pr)
          (pr.links.forM (pkg.unpackLink umask dest) >>= fun _ => pure pr)
          (fun pr' => pkg.Linking d dest p pr') (Kept d dest p) :=
        hlinks.bind fun _ => .pure fun _ h => h
      exact hwhole w hw.linking

end Package

end Archive
