import ForgeCI.ArchiveNames

/-!
# Which trees are listed, and how

`scan` succeeds when every node it visits is fit to be archived, and it then returns one entry
for each of them, sorted by path.
-/

namespace Archive

open FileTree Lexical

/-- The bytes of a regular file. -/
def nodeBytes : Node → Nat
  | .file _ content => content.length
  | _ => 0

/-- The entry for a node. -/
def entryOf (sum : Bytes → Bytes) (name : Bytes) (host : List Bytes) : Node → Entry
  | .dir mode => ⟨name, .directory, mode, 0, [], [], host⟩
  | .file mode content => ⟨name, .file, mode, content.length, hexEncode (sum content), [], host⟩
  | .link target => ⟨name, .symlink, 0o777#9, 0, [], target, host⟩
  | .other mode => ⟨name, .file, mode, 0, [], [], host⟩

namespace Package

variable {pkg : Package} {sum : Bytes → Bytes} {limits : Limits} {d d' : Disk}
  {abs abs' rel : List Bytes} {p p' : Path} {top top' node : Node} {s s' : Scan}

/-- What is required of a node by itself. -/
def Fit (pkg : Package) (limits : Limits) (name : Bytes) : Node → Prop
  | .dir mode => readable mode = true
  | .file mode content => (content.length : Int) ≤ limits.maxFileBytes ∧ readable mode = true
  | .link target => unsafeLink target = false ∧ pkg.escapes (resolved name target) = false
  | .other _ => False

/-- What is required of a path. -/
structure Named (pkg : Package) (limits : Limits) (rel : List Bytes) : Prop where
  short : ((pkg.nameOf rel).length : Int) ≤ limits.maxPathBytes
  safe : unsafePath (pkg.nameOf rel) = false

/-- The files so far and this node stay within the limit. -/
def Room (limits : Limits) (s : Scan) (node : Node) : Prop :=
  (∀ mode content, node = .file mode content →
    ((s.logical + content.length : Nat) : Int) ≤ limits.maxLogicalBytes) ∧
  (s.entries.length : Int) + 1 ≤ limits.maxEntries

/-- The variables after a visit. -/
def added (pkg : Package) (sum : Bytes → Bytes) (abs rel : List Bytes) (s : Scan) (node : Node) :
    Scan :=
  ⟨s.entries ++ [entryOf sum (pkg.nameOf rel) (abs ++ rel) node], s.logical + nodeBytes node⟩

/-- The root of a snapshot is not listed. -/
def Listed (pkg : Package) (rel : List Bytes) : Prop := ¬(rel = [] ∧ pkg.listsRoot = false)

theorem inspect_ok (hlstat : d.lstat (abs ++ rel) = .ok (p, node))
    (h : pkg.inspect sum limits d s (pkg.nameOf rel) (abs ++ rel) node = .ok s') :
    ((∀ mode, node = .dir mode → readable mode = true) → pkg.Fit limits (pkg.nameOf rel) node) ∧
      (∀ mode content, node = .file mode content →
        ((s.logical + content.length : Nat) : Int) ≤ limits.maxLogicalBytes) ∧
      s' = pkg.added sum abs rel s node := by
  cases node with
  | dir mode =>
    cases h
    exact ⟨fun hdir => hdir mode rfl, by simp, rfl⟩
  | file mode content =>
    obtain ⟨hnode, hlead⟩ := Disk.lstat_ok hlstat
    simp only [inspect, Disk.readFile_eq (hlead rfl) hnode] at h
    split_ifs at h with hfile hlogical hread
    cases h
    refine ⟨fun _ => ⟨by omega, hread⟩, ?_, rfl⟩
    rintro _ _ ⟨⟩
    omega
  | link target =>
    simp only [inspect] at h
    split_ifs at h with hplain hescapes
    cases h
    exact ⟨fun _ => ⟨by simpa using hplain, by simpa using hescapes⟩, by simp, rfl⟩
  | other mode => cases h

theorem inspect_eq (hlstat : d.lstat (abs ++ rel) = .ok (p, node))
    (hfit : pkg.Fit limits (pkg.nameOf rel) node) (hroom : Room limits s node) :
    pkg.inspect sum limits d s (pkg.nameOf rel) (abs ++ rel) node =
      .ok (pkg.added sum abs rel s node) := by
  cases node with
  | dir mode => rfl
  | file mode content =>
    obtain ⟨hnode, hlead⟩ := Disk.lstat_ok hlstat
    have hlogical := hroom.1 mode content rfl
    simp only [inspect, Disk.readFile_eq (hlead rfl) hnode]
    rw [if_neg (by have := hfit.1; omega), if_neg (by omega), hfit.2]
    rfl
  | link target =>
    simp only [inspect]
    rw [if_neg (by simp [hfit.1]), if_neg (by simp [hfit.2])]
    rfl
  | other mode => cases hfit

/-- **What a visit requires**, and what it adds. -/
theorem visit_ok (hlisted : pkg.Listed rel) (h : pkg.visit sum limits d abs s rel = .ok s') :
    pkg.Named limits rel ∧ ∃ q node, d.lstat (abs ++ rel) = .ok (q, node) ∧
      pkg.Fit limits (pkg.nameOf rel) node ∧ Room limits s node ∧
      s' = pkg.added sum abs rel s node := by
  unfold visit at h
  cases hcallback : pkg.callback sum limits d abs s rel with
  | error e => simp [hcallback] at h
  | ok s₁ =>
    simp only [hcallback] at h
    unfold callback at hcallback
    rw [if_neg hlisted] at hcallback
    split_ifs at hcallback with hname
    rw [not_or] at hname
    cases hlstat : d.lstat (abs ++ rel) with
    | error e => simp [hlstat] at hcallback
    | ok found =>
      obtain ⟨q, node⟩ := found
      simp only [hlstat] at h hcallback
      cases hinspect : pkg.inspect sum limits d s (pkg.nameOf rel) (abs ++ rel) node with
      | error e => simp [hinspect] at hcallback
      | ok s₂ =>
        simp only [hinspect] at hcallback
        split_ifs at hcallback with hcount
        cases hcallback
        obtain ⟨hfit, hlogical, rfl⟩ := inspect_ok hlstat hinspect
        have hdir : ∀ mode, node = .dir mode → readable mode = true := by grind
        have hs' : s' = pkg.added sum abs rel s node := by grind
        refine ⟨⟨by omega, by simpa using hname.2⟩, q, node, rfl, hfit hdir, ⟨hlogical, ?_⟩,
          hs'⟩
        grind [added]

theorem visit_eq (hlisted : pkg.Listed rel) (hnamed : pkg.Named limits rel)
    (hlstat : d.lstat (abs ++ rel) = .ok (p, node))
    (hfit : pkg.Fit limits (pkg.nameOf rel) node) (hroom : Room limits s node) :
    pkg.visit sum limits d abs s rel = .ok (pkg.added sum abs rel s node) := by
  have hcount : ¬((pkg.added sum abs rel s node).entries.length : Int) > limits.maxEntries := by
    grind [added, Room]
  have hshort := hnamed.short
  unfold visit callback
  rw [if_neg hlisted, if_neg (by simp [hnamed.safe, hshort]), hlstat]
  simp only [inspect_eq hlstat hfit hroom, if_neg hcount]
  cases node with
  | dir mode => exact if_pos hfit
  | _ => rfl

/-- A root that is not listed is only read. -/
theorem visit_root_ok (hlisted : pkg.listsRoot = false)
    (h : pkg.visit sum limits d abs s [] = .ok s') :
    s' = s ∧ ∀ mode, d.lstat abs = .ok (p, .dir mode) → readable mode = true := by
  unfold visit callback at h
  rw [if_pos ⟨rfl, hlisted⟩, List.append_nil] at h
  simp only at h
  split at h
  · rename_i q mode hlstat
    split_ifs at h with hread
    refine ⟨(Except.ok.inj h).symm, fun m hm => ?_⟩
    rw [hlstat] at hm
    cases hm
    exact hread
  · rename_i hnot
    refine ⟨(Except.ok.inj h).symm, fun m hm => ?_⟩
    exact absurd hm (hnot p m)

theorem visit_root_eq (hlisted : pkg.listsRoot = false)
    (h : ∀ q mode, d.lstat abs = .ok (q, .dir mode) → readable mode = true) :
    pkg.visit sum limits d abs s [] = .ok s := by
  grind [visit, callback]

instance : DecidablePred pkg.Listed := fun rel =>
  inferInstanceAs (Decidable ¬(rel = [] ∧ pkg.listsRoot = false))

/-- The paths that become entries. -/
def listed (pkg : Package) (d : Disk) (p : Path) : List (List Bytes) :=
  (pkg.walked d p).filter fun rel => pkg.Listed rel

/-- The entry at a path. -/
def entryAt (pkg : Package) (sum : Bytes → Bytes) (d : Disk) (abs : List Bytes) (p : Path)
    (rel : List Bytes) : Option Entry :=
  (d.node (p ++ rel)).map (entryOf sum (pkg.nameOf rel) (abs ++ rel))

/-- The walk over some of the paths below `p`, visit by visit. -/
inductive Walk (pkg : Package) (sum : Bytes → Bytes) (limits : Limits) (d : Disk)
    (abs : List Bytes) (p : Path) : Scan → List (List Bytes) → Scan → Prop
  | done (s : Scan) : Walk pkg sum limits d abs p s [] s
  | root {s s' : Scan} {l : List (List Bytes)} (unlisted : pkg.listsRoot = false)
      (read : ∀ mode, d.node p = some (.dir mode) → readable mode = true)
      (rest : Walk pkg sum limits d abs p s l s') : Walk pkg sum limits d abs p s ([] :: l) s'
  | entry {s s' : Scan} {rel : List Bytes} {l : List (List Bytes)} {node : Node}
      (listed : pkg.Listed rel) (named : pkg.Named limits rel)
      (there : d.node (p ++ rel) = some node) (searched : d.Open p rel)
      (fit : pkg.Fit limits (pkg.nameOf rel) node) (room : Room limits s node)
      (rest : Walk pkg sum limits d abs p (pkg.added sum abs rel s node) l s') :
      Walk pkg sum limits d abs p s (rel :: l) s'

theorem walk_iff (htop : d.lstat abs = .ok (p, top)) {l : List (List Bytes)}
    (hl : ∀ rel ∈ l, (d.node (p ++ rel)).isSome) :
    l.foldlM (pkg.visit sum limits d abs) s = .ok s' ↔ pkg.Walk sum limits d abs p s l s' := by
  have hnodeTop := (Disk.lstat_ok htop).1
  constructor
  · intro h
    induction l generalizing s with
    | nil =>
      cases h
      exact .done _
    | cons rel l ih =>
      rw [List.foldlM_cons] at h
      have hrest : ∀ x ∈ l, (d.node (p ++ x)).isSome :=
        fun x hx => hl x (List.mem_cons_of_mem _ hx)
      obtain ⟨node, hnode⟩ := Option.isSome_iff_exists.1 (hl rel List.mem_cons_self)
      cases hvisit : pkg.visit sum limits d abs s rel with
      | error e => rw [hvisit] at h; cases h
      | ok s₁ =>
        rw [hvisit] at h
        have hwalk := ih hrest h
        by_cases hlisted : pkg.Listed rel
        · obtain ⟨hnamed, q, found, hlstat, hfit, hroom, rfl⟩ := visit_ok hlisted hvisit
          have hopen := Disk.open_of_lstat htop hnode hlstat
          have hsame := hlstat.symm.trans (Disk.lstat_of_open htop hnode hopen)
          obtain rfl : found = node := by
            cases hsame
            rfl
          exact .entry hlisted hnamed hnode hopen hfit hroom hwalk
        · have hroot : rel = [] ∧ pkg.listsRoot = false := by simpa [Listed] using hlisted
          obtain ⟨rfl, hlists⟩ := hroot
          obtain ⟨rfl, hread⟩ := visit_root_ok (p := p) hlists hvisit
          refine .root hlists (fun mode hmode => ?_) hwalk
          grind
  · intro h
    induction h with
    | done => rfl
    | root hlists hread rest ih =>
      have hvisit : ∀ s, pkg.visit sum limits d abs s [] = .ok s := by
        intro s
        apply visit_root_eq hlists
        grind
      rw [List.foldlM_cons, hvisit]
      exact ih fun x hx => hl x (List.mem_cons_of_mem _ hx)
    | entry hlisted hnamed hnode hopen hfit hroom rest ih =>
      have hlstat := Disk.lstat_of_open htop hnode hopen
      rw [List.foldlM_cons, visit_eq hlisted hnamed hlstat hfit hroom]
      exact ih fun x hx => hl x (List.mem_cons_of_mem _ hx)

/-- What a scan requires of a path. -/
structure Accepts (pkg : Package) (limits : Limits) (d : Disk) (p : Path) (rel : List Bytes) :
    Prop where
  named : pkg.Named limits rel
  searched : d.Open p rel
  fit : ∃ node, d.node (p ++ rel) = some node ∧ pkg.Fit limits (pkg.nameOf rel) node

variable {l : List (List Bytes)}

theorem Walk.accepts (h : pkg.Walk sum limits d abs p s l s') :
    ∀ rel ∈ l, pkg.Listed rel → pkg.Accepts limits d p rel := by
  induction h with
  | done => simp
  | root hlists _ _ ih =>
    apply List.forall_mem_cons.2 ⟨fun hlisted => absurd ⟨rfl, hlists⟩ hlisted, ih⟩
  | entry _ hnamed hnode hopen hfit _ _ ih =>
    exact List.forall_mem_cons.2 ⟨fun _ => ⟨hnamed, hopen, _, hnode, hfit⟩, ih⟩

theorem Walk.entries (h : pkg.Walk sum limits d abs p s l s') :
    s'.entries = s.entries ++
      (l.filter fun rel => pkg.Listed rel).filterMap (pkg.entryAt sum d abs p) := by
  induction h with
  | done => simp
  | root hlists _ _ ih =>
    rw [ih, List.filter_cons_of_neg (by simp [Listed, hlists])]
  | entry hlisted _ hnode _ _ _ _ ih => grind [added, entryAt]

theorem scan_ok_iff {es : List Entry} {n : Nat} :
    pkg.scan sum limits d abs = .ok (es, n) ↔
      ∃ p top s, d.lstat abs = .ok (p, top) ∧
        pkg.Walk sum limits d abs p {} (pkg.walked d p) s ∧ es = sortEntries s.entries ∧
        n = s.logical := by
  have hthere : ∀ p, ∀ rel ∈ pkg.walked d p, (d.node (p ++ rel)).isSome := fun p rel hrel =>
    Disk.mem_inside.1 (List.mem_filter.1 hrel).1
  unfold scan
  constructor
  · intro h
    cases htop : d.lstat abs with
    | error e => simp [htop] at h
    | ok found =>
      obtain ⟨p, top⟩ := found
      simp only [htop] at h
      cases hwalk : (pkg.walked d p).foldlM (pkg.visit sum limits d abs) {} with
      | error e => simp [hwalk] at h
      | ok s =>
        simp only [hwalk] at h
        cases h
        exact ⟨p, top, s, rfl, (walk_iff htop (hthere p)).1 hwalk, rfl, rfl⟩
  · rintro ⟨p, top, s, htop, hwalk, rfl, rfl⟩
    rw [htop]
    simp only [(walk_iff htop (hthere p)).2 hwalk]

/-- **What a successful scan says about the tree.** -/
theorem scan_ok {es : List Entry} {n : Nat} (h : pkg.scan sum limits d abs = .ok (es, n)) :
    ∃ p top, d.lstat abs = .ok (p, top) ∧
      (∀ rel ∈ pkg.listed d p, pkg.Accepts limits d p rel) ∧
      es = sortEntries ((pkg.listed d p).filterMap (pkg.entryAt sum d abs p)) := by
  obtain ⟨p, top, s, htop, hwalk, rfl, rfl⟩ := scan_ok_iff.1 h
  refine ⟨p, top, htop, ?_, ?_⟩
  · intro rel hrel
    obtain ⟨hwalked, hlisted⟩ := List.mem_filter.1 hrel
    exact hwalk.accepts rel hwalked (by simpa using hlisted)
  · rw [hwalk.entries]
    rfl

end Package

end Archive
