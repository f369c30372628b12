import ForgeCI.SafeExtraction

/-!
# What an extraction makes

The loop over an archive counts entries, while `safeParents` makes the missing parents of an entry
and counts none of them.  It adds the sizes of the headers in an `int64`, so that sizes of headers
that sum up to 2^63 pass the test of the total.

An extraction asks for nodes in a fixed order, its `demandsOf` the archive: for every entry the
parents and the node, and in the end the links with their parents.  Wherever it stops, it has met
the first of these demands, has made the nodes that were missing on the disk, each once, and has
written the bytes.
-/

namespace Archive

open FileTree Effects GoLib

/-- The call makes a node. -/
def Touch.creates (t : Touch) : Bool :=
  match t.change with
  | .create _ => true
  | .chmod _ => false

/-- The bytes written with a new node. -/
def contentSize : Node → Nat
  | .file _ content => content.length
  | _ => 0

def Touch.bytes (t : Touch) : Nat :=
  match t.change with
  | .create node => contentSize node
  | .chmod _ => 0

/-- The nodes made strictly below the destination. -/
def nodesMade (dest : List Bytes) (log : List Touch) : Nat :=
  ((log.filter Touch.creates).filter fun t => dest.isPrefixOf t.named && t.named ≠ dest).length

/-- The bytes of the files made. -/
def bytesWritten (log : List Touch) : Nat := (log.map Touch.bytes).sum

/-- A node that is asked for: its path below the destination, and the bytes to be written. -/
abbrev Demand := List Bytes × Nat

/-- The directories on a path, below `pre`. -/
def parentsFrom (pre : List Bytes) : List Bytes → List Demand
  | [] => []
  | part :: rest => (pre ++ [part], 0) :: parentsFrom (pre ++ [part]) rest

/-- The names in the path of an entry. -/
def TarEntry.names (header : TarEntry) : List Bytes := Lexical.split slash header.name

/-- The bytes of a file that are there to be written. -/
def TarEntry.written (header : TarEntry) : Nat := (header.data.take header.size.toNat).length

/-- The node that the loop asks for itself, after the parents: a link waits. -/
def TarEntry.own (header : TarEntry) : List Demand :=
  match header.typeflag with
  | .dir => [(header.names, 0)]
  | .reg => [(header.names, header.written)]
  | _ => []

/-- What the loop asks for at an entry. -/
def TarEntry.demands (header : TarEntry) : List Demand :=
  parentsFrom [] header.names.dropLast ++ header.own

/-- The link of an entry. -/
def TarEntry.link? (header : TarEntry) : Option (List Bytes × Bytes) :=
  match header.typeflag with
  | .symlink => some (header.names, header.linkname)
  | _ => none

/-- What is asked for at a link, once the loop has ended. -/
def linkDemands (link : List Bytes × Bytes) : List Demand :=
  parentsFrom [] link.1.dropLast ++ [(link.1, 0)]

/-- What the extraction of an archive asks for, in this order. -/
def demandsOf (stream : List TarEntry) : List Demand :=
  stream.flatMap TarEntry.demands ++ (stream.filterMap TarEntry.link?).flatMap linkDemands

/-- The paths asked for where there is nothing on the disk `d`. -/
def missing (d : Disk) (p : Path) (met : List Demand) : Finset (List Bytes) :=
  ((met.map Prod.fst).filter fun rel => (d.node (p ++ rel)).isNone).toFinset

/-- The sizes of the files, as the headers give them. -/
def sizesOf (stream : List TarEntry) : Nat :=
  (stream.map fun header => if header.typeflag = .reg then header.size.toNat else 0).sum

theorem mem_missing {d : Disk} {p : Path} {met : List Demand} {rel : List Bytes} :
    rel ∈ missing d p met ↔ rel ∈ met.map Prod.fst ∧ d.node (p ++ rel) = none := by
  simp [missing]

theorem sum_parentsFrom (pre rel : List Bytes) : ((parentsFrom pre rel).map Prod.snd).sum = 0 := by
  induction rel generalizing pre with
  | nil => rfl
  | cons part rest ih => simp [parentsFrom, ih]

/-- A file gets no more bytes than its header says. -/
theorem sum_demands_le (stream : List TarEntry) :
    ((stream.flatMap TarEntry.demands).map Prod.snd).sum ≤ sizesOf stream := by
  induction stream with
  | nil => exact Nat.zero_le _
  | cons header rest ih =>
    have hown : (header.own.map Prod.snd).sum ≤
        if header.typeflag = .reg then header.size.toNat else 0 := by
      unfold TarEntry.own
      cases header.typeflag <;> simp [TarEntry.written]
    simp only [List.flatMap_cons, List.map_append, List.sum_append, TarEntry.demands,
      sum_parentsFrom, sizesOf, List.map_cons, List.sum_cons] at ih ⊢
    omega

theorem sizesOf_concat (done : List TarEntry) (header : TarEntry) : sizesOf (done ++ [header]) =
      sizesOf done + if header.typeflag = .reg then header.size.toNat else 0 := by
  simp [sizesOf]

theorem sizesOf_mono {done stream : List TarEntry} (h : done <+: stream) :
    sizesOf done ≤ sizesOf stream := by
  obtain ⟨rest, rfl⟩ := h
  simp [sizesOf]

/-- Where an archive is extracted: the disk before, the destination, and where its path leads. -/
structure Site where
  disk : Disk
  dest : List Bytes
  p : Path
  names : ∀ part ∈ dest, Name part
  leads : disk.Leads dest p

/-- The demands `met` have been met: what is below the destination was there or was asked for, and
the calls made the missing nodes and wrote the bytes, of which `cap` holds. -/
structure Site.Done (x : Site) (cap : Nat → Prop) (met : List Demand) (w : Work) : Prop where
  retains : x.disk.Retains w.disk
  there : ∀ rel, w.disk.node (x.p ++ rel) ≠ none ↔
    x.disk.node (x.p ++ rel) ≠ none ∨ rel ∈ met.map Prod.fst
  nodes : nodesMade x.dest w.log = (missing x.disk x.p met).card
  bytes : bytesWritten w.log = (met.map Prod.snd).sum
  capped : cap (met.map Prod.snd).sum

/-- The first of the demands `all` have been met. -/
def Site.Stopped (x : Site) (cap : Nat → Prop) (all : List Demand) (w : Work) : Prop :=
  ∃ met, met <+: all ∧ x.Done cap met w

/-- The directory `pre` below the destination is there, and its path leads there; the destination
itself may have become unreachable. -/
def Site.Open (x : Site) (pre : List Bytes) (w : Work) : Prop :=
  pre = [] ∨ Ready x.dest x.p pre w

abbrev Site.At (x : Site) (cap : Nat → Prop) (met : List Demand) (pre : List Bytes) (w : Work) :
    Prop :=
  x.Done cap met w ∧ x.Open pre w

section Operations

variable {x : Site} {cap : Nat → Prop} {met all : List Demand}
  {w : Work} {path rel pre : List Bytes} {name : Bytes} {node : Node} {mode : Mode}
  {texts : Texts} {umask : Umask}

theorem Site.Done.initial (hcap : cap 0) : x.Done cap [] ⟨x.disk, []⟩ where
  retains := fun _ node hnode => ⟨node, hnode, rfl⟩
  there := by simp
  nodes := rfl
  bytes := rfl
  capped := hcap

theorem Site.Done.stopped (h : x.Done cap met w) (hall : met <+: all) : x.Stopped cap all w :=
  ⟨met, hall, h⟩

/-- A demand for a node that is there is met. -/
theorem Site.Done.meet (h : x.Done cap met w) (hthere : w.disk.node (x.p ++ rel) ≠ none) :
    x.Done cap (met ++ [(rel, 0)]) w where
  retains := h.retains
  there := by
    intro r
    have hrel := (h.there rel).1 hthere
    rw [h.there r, List.map_append, List.mem_append, List.map_cons, List.map_nil,
      List.mem_singleton]
    grind
  nodes := by
    have hrel := (h.there rel).1 hthere
    have hsame : missing x.disk x.p (met ++ [(rel, 0)]) = missing x.disk x.p met := by
      ext r
      simp only [mem_missing, List.map_append, List.map_cons, List.map_nil, List.mem_append,
        List.mem_singleton]
      grind
    rw [hsame, h.nodes]
  bytes := by simpa using h.bytes
  capped := by simpa using h.capped

/-- A node is made where there is none. -/
theorem Site.Done.create (h : x.Done cap met w) (hrel : rel ≠ []) {d' : Disk}
    (hnew : w.disk.node (x.p ++ rel) = none)
    (hnodes : ∀ y, d'.node y = if y = x.p ++ rel then some node else w.disk.node y)
    (hcap : cap ((met.map Prod.snd).sum + contentSize node)) :
    x.Done cap (met ++ [(rel, contentSize node)])
      ⟨d', w.log ++ [⟨.create node, x.dest ++ rel, x.p ++ rel⟩]⟩ where
  retains := by
    refine h.retains.trans fun y n hy => ⟨n, ?_, rfl⟩
    grind
  there := by
    intro r
    have hr := h.there r
    rw [List.map_append, List.mem_append, List.map_cons, List.map_nil, List.mem_singleton, hnodes]
    by_cases hsame : r = rel
    · simp [hsame]
    · simpa [hsame] using hr
  nodes := by
    have hold : ¬(x.disk.node (x.p ++ rel) ≠ none ∨ rel ∈ met.map Prod.fst) := by
      rw [← h.there rel]
      exact not_not.2 hnew
    have hone : missing x.disk x.p (met ++ [(rel, contentSize node)]) =
        insert rel (missing x.disk x.p met) := by
      ext r
      simp only [mem_missing, List.map_append, List.map_cons, List.map_nil, List.mem_append,
        List.mem_singleton, Finset.mem_insert]
      grind
    have hfresh : rel ∉ missing x.disk x.p met := fun hmem => hold (.inr (mem_missing.1 hmem).1)
    rw [hone, Finset.card_insert_of_notMem hfresh, ← h.nodes]
    simp [nodesMade, Touch.creates, hrel]
  bytes := by
    rw [List.map_append, List.sum_append, ← h.bytes]
    simp [bytesWritten, Touch.bytes]
  capped := by simpa using hcap

/-- A path below the destination still leads where it says. -/
theorem Site.Done.place (h : x.Done cap met w)
    (hopen : x.Open pre w) {q : Path} (hq : w.disk.Leads (x.dest ++ pre) q) : q = x.p ++ pre := by
  rcases hopen with rfl | hready
  · rw [List.append_nil] at hq ⊢
    exact h.retains.leads_eq x.leads hq
  · exact hq.unique hready.leads

theorem make_done (node : Node) (hcap : cap ((met.map Prod.snd).sum + contentSize node)) :
    Ensures (x.At cap met pre)
      (make (x.dest ++ (pre ++ [name])) node)
      (fun _ w => x.Done cap (met ++ [(pre ++ [name], contentSize node)]) w ∧
        w.disk.node (x.p ++ (pre ++ [name])) = some node ∧
        (node.isLink = false → w.disk.Leads (x.dest ++ (pre ++ [name])) (x.p ++ (pre ++ [name]))))
      (x.Done cap met) := by
  rintro w ⟨hw, hopen⟩
  unfold make
  cases hcreate : w.disk.create (x.dest ++ (pre ++ [name])) node with
  | error e => exact hw
  | ok made =>
    obtain ⟨q, d'⟩ := made
    have hnewleads := fun hlink => Disk.create_leads hcreate hlink
    obtain ⟨parent, last, hpath, -, hlead, rfl, hnew, -, hnodes⟩ := Disk.create_ok hcreate
    simp only [← List.append_assoc, List.dropLast_concat] at hpath hlead
    obtain rfl : name = last := by simpa using hpath
    obtain rfl := hw.place hopen hlead
    rw [List.append_assoc] at hnew hnodes hnewleads ⊢
    exact ⟨hw.create (by simp) hnew hnodes hcap, by rw [hnodes, if_pos rfl], hnewleads⟩

theorem chmod_done : Ensures (x.Done cap met) (chmod path mode) (fun _ => x.Done cap met)
      (x.Done cap met) := by
  intro w hw
  unfold chmod
  cases hchmod : w.disk.chmod path mode with
  | error e => exact hw
  | ok changed =>
    obtain ⟨q, d'⟩ := changed
    obtain ⟨-, -, hnodes⟩ := Disk.chmod_ok hchmod
    refine ⟨hw.retains.trans fun x n hx => ?_, fun rel => ?_, ?_, ?_, hw.capped⟩
    · rw [hnodes]
      split_ifs
      · refine ⟨n.setMode mode, by rw [hx]; rfl, ?_⟩
        cases n <;> rfl
      · exact ⟨n, hx, rfl⟩
    · rw [← hw.there rel]
      dsimp only
      rw [hnodes]
      split_ifs <;> simp
    · simpa [nodesMade, Touch.creates] using hw.nodes
    · simpa [bytesWritten, Touch.bytes] using hw.bytes

theorem mkdir_done : Ensures (x.At cap met pre)
      (mkdir umask (x.dest ++ (pre ++ [name])) mode)
      (fun _ w => x.Done cap (met ++ [(pre ++ [name], 0)]) w ∧
        x.Open (pre ++ [name]) w) (x.Done cap met) := by
  rintro w ⟨hw, hopen⟩
  refine (make_done (.dir (umask.apply mode)) hw.capped).post ?_ w ⟨hw, hopen⟩
  rintro _ w' ⟨hdone, hnode, hlead⟩
  exact ⟨hdone, .inr ⟨Disk.isDir_iff.2 ⟨_, hnode⟩, hlead rfl⟩⟩

theorem checkParent_done (hname : Name name) : Ensures (x.At cap met pre)
      (checkParent texts umask (x.dest ++ (pre ++ [name])))
      (fun _ w => x.Done cap (met ++ [(pre ++ [name], 0)]) w ∧
        x.Open (pre ++ [name]) w) (x.Done cap met) := by
  apply Ensures.get_bind
  rintro w ⟨hw, hopen⟩
  split
  · refine mkdir_done.pre ?_
    rintro _ rfl
    exact ⟨hw, hopen⟩
  · exact .throw fun _ h => h ▸ hw
  · rename_i q mode hlstat
    apply Ensures.pure
    rintro _ rfl
    have hlead := (Disk.lstat_ok hlstat).2 rfl
    rw [← List.append_assoc] at hlstat
    obtain ⟨parent, hparent, rfl, hnode, -⟩ := Disk.lstat_append_ok hname hlstat
    obtain rfl := hw.place hopen hparent
    rw [List.append_assoc] at hnode hlead
    exact ⟨hw.meet (by rw [hnode]; simp), .inr ⟨Disk.isDir_iff.2 ⟨mode, hnode⟩, hlead⟩⟩
  · exact .throw fun _ h => h ▸ hw

/-- `safeParents` meets the demands for the parents, and leaves the last of them open. -/
theorem safeParents_done (hnames : ∀ part ∈ rel, Name part)
    (hall : met ++ parentsFrom [] rel <+: all) :
    Ensures (x.Done cap met) (safeParents texts umask x.dest (x.dest ++ rel))
      (fun _ w => x.Done cap (met ++ parentsFrom [] rel) w ∧ x.Open rel w)
      (x.Stopped cap all) := by
  have hloop : ∀ met pre, met ++ parentsFrom pre rel <+: all →
      Ensures (x.At cap met pre)
        (checkParents texts umask (x.dest ++ pre) rel)
        (fun _ w => x.Done cap (met ++ parentsFrom pre rel) w ∧
          x.Open (pre ++ rel) w) (x.Stopped cap all) := by
    clear hall
    induction rel with
    | nil =>
      intro met pre _
      rw [parentsFrom, List.append_nil, List.append_nil]
      exact .pure fun w hw => hw
    | cons part rest ih =>
      intro met pre hall
      have hdemands : met ++ parentsFrom pre (part :: rest) =
          met ++ [(pre ++ [part], 0)] ++ parentsFrom (pre ++ [part]) rest := by simp [parentsFrom]
      have happend : pre ++ part :: rest = pre ++ [part] ++ rest := by simp
      rw [hdemands] at hall ⊢
      rw [checkParents, List.append_assoc x.dest, happend]
      have hmet : met <+: all :=
        ((List.prefix_append _ _).trans (List.prefix_append _ _)).trans hall
      refine Ensures.bind ?_ fun _ => ih (fun x hx => hnames x (List.mem_cons_of_mem _ hx))
        _ _ hall
      exact (checkParent_done (hnames part List.mem_cons_self)).fails fun _ h => h.stopped hmet
  unfold safeParents
  rw [within_append hnames, rel_append, if_neg (by simp)]
  have hwhole := hloop met [] hall
  rw [List.append_nil, List.nil_append] at hwhole
  exact hwhole.pre fun w hw => ⟨hw, .inl rfl⟩

/-- A directory is made, or a pardoned failure says that something is there. -/
theorem forgive_mkdir_done {pardon : Failure → Work → Bool}
    (hpardon : ∀ w e, x.Done cap met w → x.Open pre w →
      mkdir umask (x.dest ++ (pre ++ [name])) mode w = .error e w → pardon e w = true →
      w.disk.node (x.p ++ (pre ++ [name])) ≠ none) :
    Ensures (x.At cap met pre)
      (forgive (mkdir umask (x.dest ++ (pre ++ [name])) mode) pardon)
      (fun _ => x.Done cap (met ++ [(pre ++ [name], 0)])) (x.Done cap met) := by
  apply Ensures.forgive
  · intro w _ w' hw hmade
    exact (mkdir_done.ok_of hw hmade).1
  · rintro w e w' ⟨hw, hopen⟩ hfailed hexcused
    obtain rfl := make_error hfailed
    exact hw.meet (hpardon _ e hw hopen hfailed hexcused)
  · rintro w e w' ⟨hw, -⟩ hfailed
    obtain rfl := make_error hfailed
    exact hw

/-- A file is written, or a part of it. -/
theorem writeFile_done {header : TarEntry} (hcap : cap ((met.map Prod.snd).sum + header.written))
    (hall : met ++ [(pre ++ [name], header.written)] <+: all) :
    Ensures (x.At cap met pre)
      (writeFile texts umask (x.dest ++ (pre ++ [name])) header) (fun _ => x.Done cap
        (met ++ [(pre ++ [name], header.written)]))
      (x.Stopped cap all) := by
  refine ((make_done (.file _ _) hcap).mono (fun _ h => h) (fun _ _ h => h.1)
    fun _ h => h.stopped ((List.prefix_append _ _).trans hall)).bind fun _ => ?_
  exact .ite (fun _ => .throw fun _ h => h.stopped hall) fun _ =>
    chmod_done.fails fun _ h => h.stopped hall

end Operations

/-- A limit that is given twice. -/
def allowance (limit expected : Int) : Nat := (min limit expected).toNat

/-- The entries that can pass the count. -/
def counted (limits : Limits) (entryCount : Int) (stream : List TarEntry) : List TarEntry :=
  stream.take (allowance limits.maxEntries entryCount)

/-- The bytes keep to the limits, if the sizes in the headers do not overflow the total. -/
def Fits (limits : Limits) (logicalSize : Int) (first : List TarEntry) (bytes : Nat) : Prop :=
  sizesOf first < 2 ^ 63 → bytes ≤ allowance limits.maxLogicalBytes logicalSize

theorem Fits.zero {limits : Limits} {logicalSize : Int} {first : List TarEntry} :
    Fits limits logicalSize first 0 :=
  fun _ => Nat.zero_le _

/-- A call that refuses its arguments has met no demand. -/
theorem Site.refused {x : Site} {limits : Limits} {logicalSize : Int} {first : List TarEntry}
    {all : List Demand} {α : Type} {Q : α → Work → Prop} (e : Failure) :
    Ensures (fun w => w = ⟨x.disk, []⟩) (throw e : Extraction α) Q
      (x.Stopped (Fits limits logicalSize first) all) := by
  apply Ensures.throw
  rintro _ rfl
  exact (Site.Done.initial Fits.zero).stopped List.nil_prefix

/-- The demands of the first entries come first. -/
theorem flatMap_demands_front {done first : List TarEntry} (h : done <+: first) :
    done.flatMap TarEntry.demands <+: demandsOf first := by
  obtain ⟨rest, rfl⟩ := h
  simp [demandsOf]

/-- What is required of the case of a directory. -/
def Site.DirDone (x : Site) (onDir : OnDir) : Prop :=
  ∀ cap met all pre name mode pr, Name name → met ++ [(pre ++ [name], 0)] <+: all →
    Ensures (x.At cap met pre) (onDir (x.dest ++ (pre ++ [name])) mode pr)
      (fun pr' w => x.Done cap (met ++ [(pre ++ [name], 0)]) w ∧
        pr'.entries = pr.entries ∧ pr'.total = pr.total ∧ pr'.links = pr.links)
      (x.Stopped cap all)

/-- The variables of the loop after the node of an entry. -/
structure Site.Follows (x : Site) (header : TarEntry) (pr pr' : Progress) : Prop where
  entries : pr'.entries = pr.entries
  total : pr'.total = if header.typeflag = .reg then add64 pr.total header.size else pr.total
  size : header.typeflag = .reg → 0 ≤ header.size
  links : pr'.links = pr.links ++ header.link?.toList.map fun link => (x.dest ++ link.1, link.2)

/-- After the entries `done` of an archive, of which only the `first` ones can pass the count. -/
structure Site.Along (x : Site) (limits : Limits) (logicalSize : Int) (first done : List TarEntry)
    (pr : Progress) (w : Work) : Prop where
  made : x.Done (Fits limits logicalSize first) (done.flatMap TarEntry.demands) w
  count : pr.entries = (done.length : Nat)
  front : done <+: first
  safe : ∀ header ∈ done, Safe header.names
  links : pr.links = (done.filterMap TarEntry.link?).map fun link => (x.dest ++ link.1, link.2)
  total : sizesOf first < 2 ^ 63 → pr.total = sizesOf done

section Loop

variable {pkg : Package} {x : Site} {cap : Nat → Prop} {met all : List Demand} {pr pr' : Progress}
  {w : Work} {umask : Umask} {limits : Limits} {entryCount logicalSize : Int} {header : TarEntry}
  {pre : List Bytes} {name : Bytes} {first done : List TarEntry} {reading : Reading}
  {onDir : OnDir} {belongs : Bytes → Except Failure Unit}

/-- The variables of the loop stay in step with what has been met. -/
theorem Site.Along.next (h : x.Along limits logicalSize first done pr w) {w' : Work}
    (hfront : done ++ [header] <+: first) (hsafe : Safe header.names)
    (hdone : x.Done (Fits limits logicalSize first)
      ((done ++ [header]).flatMap TarEntry.demands) w')
    (hnext : x.Follows header { pr with entries := pr.entries + 1 } pr') :
    x.Along limits logicalSize first (done ++ [header]) pr' w' where
  made := hdone
  count := by simp [hnext.entries, h.count]
  front := hfront
  safe := by
    intro other hmem
    rcases List.mem_append.1 hmem with hmem | hmem
    · exact h.safe other hmem
    · rw [List.mem_singleton.1 hmem]
      exact hsafe
  links := by
    rw [hnext.links, h.links, List.filterMap_append, List.map_append]
    cases hlink : header.link? <;> simp [hlink]
  total := by
    intro hfits
    have hle := sizesOf_mono hfront
    have htotal := h.total hfits
    have hsize := hnext.size
    rw [hnext.total]
    rw [sizesOf_concat] at hle ⊢
    split_ifs at hle ⊢ with hflag
    · have hnonneg := hsize hflag
      rw [htotal, add64_eq] <;> omega
    · omega

theorem Package.unpackNode_done (hdir : x.DirDone onDir)
    (hname : Name name) (hnames : header.names = pre ++ [name])
    (hcap : header.typeflag = .reg → 0 ≤ header.size →
      add64 pr.total header.size ≤ limits.maxLogicalBytes →
      add64 pr.total header.size ≤ logicalSize →
      cap ((met.map Prod.snd).sum + header.written))
    (hall : met ++ header.own <+: all) :
    Ensures (x.At cap met pre)
      (pkg.unpackNode onDir umask limits logicalSize (x.dest ++ (pre ++ [name])) pr header)
      (fun pr' w => x.Done cap (met ++ header.own) w ∧ x.Follows header pr pr')
      (x.Stopped cap all) := by
  have hfail : ∀ w, x.At cap met pre w → x.Stopped cap all w :=
    fun w hw => hw.1.stopped ((List.prefix_append _ _).trans hall)
  unfold unpackNode
  split
  · next hflag =>
    have hown : header.own = [(pre ++ [name], 0)] := by simp [TarEntry.own, hflag, hnames]
    rw [hown] at hall ⊢
    refine (hdir cap met all pre name _ pr hname hall).post ?_
    rintro pr' w ⟨hdone, hentries, htotal, hlinks⟩
    exact ⟨hdone, hentries, by simp [hflag, htotal], by simp [hflag],
      by simp [TarEntry.link?, hflag, hlinks]⟩
  · next hflag =>
    have hown : header.own =
        [(pre ++ [name], header.written)] := by
      simp [TarEntry.own, hflag, hnames]
    refine .ite (fun _ => .throw hfail) fun hsize => .ite (fun _ => .throw hfail) fun htotal => ?_
    rw [hown] at hall ⊢
    have hnonneg : 0 ≤ header.size := by omega
    refine (writeFile_done (hcap hflag hnonneg (by omega) (by omega)) hall).bind
      fun _ => .pure fun w hw => ⟨hw, rfl, by simp [hflag], fun _ => hnonneg, ?_⟩
    simp [TarEntry.link?, hflag]
  · next hflag =>
    refine .ite (fun _ => .throw hfail) fun _ => .ite (fun _ => .throw hfail) fun _ => .pure ?_
    rintro w ⟨hw, -⟩
    have hown : header.own = [] := by simp [TarEntry.own, hflag]
    rw [hown, List.append_nil]
    exact ⟨hw, rfl, by simp [hflag], by simp [hflag], by simp [TarEntry.link?, hflag, hnames]⟩
  · exact .throw hfail

theorem Site.Along.stopped (h : x.Along limits logicalSize first done pr w) :
    x.Stopped (Fits limits logicalSize first) (demandsOf first) w :=
  h.made.stopped (flatMap_demands_front h.front)

/-- One round of the loop. -/
theorem Package.unpackEntry_done (hdir : x.DirDone onDir)
    (hfront : pr.entries + 1 ≤ limits.maxEntries → pr.entries + 1 ≤ entryCount →
      done ++ [header] <+: first) :
    Ensures (x.Along limits logicalSize first done pr)
      (pkg.unpackEntry onDir belongs umask limits entryCount logicalSize x.dest pr header)
      (x.Along limits logicalSize first (done ++ [header]))
      (x.Stopped (Fits limits logicalSize first) (demandsOf first)) := by
  have hfail := fun w (h : x.Along limits logicalSize first done pr w) => h.stopped
  refine .ite (fun _ => .throw hfail) fun hcount => .ite (fun _ => .throw hfail) fun hplain => ?_
  have hfront := hfront (by omega) (by omega)
  obtain ⟨-, -, rel, hsafe, hname⟩ := unsafePath_iff.1 (by simpa using (not_or.1 hplain).1)
  obtain ⟨pre, name, rfl⟩ := (List.eq_nil_or_concat' rel).resolve_left hsafe.ne_nil
  have hjoin : join x.dest header.name = x.dest ++ (pre ++ [name]) := by
    rw [hname]
    exact join_path x.names hsafe
  have hparent : (x.dest ++ (pre ++ [name])).dropLast = x.dest ++ pre := by
    rw [← List.append_assoc, List.dropLast_concat]
  have hnames : header.names = pre ++ [name] := by rw [TarEntry.names, hname, hsafe.split_path]
  have hdemands : (done ++ [header]).flatMap TarEntry.demands =
      done.flatMap TarEntry.demands ++ parentsFrom [] pre ++ header.own := by
    simp [TarEntry.demands, hnames]
  have hall := flatMap_demands_front hfront
  rw [hdemands] at hall
  split
  · exact .throw hfail
  · rw [hjoin, hparent]
    refine .ite (fun _ => .throw hfail) fun _ => ?_
    intro w hw
    refine (safeParents_done (fun part hpart => hsafe.names part (by simp [hpart]))
      ((List.prefix_append _ _).trans hall)).bind (fun _ => (unpackNode_done hdir
        (hsafe.names name (by simp)) hnames ?_ hall).post ?_) w hw.made
    · -- The total after this file is the sum of the sizes so far, which passed both tests.
      intro hflag hnonneg hmax hexpected hfits
      have hle := sizesOf_mono hfront
      have hsum := sum_demands_le done
      have htotal := hw.total hfits
      rw [List.map_append, List.sum_append, sum_parentsFrom, TarEntry.written,
        List.length_take]
      rw [sizesOf_concat, if_pos hflag] at hle
      dsimp only at hmax hexpected
      rw [htotal, add64_eq (by omega) (by omega)] at hmax hexpected
      unfold allowance
      omega
    · rintro pr' w' ⟨hdone, hnext⟩
      exact hw.next hfront (hnames ▸ hsafe) (hdemands ▸ hdone) hnext

/-- The links are made in their order. -/
theorem Package.unpackLinks_done {links : List (List Bytes × Bytes)}
    (hsafe : ∀ link ∈ links, Safe link.1) (hall : met ++ links.flatMap linkDemands <+: all) :
    Ensures (x.Done cap met)
      ((links.map fun link => (x.dest ++ link.1, link.2)).forM (pkg.unpackLink umask x.dest))
      (fun _ => x.Done cap (met ++ links.flatMap linkDemands))
      (x.Stopped cap all) := by
  induction links generalizing met with
  | nil =>
    rw [List.flatMap_nil, List.append_nil]
    exact .pure fun w hw => hw
  | cons link rest ih =>
    obtain ⟨hlink, hrest⟩ := List.forall_mem_cons.1 hsafe
    obtain ⟨pre, name, hrel⟩ := (List.eq_nil_or_concat' link.1).resolve_left hlink.ne_nil
    have hparent : (x.dest ++ (pre ++ [name])).dropLast = x.dest ++ pre := by
      rw [← List.append_assoc, List.dropLast_concat]
    have hdemands : met ++ (link :: rest).flatMap linkDemands =
        met ++ parentsFrom [] pre ++ [(pre ++ [name], 0)] ++ rest.flatMap linkDemands := by
      simp [linkDemands, hrel]
    rw [hdemands] at hall ⊢
    rw [List.map_cons, List.forM_eq_forM, List.forM_cons, unpackLink, hrel, hparent]
    have hmade : met ++ parentsFrom [] pre ++ [(pre ++ [name], 0)] <+: all :=
      (List.prefix_append _ _).trans hall
    have hparents : met ++ parentsFrom [] pre <+: all := (List.prefix_append _ _).trans hmade
    refine Ensures.bind (Q := fun _ => x.Done cap
      (met ++ parentsFrom [] pre ++ [(pre ++ [name], 0)])) ?_ fun _ => ih hrest hall
    refine (safeParents_done (fun part hpart => hlink.names part (by simp [hrel, hpart]))
      hparents).bind fun _ => ?_
    intro w hw
    exact (make_done (.link link.2) hw.1.capped).mono (fun _ h => h) (fun _ _ h => h.1)
      (fun _ h => h.stopped hparents) w hw

/-- **The loop over an archive and the links.** -/
theorem Package.unpack_done
    (hdir : x.DirDone onDir) (hfirst : first = counted limits entryCount reading.stream) :
    Ensures (fun w => w = ⟨x.disk, []⟩)
      (pkg.unpack onDir belongs umask limits entryCount logicalSize reading x.dest)
      (fun _ w => x.Done (Fits limits logicalSize first) (demandsOf first) w ∧
        first = reading.stream)
      (x.Stopped (Fits limits logicalSize first) (demandsOf first)) := by
  have hstart : x.Along limits logicalSize first [] {} ⟨x.disk, []⟩ :=
    ⟨.initial Fits.zero, rfl, List.nil_prefix, by simp, rfl, fun _ => rfl⟩
  have hround : ∀ done header rest pr, reading.stream = done ++ header :: rest →
      Ensures (x.Along limits logicalSize first done pr)
        (pkg.unpackEntry onDir belongs umask limits entryCount logicalSize x.dest pr header)
        (x.Along limits logicalSize first (done ++ [header]))
        (x.Stopped (Fits limits logicalSize first) (demandsOf first)) := by
    intro done header rest pr hstream w hw
    refine unpackEntry_done hdir (fun hmax hexpected => ?_) w hw
    have hcount := hw.count
    rw [hfirst, counted, List.prefix_take_iff]
    refine ⟨⟨rest, by simp [hstream]⟩, ?_⟩
    rw [List.length_append, List.length_singleton, allowance]
    omega
  refine .ite (fun _ => .throw ?_) fun _ => ?_
  · rintro w rfl
    exact hstart.made.stopped List.nil_prefix
  · refine ((Ensures.foldlM_along hround {}).pre ?_).bind fun pr => ?_
    · rintro w rfl
      exact hstart
    have hfail := fun w (h : x.Along limits logicalSize first reading.stream pr w) => h.stopped
    refine .ite (fun _ => .throw hfail) fun _ => .ite (fun _ => .throw hfail) fun _ =>
      .ite (fun _ => .throw hfail) fun _ => ?_
    intro w hw
    have hwhole : first = reading.stream :=
      (hfirst ▸ List.take_prefix _ _ : first <+: reading.stream).eq_of_length_le
        hw.front.length_le
    have hsafe : ∀ link ∈ reading.stream.filterMap TarEntry.link?, Safe link.1 := by
      intro link hlink
      obtain ⟨header, hmem, hheader⟩ := List.mem_filterMap.1 hlink
      have hnames := hw.safe header hmem
      unfold TarEntry.link? at hheader
      grind
    rw [hw.links]
    refine ((unpackLinks_done hsafe (hwhole ▸ List.prefix_rfl)).bind fun _ =>
      .pure fun w' hw' => ⟨hwhole ▸ hw', hwhole⟩) w hw.made

end Loop

/-- The account of an extraction. -/
structure Account (limits : Limits) (entryCount logicalSize : Int) (reading : Reading) (x : Site)
    (result : EStateM.Result Failure Work Unit) : Prop where
  /-- It has met the first of the demands of the entries that can pass the count. -/
  met : ∃ met, met <+: demandsOf (counted limits entryCount reading.stream) ∧
    nodesMade x.dest (left result).log = (missing x.disk x.p met).card ∧
    bytesWritten (left result).log = (met.map Prod.snd).sum
  /-- When it succeeds, it has met all demands of the archive. -/
  whole : ∀ w, result = .ok () w →
    nodesMade x.dest w.log = (missing x.disk x.p (demandsOf reading.stream)).card ∧
    bytesWritten w.log = ((demandsOf reading.stream).map Prod.snd).sum
  nodes : (missing x.disk x.p (demandsOf (counted limits entryCount reading.stream))).card ≤
      allowance limits.maxEntries entryCount →
    nodesMade x.dest (left result).log ≤ allowance limits.maxEntries entryCount
  bytes : sizesOf (counted limits entryCount reading.stream) < 2 ^ 63 →
    bytesWritten (left result).log ≤ allowance limits.maxLogicalBytes logicalSize

/-- A program that meets demands in their order gives such an account. -/
theorem Account.of_ensures {limits : Limits} {entryCount logicalSize : Int} {reading : Reading}
    {x : Site} {first : List TarEntry} {run : Extraction Unit}
    (hfirst : first = counted limits entryCount reading.stream)
    (h : Ensures (fun w => w = ⟨x.disk, []⟩) run
      (fun _ w => x.Done (Fits limits logicalSize first) (demandsOf first) w ∧
        first = reading.stream)
      (x.Stopped (Fits limits logicalSize first) (demandsOf first))) :
    Account limits entryCount logicalSize reading x (run ⟨x.disk, []⟩) := by
  obtain ⟨met, hmet, hdone⟩ := (h.post (fun _ _ h => h.1.stopped List.prefix_rfl)).left_of rfl
  refine ⟨⟨met, hfirst ▸ hmet, hdone.nodes, hdone.bytes⟩, fun w hw => ?_, fun hle => ?_, ?_⟩
  · obtain ⟨hall, hstream⟩ := h.ok_of rfl hw
    rw [← hstream]
    exact ⟨hall.nodes, hall.bytes⟩
  · rw [hdone.nodes]
    refine (Finset.card_le_card fun rel hrel => ?_).trans hle
    obtain ⟨hmem, hnone⟩ := mem_missing.1 hrel
    exact mem_missing.2 ⟨(hfirst ▸ hmet.sublist.map Prod.fst).subset hmem, hnone⟩
  · rw [hdone.bytes, ← hfirst]
    exact hdone.capped

end Archive

namespace Snapshot

open FileTree Archive Effects

variable {x : Site} {cap : Nat → Prop} {met : List Demand}
  {w : Work} {pre : List Bytes} {name : Bytes} {umask : Umask} {mode : Mode}

/-- `MkdirAll` makes nothing on the way to the destination, which is there. -/
theorem mkdirAllReversed_done {d : Disk} {dest : List Bytes} {p : Path}
    (hret : d.Retains w.disk) (hdest : ∀ part ∈ dest, Name part)
    (hleads : d.Leads dest p) :
    Ensures (fun t => t = w) (mkdirAllReversed umask mode dest.reverse) (fun _ t => t = w)
      (fun t => t = w) := by
  generalize hparts : dest.reverse = parts
  obtain rfl : dest = parts.reverse := by simp [← hparts]
  clear hparts
  induction parts generalizing p with
  | nil => exact .pure fun t ht => ht
  | cons last parents ih =>
    rw [List.reverse_cons] at hdest hleads
    obtain ⟨parent, hparent, hthere⟩ := hleads.last_there (hdest last (by simp))
    apply Ensures.get_bind
    rintro _ rfl
    split
    · exact .pure fun t ht => ht
    · exact .throw fun t ht => ht
    · refine (ih (fun part hpart => hdest part (List.mem_append_left _ hpart)) hparent).bind
        fun _ => .forgive ?_ ?_ ?_
      · rintro _ _ w' rfl hmade
        -- Making the directory would need a place that is taken.
        exfalso
        unfold mkdir make at hmade
        split at hmade
        · cases hmade
        · rename_i q d' hcreate
          obtain ⟨parent', last', hpath, -, hlead, rfl, hnew, -⟩ := Disk.create_ok hcreate
          rw [List.reverse_cons, List.dropLast_concat] at hpath hlead
          obtain rfl : last = last' := by simpa using hpath
          obtain rfl := hret.leads_eq hparent hlead
          obtain ⟨node, hnode⟩ := Option.ne_none_iff_exists'.1 hthere
          obtain ⟨node', hnode', -⟩ := hret _ _ hnode
          rw [hnode'] at hnew
          cases hnew
      · rintro _ e w' rfl hfailed _
        exact make_error hfailed
      · rintro _ e w' rfl hfailed
        exact make_error hfailed

theorem mkdirAll_done (hname : Name name) : Ensures (x.At cap met pre)
      (mkdirAll umask (x.dest ++ (pre ++ [name])) mode)
      (fun _ => x.Done cap (met ++ [(pre ++ [name], 0)])) (x.Done cap met) := by
  have hreverse : (x.dest ++ (pre ++ [name])).reverse = name :: (x.dest ++ pre).reverse := by simp
  unfold mkdirAll
  rw [hreverse]
  apply Ensures.get_bind
  rintro w ⟨hw, hopen⟩
  rw [← hreverse, List.reverse_reverse]
  have hparents : Ensures (fun t => t = w) (mkdirAllReversed umask mode (x.dest ++ pre).reverse)
      (fun _ t => t = w) (x.Done cap met) := by
    rcases hopen with rfl | hready
    · rw [List.append_nil]
      exact (mkdirAllReversed_done hw.retains x.names x.leads).fails fun _ h => h ▸ hw
    · exact (mkdirAllReversed_ready hready).fails fun _ h => h.elim
  split
  · rename_i q m hstat
    have hlead := (Disk.stat_ok hstat).1
    rw [← List.append_assoc] at hlead
    obtain ⟨parent, hparent, hthere⟩ := hlead.last_there hname
    obtain rfl := hw.place hopen hparent
    apply Ensures.pure
    rintro _ rfl
    exact hw.meet (by simpa using hthere)
  · apply Ensures.throw
    rintro _ rfl
    exact hw
  · refine hparents.bind fun _ => (forgive_mkdir_done ?_).pre ?_
    · intro w e hw hopen _ hthere
      unfold isDirAt at hthere
      split at hthere
      · rename_i q m hlstat
        rw [← List.append_assoc] at hlstat
        obtain ⟨parent, hlead, rfl, hnode, -⟩ := Disk.lstat_append_ok hname hlstat
        obtain rfl := hw.place hopen hlead
        rw [List.append_assoc] at hnode
        simp [hnode]
      · cases hthere
    · rintro _ rfl
      exact ⟨hw, hopen⟩

theorem onDir_done : x.DirDone (onDir umask) := by
  intro cap met all pre name mode pr hname hall
  refine ((mkdirAll_done hname).fails fun _ h =>
    h.stopped ((List.prefix_append _ _).trans hall)).bind fun _ => ?_
  refine (chmod_done.fails fun _ h => h.stopped hall).bind fun _ =>
    .pure fun w hw => ⟨hw, rfl, rfl, rfl⟩

theorem extract_account {codec : Codec} {sum : Bytes → Bytes} {limits : Limits} {archive : Bytes}
    {expected : Metadata} :
    Account limits expected.entryCount expected.logicalSizeBytes (codec.decode archive) x
      (extract codec sum umask limits archive x.dest expected ⟨x.disk, []⟩) := by
  refine .of_ensures rfl (.ite (fun _ => Site.refused _) fun _ =>
    .ite (fun _ => Site.refused _) fun _ => .ite (fun _ => Site.refused _) fun _ => ?_)
  refine (Package.unpack_done onDir_done rfl).bind fun pr => ?_
  exact Package.verify_ensures.mono (fun _ h => h) (fun _ _ h => h.1) fun _ h =>
    h.1.stopped List.prefix_rfl

end Snapshot

namespace Artifact

open FileTree Archive Effects

variable {x : Site} {umask : Umask}

theorem onDir_done : x.DirDone (onDir umask) := by
  intro cap met all pre name mode pr hname hall
  refine ((forgive_mkdir_done ?_).fails fun _ h =>
    h.stopped ((List.prefix_append _ _).trans hall)).bind fun _ =>
      .pure fun w hw => ⟨hw, rfl, rfl, rfl⟩
  intro w e hw hopen hfailed hexists
  obtain rfl : e = .call .fileExists := by simpa using hexists
  -- The call fails in this way only where its directory has something of that name.
  have hcreate := make_error_create hfailed
  rw [← List.append_assoc] at hcreate
  obtain ⟨parent, hlead, hthere⟩ := Disk.node_of_fileExists hname hcreate
  obtain rfl := hw.place hopen hlead
  simpa using hthere

theorem extract_account {codec : Codec} {sum : Bytes → Bytes} {limits : Limits} {archive : Bytes}
    {expected : Metadata} :
    Account limits expected.entryCount expected.logicalSizeBytes (codec.decode archive) x
      (extract codec sum umask limits archive x.dest expected ⟨x.disk, []⟩) := by
  refine .of_ensures rfl ?_
  unfold extract
  split
  · exact Site.refused _
  refine .ite (fun _ => Site.refused _) fun _ => .ite (fun _ => Site.refused _) fun _ => ?_
  refine (Package.unpack_done onDir_done rfl).bind fun pr => ?_
  refine Ensures.bind ?_ fun _ => Package.verify_ensures.mono (fun _ h => h) (fun _ _ h => h.1)
    fun _ h => h.1.stopped List.prefix_rfl
  refine Ensures.forM fun dir _ w hw => ?_
  exact chmod_done.mono (fun _ h => h) (fun _ _ h => ⟨h, hw.2⟩)
    (fun _ h => h.stopped List.prefix_rfl) w hw.1

end Artifact

namespace Archive

open FileTree Effects

namespace Sample

open JsonText

def site : Site := ⟨disk, [dst], [dst], destination.names, destination.leads⟩

/-- The archive of a file, without the directory it is in. -/
def orphan : Codec :=
  ⟨fun _ => [0], fun _ => ⟨true, [⟨ascii "a/f", .reg, 0o644, 1, [], [1]⟩], true, true⟩⟩

/-- Two files of one byte; the second header says that 2^63 - 1 bytes follow. -/
def overflowing : Codec :=
  ⟨fun _ => [0], fun _ => ⟨true, [⟨ascii "f", .reg, 0o644, 1, [], [1]⟩,
    ⟨ascii "g", .reg, 0o644, 2 ^ 63 - 1, [], [1]⟩], true, true⟩⟩

def orphanSnapshot : Snapshot.Metadata :=
  ⟨hexEncode (sum []), hexEncode (sum []), Snapshot.format, 1, 1, 1⟩

def orphanArtifact : Artifact.Metadata :=
  ⟨ascii "out", ascii "a", .directory, hexEncode (sum []), hexEncode (sum []), Artifact.format, 1,
    1, 1⟩

end Sample

/-- The sum of the sizes matters: here the second header makes the total negative, and the byte
behind it is written although one byte was expected. -/
example : bytesWritten (left (Snapshot.extract Sample.overflowing Sample.sum Sample.umask
    { defaultLimits with maxFileBytes := 2 ^ 63 - 1 } [0] [Sample.dst]
    { Sample.orphanSnapshot with entryCount := 2 } ⟨Sample.disk, []⟩)).log = 2 := by
  decide +kernel

end Archive
