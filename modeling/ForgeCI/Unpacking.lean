import ForgeCI.Staging

/-!
# Extracting an archive of a known tree

The archive lists the nodes of a tree `T`, every directory before what it contains.  Extraction
into an empty directory then puts one node after the other into place: directories and files
first, links at the end.

The packages differ in the permissions a directory has in the meantime, `dm`, and in whether the
directories are noted for later; `DirCase` says what the case of a directory has to do.
-/

namespace Archive

open FileTree Effects

/-- The header of a node, and its bytes. -/
def headerOf (names : List Bytes) : Node → TarEntry
  | .dir mode => ⟨path names, .dir, mode.toNat, 0, [], []⟩
  | .file mode content => ⟨path names, .reg, mode.toNat, content.length, [], content⟩
  | .link target => ⟨path names, .symlink, (0o777#9).toNat, 0, target, []⟩
  | .other mode => ⟨path names, .other 0, mode.toNat, 0, [], []⟩

/-- What becomes of a node while links are still missing. -/
def shape (dm : Mode → Mode) : Node → Option Node
  | .dir mode => some (.dir (dm mode))
  | .file mode content => some (.file mode content)
  | _ => none

/-- The archive of a tree: every name once, and after the directories on the way to it. -/
structure Layout (T : Tree) (order : List (List Bytes)) : Prop where
  safe : ∀ names ∈ order, Safe names
  there : ∀ names ∈ order, ∃ node, T names = some node
  nodup : order.Nodup
  first : ∀ before names after, order = before ++ names :: after →
    ∀ pre, pre <+: names → pre ≠ [] → pre ≠ names → pre ∈ before ∧ ∃ mode, T pre = some (.dir mode)

section Progress

variable (T : Tree) (dm : Mode → Mode) (dest : List Bytes) (notes : Bool)

/-- The tree when the entries `done` have been extracted. -/
def staged (done : List (List Bytes)) : Tree := fun names =>
  if names ∈ done then (T names).bind (shape dm) else none

/-- The bytes of the files. -/
def bytesOf (done : List (List Bytes)) : Nat :=
  (done.map fun names => ((T names).map nodeBytes).getD 0).sum

def linksOf (done : List (List Bytes)) : List (List Bytes × Bytes) :=
  done.filterMap fun names =>
    match T names with
    | some (.link target) => some (dest ++ names, target)
    | _ => none

def dirsOf (done : List (List Bytes)) : List (List Bytes × Mode) :=
  done.filterMap fun names =>
    match T names with
    | some (.dir mode) => some (dest ++ names, mode)
    | _ => none

/-- The variables of the loop when the entries `done` have been extracted. -/
def progressOf (done : List (List Bytes)) : Progress :=
  ⟨done.length, bytesOf T done, linksOf T dest done, if notes then dirsOf T dest done else []⟩

/-- Note a directory, or do not. -/
def note (target : List Bytes) (mode : Mode) (pr : Progress) : Progress :=
  if notes then { pr with directories := pr.directories ++ [(target, mode)] } else pr

/-- The variables after an entry. -/
def taken (names : List Bytes) (pr : Progress) : Node → Progress
  | .dir mode => note notes (dest ++ names) mode pr
  | .file _ content => { pr with total := pr.total + content.length }
  | .link target => { pr with links := pr.links ++ [(dest ++ names, target)] }
  | .other _ => pr

/-- The directory that gets `names` may be written when they come. -/
def Makeable (names : List Bytes) : Prop :=
  names.dropLast = [] ∨ ∃ mode, T names.dropLast = some (.dir mode) ∧ writable (dm mode) = true

/-- What the case of a directory has to do. -/
structure DirCase (d : Disk) (p : Path) (onDir : OnDir) : Prop where
  ok : ∀ {w t dir last}, Staged d p t w.disk → Tree.Opens t dir → Name last →
    t (dir ++ [last]) = none → Tree.Writes t dir → ∀ mode pr,
      ∃ w', onDir (dest ++ (dir ++ [last])) mode pr w =
          .ok (note notes (dest ++ (dir ++ [last])) mode pr) w' ∧
        Staged d p (Function.update t (dir ++ [last]) (some (.dir (dm mode)))) w'.disk
  error : ∀ {w t dir last}, Staged d p t w.disk → Tree.Opens t dir → Name last →
    t (dir ++ [last]) = none → ¬Tree.Writes t dir → ∀ mode pr,
      ∃ e w', onDir (dest ++ (dir ++ [last])) mode pr w = .error e w'

end Progress

/-- The tests an entry has to pass. -/
structure Passes (pkg : Package) (belongs : Bytes → Except Failure Unit) (limits : Limits)
    (names : List Bytes) (node : Node) : Prop where
  safe : unsafePath (path names) = false
  short : ((path names).length : Int) ≤ limits.maxPathBytes
  belongs : belongs (path names) = .ok ()
  fit : pkg.Fit limits (path names) node

section Entries

variable {T t : Tree} {dm : Mode → Mode} {dest dir names : List Bytes} {notes : Bool} {d : Disk}
  {p : Path} {onDir : OnDir} {pkg : Package}
  {belongs : Bytes → Except Failure Unit} (umask : Umask) {limits : Limits} {w : Work}
  {entryCount logicalSize : Int} {pr : Progress} {node : Node} {last : Bytes}
  {order done rest : List (List Bytes)}

@[simp] theorem headerOf_name : (headerOf names node).name = path names := by
  cases node <;> rfl

theorem perm_natCast (mode : Mode) : BitVec.ofInt 9 (mode.toNat : Int) = mode := by
  simp

/-- The tests of a round that do not depend on the type of the entry. -/
theorem unpackEntry_eq (onDir : OnDir)
    (umask : Umask) (logicalSize : Int) (hplace : Workplace d dest p)
    (hstaged : Staged d p t w.disk) (hsafe : Safe names) (hopens : t.Opens names.dropLast)
    (hpass : Passes pkg belongs limits names node)
    (hentries : pr.entries + 1 ≤ limits.maxEntries) (hcount : pr.entries + 1 ≤ entryCount) :
    pkg.unpackEntry onDir belongs umask limits entryCount logicalSize dest pr
        (headerOf names node) w =
      pkg.unpackNode onDir umask limits logicalSize (dest ++ names)
        { pr with entries := pr.entries + 1 } (headerOf names node) w := by
  have hnames : ∀ part ∈ names.dropLast, Name part :=
    fun part hpart => hsafe.names part (List.mem_of_mem_dropLast hpart)
  have hshort := hpass.short
  unfold Package.unpackEntry
  rw [if_neg (by omega), headerOf_name, if_neg (by simp [hpass.safe, hshort]), hpass.belongs,
    join_path hplace.names hsafe]
  dsimp only
  rw [if_neg (by simp [within_append hsafe.names]), List.dropLast_append_of_ne_nil hsafe.ne_nil,
    bind_ok (hstaged.safeParents_ok pkg.texts umask hplace hopens hnames)]

theorem writeFile_ok (hplace : Workplace d dest p) (hstaged : Staged d p t w.disk)
    (hopens : t.Opens dir) (hname : Name last) (hnew : t (dir ++ [last]) = none)
    (hwrites : t.Writes dir) (texts : Texts) (mode : Mode) (content : Bytes) :
    ∃ w', writeFile texts umask (dest ++ (dir ++ [last]))
        (headerOf (dir ++ [last]) (.file mode content)) w = .ok () w' ∧
      Staged d p (Function.update t (dir ++ [last]) (some (.file mode content))) w'.disk := by
  obtain ⟨w₁, hmake, hstaged₁⟩ :=
    hstaged.make_ok hplace hopens hname hnew hwrites (.file (umask.apply mode) content)
  obtain ⟨w₂, hchmod, hstaged₂⟩ :=
    hstaged₁.chmod_ok hplace (hopens.update last _) hname (Function.update_self _ _ _) rfl mode
  rw [Function.update_idem] at hstaged₂
  refine ⟨w₂, ?_, hstaged₂⟩
  have hperm : (headerOf (dir ++ [last]) (.file mode content)).perm = mode := perm_natCast mode
  have hdata : (headerOf (dir ++ [last]) (.file mode content)).data.take
      (headerOf (dir ++ [last]) (.file mode content)).size.toNat = content := by
    simp [headerOf]
  rw [writeFile, hperm, hdata, bind_ok hmake, if_neg (by simp [headerOf]), hchmod]

theorem writeFile_error (hplace : Workplace d dest p) (hstaged : Staged d p t w.disk)
    (hopens : t.Opens dir) (hname : Name last) (hnew : t (dir ++ [last]) = none)
    (hwrites : ¬t.Writes dir) (texts : Texts) (header : TarEntry) :
    ∃ e w', writeFile texts umask (dest ++ (dir ++ [last])) header w = .error e w' := by
  have hmake := hstaged.make_error hplace hopens hname hnew hwrites
    (.file (umask.apply header.perm) (header.data.take header.size.toNat))
  exact ⟨_, _, by rw [writeFile, bind_error hmake]⟩

theorem unpackNode_reg {header : TarEntry} (h : header.typeflag = .reg) (target : List Bytes) :
    pkg.unpackNode onDir umask limits logicalSize target pr header =
      if header.size < 0 ∨ header.size > limits.maxFileBytes then
        throw (.text pkg.texts.fileLimit)
      else if GoLib.add64 pr.total header.size > limits.maxLogicalBytes ∨
          GoLib.add64 pr.total header.size > logicalSize then
        throw (.text pkg.texts.byteLimit)
      else writeFile pkg.texts umask target header >>= fun _ =>
        pure { pr with total := GoLib.add64 pr.total header.size } := by
  rw [Package.unpackNode, h]

theorem unpackNode_symlink {header : TarEntry} (h : header.typeflag = .symlink)
    (target : List Bytes) :
    pkg.unpackNode onDir umask limits logicalSize target pr header =
      if unsafeLink header.linkname = true then throw (.text pkg.texts.archiveLink)
      else if pkg.escapes (resolved header.name header.linkname) = true then
        throw (.text pkg.texts.linkEscapes)
      else pure { pr with links := pr.links ++ [(target, header.linkname)] } := by
  rw [Package.unpackNode, h]

/-- **The node of an entry** is put into place, unless it is a link. -/
theorem unpackNode_ok (hplace : Workplace d dest p) (hcase : DirCase dm dest notes d p onDir)
    (hstaged : Staged d p t w.disk) (hopens : t.Opens dir) (hname : Name last)
    (hnew : t (dir ++ [last]) = none) (hwrites : node.isLink = true ∨ t.Writes dir)
    (hfit : pkg.Fit limits (path (dir ++ [last])) node)
    (hroom : ∀ mode content, node = .file mode content → 0 ≤ pr.total ∧
      pr.total + content.length ≤ limits.maxLogicalBytes ∧
        pr.total + content.length ≤ logicalSize) :
    ∃ w', pkg.unpackNode onDir umask limits logicalSize (dest ++ (dir ++ [last])) pr
        (headerOf (dir ++ [last]) node) w = .ok (taken dest notes (dir ++ [last]) pr node) w' ∧
      Staged d p (Function.update t (dir ++ [last]) (shape dm node)) w'.disk := by
  cases node with
  | dir mode =>
    have hperm : (headerOf (dir ++ [last]) (.dir mode)).perm = mode := perm_natCast mode
    obtain ⟨w', hrun, hstaged'⟩ :=
      hcase.ok hstaged hopens hname hnew (hwrites.resolve_left (by simp [Node.isLink])) mode pr
    refine ⟨w', ?_, hstaged'⟩
    simp only [Package.unpackNode, hperm]
    exact hrun
  | file mode content =>
    obtain ⟨hnonneg, hlimit, htotal⟩ := hroom mode content rfl
    obtain ⟨hsize, -⟩ := hfit
    obtain ⟨w', hrun, hstaged'⟩ := writeFile_ok umask hplace hstaged hopens hname hnew
      (hwrites.resolve_left (by simp [Node.isLink])) pkg.texts mode content
    refine ⟨w', ?_, hstaged'⟩
    have hheader : (headerOf (dir ++ [last]) (.file mode content)).size = content.length := rfl
    have hadd : GoLib.add64 pr.total content.length = pr.total + content.length :=
      GoLib.add64_eq (by omega) (hlimit.trans_lt limits.int64)
    rw [unpackNode_reg umask rfl, hheader, hadd, if_neg (by omega), if_neg (by omega),
      bind_ok hrun]
    rfl
  | link target =>
    refine ⟨w, ?_, ?_⟩
    · have hheader : (headerOf (dir ++ [last]) (.link target)).linkname = target := rfl
      rw [unpackNode_symlink umask rfl, hheader, headerOf_name, if_neg (by simp [hfit.1]),
        if_neg (by simp [hfit.2])]
      rfl
    · have hsame : Function.update t (dir ++ [last]) (shape dm (.link target)) = t := by
        conv_rhs => rw [← Function.update_eq_self (dir ++ [last]) t, hnew]
        rfl
      rw [hsame]
      exact hstaged
  | other mode => cases hfit

/-- In a directory that may not be written, nothing is put into place. -/
theorem unpackNode_error (hplace : Workplace d dest p) (hcase : DirCase dm dest notes d p onDir)
    (hstaged : Staged d p t w.disk) (hopens : t.Opens dir) (hname : Name last)
    (hnew : t (dir ++ [last]) = none) (hlink : node.isLink = false) (hwrites : ¬t.Writes dir)
    (hfit : pkg.Fit limits (path (dir ++ [last])) node) :
    ∃ e w', pkg.unpackNode onDir umask limits logicalSize (dest ++ (dir ++ [last])) pr
      (headerOf (dir ++ [last]) node) w = .error e w' := by
  cases node with
  | dir mode => exact hcase.error hstaged hopens hname hnew hwrites _ pr
  | file mode content =>
    obtain ⟨e, w', hrun⟩ := writeFile_error umask hplace hstaged hopens hname hnew
      hwrites pkg.texts (headerOf (dir ++ [last]) (.file mode content))
    rw [unpackNode_reg umask rfl]
    split_ifs
    · exact ⟨_, _, rfl⟩
    · exact ⟨_, _, rfl⟩
    · exact ⟨e, w', bind_error hrun⟩
  | link target => cases hlink
  | other mode => cases hfit

theorem staged_append (T : Tree) (dm : Mode → Mode) (done : List (List Bytes))
    (names : List Bytes) :
    staged T dm (done ++ [names]) =
      Function.update (staged T dm done) names ((T names).bind (shape dm)) := by
  grind [staged]

theorem progressOf_append (hnode : T names = some node) (done : List (List Bytes)) :
    progressOf T dest notes (done ++ [names]) =
      taken dest notes names
        { progressOf T dest notes done with
          entries := (progressOf T dest notes done).entries + 1 } node := by
  have hbytes : bytesOf T (done ++ [names]) = bytesOf T done + nodeBytes node := by
    simp [bytesOf, hnode]
  unfold progressOf
  rw [hbytes]
  cases node with
  | dir mode => cases notes <;> simp [taken, note, linksOf, dirsOf, hnode, nodeBytes]
  | file mode content => cases notes <;> simp [taken, linksOf, dirsOf, hnode, nodeBytes]
  | link target | other mode => cases notes <;> simp [taken, linksOf, dirsOf, hnode, nodeBytes]

end Entries

/-- What becomes of a node until directories get their own permissions. -/
def settle (dm : Mode → Mode) : Node → Node
  | .dir mode => .dir (dm mode)
  | node => node

/-- The headers of a tree. -/
def headers (T : Tree) (order : List (List Bytes)) : List TarEntry :=
  order.filterMap fun names => (T names).map (headerOf names)

/-- The tree when the links in `done` have been made. -/
def linked (T : Tree) (dm : Mode → Mode) (order done : List (List Bytes)) : Tree := fun names =>
  if names ∈ done then (T names).map (settle dm) else staged T dm order names

/-- The tree when, the links made, the directories in `done` have their own permissions. -/
def finished (T : Tree) (dm : Mode → Mode) (order done : List (List Bytes)) : Tree := fun names =>
  if names ∈ done then T names else linked T dm order order names

/-- An archive that passes the tests of extraction. -/
structure Transfer (pkg : Package) (belongs : Bytes → Except Failure Unit) (limits : Limits)
    (T : Tree) (dm : Mode → Mode) (order : List (List Bytes)) : Prop extends Layout T order where
  passes : ∀ names ∈ order, ∀ node, T names = some node → Passes pkg belongs limits names node
  entries : ∀ names ∈ order, (order.length : Int) ≤ limits.maxEntries
  bytes : ∀ names ∈ order, ∀ mode content, T names = some (.file mode content) →
    (bytesOf T order : Int) ≤ limits.maxLogicalBytes
  search : ∀ names ∈ order, ∀ pre, pre <+: names → pre ≠ [] → pre ≠ names → ∀ mode,
    T pre = some (.dir mode) → searchable (dm mode) = true

namespace Transfer

variable {T t : Tree} {dm : Mode → Mode} {dest names : List Bytes} {notes : Bool} {d : Disk}
  {p : Path} {onDir : OnDir} {pkg : Package}
  {belongs : Bytes → Except Failure Unit} (umask : Umask) {limits : Limits} {w : Work}
  {node : Node} {order done rest : List (List Bytes)}

theorem split_mem (hsplit : order = done ++ names :: rest) : names ∈ order := by
  simp [hsplit]

theorem proper_of_dropLast (hne : names ≠ []) {pre : List Bytes} (hpre : pre <+: names.dropLast) :
    pre <+: names ∧ pre ≠ names := by
  refine ⟨hpre.trans (List.dropLast_prefix names), ?_⟩
  rintro rfl
  have hlen := hpre.length_le
  have hpos := List.length_pos_of_ne_nil hne
  rw [List.length_dropLast] at hlen
  omega

/-- The directories of an entry, in any tree that has them with the permissions `dm`. -/
theorem opens_and_writes (h : Transfer pkg belongs limits T dm order)
    (hsplit : order = done ++ names :: rest)
    (hdirs : ∀ pre ∈ done, ∀ mode, T pre = some (.dir mode) → t pre = some (.dir (dm mode))) :
    t.Opens names.dropLast ∧ (t.Writes names.dropLast ↔ Makeable T dm names) := by
  have hne := (h.safe names (split_mem hsplit)).ne_nil
  have hway : ∀ pre, pre <+: names.dropLast → pre ≠ [] →
      ∃ mode, T pre = some (.dir mode) ∧ t pre = some (.dir (dm mode)) := by
    intro pre hpre hpne
    obtain ⟨hlong, hother⟩ := proper_of_dropLast hne hpre
    obtain ⟨hmem, mode, hmode⟩ := h.first done names rest hsplit pre hlong hpne hother
    exact ⟨mode, hmode, hdirs pre hmem mode hmode⟩
  constructor
  · intro pre hpre hpne
    obtain ⟨mode, hmode, ht⟩ := hway pre hpre hpne
    obtain ⟨hlong, hother⟩ := proper_of_dropLast hne hpre
    exact ⟨dm mode, ht, h.search names (split_mem hsplit) pre hlong hpne hother mode hmode⟩
  · unfold Tree.Writes Makeable
    by_cases hroot : names.dropLast = []
    · simp [hroot]
    · obtain ⟨mode, hmode, ht⟩ := hway _ (List.prefix_refl _) hroot
      simp [hroot, hmode, ht]

/-- Where directories may be written in the meantime, nothing is in the way. -/
theorem makeable (h : Transfer pkg belongs limits T dm order)
    (hwrite : ∀ mode, writable (dm mode) = true) (hnames : names ∈ order) :
    Makeable T dm names := by
  by_cases hdir : names.dropLast = []
  · exact .inl hdir
  · obtain ⟨before, after, hsplit⟩ := List.append_of_mem hnames
    obtain ⟨hlong, hother⟩ :=
      proper_of_dropLast (h.safe names hnames).ne_nil (List.prefix_refl _)
    obtain ⟨-, mode, hmode⟩ := h.first _ _ _ hsplit _ hlong hdir hother
    exact .inr ⟨mode, hmode, hwrite mode⟩

theorem staged_dir {pre : List Bytes} (hpre : pre ∈ done) {mode : Mode}
    (hmode : T pre = some (.dir mode)) : staged T dm done pre = some (.dir (dm mode)) := by
  simp [staged, hpre, hmode, shape]

theorem not_mem_done (h : Transfer pkg belongs limits T dm order)
    (hsplit : order = done ++ names :: rest) : names ∉ done := by
  grind [h.nodup]

theorem bytesOf_append (T : Tree) (l m : List (List Bytes)) :
    bytesOf T (l ++ m) = bytesOf T l + bytesOf T m := by
  simp [bytesOf]

/-- What is left of a round when its tests have passed. -/
theorem unpackEntry_node (h : Transfer pkg belongs limits T dm order) (onDir : OnDir) (notes : Bool)
    (hplace : Workplace d dest p) (hsplit : order = done ++ names :: rest)
    (hnode : T names = some node) (hstaged : Staged d p (staged T dm done) w.disk) :
    ∃ dir last, names = dir ++ [last] ∧ Name last ∧ (staged T dm done).Opens dir ∧
      ((staged T dm done).Writes dir ↔ Makeable T dm names) ∧ staged T dm done names = none ∧
      pkg.unpackEntry onDir belongs umask limits order.length (bytesOf T order) dest
          (progressOf T dest notes done) (headerOf names node) w =
        pkg.unpackNode onDir umask limits (bytesOf T order) (dest ++ names)
          { progressOf T dest notes done with
            entries := (progressOf T dest notes done).entries + 1 } (headerOf names node) w := by
  have hmem := split_mem hsplit
  have hsafe := h.safe names hmem
  obtain ⟨hopens, hwrites⟩ := h.opens_and_writes hsplit fun pre hpre mode => staged_dir hpre
  have hnew : staged T dm done names = none := by simp [staged, h.not_mem_done hsplit]
  have hlen : done.length + 1 ≤ order.length := by grind
  have hcount : (progressOf T dest notes done).entries + 1 ≤ order.length := by
    simp only [progressOf]
    omega
  have hentries := h.entries names hmem
  have heq := unpackEntry_eq onDir umask (bytesOf T order)
    hplace hstaged hsafe hopens (h.passes names hmem node hnode) (by omega) hcount
  obtain ⟨dir, last, rfl⟩ := (List.eq_nil_or_concat' names).resolve_left hsafe.ne_nil
  grind [hsafe.names]

/-- **One entry of the archive.** -/
theorem unpackEntry_ok (h : Transfer pkg belongs limits T dm order) (hplace : Workplace d dest p)
    (hcase : DirCase dm dest notes d p onDir) (hsplit : order = done ++ names :: rest)
    (hnode : T names = some node) (hstaged : Staged d p (staged T dm done) w.disk)
    (hmake : node.isLink = true ∨ Makeable T dm names) :
    ∃ w', pkg.unpackEntry onDir belongs umask limits order.length (bytesOf T order) dest
        (progressOf T dest notes done) (headerOf names node) w =
          .ok (progressOf T dest notes (done ++ [names])) w' ∧
      Staged d p (staged T dm (done ++ [names])) w'.disk := by
  have hmem := split_mem hsplit
  obtain ⟨dir, last, rfl, hname, hopens, hwrites, hnew, heq⟩ :=
    h.unpackEntry_node umask onDir notes hplace hsplit hnode hstaged
  rw [heq, staged_append, hnode, progressOf_append hnode]
  apply unpackNode_ok umask hplace hcase hstaged hopens hname hnew (hmake.imp_right hwrites.2)
    (h.passes _ hmem node hnode).fit
  grind [h.bytes, bytesOf, nodeBytes, bytesOf_append, progressOf]

/-- An entry fails when its directory may not be written. -/
theorem unpackEntry_error (h : Transfer pkg belongs limits T dm order)
    (hplace : Workplace d dest p) (hcase : DirCase dm dest notes d p onDir)
    (hsplit : order = done ++ names :: rest) (hnode : T names = some node)
    (hstaged : Staged d p (staged T dm done) w.disk) (hlink : node.isLink = false)
    (hmake : ¬Makeable T dm names) :
    ∃ e w', pkg.unpackEntry onDir belongs umask limits order.length (bytesOf T order) dest
      (progressOf T dest notes done) (headerOf names node) w = .error e w' := by
  have hmem := split_mem hsplit
  obtain ⟨dir, last, rfl, hname, hopens, hwrites, hnew, heq⟩ :=
    h.unpackEntry_node umask onDir notes hplace hsplit hnode hstaged
  rw [heq]
  exact unpackNode_error umask hplace hcase hstaged hopens hname hnew hlink
    (fun hw => hmake (hwrites.1 hw)) (h.passes _ hmem node hnode).fit

theorem headers_cons (hnode : T names = some node) :
    headers T (names :: rest) = headerOf names node :: headers T rest := by
  simp [headers, hnode]

theorem split_step (hsplit : order = done ++ names :: rest) :
    order = (done ++ [names]) ++ rest := by
  rw [hsplit, List.append_assoc]
  rfl

/-- **All entries**: whether they are extracted depends on what may be written. -/
theorem unpackEntries_run (h : Transfer pkg belongs limits T dm order)
    (hplace : Workplace d dest p) (hcase : DirCase dm dest notes d p onDir)
    (hsplit : order = done ++ rest) (hstaged : Staged d p (staged T dm done) w.disk) :
    (∃ w', (headers T rest).foldlM (pkg.unpackEntry onDir belongs umask limits order.length
        (bytesOf T order) dest) (progressOf T dest notes done) w =
          .ok (progressOf T dest notes order) w' ∧
      Staged d p (staged T dm order) w'.disk ∧
      ∀ names ∈ rest, ∀ node, T names = some node → node.isLink = true ∨ Makeable T dm names) ∨
    ∃ e w', (headers T rest).foldlM (pkg.unpackEntry onDir belongs umask limits order.length
        (bytesOf T order) dest) (progressOf T dest notes done) w = .error e w' ∧
      ∃ names ∈ rest, ¬Makeable T dm names := by
  induction rest generalizing done w with
  | nil =>
    rw [List.append_nil] at hsplit
    subst hsplit
    exact .inl ⟨w, rfl, hstaged, by simp⟩
  | cons names rest ih =>
    obtain ⟨node, hnode⟩ := h.there names (split_mem hsplit)
    rw [headers_cons hnode, List.foldlM_cons]
    by_cases hfirst : node.isLink = true ∨ Makeable T dm names
    · obtain ⟨w₁, hstep, hstaged₁⟩ :=
        h.unpackEntry_ok umask hplace hcase hsplit hnode hstaged hfirst
      rw [bind_ok hstep]
      rcases ih (split_step hsplit) hstaged₁ with
        ⟨w₂, hrun, hstaged₂, hrest⟩ | ⟨e, w₂, hrun, bad, hbad, hnot⟩
      · refine .inl ⟨w₂, hrun, hstaged₂, List.forall_mem_cons.2 ⟨?_, hrest⟩⟩
        intro node' hnode'
        obtain rfl := Option.some.inj (hnode.symm.trans hnode')
        exact hfirst
      · exact .inr ⟨e, w₂, hrun, bad, List.mem_cons_of_mem _ hbad, hnot⟩
    · rw [not_or, Bool.not_eq_true] at hfirst
      obtain ⟨e, w₁, hstep⟩ := h.unpackEntry_error umask hplace hcase hsplit hnode
        hstaged hfirst.1 hfirst.2
      exact .inr ⟨e, w₁, bind_error hstep, names, List.mem_cons_self, hfirst.2⟩

theorem linked_append (T : Tree) (dm : Mode → Mode) (order done : List (List Bytes))
    (names : List Bytes) :
    linked T dm order (done ++ [names]) =
      Function.update (linked T dm order done) names ((T names).map (settle dm)) := by
  grind [linked]

/-- A node that is no link has been in its place since the first loop. -/
theorem linked_append_of_settled (hmem : names ∈ order) (hnode : T names = some node)
    (hshape : shape dm node = some (settle dm node)) :
    linked T dm order (done ++ [names]) = linked T dm order done := by
  grind [linked_append, linked, staged]

theorem linksOf_cons (dest : List Bytes) (rest : List (List Bytes)) (hnode : T names = some node) :
    linksOf T dest (names :: rest) =
      match node with
      | .link target => (dest ++ names, target) :: linksOf T dest rest
      | _ => linksOf T dest rest := by
  cases node <;> simp [linksOf, hnode]

/-- One link: it is made when its directory may be written. -/
theorem unpackLink_ok (h : Transfer pkg belongs limits T dm order) (hplace : Workplace d dest p)
    (hsplit : order = done ++ names :: rest) {target : Bytes}
    (hnode : T names = some (.link target)) (hstaged : Staged d p (linked T dm order done) w.disk) :
    (Makeable T dm names → ∃ w', pkg.unpackLink umask dest (dest ++ names, target) w = .ok () w' ∧
      Staged d p (linked T dm order (done ++ [names])) w'.disk) ∧
    (¬Makeable T dm names →
      ∃ e w', pkg.unpackLink umask dest (dest ++ names, target) w = .error e w') := by
  have hmem := split_mem hsplit
  have hsafe := h.safe names hmem
  have hnew : linked T dm order done names = none := by
    simp [linked, h.not_mem_done hsplit, staged, hmem, hnode, shape]
  obtain ⟨hopens, hwrites⟩ := h.opens_and_writes (t := linked T dm order done) hsplit <| by
    grind [linked, settle]
  obtain ⟨dir, last, rfl⟩ := (List.eq_nil_or_concat' names).resolve_left hsafe.ne_nil
  rw [List.dropLast_concat] at hopens hwrites
  have hname := hsafe.names last (by simp)
  have hparents := hstaged.safeParents_ok pkg.texts umask hplace hopens
    fun part hpart => hsafe.names part (by simp [hpart])
  have hrun : pkg.unpackLink umask dest (dest ++ (dir ++ [last]), target) w =
      make (dest ++ (dir ++ [last])) (.link target) w := by
    rw [Package.unpackLink, ← List.append_assoc, List.dropLast_concat, bind_ok hparents]
  rw [hrun]
  constructor
  · intro hmake
    rw [linked_append, hnode]
    exact hstaged.make_ok hplace hopens hname hnew (hwrites.2 hmake) _
  · grind [hstaged.make_error]

theorem unpackLinks_run (h : Transfer pkg belongs limits T dm order)
    (hplace : Workplace d dest p) (hsplit : order = done ++ rest)
    (hstaged : Staged d p (linked T dm order done) w.disk) :
    (∃ w', (linksOf T dest rest).forM (pkg.unpackLink umask dest) w = .ok () w' ∧
      Staged d p (linked T dm order order) w'.disk ∧
      ∀ names ∈ rest, ∀ target, T names = some (.link target) → Makeable T dm names) ∨
    ∃ e w', (linksOf T dest rest).forM (pkg.unpackLink umask dest) w = .error e w' ∧
      ∃ names ∈ rest, ¬Makeable T dm names := by
  induction rest generalizing done w with
  | nil =>
    rw [List.append_nil] at hsplit
    subst hsplit
    exact .inl ⟨w, rfl, hstaged, by simp⟩
  | cons names rest ih =>
    have hmem := split_mem hsplit
    obtain ⟨node, hnode⟩ := h.there names hmem
    have hfit := (h.passes names hmem node hnode).fit
    simp only [linksOf_cons dest rest hnode, List.forall_mem_cons, List.exists_mem_cons_iff]
    -- A node that is no link is left as it is.
    have hskip : shape dm node = some (settle dm node) →
        Staged d p (linked T dm order (done ++ [names])) w.disk := by
      intro hshape
      rwa [linked_append_of_settled hmem hnode hshape]
    cases node with
    | dir mode | file mode content =>
      rcases ih (split_step hsplit) (hskip rfl) with
        ⟨w₁, hrun, hstaged₁, hrest⟩ | ⟨e, w₁, hrun, hbad⟩
      · exact .inl ⟨w₁, hrun, hstaged₁, by simp [hnode], hrest⟩
      · exact .inr ⟨e, w₁, hrun, .inr hbad⟩
    | link target =>
      obtain ⟨hok, herror⟩ := h.unpackLink_ok umask hplace hsplit hnode hstaged
      rw [List.forM_eq_forM, List.forM_cons]
      by_cases hmake : Makeable T dm names
      · obtain ⟨w₁, hone, hstaged₁⟩ := hok hmake
        rw [bind_ok hone]
        rcases ih (split_step hsplit) hstaged₁ with
          ⟨w₂, hrun, hstaged₂, hrest⟩ | ⟨e, w₂, hrun, hbad⟩
        · exact .inl ⟨w₂, hrun, hstaged₂, fun _ _ => hmake, hrest⟩
        · exact .inr ⟨e, w₂, hrun, .inr hbad⟩
      · obtain ⟨e, w₁, hone⟩ := herror hmake
        exact .inr ⟨e, w₁, bind_error hone, .inl hmake⟩
    | other mode => cases hfit

theorem staged_nil (T : Tree) (dm : Mode → Mode) : staged T dm [] = fun _ => none := by
  funext names
  simp [staged]

theorem linked_nil (T : Tree) (dm : Mode → Mode) (order : List (List Bytes)) :
    linked T dm order [] = staged T dm order := by
  funext names
  simp [linked]

/-- **What becomes of the archive**: it is extracted, and every node may be made, or it is not. -/
theorem unpack_run (h : Transfer pkg belongs limits T dm order) (hplace : Workplace d dest p)
    (hcase : DirCase dm dest notes d p onDir) (hstaged : Staged d p (fun _ => none) w.disk) :
    (∃ w', pkg.unpack onDir belongs umask limits order.length (bytesOf T order)
        ⟨true, headers T order, true, true⟩ dest w = .ok (progressOf T dest notes order) w' ∧
      Staged d p (linked T dm order order) w'.disk ∧ ∀ names ∈ order, Makeable T dm names) ∨
    ∃ e w', pkg.unpack onDir belongs umask limits order.length (bytesOf T order)
        ⟨true, headers T order, true, true⟩ dest w = .error e w' ∧
      ∃ names ∈ order, ¬Makeable T dm names := by
  rw [← staged_nil T dm] at hstaged
  have hstart : progressOf T dest notes [] = {} := by
    cases notes <;> rfl
  unfold Package.unpack
  rw [if_neg (by simp), ← hstart]
  rcases h.unpackEntries_run umask hplace hcase rfl hstaged with
    ⟨w₁, hloop, hstaged₁, hentries⟩ | ⟨e, w₁, hloop, hbad⟩
  · rw [bind_ok hloop, if_neg (by simp), if_neg (by simp), if_neg (by simp [progressOf])]
    rw [← linked_nil] at hstaged₁
    rcases h.unpackLinks_run umask hplace rfl hstaged₁ with
      ⟨w₂, hlinks, hstaged₂, hmade⟩ | ⟨e, w₂, hlinks, hbad⟩
    · refine .inl ⟨w₂, bind_ok hlinks, hstaged₂, ?_⟩
      intro names hmem
      obtain ⟨node, hnode⟩ := h.there names hmem
      cases node with
      | link target => exact hmade names hmem target hnode
      | _ => exact (hentries names hmem _ hnode).resolve_left (by simp [Node.isLink])
    · exact .inr ⟨e, w₂, bind_error hlinks, hbad⟩
  · exact .inr ⟨e, w₁, bind_error hloop, hbad⟩

/-- **The archive is extracted** when every directory that gets something may be written. -/
theorem unpack_ok (h : Transfer pkg belongs limits T dm order) (hplace : Workplace d dest p)
    (hcase : DirCase dm dest notes d p onDir) (hstaged : Staged d p (fun _ => none) w.disk)
    (hmake : ∀ names ∈ order, Makeable T dm names) :
    ∃ w', pkg.unpack onDir belongs umask limits order.length (bytesOf T order)
        ⟨true, headers T order, true, true⟩ dest w = .ok (progressOf T dest notes order) w' ∧
      Staged d p (linked T dm order order) w'.disk := by
  rcases h.unpack_run umask hplace hcase hstaged with
    ⟨w', hrun, hstaged', -⟩ | ⟨-, -, -, names, hmem, hnot⟩
  · exact ⟨w', hrun, hstaged'⟩
  · exact absurd (hmake names hmem) hnot

/-- **No other archive is extracted.** -/
theorem unpack_error (h : Transfer pkg belongs limits T dm order) (hplace : Workplace d dest p)
    (hcase : DirCase dm dest notes d p onDir) (hstaged : Staged d p (fun _ => none) w.disk)
    (hbad : ∃ names ∈ order, ¬Makeable T dm names) :
    ∃ e w', pkg.unpack onDir belongs umask limits order.length (bytesOf T order)
      ⟨true, headers T order, true, true⟩ dest w = .error e w' := by
  rcases h.unpack_run umask hplace hcase hstaged with ⟨-, -, -, hmake⟩ | ⟨e, w', hrun, -⟩
  · obtain ⟨names, hmem, hnot⟩ := hbad
    exact absurd (hmake names hmem) hnot
  · exact ⟨e, w', hrun⟩

end Transfer

end Archive
