import ForgeCI.Effects
import ForgeCI.GoLib
import ForgeCI.JsonText
import ForgeCI.TreeWalks

/-!
# What snapshots and artifacts share

Packages `snapshot` and `artifact` archive a tree in the same way: a walk lists its entries, the
digest of the list identifies the tree, and a compressed tar file carries it.  The functions of
the two packages differ in their texts, in the names of the entries, in the test of a link and
in what extraction does with a directory.  These differences are the fields of `Package`; the
definitions of each package apply the functions below to its own values.

The tar and gzip formats are a pair of functions, `Codec`, and SHA-256 is any function on byte
strings.  Paths of the host are absolute and clean.  The sizes of what is on a disk are unbounded
numbers, since no disk holds 2^63 bytes; the headers of an archive may say anything, and the
total that extraction keeps of them is an `int64`.  Nothing else changes the disk while a function
runs.
-/

namespace Archive

open FileTree JsonText

/-- An error: a text, a text with a quoted name or another error in it, or the error of a system
call. -/
inductive Failure
  | text (message : String)
  | named (before : String) (name : Bytes) (after : String)
  | wrapped (before : String) (name : Bytes) (inner : Failure)
  | call (errno : Errno)
deriving DecidableEq

structure Limits where
  maxEntries : Int
  maxPathBytes : Int
  maxLogicalBytes : Int
  maxArchiveBytes : Int
  maxFileBytes : Int
  /-- `MaxLogicalBytes` is an `int64`. -/
  int64 : maxLogicalBytes < 2 ^ 63
deriving DecidableEq

/-- `DefaultLimits` of either package. -/
def defaultLimits : Limits := ⟨100000, 4096, 1073741824, 536870912, 1073741824, by decide⟩

/-- A limit below one is refused. -/
def Limits.valid (l : Limits) : Bool :=
  1 ≤ l.maxEntries && 1 ≤ l.maxPathBytes && 1 ≤ l.maxLogicalBytes && 1 ≤ l.maxArchiveBytes &&
    1 ≤ l.maxFileBytes

inductive EntryType
  | directory
  | file
  | symlink
deriving DecidableEq

def EntryType.name : EntryType → String
  | .directory => "directory"
  | .file => "file"
  | .symlink => "symlink"

/-- `Entry`; `host` is the path under which the walk has found it. -/
structure Entry where
  path : Bytes
  type : EntryType
  mode : Mode
  size : Nat
  sha256 : Bytes
  target : Bytes
  host : List Bytes
deriving DecidableEq

/-- `hex.EncodeToString`. -/
def hexEncode (b : Bytes) : Bytes :=
  b.flatMap fun x => [hexDigit (x.toNat / 16), hexDigit (x.toNat % 16)]

theorem length_hexEncode (b : Bytes) : (hexEncode b).length = 2 * b.length := by
  induction b with
  | nil => rfl
  | cons x xs ih =>
    simp only [hexEncode, List.flatMap_cons, List.length_append, List.length_cons,
      List.length_nil] at ih ⊢
    omega

theorem mem_hexEncode {b : Bytes} {x : UInt8} (h : x ∈ hexEncode b) : ∃ n < 16, x = hexDigit n := by
  obtain ⟨y, -, hy⟩ := List.mem_flatMap.1 h
  have hlt := y.toNat_lt
  grind

def isHexDigit (b : UInt8) : Bool :=
  (0x30 ≤ b && b ≤ 0x39) || (0x61 ≤ b && b ≤ 0x66) || (0x41 ≤ b && b ≤ 0x46)

/-- `validDigest`. -/
def validDigest (v : Bytes) : Bool := v.length = 64 && v.all isHexDigit

/-- One entry of a manifest; a size, a hash or a target that is empty is left out. -/
def Entry.json (e : Entry) : Bytes :=
  ascii "\x7b\"path\":" ++ string e.path ++ ascii ",\"type\":" ++ string (ascii e.type.name) ++
    ascii ",\"mode\":" ++ number e.mode.toNat ++
    optional (ascii ",\"size\":") number (if e.size = 0 then none else some e.size) ++
    optional (ascii ",\"sha256\":") string (if e.sha256 = [] then none else some e.sha256) ++
    optional (ascii ",\"target\":") string (if e.target = [] then none else some e.target) ++
    ascii "\x7d"

/-- `json.Marshal` of a manifest; `empty` is how a list without entries is written. -/
def manifestJson (version : String) (empty : Bytes) (entries : List Entry) : Bytes :=
  ascii "\x7b\"version\":" ++ string (ascii version) ++ ascii ",\"entries\":" ++
    (if entries = [] then empty else array Entry.json entries) ++ ascii "\x7d"

/-- `digestManifest`; the host paths are not in the manifest. -/
def digestManifest (sum : Bytes → Bytes) (version : String) (empty : Bytes)
    (entries : List Entry) : Bytes :=
  hexEncode (sum (manifestJson version empty entries ++ [0x0a]))

/-- `strings.IndexFunc(name, unicode.IsControl) >= 0`. -/
def hasControl (name : Bytes) : Bool :=
  (Runes.runes name).any fun r => r.any GoLib.isControl

def clean : Bytes → Bytes := Lexical.clean slash dot

/-- `path.Clean(path.Join(path.Dir(name), target))`. -/
def resolved (name target : Bytes) : Bytes :=
  clean (Lexical.joinPath slash dot (Lexical.dir slash dot name) target)

/-- `p == ".." || strings.HasPrefix(p, "../")`. -/
def climbs (p : Bytes) : Bool := p = [dot, dot] || [dot, dot, slash].isPrefixOf p

/-- `p == root || strings.HasPrefix(p, root+"/")`. -/
def below (root p : Bytes) : Bool := p = root || (root ++ [slash]).isPrefixOf p

def unsafePath (name : Bytes) : Bool :=
  if name = [] ∨ 0 ∈ name ∨ hasControl name = true ∨ Lexical.isAbs slash name = true then true
  else clean name = [dot] || climbs (clean name) || clean name ≠ name

def unsafeLink (name : Bytes) : Bool :=
  name = [] || Lexical.isAbs slash name || name.contains 0 || hasControl name ||
    clean name ≠ name

/-- `filepath.Join` of a host path and a slash-separated one. -/
def join (host : List Bytes) (name : Bytes) : List Bytes :=
  Lexical.cleanParts dot true [] (host ++ Lexical.split slash name)

/-- `filepath.Rel` of two host paths. -/
def rel : List Bytes → List Bytes → List Bytes
  | [], candidate => candidate
  | r :: root, [] => Lexical.ups dot (r :: root).length
  | r :: root, c :: candidate =>
      if r = c then rel root candidate
      else Lexical.ups dot (r :: root).length ++ c :: candidate

def within (root candidate : List Bytes) : Bool := (rel root candidate).head? ≠ some [dot, dot]

/-- The texts of the errors. -/
structure Texts where
  sourcePath : String
  sourceFile : String
  logicalBytes : String
  sourceLink : String
  sourceType : String
  sourceEntries : String
  changed : String
  archiveBytes : String
  archiveSize : String
  blobDigest : String
  openGzip : String
  readArchive : String
  archiveEntries : String
  archivePath : String
  pathEscapes : String
  parentEscapes : String
  unsafeParent : String
  fileLimit : String
  byteLimit : String
  extractFile : String
  archiveLink : String
  linkEscapes : String
  archiveType : String
  mismatch : String
  manifest : String

/-- What differs between the packages. -/
structure Package where
  texts : Texts
  format : String
  /-- How a list without entries is written. -/
  empty : Bytes
  /-- The root of a tree is an entry. -/
  listsRoot : Bool
  /-- The name of the entry at a path below the root. -/
  nameOf : List Bytes → Bytes
  /-- The walk does not go there. -/
  skips : Disk → Path → List Bytes → Bool
  /-- The test of a link, on its target joined to its directory. -/
  escapes : Bytes → Bool

/-- The text of a digest. -/
def Package.digest (pkg : Package) (sum : Bytes → Bytes) (entries : List Entry) : Bytes :=
  digestManifest sum pkg.format pkg.empty entries

/-- The variables of a `scan`. -/
structure Scan where
  entries : List Entry := []
  logical : Nat := 0

namespace Package

/-- The switch over the type of a node. -/
def inspect (pkg : Package) (sum : Bytes → Bytes) (limits : Limits) (d : Disk) (s : Scan)
    (name : Bytes) (host : List Bytes) : Node → Except Failure Scan
  | .dir mode => .ok { s with entries := s.entries ++ [⟨name, .directory, mode, 0, [], [], host⟩] }
  | .file mode content =>
      if (content.length : Int) > limits.maxFileBytes then
        .error (.named pkg.texts.sourceFile name " exceeds size limit")
      else if ((s.logical + content.length : Nat) : Int) > limits.maxLogicalBytes then
        .error (.text pkg.texts.logicalBytes)
      else match d.readFile host with
        | .error e => .error (.call e)
        | .ok bytes =>
            .ok ⟨s.entries ++
                [⟨name, .file, mode, content.length, hexEncode (sum bytes), [], host⟩],
              s.logical + content.length⟩
  | .link target =>
      if unsafeLink target = true then .error (.named "unsafe symlink " name "")
      else if pkg.escapes (resolved name target) = true then
        .error (.named "symlink " name pkg.texts.sourceLink)
      else .ok { s with
        entries := s.entries ++ [⟨name, .symlink, 0o777#9, 0, [], target, host⟩] }
  | .other _ => .error (.named pkg.texts.sourceType name "")

/-- The function `scan` gives to the walk, for the path `rel` below `abs`. -/
def callback (pkg : Package) (sum : Bytes → Bytes) (limits : Limits) (d : Disk)
    (abs : List Bytes) (s : Scan) (rel : List Bytes) : Except Failure Scan :=
  if rel = [] ∧ pkg.listsRoot = false then .ok s
  else if ((pkg.nameOf rel).length : Int) > limits.maxPathBytes ∨
      unsafePath (pkg.nameOf rel) = true then
    .error (.named pkg.texts.sourcePath (pkg.nameOf rel) "")
  else match d.lstat (abs ++ rel) with
    | .error e => .error (.call e)
    | .ok (_, node) =>
        match pkg.inspect sum limits d s (pkg.nameOf rel) (abs ++ rel) node with
        | .error e => .error e
        | .ok s' =>
            if (s'.entries.length : Int) > limits.maxEntries then
              .error (.text pkg.texts.sourceEntries)
            else .ok s'

/-- One path of `filepath.WalkDir`: the callback, and then the reading of a directory. -/
def visit (pkg : Package) (sum : Bytes → Bytes) (limits : Limits) (d : Disk)
    (abs : List Bytes) (s : Scan) (rel : List Bytes) : Except Failure Scan :=
  match pkg.callback sum limits d abs s rel with
  | .error e => .error e
  | .ok s' =>
      match d.lstat (abs ++ rel) with
      | .ok (_, .dir mode) => if readable mode then .ok s' else .error (.call .access)
      | _ => .ok s'

/-- `sort.Slice` by path; the paths of a listing are distinct. -/
def sortEntries (entries : List Entry) : List Entry :=
  entries.insertionSort fun a b => BytesLE a.path b.path

/-- The paths the walk visits below the directory `p`. -/
def walked (pkg : Package) (d : Disk) (p : Path) : List (List Bytes) :=
  (d.inside p).filter fun rel => !pkg.skips d p rel

def scan (pkg : Package) (sum : Bytes → Bytes) (limits : Limits) (d : Disk)
    (abs : List Bytes) : Except Failure (List Entry × Nat) :=
  match d.lstat abs with
  | .error e => .error (.call e)
  | .ok (p, _) =>
      match (pkg.walked d p).foldlM (pkg.visit sum limits d abs) {} with
      | .error e => .error e
      | .ok s => .ok (sortEntries s.entries, s.logical)

end Package

inductive Typeflag
  | dir
  | reg
  | symlink
  | other (flag : UInt8)
deriving DecidableEq

/-- A header of a tar file and the bytes that follow it. -/
structure TarEntry where
  name : Bytes
  typeflag : Typeflag
  mode : Int
  size : Int
  linkname : Bytes
  data : Bytes
deriving DecidableEq

/-- `fs.FileMode(header.Mode)&0777`. -/
def TarEntry.perm (header : TarEntry) : Mode := BitVec.ofInt 9 header.mode

/-- What the readers make of a file: whether it opens, the entries up to the end or up to the
first error, whether the end was reached, and whether closing succeeds. -/
structure Reading where
  opens : Bool
  stream : List TarEntry
  ended : Bool
  closes : Bool

/-- The gzip and tar formats. -/
structure Codec where
  encode : List TarEntry → Bytes
  decode : Bytes → Reading

/-- The header and the bytes of an entry; a file is read once more. -/
def Entry.tar (texts : Texts) (sum : Bytes → Bytes) (d : Disk) (e : Entry) :
    Except Failure TarEntry :=
  match e.type with
  | .directory => .ok ⟨e.path, .dir, e.mode.toNat, 0, [], []⟩
  | .symlink => .ok ⟨e.path, .symlink, e.mode.toNat, 0, e.target, []⟩
  | .file =>
      match d.readFile e.host with
      | .error errno => .error (.call errno)
      | .ok content =>
          if content.length ≠ e.size ∨ hexEncode (sum content) ≠ e.sha256 then
            .error (.named texts.changed e.path "")
          else .ok ⟨e.path, .reg, e.mode.toNat, e.size, [], content⟩

/-- The loop of `Capture`; the writer refuses to go over the limit. -/
def Package.pack (pkg : Package) (codec : Codec) (sum : Bytes → Bytes) (limits : Limits)
    (d : Disk) (entries : List Entry) : Except Failure Bytes :=
  match entries.mapM (Entry.tar pkg.texts sum d) with
  | .error e => .error e
  | .ok stream =>
      if ((codec.encode stream).length : Int) > limits.maxArchiveBytes then
        .error (.text pkg.texts.archiveBytes)
      else .ok (codec.encode stream)

/-- The umask of a process. -/
structure Umask where
  bits : Mode

/-- It leaves the owner's permissions alone. -/
def Umask.SparesOwner (umask : Umask) : Prop := umask.bits &&& 0o700#9 = 0
deriving Decidable

/-- The permissions of a new node. -/
def Umask.apply (umask : Umask) (mode : Mode) : Mode := mode &&& ~~~umask.bits

/-- The calls that change the disk. -/
inductive Change
  | create (node : Node)
  | chmod (mode : Mode)

/-- A change that was made: under which path it was asked for, and to which node it was made. -/
structure Touch where
  change : Change
  named : List Bytes
  actual : Path

/-- The disk, and the changes made to it so far. -/
structure Work where
  disk : Disk
  log : List Touch := []

/-- A failed extraction leaves the disk as it is then. -/
abbrev Extraction := EStateM Failure Work

/-- Make a node. -/
def make (path : List Bytes) (node : Node) : Extraction Unit := fun w =>
  match w.disk.create path node with
  | .error e => .error (.call e) w
  | .ok (p, d) => .ok () ⟨d, w.log ++ [⟨.create node, path, p⟩]⟩

/-- `os.Chmod`. -/
def chmod (path : List Bytes) (mode : Mode) : Extraction Unit := fun w =>
  match w.disk.chmod path mode with
  | .error e => .error (.call e) w
  | .ok (p, d) => .ok () ⟨d, w.log ++ [⟨.chmod mode, path, p⟩]⟩

/-- `os.Mkdir`. -/
def mkdir (umask : Umask) (path : List Bytes) (mode : Mode) : Extraction Unit :=
  make path (.dir (umask.apply mode))

/-- One round of the loop of `safeParents`. -/
def checkParent (texts : Texts) (umask : Umask) (current : List Bytes) : Extraction Unit := do
  let w ← get
  match w.disk.lstat current with
  | .error .noEntry => mkdir umask current 0o700#9
  | .error e => throw (.call e)
  | .ok (_, .dir _) => pure ()
  | .ok _ => throw (.text texts.unsafeParent)

/-- The loop of `safeParents`; `current` has been checked. -/
def checkParents (texts : Texts) (umask : Umask) : List Bytes → List Bytes → Extraction Unit
  | _, [] => pure ()
  | current, part :: rest => do
      checkParent texts umask (current ++ [part])
      checkParents texts umask (current ++ [part]) rest

def safeParents (texts : Texts) (umask : Umask) (root dir : List Bytes) : Extraction Unit :=
  if within root dir = false then throw (.text texts.parentEscapes)
  else checkParents texts umask root (rel root dir)

/-- `os.OpenFile` for a new file, `io.CopyN` into it and `os.Chmod`. -/
def writeFile (texts : Texts) (umask : Umask) (path : List Bytes) (header : TarEntry) :
    Extraction Unit := do
  make path (.file (umask.apply header.perm) (header.data.take header.size.toNat))
  if header.data.length < header.size.toNat then
    throw (.named texts.extractFile header.name "")
  else chmod path header.perm

/-- The variables of the loop over an archive. -/
structure Progress where
  entries : Int := 0
  total : Int := 0
  links : List (List Bytes × Bytes) := []
  directories : List (List Bytes × Mode) := []

/-- The case of a directory. -/
abbrev OnDir := List Bytes → Mode → Progress → Extraction Progress

namespace Package

/-- The switch over the type of a header; `onDir` is the case of a directory. -/
def unpackNode (pkg : Package) (onDir : OnDir)
    (umask : Umask) (limits : Limits) (logicalSize : Int) (target : List Bytes) (pr : Progress)
    (header : TarEntry) : Extraction Progress :=
  match header.typeflag with
  | .dir => onDir target header.perm pr
  | .reg =>
      if header.size < 0 ∨ header.size > limits.maxFileBytes then
        throw (.text pkg.texts.fileLimit)
      else if GoLib.add64 pr.total header.size > limits.maxLogicalBytes ∨
          GoLib.add64 pr.total header.size > logicalSize then
        throw (.text pkg.texts.byteLimit)
      else do
        writeFile pkg.texts umask target header
        pure { pr with total := GoLib.add64 pr.total header.size }
  | .symlink =>
      if unsafeLink header.linkname = true then throw (.text pkg.texts.archiveLink)
      else if pkg.escapes (resolved header.name header.linkname) = true then
        throw (.text pkg.texts.linkEscapes)
      else pure { pr with links := pr.links ++ [(target, header.linkname)] }
  | .other flag => throw (.named pkg.texts.archiveType [flag] "")

/-- One round of the loop over an archive. -/
def unpackEntry (pkg : Package) (onDir : OnDir)
    (belongs : Bytes → Except Failure Unit) (umask : Umask) (limits : Limits)
    (entryCount logicalSize : Int) (dest : List Bytes) (pr : Progress) (header : TarEntry) :
    Extraction Progress :=
  if pr.entries + 1 > limits.maxEntries ∨ pr.entries + 1 > entryCount then
    throw (.text pkg.texts.archiveEntries)
  else if unsafePath header.name = true ∨ (header.name.length : Int) > limits.maxPathBytes then
    throw (.named pkg.texts.archivePath header.name "")
  else match belongs header.name with
    | .error e => throw e
    | .ok () =>
        if within dest (join dest header.name) = false then throw (.text pkg.texts.pathEscapes)
        else do
          safeParents pkg.texts umask dest (join dest header.name).dropLast
          pkg.unpackNode onDir umask limits logicalSize (join dest header.name)
            { pr with entries := pr.entries + 1 } header

/-- The links are made when everything else is there. -/
def unpackLink (pkg : Package) (umask : Umask) (dest : List Bytes) (link : List Bytes × Bytes) :
    Extraction Unit := do
  safeParents pkg.texts umask dest link.1.dropLast
  make link.1 (.link link.2)

/-- The common part of `Extract`, from the opened archive to the links. -/
def unpack (pkg : Package) (onDir : OnDir)
    (belongs : Bytes → Except Failure Unit) (umask : Umask) (limits : Limits)
    (entryCount logicalSize : Int) (reading : Reading) (dest : List Bytes) :
    Extraction Progress :=
  if reading.opens = false then throw (.text pkg.texts.openGzip)
  else do
    let pr ← reading.stream.foldlM
      (pkg.unpackEntry onDir belongs umask limits entryCount logicalSize dest) {}
    if reading.ended = false then throw (.text pkg.texts.readArchive)
    else if reading.closes = false then throw (.call .invalid)
    else if pr.entries ≠ entryCount ∨ pr.total ≠ logicalSize then
      throw (.text pkg.texts.mismatch)
    else do
      pr.links.forM (pkg.unpackLink umask dest)
      pure pr

/-- List a tree again and compare the digests. -/
def verify (pkg : Package) (sum : Bytes → Bytes) (limits : Limits) (root : List Bytes)
    (expected : Bytes) : Extraction Unit := do
  let w ← get
  match pkg.scan sum limits w.disk root with
  | .error e => throw e
  | .ok (entries, _) =>
      if pkg.digest sum entries ≠ expected then throw (.text pkg.texts.manifest)
      else pure ()

end Package

end Archive
