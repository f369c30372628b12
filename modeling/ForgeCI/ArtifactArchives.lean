import ForgeCI.Archives

/-!
# Artifact and cache archives

`Capture` and `Extract` of packages `artifact` and `cache`.  The names of all entries begin with
the name of the root, and the directories get their permissions at the end, the last one first.
-/

namespace Artifact

open FileTree Archive Effects JsonText

def format : String := "artifact-tar-gzip-v1"

def texts : Texts where
  sourcePath := "unsafe artifact path "
  sourceFile := "file "
  logicalBytes := "artifact exceeds logical byte limit"
  sourceLink := " escapes artifact root"
  sourceType := "unsupported artifact file type at "
  sourceEntries := "artifact exceeds entry limit"
  changed := "artifact file changed during capture: "
  archiveBytes := "artifact exceeds archive byte limit"
  archiveSize := "artifact archive size mismatch"
  blobDigest := "artifact blob digest mismatch"
  openGzip := "open artifact gzip: "
  readArchive := "read artifact archive: "
  archiveEntries := "artifact exceeds entry limit"
  archivePath := "unsafe artifact archive path "
  pathEscapes := "artifact archive path escapes destination"
  parentEscapes := "artifact parent escapes destination"
  unsafeParent := "unsafe artifact parent"
  fileLimit := "artifact file exceeds limit"
  byteLimit := "artifact exceeds logical byte limit"
  extractFile := "extract artifact file "
  archiveLink := "unsafe artifact symlink"
  linkEscapes := "artifact symlink escapes root"
  archiveType := "unsupported artifact archive entry type "
  mismatch := "artifact metadata mismatch"
  manifest := "artifact content digest mismatch"

def package (root : Bytes) : Package where
  texts := texts
  format := format
  empty := ascii "null"
  listsRoot := true
  nameOf := fun rel =>
    if rel = [] then root else Lexical.joinPath slash dot root ([slash].intercalate rel)
  skips := fun _ _ _ => false
  escapes := fun resolved => !below root resolved

inductive RootKind
  | file
  | directory
deriving DecidableEq

structure Metadata where
  name : Bytes
  rootName : Bytes
  rootKind : RootKind
  contentSHA256 : Bytes
  blobSHA256 : Bytes
  format : String
  archiveSizeBytes : Int
  logicalSizeBytes : Int
  entryCount : Int
deriving DecidableEq

def scan (sum : Bytes → Bytes) (limits : Limits) (d : Disk) (source : List Bytes)
    (root : Bytes) : Except Failure (List Entry × Nat) :=
  (package root).scan sum limits d source

def digestManifest (sum : Bytes → Bytes) (entries : List Entry) : Bytes :=
  Archive.digestManifest sum format (ascii "null") entries

/-- `filepath.Base` of a host path. -/
def base (source : List Bytes) : Bytes := source.getLast?.getD [slash]

def limitsText : Failure := .text "artifact limits must be greater than zero"

/-- `Capture` from the type of the root on. -/
def captureKind (codec : Codec) (sum : Bytes → Bytes) (limits : Limits) (d : Disk)
    (source : List Bytes) (name : Bytes) (kind : RootKind) : Except Failure (Metadata × Bytes) :=
  match scan sum limits d source (base source) with
  | .error e => .error (.wrapped "capture artifact " name e)
  | .ok (entries, logical) =>
      match (package (base source)).pack codec sum limits d entries with
      | .error e => .error e
      | .ok archive =>
          .ok (⟨name, base source, kind, digestManifest sum entries, hexEncode (sum archive),
            format, archive.length, logical, entries.length⟩, archive)

def capture (codec : Codec) (sum : Bytes → Bytes) (limits : Limits) (d : Disk)
    (source : List Bytes) (name : Bytes) : Except Failure (Metadata × Bytes) :=
  if limits.valid = false then .error limitsText
  else match d.lstat source with
    | .error e => .error (.wrapped "inspect artifact " name (.call e))
    | .ok (_, .dir _) => captureKind codec sum limits d source name .directory
    | .ok (_, .file _ _) => captureKind codec sum limits d source name .file
    | .ok _ => .error (.named "artifact " name " root has unsupported file type")

/-- `path.Base(root) == root`, for a path without a slash at its end. -/
def isBase (root : Bytes) : Bool := (Lexical.split slash root).getLast? = some root

def validateMetadata (m : Metadata) (l : Limits) : Except Failure Unit :=
  if l.valid = false then .error limitsText
  else if m.format ≠ format ∨ validDigest m.contentSHA256 = false ∨
      validDigest m.blobSHA256 = false ∨ unsafePath m.rootName = true ∨
      isBase m.rootName = false ∨ m.archiveSizeBytes < 0 ∨
      m.archiveSizeBytes > l.maxArchiveBytes ∨ m.logicalSizeBytes < 0 ∨ m.entryCount < 1 then
    .error (.text "invalid artifact metadata")
  else .ok ()

/-- `os.Mkdir`, where it does not matter that something is there already. -/
def mkdirUnlessThere (umask : Umask) (path : List Bytes) (mode : Mode) : Extraction Unit :=
  forgive (mkdir umask path mode) fun e _ => e = .call .fileExists

/-- The case of a directory: its permissions are left for the end. -/
def onDir (umask : Umask) (target : List Bytes) (mode : Mode) (pr : Progress) :
    Extraction Progress := do
  mkdirUnlessThere umask target 0o700#9
  pure { pr with directories := pr.directories ++ [(target, mode)] }

/-- The names an archive with this root may have. -/
def belongs (root name : Bytes) : Except Failure Unit :=
  if below root name = false then .error (.text "artifact archive has unexpected root") else .ok ()

def extract (codec : Codec) (sum : Bytes → Bytes) (umask : Umask) (limits : Limits)
    (archive : Bytes) (destination : List Bytes) (expected : Metadata) : Extraction Unit :=
  match validateMetadata expected limits with
  | .error e => throw e
  | .ok () =>
      if (archive.length : Int) ≠ expected.archiveSizeBytes then throw (.text texts.archiveSize)
      else if hexEncode (sum archive) ≠ expected.blobSHA256 then throw (.text texts.blobDigest)
      else do
        let pr ← (package expected.rootName).unpack (onDir umask) (belongs expected.rootName) umask
          limits expected.entryCount expected.logicalSizeBytes (codec.decode archive) destination
        pr.directories.reverse.forM fun dir => chmod dir.1 dir.2
        (package expected.rootName).verify sum limits (join destination expected.rootName)
          expected.contentSHA256

end Artifact

namespace BuildCache

open FileTree Archive

def format : String := "cache-tar-gzip-v1"

/-- `Metadata`: the metadata of an artifact and a key. -/
structure Metadata extends Artifact.Metadata where
  key : Bytes

def capture (codec : Codec) (sum : Bytes → Bytes) (limits : Limits) (d : Disk)
    (source : List Bytes) (key : Bytes) : Except Failure (Metadata × Bytes) :=
  match Artifact.capture codec sum limits d source key with
  | .error e => .error e
  | .ok (captured, archive) => .ok (⟨{ captured with format := format }, key⟩, archive)

def extract (codec : Codec) (sum : Bytes → Bytes) (umask : Umask) (limits : Limits)
    (archive : Bytes) (destination : List Bytes) (expected : Metadata) : Extraction Unit :=
  Artifact.extract codec sum umask limits archive destination
    { expected.toMetadata with format := Artifact.format }

end BuildCache
