import ForgeCI.Archives

/-!
# Source snapshots

`Capture`, `Verify` and `Extract` of package `snapshot`.  `.git` directories are left out, the
root is no entry, and a directory gets its final permissions as soon as it is extracted.
`Capture` returns the archive here; the content-addressed store it goes to is left out.
-/

namespace Snapshot

open FileTree Archive Effects JsonText

def format : String := "tar-gzip-v1"

def texts : Texts where
  sourcePath := "unsafe source path "
  sourceFile := "source file "
  logicalBytes := "source exceeds logical byte limit"
  sourceLink := " escapes source root"
  sourceType := "unsupported source file type at "
  sourceEntries := "source exceeds entry limit"
  changed := "source file changed during snapshot: "
  archiveBytes := "snapshot exceeds archive byte limit"
  archiveSize := "snapshot archive size mismatch"
  blobDigest := "snapshot blob digest mismatch"
  openGzip := "open snapshot gzip: "
  readArchive := "read snapshot archive: "
  archiveEntries := "snapshot exceeds entry limit"
  archivePath := "unsafe archive path "
  pathEscapes := "archive path escapes workspace"
  parentEscapes := "archive parent escapes workspace"
  unsafeParent := "unsafe archive parent"
  fileLimit := "snapshot file exceeds limit"
  byteLimit := "snapshot exceeds extracted byte limit"
  extractFile := "extract file "
  archiveLink := "unsafe archive symlink"
  linkEscapes := "archive symlink escapes workspace"
  archiveType := "unsupported archive entry type "
  mismatch := "snapshot metadata mismatch"
  manifest := "source manifest digest mismatch"

def gitName : Bytes := ascii ".git"

/-- A `.git` directory, or something in one. -/
def inGit (d : Disk) (p : Path) (rel : List Bytes) : Bool :=
  gitName ∈ rel.dropLast || (rel.getLast? = some gitName && d.isDir (p ++ rel))

def package : Package where
  texts := texts
  format := format
  empty := ascii "[]"
  listsRoot := false
  nameOf := fun rel => [slash].intercalate rel
  skips := inGit
  escapes := climbs

structure Metadata where
  sourceDigest : Bytes
  blobDigest : Bytes
  format : String
  archiveSizeBytes : Int
  logicalSizeBytes : Int
  entryCount : Int
deriving DecidableEq

def scan (sum : Bytes → Bytes) (limits : Limits) (d : Disk) (root : List Bytes) :
    Except Failure (List Entry × Nat) :=
  package.scan sum limits d root

def digestManifest (sum : Bytes → Bytes) (entries : List Entry) : Bytes :=
  package.digest sum entries

/-- `Store.Capture`. -/
def capture (codec : Codec) (sum : Bytes → Bytes) (limits : Limits) (d : Disk)
    (sourceRoot : List Bytes) : Except Failure (Metadata × Bytes) :=
  match scan sum limits d sourceRoot with
  | .error e => .error e
  | .ok (entries, logical) =>
      match package.pack codec sum limits d entries with
      | .error e => .error e
      | .ok archive =>
          .ok (⟨digestManifest sum entries, hexEncode (sum archive), format, archive.length,
            logical, entries.length⟩, archive)

/-- `Verify`. -/
def verify (sum : Bytes → Bytes) (limits : Limits) (root : List Bytes) (expected : Bytes) :
    Extraction Unit :=
  package.verify sum limits root expected

/-- `os.Lstat` finds a directory. -/
def isDirAt (path : List Bytes) (w : Work) : Bool :=
  match w.disk.lstat path with
  | .ok (_, .dir _) => true
  | _ => false

/-- The last step of `os.MkdirAll`, where a directory may be there already. -/
def mkdirOver (umask : Umask) (path : List Bytes) (mode : Mode) : Extraction Unit :=
  forgive (mkdir umask path mode) fun _ => isDirAt path

/-- `os.MkdirAll`, on the elements of a path from the last one to the first. -/
def mkdirAllReversed (umask : Umask) (mode : Mode) : List Bytes → Extraction Unit
  | [] => pure ()
  | last :: parents => do
      let w ← get
      match w.disk.stat (last :: parents).reverse with
      | .ok (_, .dir _) => pure ()
      | .ok _ => throw (.call .notDirectory)
      | .error _ => do
          mkdirAllReversed umask mode parents
          mkdirOver umask (last :: parents).reverse mode

def mkdirAll (umask : Umask) (path : List Bytes) (mode : Mode) : Extraction Unit :=
  mkdirAllReversed umask mode path.reverse

/-- The case of a directory: it gets its permissions at once. -/
def onDir (umask : Umask) (target : List Bytes) (mode : Mode) (pr : Progress) :
    Extraction Progress := do
  mkdirAll umask target mode
  chmod target mode
  pure pr

def extract (codec : Codec) (sum : Bytes → Bytes) (umask : Umask) (limits : Limits)
    (archive : Bytes) (destination : List Bytes) (expected : Metadata) : Extraction Unit :=
  if expected.format ≠ format ∨ validDigest expected.sourceDigest = false ∨
      validDigest expected.blobDigest = false ∨ expected.archiveSizeBytes < 0 ∨
      expected.logicalSizeBytes < 0 ∨ expected.entryCount < 0 then
    throw (.text "invalid snapshot metadata")
  else if (archive.length : Int) ≠ expected.archiveSizeBytes ∨
      (archive.length : Int) > limits.maxArchiveBytes then
    throw (.text texts.archiveSize)
  else if hexEncode (sum archive) ≠ expected.blobDigest then throw (.text texts.blobDigest)
  else do
    let _ ← package.unpack (onDir umask) (fun _ => .ok ()) umask limits expected.entryCount
      expected.logicalSizeBytes (codec.decode archive) destination
    verify sum limits destination expected.sourceDigest

end Snapshot
