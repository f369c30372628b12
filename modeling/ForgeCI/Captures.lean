import ForgeCI.Listings
import ForgeCI.ArtifactArchives

/-!
# Which files a capture reads

A walk does not follow links, so the regular files in an archive are those of the tree whose
root `lstat` has found.
-/

namespace Archive

open FileTree

/-- A place in the tree below `root`. -/
def Beneath (root q : Path) : Prop := ∃ name more, q = root ++ name :: more

theorem beneath_of_within {root parent : Path} {last : Bytes} {rel : List Bytes}
    (h : root <+: parent) : Beneath root (parent ++ [last] ++ rel) := by
  obtain ⟨more, rfl⟩ := h
  cases more with
  | nil => exact ⟨last, rel, by simp⟩
  | cons first more => exact ⟨first, more ++ last :: rel, by simp⟩

/-- Every regular file of a listing is read at a place below `root`. -/
def ReadsBeneath (d : Disk) (root : Path) (entries : List Entry) : Prop :=
  ∀ e ∈ entries, e.type = .file →
    ∃ q mode content, d.Leads e.host q ∧ d.node q = some (.file mode content) ∧ Beneath root q

namespace Package

variable {pkg : Package} {sum : Bytes → Bytes} {limits : Limits} {d : Disk} {abs : List Bytes}
  {p : Path} {top : Node} {es : List Entry} {n : Nat}

theorem mem_sortEntries {es : List Entry} {e : Entry} : e ∈ sortEntries es ↔ e ∈ es :=
  (List.perm_insertionSort _ _).mem_iff

/-- **A file of a listing is read at its place in the tree.** -/
theorem scan_reads (htop : d.lstat abs = .ok (p, top))
    (h : pkg.scan sum limits d abs = .ok (es, n)) {e : Entry} (he : e ∈ es)
    (hfile : e.type = .file) : ∃ rel mode content, e.host = abs ++ rel ∧ d.Leads e.host (p ++ rel) ∧
      d.node (p ++ rel) = some (.file mode content) := by
  obtain ⟨p', top', htop', haccepts, rfl⟩ := scan_ok h
  obtain ⟨rfl, rfl⟩ : p' = p ∧ top' = top := by simpa [htop] using htop'.symm
  obtain ⟨rel, hrel, hentry⟩ := List.mem_filterMap.1 (mem_sortEntries.1 he)
  obtain ⟨node, hnode, hfit⟩ := (haccepts rel hrel).fit
  have he' : entryOf sum (pkg.nameOf rel) (abs ++ rel) node = e := by
    simpa [entryAt, hnode] using hentry
  have hlstat := Disk.lstat_of_open htop hnode (haccepts rel hrel).searched
  subst he'
  cases node with
  | file mode content => exact ⟨rel, mode, content, rfl, (Disk.lstat_ok hlstat).2 rfl, hnode⟩
  | dir mode => cases hfile
  | link target => cases hfile
  | other mode => cases hfit

/-- **Every file of the tree is in the listing**, when nothing is left out. -/
theorem scan_misses_none (hskips : ∀ rel, pkg.skips d p rel = false)
    (hlists : pkg.listsRoot = true) (htop : d.lstat abs = .ok (p, top))
    (h : pkg.scan sum limits d abs = .ok (es, n)) {rel : List Bytes} {mode : Mode}
    {content : Bytes} (hnode : d.node (p ++ rel) = some (.file mode content)) :
    ∃ e ∈ es, e.type = .file ∧ e.host = abs ++ rel := by
  obtain ⟨p', top', htop', -, rfl⟩ := scan_ok h
  obtain ⟨rfl, rfl⟩ : p' = p ∧ top' = top := by simpa [htop] using htop'.symm
  refine ⟨entryOf sum (pkg.nameOf rel) (abs ++ rel) (.file mode content), ?_, rfl, rfl⟩
  apply mem_sortEntries.2
  refine List.mem_filterMap.2 ⟨rel, ?_, by simp [entryAt, hnode]⟩
  grind [listed, walked, Listed, Disk.mem_inside]

/-- **How an archive is packed.** -/
theorem pack_ok {codec : Codec} {archive : Bytes}
    (h : pkg.pack codec sum limits d es = .ok archive) :
    ∃ stream, es.mapM (Entry.tar pkg.texts sum d) = .ok stream ∧ archive = codec.encode stream ∧
      (archive.length : Int) ≤ limits.maxArchiveBytes := by
  grind [pack]

end Package

/-- The name of an entry of an artifact. -/
theorem artifact_nameOf {root : Bytes} {rel : List Bytes} (hroot : Name root)
    (hrel : ∀ part ∈ rel, Name part) : (Artifact.package root).nameOf rel = path (root :: rel) := by
  by_cases hnil : rel = []
  · subst hnil
    simp [Artifact.package]
  · have hsafe : Safe (root :: rel) := by
      refine ⟨by simp, ?_⟩
      grind
    have hpath : path (root :: rel) = root ++ slash :: path rel := by
      obtain ⟨first, rest, rfl⟩ := List.exists_cons_of_ne_nil hnil
      simp [List.intercalate_cons_cons]
    have hne : path rel ≠ [] := Safe.path_ne_nil ⟨hnil, hrel⟩
    show (if rel = [] then root else Lexical.joinPath slash dot root (path rel)) = _
    rw [if_neg hnil, Lexical.joinPath, if_neg hroot.ne_nil, if_neg hne, ← hpath, ← hsafe.written_eq]
    exact hsafe.canonical.clean_written slash_ne_dot

end Archive

namespace Artifact

open FileTree Archive

variable {codec : Codec} {sum : Bytes → Bytes} {limits : Limits} {d : Disk} {source : List Bytes}
  {name : Bytes} {m : Metadata} {archive : Bytes}

/-- The archive of a listing. -/
structure Holds (codec : Codec) (sum : Bytes → Bytes) (limits : Limits) (d : Disk)
    (source : List Bytes) (archive : Bytes) (entries : List Entry) : Prop where
  scanned : ∃ logical, scan sum limits d source (base source) = .ok (entries, logical)
  packed : ∃ stream, entries.mapM (Entry.tar texts sum d) = .ok stream ∧
    archive = codec.encode stream

theorem captureKind_ok {kind : RootKind}
    (h : captureKind codec sum limits d source name kind = .ok (m, archive)) :
    ∃ entries logical, scan sum limits d source (base source) = .ok (entries, logical) ∧
      Holds codec sum limits d source archive entries ∧
      (archive.length : Int) ≤ limits.maxArchiveBytes ∧
      m = ⟨name, base source, kind, digestManifest sum entries, hexEncode (sum archive), format,
        archive.length, logical, entries.length⟩ := by
  unfold captureKind at h
  cases hscan : scan sum limits d source (base source) with
  | error e => simp [hscan] at h
  | ok found =>
    obtain ⟨entries, logical⟩ := found
    simp only [hscan] at h
    cases hpack : (package (base source)).pack codec sum limits d entries with
    | error e => simp [hpack] at h
    | ok bytes =>
      simp only [hpack] at h
      cases h
      obtain ⟨stream, hstream, hencode, hsize⟩ := Package.pack_ok hpack
      exact ⟨entries, logical, rfl, ⟨⟨logical, hscan⟩, stream, hstream, hencode⟩, hsize, rfl⟩

/-- **How an archive is made**: its root is found without following a link, and is listed. -/
theorem capture_made (h : capture codec sum limits d source name = .ok (m, archive)) :
    limits.valid = true ∧ ∃ p top kind entries logical, d.lstat source = .ok (p, top) ∧
      scan sum limits d source (base source) = .ok (entries, logical) ∧
      Holds codec sum limits d source archive entries ∧
      (archive.length : Int) ≤ limits.maxArchiveBytes ∧
      m = ⟨name, base source, kind, digestManifest sum entries, hexEncode (sum archive), format,
        archive.length, logical, entries.length⟩ := by
  unfold capture at h
  split_ifs at h with hlimits
  refine ⟨by simpa using hlimits, ?_⟩
  split at h
  · cases h
  · rename_i p mode hlstat
    obtain ⟨entries, logical, hrest⟩ := captureKind_ok h
    exact ⟨p, _, _, entries, logical, hlstat, hrest⟩
  · rename_i p mode content hlstat
    obtain ⟨entries, logical, hrest⟩ := captureKind_ok h
    exact ⟨p, _, _, entries, logical, hlstat, hrest⟩
  · cases h

/-- The name of an artifact is only recorded. -/
theorem capture_rename (h : capture codec sum limits d source name = .ok (m, archive))
    (name' : Bytes) :
    capture codec sum limits d source name' = .ok ({ m with name := name' }, archive) := by
  have hkind : ∀ kind, captureKind codec sum limits d source name kind = .ok (m, archive) →
      captureKind codec sum limits d source name' kind =
        .ok ({ m with name := name' }, archive) := by
    intro kind hkind
    unfold captureKind at hkind ⊢
    split at hkind
    · cases hkind
    · split at hkind
      · cases hkind
      · grind
  grind [capture]

theorem capture_ok (h : capture codec sum limits d source name = .ok (m, archive)) :
    (∃ p top, d.lstat source = .ok (p, top)) ∧
      ∃ entries, Holds codec sum limits d source archive entries := by
  obtain ⟨-, p, top, -, entries, -, hlstat, -, hholds, -⟩ := capture_made h
  exact ⟨⟨p, top, hlstat⟩, entries, hholds⟩

/-- The root of a tree that is listed has a name. -/
theorem Holds.source_ne_nil {entries : List Entry}
    (h : Holds codec sum limits d source archive entries) : source ≠ [] := by
  rintro rfl
  obtain ⟨logical, hscan⟩ := h.scanned
  obtain ⟨p, top, htop, haccepts, -⟩ := Package.scan_ok hscan
  have hroot : [] ∈ (package (base [])).listed d p := by
    have hinside : [] ∈ d.inside p := by
      apply Disk.mem_inside.2
      simp [(Disk.lstat_ok htop).1]
    simp [Package.listed, Package.walked, hinside, Package.Listed, package]
  have hsafe : unsafePath [slash] = false := (haccepts [] hroot).named.safe
  revert hsafe
  decide

/-- **An archive reads a tree below `root`** if all files of the tree lie there. -/
theorem Holds.readsBeneath_iff {entries : List Entry} {p : Path} {top : Node}
    (h : Holds codec sum limits d source archive entries)
    (htop : d.lstat source = .ok (p, top)) (root : Path) :
    ReadsBeneath d root entries ↔
      ∀ rel mode content, d.node (p ++ rel) = some (.file mode content) →
        Beneath root (p ++ rel) := by
  obtain ⟨logical, hscan⟩ := h.scanned
  constructor
  · intro hreads rel mode content hnode
    obtain ⟨e, he, hfile, hhost⟩ :=
      Package.scan_misses_none (fun _ => rfl) rfl htop hscan hnode
    obtain ⟨q, mode', content', hlead, -, hbeneath⟩ := hreads e he hfile
    obtain ⟨rel', -, -, hhost', hlead', -⟩ := Package.scan_reads htop hscan he hfile
    obtain rfl : rel = rel' := List.append_cancel_left (hhost.symm.trans hhost')
    rwa [← hlead.unique hlead']
  · intro hinside e he hfile
    obtain ⟨rel, mode, content, -, hlead, hnode⟩ := Package.scan_reads htop hscan he hfile
    exact ⟨_, mode, content, hlead, hnode, hinside rel mode content hnode⟩

end Artifact
