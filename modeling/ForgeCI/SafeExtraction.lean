import ForgeCI.Confinement

/-!
# Extraction of hostile archives

Both `Extract` functions keep to their destination, whatever the archive and the metadata say,
and when they succeed the tree they leave has the expected digest.
-/

namespace Archive

open FileTree Effects

theorem make_error {path : List Bytes} {node : Node} {w w' : Work} {e : Failure}
    (h : make path node w = .error e w') : w' = w := by
  unfold make at h
  split at h <;> cases h
  rfl

theorem make_error_create {path : List Bytes} {node : Node} {w w' : Work} {e : Errno}
    (h : make path node w = .error (.call e) w') : w.disk.create path node = .error e := by
  unfold make at h
  split at h
  · cases h
    assumption
  · cases h

/-- Nothing has been changed before the first call. -/
theorem Kept.throw {d : Disk} {dest : List Bytes} {p : Path} {α : Type} {Q : α → Work → Prop}
    (e : Failure) :
    Ensures (fun w => w = ⟨d, []⟩) (throw e : Extraction α) Q (Kept d dest p) := by
  apply Ensures.throw
  rintro _ rfl
  exact .initial

/-- A directory is made, or the failure is pardoned because something is there. -/
theorem Package.forgive_mkdir_keeps {pkg : Package} {d : Disk} {dest : List Bytes} {p : Path}
    {pr : Progress} {pre : List Bytes} {name : Bytes} {umask : Umask} {mode : Mode}
    {pardon : Failure → Work → Bool} (hsafe : Safe (pre ++ [name]))
    (hpardon : ∀ w e, pkg.Looping d dest p pr w → Ready dest p pre w →
      mkdir umask (dest ++ (pre ++ [name])) mode w = .error e w → pardon e w = true →
      ∃ node, w.disk.node (p ++ (pre ++ [name])) = some node ∧ node.isLink = false) :
    Ensures (fun w => pkg.Looping d dest p pr w ∧ Ready dest p pre w)
      (forgive (mkdir umask (dest ++ (pre ++ [name])) mode) pardon)
      (fun _ w => pkg.Looping d dest p pr w ∧
        ∃ node, w.disk.node (p ++ (pre ++ [name])) = some node ∧ node.isLink = false)
      (Kept d dest p) := by
  have hmkdir : Ensures (fun w => pkg.Looping d dest p pr w ∧ Ready dest p pre w)
      (mkdir umask (dest ++ (pre ++ [name])) mode)
      (fun _ w => pkg.Looping d dest p pr w ∧ Ready dest p (pre ++ [name]) w)
      (pkg.Looping d dest p pr) :=
    mkdir_keeps Package.Looping.stable (fun _ _ => rfl) hsafe
  apply Ensures.forgive
  · intro w _ w' hw hmade
    obtain ⟨hlooping, hready⟩ := hmkdir.ok_of hw hmade
    obtain ⟨m, hm⟩ := Disk.isDir_iff.1 hready.isDir
    exact ⟨hlooping, _, hm, rfl⟩
  · rintro w e w' ⟨hw, hready⟩ hfailed hexcused
    obtain rfl := make_error hfailed
    exact ⟨hw, hpardon _ e hw hready hfailed hexcused⟩
  · intro w e w' hw hfailed
    obtain rfl := make_error hfailed
    exact hw.1.kept

/-- A verified tree has the expected digest. -/
theorem Package.verify_ensures {pkg : Package} {sum : Bytes → Bytes} {limits : Limits}
    {root : List Bytes} {expected : Bytes} {I : Work → Prop} :
    Ensures I (pkg.verify sum limits root expected)
      (fun _ w => I w ∧ ∃ es n, pkg.scan sum limits w.disk root = .ok (es, n) ∧
        pkg.digest sum es = expected) I := by
  apply Ensures.get_bind
  intro w hw
  split
  · apply Ensures.throw
    rintro _ rfl
    exact hw
  · rename_i es n hscan
    refine .ite (fun _ => .throw ?_) fun hdigest => .pure ?_
    · rintro _ rfl
      exact hw
    · grind

end Archive

namespace Snapshot

open FileTree Archive Effects

variable {d : Disk} {dest : List Bytes} {p : Path} {pre : List Bytes} {name : Bytes}
  {umask : Umask} {mode : Mode} {w : Work} {pr : Progress}

/-- A directory that is there is left alone. -/
theorem mkdirAllReversed_ready (h : Ready dest p pre w) :
    Ensures (fun t => t = w) (mkdirAllReversed umask mode (dest ++ pre).reverse)
      (fun _ t => t = w) (fun _ => False) := by
  obtain ⟨m, hm⟩ := Disk.isDir_iff.1 h.isDir
  have hstat := Disk.stat_eq h.leads hm
  cases hpath : (dest ++ pre).reverse with
  | nil => exact .pure fun t ht => ht
  | cons last parents =>
    have hreverse : (last :: parents).reverse = dest ++ pre := by
      rw [← hpath, List.reverse_reverse]
    apply Ensures.get_bind
    rintro _ rfl
    rw [hreverse, hstat]
    exact .pure fun t ht => ht

/-- After a failed `Mkdir` there may be a directory. -/
theorem mkdirOver_keeps (hsafe : Safe (pre ++ [name])) :
    Ensures (fun w => package.Looping d dest p pr w ∧ Ready dest p pre w)
      (mkdirOver umask (dest ++ (pre ++ [name])) mode) (fun _ w => package.Looping d dest p pr w ∧
        ∃ node, w.disk.node (p ++ (pre ++ [name])) = some node ∧ node.isLink = false)
      (Kept d dest p) := by
  apply Package.forgive_mkdir_keeps hsafe
  intro w e hw hready hfailed hthere
  unfold isDirAt at hthere
  split at hthere
  · rename_i q m hlstat
    rw [← List.append_assoc] at hlstat
    obtain ⟨parent, hlead, rfl, hnode, -⟩ :=
      Disk.lstat_append_ok (hsafe.names name (by simp)) hlstat
    obtain rfl := hlead.unique hready.leads
    exact ⟨_, by simpa using hnode, rfl⟩
  · cases hthere

theorem mkdirAll_keeps (hsafe : Safe (pre ++ [name])) (hd : Destination d dest p) :
    Ensures (fun w => package.Looping d dest p pr w ∧ Ready dest p pre w)
      (mkdirAll umask (dest ++ (pre ++ [name])) mode) (fun _ w => package.Looping d dest p pr w ∧
        ∃ node, w.disk.node (p ++ (pre ++ [name])) = some node ∧ node.isLink = false)
      (Kept d dest p) := by
  have hreverse : (dest ++ (pre ++ [name])).reverse = name :: (dest ++ pre).reverse := by simp
  unfold mkdirAll
  rw [hreverse]
  apply Ensures.get_bind
  rintro w ⟨hw, hready⟩
  rw [← hreverse, List.reverse_reverse]
  split
  · rename_i q m hstat
    obtain ⟨hlead, hnode⟩ := Disk.stat_ok hstat
    have hplace := ((hw.kept.leads hd).eq_of_linkless hsafe.names
      (fun pre _ node => hw.linkless pre node) hlead).1
    apply Ensures.pure
    rintro _ rfl
    exact ⟨hw, _, hplace ▸ hnode, rfl⟩
  · apply Ensures.throw
    rintro _ rfl
    exact hw.kept
  · refine Ensures.bind (Q := fun _ t => t = w) ?_ fun _ => ?_
    · exact (mkdirAllReversed_ready hready).fails fun _ h => h.elim
    · refine (mkdirOver_keeps hsafe).pre ?_
      rintro _ rfl
      exact ⟨hw, hready⟩

theorem onDir_keeps (hd : Destination d dest p) : package.DirKeeps d dest p (onDir umask) := by
  intro pr pre name mode hsafe
  refine (mkdirAll_keeps hsafe hd).bind fun _ => ?_
  refine Ensures.bind (Q := fun _ => package.Looping d dest p pr) ?_ fun _ => .pure fun _ h => h
  exact (chmod_keeps hd Package.Looping.stable hsafe).fails fun _ h => h.kept

/-- **Snapshot extraction**: from an empty destination it ends, or stops, with changes below it
only; the tree it leaves has the expected digest and tested links. -/
theorem extract_keeps {codec : Codec} {sum : Bytes → Bytes} {limits : Limits} {archive : Bytes}
    {expected : Metadata} (hd : Destination d dest p) :
    Ensures (fun w => w = ⟨d, []⟩) (extract codec sum umask limits archive dest expected)
      (fun _ w => (∃ pr, package.Linking d dest p pr w) ∧
        ∃ es n, scan sum limits w.disk dest = .ok (es, n) ∧
          digestManifest sum es = expected.sourceDigest) (Kept d dest p) := by
  refine .ite (fun _ => Kept.throw _) fun _ => .ite (fun _ => Kept.throw _) fun _ =>
    .ite (fun _ => Kept.throw _) fun _ => ?_
  refine (Package.unpack_keeps hd (onDir_keeps hd)).bind fun pr => ?_
  refine Package.verify_ensures.mono (fun _ h => h) ?_ fun _ h => h.kept
  rintro _ w ⟨hw, hverified⟩
  exact ⟨⟨pr, hw⟩, hverified⟩

end Snapshot

namespace Artifact

open FileTree Archive Effects

variable {d : Disk} {dest : List Bytes} {p : Path} {umask : Umask} {root : Bytes}

theorem onDir_keeps : (package root).DirKeeps d dest p (onDir umask) := by
  intro pr pre name mode hsafe
  have hthere : Ensures (fun w => (package root).Looping d dest p pr w ∧ Ready dest p pre w)
      (mkdirUnlessThere umask (dest ++ (pre ++ [name])) 0o700#9)
      (fun _ w => (package root).Looping d dest p pr w ∧
        ∃ node, w.disk.node (p ++ (pre ++ [name])) = some node ∧ node.isLink = false)
      (Kept d dest p) := by
    apply Package.forgive_mkdir_keeps hsafe
    intro w e hw hready hfailed hexists
    obtain rfl : e = .call .fileExists := by simpa using hexists
    have hcreate := make_error_create hfailed
    rw [← List.append_assoc] at hcreate
    obtain ⟨parent, hlead, hthere⟩ :=
      Disk.node_of_fileExists (hsafe.names name (by simp)) hcreate
    obtain rfl := hlead.unique hready.leads
    obtain ⟨old, hold⟩ := Option.ne_none_iff_exists'.1 hthere
    grind [hw.linkless]
  refine hthere.bind fun _ => .pure ?_
  rintro w ⟨hw, node, hnode, hlink⟩
  refine ⟨hw.kept, hw.linkless, hw.pending.links, ?_⟩
  intro dir hdir
  rcases List.mem_append.1 hdir with hdir | hdir
  · exact hw.pending.directories dir hdir
  · grind

/-- **Artifact extraction**, in the same way. -/
theorem extract_keeps {codec : Codec} {sum : Bytes → Bytes} {limits : Limits} {archive : Bytes}
    {expected : Metadata} (hd : Destination d dest p) :
    Ensures (fun w => w = ⟨d, []⟩) (extract codec sum umask limits archive dest expected)
      (fun _ w => Kept d dest p w ∧
        ∃ es n, scan sum limits w.disk (join dest expected.rootName) expected.rootName =
          .ok (es, n) ∧ digestManifest sum es = expected.contentSHA256) (Kept d dest p) := by
  unfold extract
  split
  · exact Kept.throw _
  · refine .ite (fun _ => Kept.throw _) fun _ => .ite (fun _ => Kept.throw _) fun _ => ?_
    refine (Package.unpack_keeps hd onDir_keeps).bind fun pr => ?_
    refine Ensures.bind (Q := fun _ => (package expected.rootName).Linking d dest p pr) ?_
      fun _ => ?_
    · apply Ensures.forM
      intro dir hdir w hw
      obtain ⟨rel, node, hsafe, hpath, hnode, hlink⟩ :=
        hw.pending.directories dir (List.mem_reverse.1 hdir)
      have hchmod : Ensures (fun w => (package expected.rootName).Linking d dest p pr w ∧
          ∃ node, w.disk.node (p ++ rel) = some node ∧ node.isLink = false)
          (chmod (dest ++ rel) dir.2) (fun _ => (package expected.rootName).Linking d dest p pr)
          (Kept d dest p) :=
        (chmod_keeps hd Package.Linking.stable hsafe).fails fun _ h => h.kept
      rw [hpath]
      exact hchmod w ⟨hw, node, hnode, hlink⟩
    · refine Package.verify_ensures.mono (fun _ h => h) ?_ fun _ h => h.kept
      rintro _ w ⟨hw, hverified⟩
      exact ⟨hw.kept, hverified⟩

end Artifact

namespace Archive

open FileTree Effects

/-- **Extraction never writes outside its destination.**  For every archive and every metadata,
what `Extract` of either package has changed when it ends, or at whatever entry it fails, lies
strictly below the destination and under the path it was asked for; nodes are only made where
there was none, and permissions are not changed through links.  When it succeeds, the digest of
the tree is the expected one. -/
theorem extraction_confined (d : Disk) (dest : List Bytes) (p : Path) (hd : Destination d dest p)
    (codec : Codec) (sum : Bytes → Bytes) (umask : Umask) (limits : Limits) (archive : Bytes) :
    (∀ expected : Snapshot.Metadata,
      Kept d dest p (left
        (Snapshot.extract codec sum umask limits archive dest expected ⟨d, []⟩)) ∧
      ∀ w, Snapshot.extract codec sum umask limits archive dest expected ⟨d, []⟩ = .ok () w →
        ∃ es n, Snapshot.scan sum limits w.disk dest = .ok (es, n) ∧
          Snapshot.digestManifest sum es = expected.sourceDigest) ∧
    (∀ expected : Artifact.Metadata,
      Kept d dest p (left
        (Artifact.extract codec sum umask limits archive dest expected ⟨d, []⟩)) ∧
      ∀ w, Artifact.extract codec sum umask limits archive dest expected ⟨d, []⟩ = .ok () w →
        ∃ es n, Artifact.scan sum limits w.disk (join dest expected.rootName)
            expected.rootName = .ok (es, n) ∧
          Artifact.digestManifest sum es = expected.contentSHA256) := by
  refine ⟨fun expected => ⟨?_, fun w hw => ?_⟩, fun expected => ⟨?_, fun w hw => ?_⟩⟩
  · refine Ensures.left_of ((Snapshot.extract_keeps hd).post ?_) rfl
    rintro _ w ⟨⟨pr, hlinking⟩, -⟩
    exact hlinking.kept
  · exact ((Snapshot.extract_keeps hd).ok_of rfl hw).2
  · exact Ensures.left_of ((Artifact.extract_keeps hd).post (fun _ _ h => h.1)) rfl
  · exact ((Artifact.extract_keeps hd).ok_of rfl hw).2

namespace Sample

open JsonText

def dst : Bytes := ascii "dst"

/-- A disk with an empty directory. -/
def disk : Disk := (Disk.blank 0o755#9).plant [] dst (.dir 0o700#9)

/-- A directory, a file in it, a link over the file, and a path that climbs out. -/
def stream : List TarEntry :=
  [⟨ascii "a", .dir, 0o755, 0, [], []⟩, ⟨ascii "a/f", .reg, 0o644, 2, [], [1, 2]⟩,
    ⟨ascii "a/f", .symlink, 0o777, 0, ascii "../b", []⟩, ⟨ascii "../c", .reg, 0o644, 1, [], [3]⟩]

def codec : Codec := ⟨fun _ => [0], fun _ => ⟨true, stream, true, true⟩⟩

def sum : Bytes → Bytes := fun _ => List.replicate 32 0

def umask : Umask := ⟨0o022#9⟩

def expected : Snapshot.Metadata :=
  ⟨hexEncode (sum []), hexEncode (sum []), Snapshot.format, 1, 3, 4⟩

theorem destination : Destination disk [dst] [dst] where
  names := by decide
  leads := rfl
  isDir := by decide
  empty := by
    intro rel hrel
    have hkeys : disk.nodes.keys = [[dst], []] := by decide
    rw [Disk.node, AList.lookup_eq_none, AList.mem_keys, hkeys]
    simpa using hrel

end Sample

/-- An archive that is refused at its last entry, when a directory and a file are there. -/
theorem hostile_archive_confined :
    Destination Sample.disk [Sample.dst] [Sample.dst] ∧
      ((left (Snapshot.extract Sample.codec Sample.sum Sample.umask defaultLimits [0]
        [Sample.dst] Sample.expected ⟨Sample.disk, []⟩)).log.map Touch.actual =
        [[Sample.dst, [0x61]], [Sample.dst, [0x61]], [Sample.dst, [0x61], [0x66]],
          [Sample.dst, [0x61], [0x66]]]) ∧
      Kept Sample.disk [Sample.dst] [Sample.dst] (left (Snapshot.extract Sample.codec Sample.sum
        Sample.umask defaultLimits [0] [Sample.dst] Sample.expected ⟨Sample.disk, []⟩)) :=
  ⟨Sample.destination, by decide +kernel,
    ((extraction_confined Sample.disk [Sample.dst] [Sample.dst] Sample.destination Sample.codec
      Sample.sum Sample.umask defaultLimits [0]).1 Sample.expected).1⟩

end Archive
