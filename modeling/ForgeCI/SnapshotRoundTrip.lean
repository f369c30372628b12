import ForgeCI.Captures
import ForgeCI.SafeExtraction
import ForgeCI.Transfers

/-!
# The round trip of a snapshot

A directory gets its permissions as soon as it is extracted, before anything is put into it.  A
snapshot can therefore be extracted exactly when every captured directory with something in it
may be written by its owner; it then yields the tree it was made of.
-/

namespace Archive

open FileTree JsonText

theorem validDigest_hexEncode {b : Bytes} (h : b.length = 32) :
    validDigest (hexEncode b) = true := by
  have hdigit : ∀ n : Fin 16, isHexDigit (hexDigit n) = true := by decide
  rw [validDigest, Bool.and_eq_true, decide_eq_true_iff, length_hexEncode, h, List.all_eq_true]
  refine ⟨rfl, fun x hx => ?_⟩
  obtain ⟨n, hn, rfl⟩ := mem_hexEncode hx
  exact hdigit ⟨n, hn⟩

end Archive

namespace Snapshot

open FileTree Archive Effects

variable {codec : Codec} {sum : Bytes → Bytes} {umask : Umask} {limits : Limits} {d d' : Disk}
  {source dest rel : List Bytes} {p p' : Path} {top : Node} {m : Metadata} {archive : Bytes}
  {w : Work} {es : List Entry} {n : Nat}

theorem mkdirAll_parent {t : Tree} {dir : List Bytes} (hplace : Workplace d dest p)
    (hstaged : Staged d p t w.disk) (hopens : t.Opens dir) (mode : Mode) :
    mkdirAllReversed umask mode (dest ++ dir).reverse w = .ok () w := by
  obtain ⟨m, hm, -, -⟩ := hstaged.dir_node hplace hopens
  have hstat := Disk.stat_eq (hstaged.leads_dir hplace hopens) hm
  cases hrev : (dest ++ dir).reverse with
  | nil => rfl
  | cons last parents =>
    rw [mkdirAllReversed, get_bind, ← hrev, List.reverse_reverse, hstat]
    rfl

theorem mkdirAll_eq {t : Tree} {dir : List Bytes} {last : Bytes} (hplace : Workplace d dest p)
    (hstaged : Staged d p t w.disk) (hopens : t.Opens dir) (hname : Name last)
    (hnew : t (dir ++ [last]) = none) (mode : Mode) :
    mkdirAll umask (dest ++ (dir ++ [last])) mode w =
      mkdirOver umask (dest ++ (dir ++ [last])) mode w := by
  have hreverse : (dest ++ (dir ++ [last])).reverse = last :: (dest ++ dir).reverse := by simp
  have hback : (last :: (dest ++ dir).reverse).reverse = dest ++ (dir ++ [last]) := by simp
  rw [mkdirAll, hreverse, mkdirAllReversed, get_bind, hback,
    hstaged.stat_missing hplace hopens hname hnew]
  exact bind_ok (mkdirAll_parent hplace hstaged hopens mode)

/-- **A directory gets its permissions at once.** -/
theorem dirCase (hplace : Workplace d dest p) : DirCase id dest false d p (onDir umask) where
  ok := by
    intro w t dir last hstaged hopens hname hnew hwrites mode pr
    obtain ⟨w₁, hmake, hstaged₁⟩ :=
      hstaged.make_ok hplace hopens hname hnew hwrites (.dir (umask.apply mode))
    obtain ⟨w₂, hchmod, hstaged₂⟩ :=
      hstaged₁.chmod_ok hplace (hopens.update last _) hname (Function.update_self _ _ _) rfl mode
    rw [Function.update_idem] at hstaged₂
    refine ⟨w₂, ?_, hstaged₂⟩
    have hmkdir : mkdirAll umask (dest ++ (dir ++ [last])) mode w = .ok () w₁ := by
      rw [mkdirAll_eq hplace hstaged hopens hname hnew, mkdirOver, forgive, mkdir, hmake]
    rw [onDir, bind_ok hmkdir, bind_ok hchmod]
    rfl
  error := by
    intro w t dir last hstaged hopens hname hnew hwrites mode pr
    have hmake := hstaged.make_error hplace hopens hname hnew hwrites (.dir (umask.apply mode))
    have hlstat := hstaged.lstat_eq hplace hopens hname
    rw [hnew] at hlstat
    have hmkdir : mkdirAll umask (dest ++ (dir ++ [last])) mode w = .error (.call .access) w := by
      rw [mkdirAll_eq hplace hstaged hopens hname hnew, mkdirOver, forgive, mkdir, hmake]
      simp [isDirAt, hlstat]
    exact ⟨_, _, by rw [onDir, bind_error hmkdir]⟩

/-- The nodes that a snapshot has of a tree. -/
def kept (d : Disk) (p : Path) : Tree := fun rel =>
  if inGit d p rel = true then none else d.node (p ++ rel)

theorem mem_walked : rel ∈ package.walked d p ↔
    (d.node (p ++ rel)).isSome = true ∧ inGit d p rel = false := by
  rw [Package.walked, List.mem_filter, Disk.mem_inside]
  simp [package]

theorem mem_ranked : rel ∈ package.ranked d p ↔
    (d.node (p ++ rel)).isSome = true ∧ inGit d p rel = false ∧ rel ≠ [] := by
  rw [Package.mem_ranked, Package.listed, List.mem_filter, mem_walked, and_assoc]
  simp [Package.Listed, package]

theorem inGit_of_dir {pre : List Bytes} (hpre : pre <+: rel) (hne : pre ≠ rel)
    (h : inGit d p pre = true) : inGit d p rel = true := by
  obtain ⟨more, rfl⟩ := hpre
  have hmore : more ≠ [] := by
    rintro rfl
    simp at hne
  have hmem : gitName ∈ pre := by
    rw [inGit, Bool.or_eq_true, Bool.and_eq_true, decide_eq_true_iff, decide_eq_true_iff] at h
    rcases h with h | ⟨h, -⟩
    · exact List.mem_of_mem_dropLast h
    · exact List.mem_of_getLast? h
  grind [inGit]

theorem ranked_dir (h : rel ∈ package.ranked d p) {pre : List Bytes} (hpre : pre <+: rel)
    (hne : pre ≠ []) (hother : pre ≠ rel) : pre ∈ package.ranked d p := by
  obtain ⟨hsome, hgit, -⟩ := mem_ranked.1 h
  obtain ⟨node, hnode⟩ := Option.isSome_iff_exists.1 hsome
  obtain ⟨mode, hmode⟩ := (Disk.dir_of_node hnode).2 pre hpre hother
  refine mem_ranked.2 ⟨by simp [hmode], ?_, hne⟩
  rw [Bool.eq_false_iff]
  intro hin
  rw [inGit_of_dir hpre hother hin] at hgit
  cases hgit

theorem plan : Plan package d p id (kept d p) where
  inj := Function.injective_id
  named := fun _ _ => rfl
  safe := by
    intro rel hrel
    obtain ⟨hsome, -, hne⟩ := mem_ranked.1 hrel
    obtain ⟨node, hnode⟩ := Option.isSome_iff_exists.1 hsome
    exact ⟨hne, (Disk.dir_of_node hnode).1⟩
  nodes := by
    intro rel hrel
    simp [kept, (mem_ranked.1 hrel).2.1]
  parents := by
    intro rel hrel pre hpre hne hother
    exact ⟨pre, ranked_dir hrel hpre hne hother, rfl, hpre, hother⟩

/-- What is in place in the end. -/
theorem linked_eq (hne : rel ≠ []) :
    linked (kept d p) id (Plan.order package d p id) (Plan.order package d p id) rel =
      kept d p rel := by
  have hsettle : settle id = id := by
    funext node
    cases node <;> rfl
  by_cases hrel : rel ∈ package.ranked d p
  · simp [linked, hrel, hsettle]
  · have hnone : kept d p rel = none := by
      unfold kept
      split_ifs with hgit
      · rfl
      · cases hnode : d.node (p ++ rel) with
        | none => rfl
        | some node => exact absurd (mem_ranked.2 ⟨by simp [hnode], by simpa using hgit, hne⟩) hrel
    simp [linked, staged, hrel, hnone]

/-- Every captured directory below the root that has a captured entry may be written. -/
def Refillable (d : Disk) (p : Path) : Prop :=
  ∀ dir name mode, dir ≠ [] → d.node (p ++ dir) = some (.dir mode) →
    (d.node (p ++ (dir ++ [name]))).isSome = true → inGit d p (dir ++ [name]) = false →
      writable mode = true

theorem refillable_iff :
    Refillable d p ↔ ∀ names ∈ Plan.order package d p id, Makeable (kept d p) id names := by
  constructor
  · intro h names hnames
    have hrel : names ∈ package.ranked d p := by simpa using hnames
    obtain ⟨hsome, hgit, hne⟩ := mem_ranked.1 hrel
    by_cases hroot : names.dropLast = []
    · exact .inl hroot
    · obtain ⟨dir, name, rfl⟩ := (List.eq_nil_or_concat' names).resolve_left hne
      rw [List.dropLast_concat] at hroot
      obtain ⟨node, hnode⟩ := Option.isSome_iff_exists.1 hsome
      obtain ⟨mode, hmode⟩ :=
        (Disk.dir_of_node hnode).2 dir (List.prefix_append _ _) (by simp)
      have hdir := ranked_dir hrel (List.prefix_append dir [name]) hroot (by simp)
      refine .inr ⟨mode, ?_, h dir name mode hroot hmode hsome hgit⟩
      rw [List.dropLast_concat]
      exact (plan.nodes dir hdir).trans hmode
  · intro h dir name mode hne hmode hsome hgit
    have hrel : dir ++ [name] ∈ package.ranked d p := mem_ranked.2 ⟨hsome, hgit, by simp⟩
    rcases h (dir ++ [name]) (by simpa using hrel) with hroot | ⟨mode', hmode', hwrite⟩
    · exact absurd (by simpa using hroot) hne
    · rw [List.dropLast_concat] at hmode'
      have hdir := ranked_dir hrel (List.prefix_append dir [name]) hne (by simp)
      obtain rfl : mode' = mode := by
        have hnode := plan.nodes dir hdir
        grind
      exact hwrite

theorem capture_made (h : capture codec sum limits d source = .ok (m, archive)) :
    ∃ es n stream, scan sum limits d source = .ok (es, n) ∧
      es.mapM (Entry.tar texts sum d) = .ok stream ∧ archive = codec.encode stream ∧
      (archive.length : Int) ≤ limits.maxArchiveBytes ∧
      m = ⟨digestManifest sum es, hexEncode (sum archive), format, archive.length, n,
        es.length⟩ := by
  unfold capture at h
  cases hscan : scan sum limits d source with
  | error e => simp [hscan] at h
  | ok found =>
    obtain ⟨es, n⟩ := found
    simp only [hscan] at h
    cases hpack : package.pack codec sum limits d es with
    | error e => simp [hpack] at h
    | ok bytes =>
      simp only [hpack] at h
      cases h
      obtain ⟨stream, hstream, hencode, hsize⟩ := Package.pack_ok hpack
      exact ⟨es, n, stream, rfl, hstream, hencode, hsize, rfl⟩

/-- The tests of the metadata pass; what is left is to unpack and to verify. -/
theorem extract_eq (codec : Codec) (umask : Umask) (dest : List Bytes) (w : Work)
    (hsum : ∀ b, (sum b).length = 32) (hsize : (archive.length : Int) ≤ limits.maxArchiveBytes)
    (es : List Entry) (n k : Nat) :
    extract codec sum umask limits archive dest
        ⟨digestManifest sum es, hexEncode (sum archive), format, archive.length, n, k⟩ w =
      (package.unpack (onDir umask) (fun _ => .ok ()) umask limits k n (codec.decode archive)
        dest >>= fun _ => verify sum limits dest (digestManifest sum es)) w := by
  have hdigest : validDigest (digestManifest sum es) = true := validDigest_hexEncode (hsum _)
  unfold extract
  rw [if_neg (by simp [hdigest, validDigest_hexEncode (hsum _)]), if_neg (by simpa using hsize),
    if_neg (by simp)]

/-- The listing of the extracted tree has the same digest. -/
theorem verify_ok (htop : d.lstat source = .ok (p, top))
    (hscan : scan sum limits d source = .ok (es, n)) (hplace : Workplace d' dest p')
    {mode : Mode} (hdest : d'.lstat dest = .ok (p', .dir mode)) (hread : readable mode = true)
    (hstaged : Staged d' p' (fun rel => kept d p rel) w.disk) :
    verify sum limits dest (digestManifest sum es) w = .ok () w := by
  have hext := hstaged.extends_disk hplace
  have hdir : w.disk.node p' = some (.dir mode) := hext _ _ (Disk.lstat_ok hdest).1
  have hwalked : ∀ rel, rel ∈ package.walked w.disk p' ↔ rel ∈ package.walked d p := by
    intro rel
    rw [mem_walked, mem_walked]
    by_cases hne : rel = []
    · subst hne
      simp [hdir, (Disk.lstat_ok htop).1, inGit]
    · grind [hstaged.below, kept, Disk.isDir, inGit]
  have hlisted : ∀ rel ∈ package.ranked d p, w.disk.node (p' ++ rel) = d.node (p ++ rel) := by
    intro rel hrel
    obtain ⟨-, hgit, hne⟩ := mem_ranked.1 hrel
    rw [hstaged.below rel hne, kept, if_neg (by simp [hgit])]
  have hopen : ∀ rel ∈ package.listed d p, w.disk.Open p' rel := by
    intro rel hrel pre m hpre hother hm
    by_cases hne : pre = []
    · subst hne
      obtain ⟨m', hm', -, hsearch⟩ := hplace.usable
      rw [List.append_nil, hext _ _ hm'] at hm
      cases hm
      exact hsearch
    · have hrel' := Package.mem_ranked.2 hrel
      rw [hlisted pre (ranked_dir hrel' hpre hne hother)] at hm
      exact (Package.ranked_accepts htop hscan hrel').searched pre m hpre hother hm
  have hroot : ∀ m, w.disk.node p' = some (.dir m) → readable m = true := by grind
  obtain ⟨es', hscan', hsame⟩ := Package.scan_mirror htop hscan (hext.lstat hdest) hwalked
    (fun rel hrel => hlisted rel (Package.mem_ranked.2 hrel)) hopen fun _ => hroot
  have hdigest : package.digest sum es' = package.digest sum es := Package.digest_congr hsame
  rw [verify, Package.verify, get_bind, hscan', digestManifest]
  dsimp only
  rw [if_neg (by simpa using hdigest)]
  rfl

/-- **Which snapshots survive the round trip.**  Extraction into an empty directory succeeds with
the tree of the source if, and only if, every captured directory with a captured entry may be
written by its owner. -/
theorem round_trip_iff (hsum : ∀ b, (sum b).length = 32) (umask : Umask)
    (hcapture : capture codec sum limits d source = .ok (m, archive))
    (htop : d.lstat source = .ok (p, top)) (hcodec : ∀ stream, archive = codec.encode stream →
      codec.decode archive = ⟨true, stream, true, true⟩)
    (hplace : Workplace d' dest p') {mode : Mode} (hdest : d'.lstat dest = .ok (p', .dir mode))
    (hread : readable mode = true) (log : List Touch) :
    (∃ w, extract codec sum umask limits archive dest m ⟨d', log⟩ = .ok () w ∧
      ∀ rel, rel ≠ [] → w.disk.node (p' ++ rel) = kept d p rel) ↔ Refillable d p := by
  obtain ⟨es, n, stream, hscan, hstream, harchive, hsize, rfl⟩ := capture_made hcapture
  obtain rfl : stream = headers (kept d p) (Plan.order package d p id) := by
    rw [plan.stream htop hscan texts] at hstream
    exact (Except.ok.inj hstream).symm
  have hcount : es.length = (Plan.order package d p id).length := by
    rw [(Package.scan_limits htop hscan).2.1, List.length_map]
  have htransfer : Transfer package (fun _ => .ok ()) limits (kept d p) id
      (Plan.order package d p id) := by
    apply plan.transfer htop hscan (fun _ _ => rfl)
    intro rel hrel dir hdir hother m hm
    exact (Package.ranked_accepts htop hscan hrel).searched dir m hdir hother hm
  have hstart : Staged d' p' (fun _ => none) (Work.mk d' log).disk := hplace.staged
  have hrun : extract codec sum umask limits archive dest ⟨digestManifest sum es,
      hexEncode (sum archive), format, archive.length, n, es.length⟩ ⟨d', log⟩ =
      (package.unpack (onDir umask) (fun _ => .ok ()) umask limits
        (Plan.order package d p id).length (bytesOf (kept d p) (Plan.order package d p id))
        ⟨true, headers (kept d p) (Plan.order package d p id), true, true⟩ dest >>=
          fun _ => verify sum limits dest (digestManifest sum es)) ⟨d', log⟩ := by
    rw [extract_eq codec umask dest _ hsum hsize, hcodec _ harchive, hcount,
      plan.bytesOf_eq htop hscan]
  rw [hrun, refillable_iff]
  constructor
  · rintro ⟨w, hok, -⟩
    by_contra hnot
    push Not at hnot
    obtain ⟨e, w', herror⟩ := htransfer.unpack_error umask hplace (dirCase hplace) hstart hnot
    rw [bind_error herror] at hok
    cases hok
  · intro hmake
    obtain ⟨w, hunpack, hstaged⟩ :=
      htransfer.unpack_ok umask hplace (dirCase hplace) hstart hmake
    have hkept : Staged d' p' (fun rel => kept d p rel) w.disk :=
      ⟨fun rel hne => (hstaged.below rel hne).trans (linked_eq hne), hstaged.outside⟩
    refine ⟨w, ?_, hkept.below⟩
    rw [bind_ok hunpack]
    exact verify_ok htop hscan hplace hdest hread hkept

namespace Sample

open JsonText

/-- A source with a directory of the given permissions and a file in it. -/
def tree (mode : Mode) : Disk :=
  (((Disk.blank 0o755#9).plant [] (ascii "src") (.dir 0o755#9)).plant [ascii "src"] (ascii "a")
    (.dir mode)).plant [ascii "src", ascii "a"] (ascii "f") (.file 0o644#9 [1])

/-- The archive of such a source. -/
def stream (mode : Mode) : List TarEntry :=
  [⟨ascii "a", .dir, mode.toNat, 0, [], []⟩, ⟨ascii "a/f", .reg, 0o644, 1, [], [1]⟩]

def coding (mode : Mode) : Codec :=
  ⟨fun s => if s = stream mode then [1] else [], fun _ => ⟨true, stream mode, true, true⟩⟩

theorem coding_inverse (mode : Mode) (s : List TarEntry) (h : [1] = (coding mode).encode s) :
    (coding mode).decode [1] = ⟨true, s, true, true⟩ := by
  simp only [coding] at h ⊢
  split_ifs at h with heq
  rw [heq]

def metadata : Metadata :=
  ⟨hexEncode (List.replicate 32 0), hexEncode (List.replicate 32 0), format, 1, 1, 2⟩

theorem workplace : Workplace Archive.Sample.disk [Archive.Sample.dst] [Archive.Sample.dst] where
  toDestination := Archive.Sample.destination
  usable := ⟨0o700#9, by decide, by decide, by decide⟩

theorem refillable : Refillable (tree 0o755#9) [ascii "src"] := by
  intro dir name mode hne hmode _ _
  have hkeys : (tree 0o755#9).nodes.keys = [[ascii "src", ascii "a", ascii "f"],
      [ascii "src", ascii "a"], [ascii "src"], []] := by decide
  have hmem : [ascii "src"] ++ dir ∈ (tree 0o755#9).nodes.keys :=
    AList.mem_keys.1 (AList.lookup_isSome.1 (Option.isSome_of_eq_some hmode))
  rw [hkeys] at hmem
  simp only [List.cons_append, List.nil_append, List.mem_cons, List.cons.injEq, true_and,
    List.not_mem_nil, or_false, reduceCtorEq] at hmem
  rcases hmem with rfl | rfl | rfl
  · cases hmode.symm.trans (by decide : (tree 0o755#9).node _ = some (.file 0o644#9 [1]))
  · cases hmode.symm.trans (by decide : (tree 0o755#9).node _ = some (.dir 0o755#9))
    decide
  · exact absurd rfl hne

end Sample

theorem round_trip_iff_writable : ∃ w, extract (Sample.coding 0o755#9) Archive.Sample.sum
    Archive.Sample.umask defaultLimits [1] [Archive.Sample.dst] Sample.metadata
      ⟨Archive.Sample.disk, []⟩ = .ok () w ∧
    ∀ rel, rel ≠ [] → w.disk.node ([Archive.Sample.dst] ++ rel) =
      kept (Sample.tree 0o755#9) [JsonText.ascii "src"] rel := by
  have hcapture : capture (Sample.coding 0o755#9) Archive.Sample.sum defaultLimits
      (Sample.tree 0o755#9) [JsonText.ascii "src"] = .ok (Sample.metadata, [1]) := by decide +kernel
  have htop : (Sample.tree 0o755#9).lstat [JsonText.ascii "src"] =
      .ok ([JsonText.ascii "src"], .dir 0o755#9) := by decide +kernel
  have hdest : Archive.Sample.disk.lstat [Archive.Sample.dst] =
      .ok ([Archive.Sample.dst], .dir 0o700#9) := by decide +kernel
  exact (round_trip_iff (fun _ => rfl) Archive.Sample.umask hcapture htop
    (Sample.coding_inverse 0o755#9) Sample.workplace hdest (by decide) []).2 Sample.refillable

/-- **A read-only directory is not extracted** with what it contains. -/
theorem read_only_directory_fails : ¬∀ (codec : Codec) (sum : Bytes → Bytes) (umask : Umask)
    (limits : Limits) (d d' : Disk) (source dest : List Bytes) (p p' : Path) (top : Node)
    (mode : Mode) (m : Metadata) (archive : Bytes), (∀ b, (sum b).length = 32) →
    capture codec sum limits d source = .ok (m, archive) → d.lstat source = .ok (p, top) →
    (∀ stream, archive = codec.encode stream → codec.decode archive = ⟨true, stream, true, true⟩) →
    Workplace d' dest p' → d'.lstat dest = .ok (p', .dir mode) → readable mode = true →
    ∃ w, extract codec sum umask limits archive dest m ⟨d', []⟩ = .ok () w ∧
      ∀ rel, rel ≠ [] → w.disk.node (p' ++ rel) = kept d p rel := by
  intro h
  obtain ⟨w, hok, -⟩ := h (Sample.coding 0o555#9) Archive.Sample.sum Archive.Sample.umask
    defaultLimits (Sample.tree 0o555#9) Archive.Sample.disk [JsonText.ascii "src"]
    [Archive.Sample.dst] [JsonText.ascii "src"] [Archive.Sample.dst] (.dir 0o755#9) 0o700#9
    Sample.metadata [1] (fun _ => rfl) (by decide +kernel) (by decide +kernel)
    (Sample.coding_inverse 0o555#9) Sample.workplace (by decide +kernel) (by decide)
  have hfails : (match extract (Sample.coding 0o555#9) Archive.Sample.sum Archive.Sample.umask
      defaultLimits [1] [Archive.Sample.dst] Sample.metadata ⟨Archive.Sample.disk, []⟩ with
      | .ok _ _ => true
      | .error _ _ => false) = false := by decide +kernel
  rw [hok] at hfails
  cases hfails

end Snapshot
