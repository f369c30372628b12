import ForgeCI.SnapshotRoundTrip

/-!
# The round trip of artifacts and caches

An archive of an artifact is extracted with directories that only their owner may use, and these
get their permissions when everything is in place, the last one first: a directory that may not
be written or searched blocks nothing that is still to be done.  Every artifact and every cache
therefore survives the round trip.
-/

namespace Artifact

open FileTree Archive Effects

variable {codec : Codec} {sum : Bytes → Bytes} {umask : Umask} {limits : Limits} {d d' : Disk}
  {source dest rel : List Bytes} {p p' : Path} {top : Node} {name root archive : Bytes}
  {m : Metadata} {w : Work} {es : List Entry} {n : Nat}

/-- The permissions of a directory while it is filled. -/
def private700 : Mode → Mode := fun _ => 0o700#9

theorem umask_apply (hmask : umask.SparesOwner) : umask.apply 0o700#9 = 0o700#9 := by
  have hall : ∀ bits : Mode, bits &&& 0o700#9 = 0 → 0o700#9 &&& ~~~bits = 0o700#9 := by
    decide +kernel
  exact hall umask.bits hmask

/-- **A directory is made for its owner**, and noted. -/
theorem dirCase (hmask : umask.SparesOwner) (hplace : Workplace d dest p) :
    DirCase private700 dest true d p (onDir umask) where
  ok := by
    intro w t dir last hstaged hopens hname hnew hwrites mode pr
    obtain ⟨w', hmake, hstaged'⟩ :=
      hstaged.make_ok hplace hopens hname hnew hwrites (.dir (umask.apply 0o700#9))
    rw [umask_apply hmask] at hstaged'
    have hmkdir : mkdirUnlessThere umask (dest ++ (dir ++ [last])) 0o700#9 w = .ok () w' := by
      rw [mkdirUnlessThere, forgive, mkdir, hmake]
    refine ⟨w', ?_, hstaged'⟩
    rw [onDir, bind_ok hmkdir]
    rfl
  error := by
    intro w t dir last hstaged hopens hname hnew hwrites mode pr
    have hmake := hstaged.make_error hplace hopens hname hnew hwrites (.dir (umask.apply 0o700#9))
    have hmkdir : mkdirUnlessThere umask (dest ++ (dir ++ [last])) 0o700#9 w =
        .error (.call .access) w := by
      rw [mkdirUnlessThere, forgive, mkdir, hmake]
      rfl
    exact ⟨_, _, by rw [onDir, bind_error hmkdir]⟩

/-- The nodes of an artifact, below the directory its root is in. -/
def rooted (d : Disk) (p : Path) (root : Bytes) : Tree
  | [] => none
  | first :: rel => if first = root then d.node (p ++ rel) else none

theorem mem_ranked : rel ∈ (package root).ranked d p ↔ (d.node (p ++ rel)).isSome = true := by
  rw [Package.mem_ranked, Package.listed, List.mem_filter, Package.walked, List.mem_filter,
    Disk.mem_inside]
  simp [Package.Listed, package]

theorem plan (hroot : Name root) : Plan (package root) d p (root :: ·) (rooted d p root) where
  inj := List.cons_injective
  named := by
    intro rel hrel
    obtain ⟨node, hnode⟩ := Option.isSome_iff_exists.1 (mem_ranked.1 hrel)
    exact artifact_nameOf hroot (Disk.dir_of_node hnode).1
  safe := by
    intro rel hrel
    obtain ⟨node, hnode⟩ := Option.isSome_iff_exists.1 (mem_ranked.1 hrel)
    exact ⟨by simp, List.forall_mem_cons.2 ⟨hroot, (Disk.dir_of_node hnode).1⟩⟩
  nodes := by
    intro rel _
    simp [rooted]
  parents := by
    intro rel hrel pre hpre hne hother
    obtain ⟨node, hnode⟩ := Option.isSome_iff_exists.1 (mem_ranked.1 hrel)
    cases pre with
    | nil => exact absurd rfl hne
    | cons first dir =>
      obtain ⟨rfl, hdir⟩ := List.cons_prefix_cons.1 hpre
      have hproper : dir ≠ rel := by
        rintro rfl
        exact hother rfl
      obtain ⟨mode, hmode⟩ := (Disk.dir_of_node hnode).2 dir hdir hproper
      exact ⟨dir, mem_ranked.2 (by simp [hmode]), rfl, hdir, hproper⟩

theorem mem_order {names : List Bytes} :
    names ∈ Plan.order (package root) d p (root :: ·) ↔ (rooted d p root names).isSome = true := by
  rw [Plan.order, List.mem_map]
  cases names with
  | nil => simp [rooted]
  | cons first rel => grind [mem_ranked, rooted]

section Chmods

variable {T : Tree} {order back : List (List Bytes)} {belongs : Bytes → Except Failure Unit}
  {pkg : Package}

theorem finished_nil : finished T private700 order [] = linked T private700 order order := by
  funext names
  simp [finished]

theorem finished_cons (names : List Bytes) :
    finished T private700 order (names :: back) =
      Function.update (finished T private700 order back) names (T names) := by
  grind [finished]

/-- **The directories get their permissions**, the last one first: those on the way to one still
have the permissions they were made with. -/
theorem chmods_ok (h : Transfer pkg belongs limits T private700 order)
    (hplace : Workplace d dest p) (front : List (List Bytes)) (hsplit : order = front ++ back)
    (hstaged : Staged d p (finished T private700 order back) w.disk) :
    ∃ w', ((dirsOf T dest front).reverse.forM fun dir => chmod dir.1 dir.2) w = .ok () w' ∧
      Staged d p (finished T private700 order order) w'.disk := by
  induction front using List.reverseRecOn generalizing back w with
  | nil =>
    rw [List.nil_append] at hsplit
    subst hsplit
    exact ⟨w, rfl, hstaged⟩
  | append_singleton front names ih =>
    have hlayout : order = front ++ names :: back := by simpa using hsplit
    have hmem := Transfer.split_mem hlayout
    have hfresh : ∀ other ∈ front ++ [names], other ∉ back := by
      intro other hother hback
      have hnodup := h.nodup
      rw [hsplit, List.nodup_append] at hnodup
      exact hnodup.2.2 other hother other hback rfl
    have hsettled : ∀ other ∈ front ++ [names],
        finished T private700 order back other = (T other).map (settle private700) := by
      intro other hother
      have horder : other ∈ order := by grind
      simp [finished, hfresh other hother, linked, horder]
    obtain ⟨node, hnode⟩ := h.there names hmem
    have hskip : settle private700 node = node →
        dirsOf T dest (front ++ [names]) = dirsOf T dest front →
        ∃ w', ((dirsOf T dest (front ++ [names])).reverse.forM fun dir => chmod dir.1 dir.2) w =
          .ok () w' ∧ Staged d p (finished T private700 order order) w'.disk := by
      intro hsame hdirs
      rw [hdirs]
      apply ih hlayout
      have hnames : finished T private700 order back names = T names := by
        rw [hsettled names (by simp), hnode, Option.map_some, hsame]
      rwa [finished_cons, ← hnames, Function.update_eq_self]
    cases node with
    | dir mode =>
      have hsafe := h.safe names hmem
      obtain ⟨hopens, -⟩ :=
        h.opens_and_writes (t := finished T private700 order back) hlayout <| by
          intro pre hpre m hm
          rw [hsettled pre (by simp [hpre]), hm]
          rfl
      obtain ⟨dir, last, rfl⟩ := (List.eq_nil_or_concat' names).resolve_left hsafe.ne_nil
      rw [List.dropLast_concat] at hopens
      have hthere : finished T private700 order back (dir ++ [last]) = some (.dir 0o700#9) := by
        rw [hsettled _ (by simp), hnode]
        rfl
      obtain ⟨w₁, hone, hstaged₁⟩ := hstaged.chmod_ok hplace hopens
        (hsafe.names last (by simp)) hthere rfl mode
      have hnext :
          Staged d p (finished T private700 order ((dir ++ [last]) :: back)) w₁.disk := by
        rw [finished_cons, hnode]
        exact hstaged₁
      obtain ⟨w₂, hrun, hstaged₂⟩ := ih hlayout hnext
      refine ⟨w₂, ?_, hstaged₂⟩
      have hdirs : dirsOf T dest (front ++ [dir ++ [last]]) =
          dirsOf T dest front ++ [(dest ++ (dir ++ [last]), mode)] := by
        simp [dirsOf, hnode]
      rw [hdirs, List.reverse_append, List.reverse_singleton, List.singleton_append,
        List.forM_eq_forM, List.forM_cons, bind_ok hone]
      exact hrun
    | file mode content | link target | other mode => exact hskip rfl (by simp [dirsOf, hnode])

end Chmods

/-- The tests of the metadata pass; what is left is to unpack, to set the permissions and to
verify. -/
theorem extract_ok (hsum : ∀ b, (sum b).length = 32) (hlimits : limits.valid = true)
    (hroot : Name root) (hsafe : unsafePath root = false)
    (hsize : (archive.length : Int) ≤ limits.maxArchiveBytes) {kind : RootKind} {k : Nat}
    (hk : 1 ≤ k) {pr : Progress} {w₁ w₂ : Work}
    (hunpack : (package root).unpack (onDir umask) (belongs root) umask limits k n
      (codec.decode archive) dest w = .ok pr w₁)
    (hchmods : (pr.directories.reverse.forM fun dir => chmod dir.1 dir.2) w₁ = .ok () w₂)
    (hverify : (package root).verify sum limits (join dest root) (digestManifest sum es) w₂ =
      .ok () w₂) :
    extract codec sum umask limits archive dest ⟨name, root, kind, digestManifest sum es,
      hexEncode (sum archive), format, archive.length, n, k⟩ w = .ok () w₂ := by
  have hdigest : validDigest (digestManifest sum es) = true := validDigest_hexEncode (hsum _)
  have hblob : validDigest (hexEncode (sum archive)) = true := validDigest_hexEncode (hsum _)
  have hbase : isBase root = true := by
    have hsplit : Lexical.split slash (path [root]) = [root] :=
      Safe.split_path ⟨by simp, by simpa using hroot⟩
    have hone : path [root] = root := by simp [path]
    rw [hone] at hsplit
    simp [isBase, hsplit]
  have hvalid : validateMetadata ⟨name, root, kind, digestManifest sum es,
      hexEncode (sum archive), format, archive.length, n, k⟩ limits = .ok () := by
    grind [validateMetadata]
  unfold extract
  rw [hvalid]
  simp only [ne_eq, not_true, if_false]
  rw [bind_ok hunpack, bind_ok hchmods, hverify]

/-- The tree at `p` is there again, under the name of its root. -/
def Restored (d : Disk) (p : Path) (d'' : Disk) (p' : Path) (root : Bytes) : Prop :=
  ∀ rel, d''.node (p' ++ root :: rel) = d.node (p ++ rel)

theorem verify_ok (htop : d.lstat source = .ok (p, top))
    (hscan : scan sum limits d source root = .ok (es, n)) (hplace : Workplace d' dest p')
    (hroot : Name root) (hstaged : Staged d' p' (rooted d p root) w.disk) :
    (package root).verify sum limits (join dest root) (digestManifest sum es) w = .ok () w := by
  have hnode : ∀ rel, w.disk.node (p' ++ [root] ++ rel) = d.node (p ++ rel) := by
    grind [hstaged.below, rooted]
  have hlstat : w.disk.lstat (dest ++ ([] ++ [root])) = .ok (p' ++ ([] ++ [root]), top) := by
    have hopens : (rooted d p root).Opens [] :=
      fun pre hpre hne => absurd (List.prefix_nil.1 hpre) hne
    have htree : rooted d p root ([] ++ [root]) = some top := by
      simp [rooted, (Disk.lstat_ok htop).1]
    rw [hstaged.lstat_eq hplace hopens hroot, htree]
  have hwalked : ∀ rel, rel ∈ (package root).walked w.disk (p' ++ [root]) ↔
      rel ∈ (package root).walked d p := by
    intro rel
    simp only [Package.walked, List.mem_filter, Disk.mem_inside, hnode, package]
  have hopen : ∀ rel ∈ (package root).listed d p, w.disk.Open (p' ++ [root]) rel := by
    intro rel hrel pre mode hpre hne hmode
    rw [hnode] at hmode
    exact (Package.ranked_accepts htop hscan (Package.mem_ranked.2 hrel)).searched pre mode hpre
      hne hmode
  obtain ⟨es', hscan', hsame⟩ := Package.scan_mirror htop hscan hlstat hwalked
    (fun rel _ => hnode rel) hopen (by simp [package])
  have hjoin : join dest root = dest ++ ([] ++ [root]) := by
    have hone : path [root] = root := by simp [path]
    have hsafe : Safe [root] := ⟨by simp, by simpa using hroot⟩
    have hpath := join_path hplace.names hsafe
    rw [hone] at hpath
    exact hpath
  have hdigest : (package root).digest sum es' = digestManifest sum es := Package.digest_congr hsame
  rw [Package.verify, get_bind, hjoin, hscan']
  dsimp only
  rw [if_neg (by simpa using hdigest)]
  rfl

/-- What a round trip needs: a source that is found, a place to extract to, and formats that lose
nothing of the archive. -/
structure Trip (codec : Codec) (archive : Bytes) (d : Disk) (source : List Bytes) (p : Path)
    (d' : Disk) (dest : List Bytes) (p' : Path) : Prop where
  clean : ∀ part ∈ source, Name part
  found : ∃ top, d.lstat source = .ok (p, top)
  inverse : ∀ stream, archive = codec.encode stream →
    codec.decode archive = ⟨true, stream, true, true⟩
  place : Workplace d' dest p'

/-- **Every artifact survives the round trip.** -/
theorem extract_restores (hsum : ∀ b, (sum b).length = 32) (hmask : umask.SparesOwner)
    (htrip : Trip codec archive d source p d' dest p')
    (hcapture : capture codec sum limits d source name = .ok (m, archive)) (log : List Touch) :
    ∃ w, extract codec sum umask limits archive dest m ⟨d', log⟩ = .ok () w ∧
      Restored d p w.disk p' m.rootName := by
  obtain ⟨top, htop⟩ := htrip.found
  have hplace := htrip.place
  obtain ⟨hlimits, -, -, kind, es, n, -, hscan, hholds, hsize, rfl⟩ := capture_made hcapture
  have hroot : Name (base source) := by
    obtain ⟨init, last, rfl⟩ :=
      (List.eq_nil_or_concat' source).resolve_left hholds.source_ne_nil
    simpa [base] using htrip.clean last (by simp)
  obtain ⟨stream, hstream, harchive⟩ := hholds.packed
  have hheaders := (plan hroot).stream htop hscan texts
  obtain rfl := Except.ok.inj (hstream.symm.trans hheaders)
  obtain ⟨-, hcount, -, -⟩ := Package.scan_limits htop hscan
  have hthere : [] ∈ (package (base source)).ranked d p :=
    mem_ranked.2 (by simp [(Disk.lstat_ok htop).1])
  have hsafe : unsafePath (base source) = false :=
    (Package.ranked_accepts htop hscan hthere).named.safe
  have hbelongs : ∀ rel ∈ (package (base source)).ranked d p,
      belongs (base source) (path (base source :: rel)) = .ok () := by
    intro rel hrel
    have hbelow : below (base source) (path (base source :: rel)) = true := by
      rw [below_iff hroot.slash_free, ((plan hroot).safe rel hrel).split_path]
      rfl
    simp [belongs, hbelow]
  have htransfer : Transfer (package (base source)) (belongs (base source)) limits
      (rooted d p (base source)) private700 (Plan.order (package (base source)) d p _) :=
    (plan hroot).transfer htop hscan hbelongs
      fun _ _ _ _ _ _ _ => (by decide : searchable 0o700#9 = true)
  have hstart : Staged d' p' (fun _ => none) (Work.mk d' log).disk := hplace.staged
  obtain ⟨w₁, hunpack, hstaged₁⟩ := htransfer.unpack_ok umask hplace (dirCase hmask hplace) hstart
    fun _ => htransfer.makeable fun _ => (by decide : writable 0o700#9 = true)
  rw [← finished_nil] at hstaged₁
  obtain ⟨w₂, hchmods, hstaged₂⟩ :=
    chmods_ok htransfer hplace _ (List.append_nil _).symm hstaged₁
  have hfinal : Staged d' p' (rooted d p (base source)) w₂.disk := by
    refine ⟨fun names hne => (hstaged₂.below names hne).trans ?_, hstaged₂.outside⟩
    by_cases hnames : names ∈ Plan.order (package (base source)) d p (base source :: ·)
    · simp only [finished, if_pos hnames]
    · have hnone : rooted d p (base source) names = none := by
        simpa using fun h => hnames (mem_order.2 h)
      simp only [finished, if_neg hnames, linked, staged, hnone]
  refine ⟨w₂, ?_, ?_⟩
  · have hlength : es.length =
        (Plan.order (package (base source)) d p (base source :: ·)).length := by
      rw [hcount, List.length_map]
    have hpositive : 1 ≤ es.length := by
      rw [hcount]
      exact List.length_pos_of_mem hthere
    rw [← hlength, (plan hroot).bytesOf_eq htop hscan, ← htrip.inverse _ harchive] at hunpack
    exact extract_ok hsum hlimits hroot hsafe hsize hpositive hunpack hchmods
      (verify_ok htop hscan hplace hroot hfinal)
  · intro rel
    rw [hfinal.below _ (by simp)]
    simp [rooted]

/-- The digest of an artifact is that of its listing. -/
theorem contentSHA256_eq (hcapture : capture codec sum limits d source name = .ok (m, archive))
    (hscan : scan sum limits d source (base source) = .ok (es, n)) :
    m.contentSHA256 = digestManifest sum es := by
  obtain ⟨-, -, -, -, es', n', -, hscan', -, -, rfl⟩ := capture_made hcapture
  rw [hscan'] at hscan
  cases hscan
  rfl

end Artifact

namespace BuildCache

open FileTree Archive Artifact

variable {codec : Codec} {sum : Bytes → Bytes} {limits : Limits} {d d' : Disk}
  {source dest : List Bytes} {p p' : Path} {key archive : Bytes} {m : Metadata}

/-- A cache is an artifact under another format. -/
theorem capture_made (h : capture codec sum limits d source key = .ok (m, archive)) :
    Artifact.capture codec sum limits d source key =
      .ok ({ m.toMetadata with format := Artifact.format }, archive) := by
  unfold capture at h
  cases hcapture : Artifact.capture codec sum limits d source key with
  | error e => simp [hcapture] at h
  | ok result =>
    obtain ⟨captured, bytes⟩ := result
    simp only [hcapture] at h
    cases h
    obtain ⟨-, -, -, -, -, -, -, -, -, -, rfl⟩ := Artifact.capture_made hcapture
    rfl

end BuildCache

namespace Artifact

open FileTree Archive

variable {sum : Bytes → Bytes}

/-- **Artifacts and caches survive the round trip**, whatever the permissions in them are; and
the digest of a tree does not depend on where it is. -/
theorem archive_round_trip (hsum : ∀ b, (sum b).length = 32) :
    (∀ (codec : Codec) (umask : Umask) (limits : Limits) (d d' : Disk) (source dest : List Bytes)
      (p p' : Path) (name : Bytes) (m : Metadata) (archive : Bytes) (log : List Touch),
      umask.SparesOwner → Trip codec archive d source p d' dest p' →
      capture codec sum limits d source name = .ok (m, archive) →
      ∃ w, extract codec sum umask limits archive dest m ⟨d', log⟩ = .ok () w ∧
        Restored d p w.disk p' m.rootName) ∧
    (∀ (codec : Codec) (umask : Umask) (limits : Limits) (d d' : Disk) (source dest : List Bytes)
      (p p' : Path) (key : Bytes) (m : BuildCache.Metadata) (archive : Bytes) (log : List Touch),
      umask.SparesOwner → Trip codec archive d source p d' dest p' →
      BuildCache.capture codec sum limits d source key = .ok (m, archive) →
      ∃ w, BuildCache.extract codec sum umask limits archive dest m ⟨d', log⟩ = .ok () w ∧
        Restored d p w.disk p' m.rootName) ∧
    (∀ (codec codec' : Codec) (limits limits' : Limits) (d d' : Disk) (source source' : List Bytes)
      (name name' archive archive' : Bytes) (es es' : List Entry) (n n' : Nat),
      scan sum limits d source (base source) = .ok (es, n) →
      scan sum limits' d' source' (base source') = .ok (es', n') →
      es.map Entry.hostless = es'.map Entry.hostless →
      (∀ m m' : Metadata, capture codec sum limits d source name = .ok (m, archive) →
        capture codec' sum limits' d' source' name' = .ok (m', archive') →
        m.contentSHA256 = m'.contentSHA256) ∧
      (∀ m m' : BuildCache.Metadata,
        BuildCache.capture codec sum limits d source name = .ok (m, archive) →
        BuildCache.capture codec' sum limits' d' source' name' = .ok (m', archive') →
        m.contentSHA256 = m'.contentSHA256)) := by
  refine ⟨?_, ?_, ?_⟩
  · intro codec umask limits d d' source dest p p' name m archive log hmask htrip hcapture
    exact extract_restores hsum hmask htrip hcapture log
  · intro codec umask limits d d' source dest p p' key m archive log hmask htrip hcapture
    exact extract_restores hsum hmask htrip (BuildCache.capture_made hcapture) log
  · intro codec codec' limits limits' d d' source source' name name' archive archive' es es' n n'
      hscan hscan' hsame
    have hdigest : (package []).digest sum es = (package []).digest sum es' :=
      Package.digest_congr hsame
    refine ⟨fun m m' hcapture hcapture' => ?_, fun m m' hcapture hcapture' => ?_⟩
    · have hleft := contentSHA256_eq hcapture hscan
      have hright := contentSHA256_eq hcapture' hscan'
      exact hleft.trans (hdigest.trans hright.symm)
    · have hleft := contentSHA256_eq (BuildCache.capture_made hcapture) hscan
      have hright := contentSHA256_eq (BuildCache.capture_made hcapture') hscan'
      exact hleft.trans (hdigest.trans hright.symm)

namespace Sample

open JsonText

/-- The archive of a read-only directory with a file in it. -/
def stream : List TarEntry :=
  [⟨ascii "a", .dir, 0o555, 0, [], []⟩, ⟨ascii "a/f", .reg, 0o644, 1, [], [1]⟩]

def coding : Codec :=
  ⟨fun s => if s = stream then [1] else [], fun _ => ⟨true, stream, true, true⟩⟩

def metadata : Metadata :=
  ⟨ascii "out", ascii "a", .directory, hexEncode (List.replicate 32 0),
    hexEncode (List.replicate 32 0), format, 1, 1, 2⟩

theorem trip : Trip coding [1] (Snapshot.Sample.tree 0o555#9) [ascii "src", ascii "a"]
    [ascii "src", ascii "a"] Archive.Sample.disk [Archive.Sample.dst] [Archive.Sample.dst] where
  clean := by decide
  found := ⟨.dir 0o555#9, by decide +kernel⟩
  inverse := by grind [coding]
  place := Snapshot.Sample.workplace

end Sample

theorem archive_round_trip_read_only : ∃ w, extract Sample.coding Archive.Sample.sum
    Archive.Sample.umask defaultLimits [1] [Archive.Sample.dst] Sample.metadata
      ⟨Archive.Sample.disk, []⟩ = .ok () w ∧
    Restored (Snapshot.Sample.tree 0o555#9) [JsonText.ascii "src", JsonText.ascii "a"] w.disk
      [Archive.Sample.dst] (JsonText.ascii "a") := by
  have hcapture : capture Sample.coding Archive.Sample.sum defaultLimits
      (Snapshot.Sample.tree 0o555#9) [JsonText.ascii "src", JsonText.ascii "a"]
      (JsonText.ascii "out") = .ok (Sample.metadata, [1]) := by decide +kernel
  have hmask : Archive.Sample.umask.SparesOwner := by decide
  exact (archive_round_trip (fun _ => rfl)).1 _ _ _ _ _ _ _ _ _ _ _ _ [] hmask Sample.trip
    hcapture

end Artifact
