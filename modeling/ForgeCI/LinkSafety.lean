import ForgeCI.Captures
import ForgeCI.LinkWalks
import ForgeCI.SafeExtraction

/-!
# Where the links of an accepted tree lead

The source tests every link by the text of its target.  That is enough: a target goes up some
directories and then down along names, so that what is left of a resolution after a link never
goes up further than the test has counted.

Snapshots leave out `.git` directories, and with them the links there.  A link into such a
directory is accepted, and from there the way is free.
-/

namespace Archive

open FileTree Lexical
open JsonText (ascii)

variable {d : Disk} {base p : Path} {seen : Path → Prop} {root : Bytes} {w : Walk}

/-- Links that pass the test of a snapshot. -/
theorem snapshot_contained (h : ∀ inner name target, seen (base ++ inner) →
      d.node (base ++ (inner ++ [name])) = some (.link target) →
      unsafeLink target = false ∧
        climbs (resolved (path (inner ++ [name])) target) = false) :
    d.Contained base seen fun _ => True := by
  intro inner name target hseen _ hlink
  obtain ⟨hplain, hclimbs⟩ := h inner name target hseen hlink
  obtain ⟨-, -, n, names, hnames, rfl⟩ := unsafeLink_iff.1 hplain
  have hsafe : Safe (inner ++ [name]) := ⟨by simp, (Disk.dir_of_node hlink).1⟩
  exact ⟨n, names, hnames, rfl, (climbs_resolved_iff hsafe hnames).1 hclimbs, fun _ => trivial⟩

/-- Links that pass the test of an artifact. -/
theorem artifact_contained (hroot : Name root) (h : ∀ inner name target,
      (inner ++ [name]).head? = some root →
      d.node (base ++ (inner ++ [name])) = some (.link target) →
      unsafeLink target = false ∧
        below root (resolved (path (inner ++ [name])) target) = true) :
    d.Contained base (fun _ => True) fun first => first = some root := by
  intro inner name target _ hfirst hlink
  obtain ⟨hplain, hbelow⟩ := h inner name target hfirst hlink
  obtain ⟨-, -, n, names, hnames, rfl⟩ := unsafeLink_iff.1 hplain
  have hsafe : Safe (inner ++ [name]) := ⟨by simp, (Disk.dir_of_node hlink).1⟩
  have hinner : inner ≠ [] → inner.head? = some root := by
    intro hne
    rwa [List.head?_append_of_ne_nil _ hne] at hfirst
  obtain ⟨hn, hback⟩ := (below_resolved_iff hroot hsafe hinner hnames).1 hbelow
  exact ⟨n, names, hnames, rfl, hn, hback⟩

/-- From the root of a snapshot. -/
theorem below_of_snapshot (h : d.Contained p seen fun _ => True) {names : List Bytes}
    (hnames : ∀ part ∈ names, Name part) (hw : d.Reaches seen ⟨p, names⟩ w) : p <+: w.here := by
  have hstart : Disk.Inside p (fun _ => True) ⟨p, names⟩ [] 0 names :=
    ⟨by simp, trim_eq_self (.of_names hnames), hnames, Nat.le_refl _, fun _ => trivial,
      fun _ => trivial⟩
  obtain ⟨inner, n, rest, hinside⟩ := Disk.stays_inside h (fun _ _ => trivial) hstart hw
  exact ⟨inner, hinside.here.symm⟩

/-- From the directory of an artifact, by the name of its root. -/
theorem below_of_artifact (hroot : Name root)
    (h : d.Contained p (fun _ => True) fun first => first = some root) {names : List Bytes}
    (hnames : ∀ part ∈ names, Name part) (hw : d.Reaches (fun _ => True) ⟨p, root :: names⟩ w) :
    p <+: w.here ∧ (w.todo = [] → p ++ [root] <+: w.here) := by
  have hplain : ∀ part ∈ root :: names, Name part := by grind
  have hstart : Disk.Inside p (fun first => first = some root) ⟨p, root :: names⟩ [] 0
      (root :: names) :=
    ⟨by simp, trim_eq_self (.of_names hplain), hplain, Nat.le_refl _, fun _ => rfl,
      fun hne => absurd rfl hne⟩
  obtain ⟨inner, n, rest, hinside⟩ := Disk.stays_inside h (by simp) hstart hw
  refine ⟨⟨inner, hinside.here.symm⟩, ?_⟩
  intro hdone
  -- Nothing is left to read, so the resolution is not in the directory of the root.
  have htodo := hinside.todo
  rw [hdone] at htodo
  obtain ⟨hups, rfl⟩ := List.append_eq_nil_iff.1 htodo.symm
  have hn : n = 0 := by simpa [ups] using hups
  cases inner with
  | nil =>
    have hback := hinside.back hn
    cases hback
  | cons first more =>
    obtain rfl : first = root := by simpa using hinside.start (by simp)
    rw [hinside.here]
    exact ⟨more, by simp⟩

/-- The walk has not gone into a `.git` directory below `p`. -/
def AvoidsGit (p here : Path) : Prop := Snapshot.gitName ∉ here.drop p.length

instance (p here : Path) : Decidable (AvoidsGit p here) :=
  inferInstanceAs (Decidable (Snapshot.gitName ∉ here.drop p.length))

theorem scan_snapshot_contained {sum : Bytes → Bytes} {limits : Limits} {es : List Entry} {n : Nat}
    {top : Node} {source : List Bytes} (hscan : Snapshot.scan sum limits d source = .ok (es, n))
    (htop : d.lstat source = .ok (p, top)) : d.Contained p (AvoidsGit p) fun _ => True := by
  obtain ⟨p', top', htop', haccepts, -⟩ := Package.scan_ok hscan
  obtain ⟨rfl, rfl⟩ : p' = p ∧ top' = top := by grind
  apply snapshot_contained
  intro inner name target havoids hlink
  have hgit : Snapshot.gitName ∉ inner := by simpa [AvoidsGit] using havoids
  have hdir : d.isDir (p' ++ (inner ++ [name])) = false := by simp [Disk.isDir, hlink]
  have hlisted : inner ++ [name] ∈ Snapshot.package.listed d p' := by
    apply List.mem_filter.2
    refine ⟨List.mem_filter.2 ⟨Disk.mem_inside.2 (by rw [hlink]; rfl), ?_⟩, ?_⟩
    · simp [Snapshot.package, Snapshot.inGit, hgit, hdir]
    · simp [Package.Listed]
  obtain ⟨node, hnode, hfit⟩ := (haccepts _ hlisted).fit
  rw [hlink] at hnode
  cases hnode
  exact hfit

theorem extract_snapshot_contained {dest : List Bytes} {pr : Progress} {work : Work}
    (h : Snapshot.package.Linking d dest p pr work) :
    work.disk.Contained p (fun _ => True) fun _ => True := by
  apply snapshot_contained
  intro inner name target _ hlink
  exact h.tested _ target hlink

theorem scan_artifact_contained {sum : Bytes → Bytes} {limits : Limits} {es : List Entry} {n : Nat}
    {top : Node} {source : List Bytes} (hroot : Name root)
    (hscan : Artifact.scan sum limits d source root = .ok (es, n))
    (htop : d.lstat source = .ok (p ++ [root], top)) :
    d.Contained p (fun _ => True) fun first => first = some root := by
  obtain ⟨p', top', htop', haccepts, -⟩ := Package.scan_ok hscan
  obtain ⟨rfl, rfl⟩ : p' = p ++ [root] ∧ top' = top := by grind
  apply artifact_contained hroot
  intro inner name target hfirst hlink
  obtain ⟨rel, hrel⟩ : ∃ rel, inner ++ [name] = root :: rel := by
    cases hparts : inner ++ [name] with
    | nil => simp at hparts
    | cons first rel => grind
  have hnames := (Disk.dir_of_node hlink).1
  rw [hrel] at hlink hnames ⊢
  have hplace : d.node (p ++ [root] ++ rel) = some (.link target) := by simpa using hlink
  have hlisted : rel ∈ (Artifact.package root).listed d (p ++ [root]) := by
    apply List.mem_filter.2
    refine ⟨List.mem_filter.2 ⟨Disk.mem_inside.2 (by rw [hplace]; rfl), ?_⟩, ?_⟩
    · simp [Artifact.package]
    · simp [Package.Listed, Artifact.package]
  obtain ⟨node, hnode, hfit⟩ := (haccepts _ hlisted).fit
  rw [hplace] at hnode
  cases hnode
  rw [artifact_nameOf hroot fun part hpart => hnames part (List.mem_cons_of_mem _ hpart)] at hfit
  refine ⟨hfit.1, ?_⟩
  have hescapes := hfit.2
  simpa [Artifact.package] using hescapes

/-- The root of an artifact is one name. -/
theorem rootName_of_validate {m : Artifact.Metadata} {l : Limits}
    (h : Artifact.validateMetadata m l = .ok ()) : Name m.rootName := by
  unfold Artifact.validateMetadata at h
  split_ifs at h with hlimits hbad
  simp only [not_or] at hbad
  obtain ⟨-, -, -, hplain, hbase, -⟩ := hbad
  obtain ⟨-, -, names, hsafe, hpath⟩ := unsafePath_iff.1 (Bool.eq_false_iff.2 hplain)
  have hlast : (split slash m.rootName).getLast? = some m.rootName := by
    simpa [Artifact.isBase] using hbase
  grind [hsafe.split_path, hsafe.names]

/-- Where an artifact has been extracted. -/
theorem lstat_root {dest : List Bytes} {work : Work} {q : Path} {top : Node}
    (hd : Destination d dest p) (hkept : Kept d dest p work) (hroot : Name root)
    (h : work.disk.lstat (dest ++ [root]) = .ok (q, top)) : q = p ++ [root] := by
  obtain ⟨parent, hlead, rfl, -⟩ := Disk.lstat_append_ok hroot h
  rw [hlead.unique (hkept.leads hd)]

/-- **The links of an accepted tree do not lead out.**  From the root of a tree down along names,
through links of any number, a resolution stays below the root: in a tree that `Extract` of a
snapshot has made; in a tree that the scan of a snapshot accepts, until it goes into a `.git`
directory; for artifacts it stays below the directory that holds the root, and ends below the
root. -/
theorem accepted_links_stay (sum : Bytes → Bytes) (limits : Limits) :
    (∀ d source es n p top, Snapshot.scan sum limits d source = .ok (es, n) →
      d.lstat source = .ok (p, top) → ∀ names w, (∀ part ∈ names, Name part) →
      d.Reaches (AvoidsGit p) ⟨p, names⟩ w → p <+: w.here) ∧
    (∀ d dest p codec umask archive expected work, Destination d dest p →
      Snapshot.extract codec sum umask limits archive dest expected ⟨d, []⟩ = .ok () work →
      ∀ names w, (∀ part ∈ names, Name part) →
      work.disk.Reaches (fun _ => True) ⟨p, names⟩ w → p <+: w.here) ∧
    (∀ d front root es n, (∀ part ∈ front ++ [root], Name part) →
      Artifact.scan sum limits d (front ++ [root]) root = .ok (es, n) →
      ∃ p top, d.lstat (front ++ [root]) = .ok (p ++ [root], top) ∧
        ∀ names w, (∀ part ∈ names, Name part) →
        d.Reaches (fun _ => True) ⟨p, root :: names⟩ w →
        p <+: w.here ∧ (w.todo = [] → p ++ [root] <+: w.here)) ∧
    ∀ d dest p codec umask archive expected work, Destination d dest p →
      Artifact.extract codec sum umask limits archive dest expected ⟨d, []⟩ = .ok () work →
      ∀ names w, (∀ part ∈ names, Name part) →
      work.disk.Reaches (fun _ => True) ⟨p, expected.rootName :: names⟩ w →
      p <+: w.here ∧ (w.todo = [] → p ++ [expected.rootName] <+: w.here) := by
  refine ⟨?_, ?_, ?_, ?_⟩
  · intro d source es n p top hscan htop names w hnames hw
    exact below_of_snapshot (scan_snapshot_contained hscan htop) hnames hw
  · intro d dest p codec umask archive expected work hd hextract names w hnames hw
    obtain ⟨⟨pr, hlinking⟩, -⟩ := (Snapshot.extract_keeps hd).ok_of rfl hextract
    exact below_of_snapshot (extract_snapshot_contained hlinking) hnames hw
  · intro d front root es n hparts hscan
    have hroot : Name root := hparts root (by simp)
    obtain ⟨q, top, htop, -⟩ := Package.scan_ok hscan
    obtain ⟨p, -, rfl, -⟩ := Disk.lstat_append_ok hroot htop
    refine ⟨p, top, htop, ?_⟩
    intro names w hnames hw
    exact below_of_artifact hroot (scan_artifact_contained hroot hscan htop) hnames hw
  · intro d dest p codec umask archive expected work hd hextract names w hnames hw
    obtain ⟨hkept, es, n, hscan, -⟩ := (Artifact.extract_keeps hd).ok_of rfl hextract
    have hroot : Name expected.rootName := by
      cases hvalid : Artifact.validateMetadata expected limits with
      | error e =>
          rw [Artifact.extract, hvalid] at hextract
          cases hextract
      | ok => exact rootName_of_validate hvalid
    have hjoin : join dest expected.rootName = dest ++ [expected.rootName] := by
      have hsafe : Safe [expected.rootName] := ⟨by simp, by simpa using hroot⟩
      have hjoined := join_path hd.names hsafe
      rwa [show path [expected.rootName] = expected.rootName by simp] at hjoined
    rw [hjoin] at hscan
    obtain ⟨q, top, htop, -⟩ := Package.scan_ok hscan
    obtain rfl := lstat_root hd hkept hroot htop
    exact below_of_artifact hroot (scan_artifact_contained hroot hscan htop) hnames hw

namespace Sample

/-- A source with a directory and a link. -/
def linked (target : Bytes) : Disk :=
  (((Disk.blank 0o755#9).plant [] (ascii "src") (.dir 0o755#9)).plant [ascii "src"] (ascii "a")
    (.dir 0o755#9)).plant [ascii "src"] (ascii "l") (.link target)

/-- The same, with a link in a `.git` directory and a directory outside. -/
def gitLinked : Disk :=
  (((linked (ascii ".git/e")).plant [ascii "src"] (ascii ".git") (.dir 0o755#9)).plant
    [ascii "src", ascii ".git"] (ascii "e") (.link (ascii "/etc"))).plant [] (ascii "etc")
      (.dir 0o755#9)

end Sample

theorem accepted_links_stay_linked : ∃ w, (Sample.linked (ascii "a")).Reaches
    (AvoidsGit [ascii "src"]) ⟨[ascii "src"], [ascii "l"]⟩ w ∧
      w.here = [ascii "src", ascii "a"] ∧ [ascii "src"] <+: w.here := by
  have hscan : Snapshot.scan id defaultLimits (Sample.linked (ascii "a")) [ascii "src"] =
      .ok ([⟨ascii "a", .directory, 0o755#9, 0, [], [], [ascii "src", ascii "a"]⟩,
        ⟨ascii "l", .symlink, 0o777#9, 0, [], ascii "a", [ascii "src", ascii "l"]⟩], 0) := by
    decide +kernel
  have htop : (Sample.linked (ascii "a")).lstat [ascii "src"] =
      .ok ([ascii "src"], .dir 0o755#9) := by decide +kernel
  have hreaches : (Sample.linked (ascii "a")).Reaches (AvoidsGit [ascii "src"])
      ⟨[ascii "src"], [ascii "l"]⟩ ⟨[ascii "src", ascii "a"], []⟩ := by
    apply Relation.ReflTransGen.head (b := ⟨[ascii "src"], [ascii "a"]⟩)
    · decide +kernel
    · exact .single (by decide +kernel)
  exact ⟨_, hreaches, rfl, (accepted_links_stay id defaultLimits).1 _ _ _ _ _ _ hscan htop _ _
    (by decide) hreaches⟩

/-- A link of a source that leads out by way of its `.git` directory. -/
theorem link_leads_out : ∃ d source es n p top names w,
    Snapshot.scan id defaultLimits d source = .ok (es, n) ∧ d.lstat source = .ok (p, top) ∧
      (∀ part ∈ names, Name part) ∧ d.Reaches (fun _ => True) ⟨p, names⟩ w ∧ ¬ p <+: w.here := by
  refine ⟨Sample.gitLinked, [ascii "src"],
    [⟨ascii "a", .directory, 0o755#9, 0, [], [], [ascii "src", ascii "a"]⟩,
      ⟨ascii "l", .symlink, 0o777#9, 0, [], ascii ".git/e", [ascii "src", ascii "l"]⟩], 0,
    [ascii "src"], .dir 0o755#9, [ascii "l"], ⟨[ascii "etc"], []⟩, by decide +kernel,
    by decide +kernel, by decide, ?_, by decide⟩
  apply Relation.ReflTransGen.head (b := ⟨[ascii "src"], [ascii ".git", ascii "e"]⟩)
  · exact ⟨trivial, by decide +kernel⟩
  apply Relation.ReflTransGen.head (b := ⟨[ascii "src", ascii ".git"], [ascii "e"]⟩)
  · exact ⟨trivial, by decide +kernel⟩
  apply Relation.ReflTransGen.head (b := ⟨[], [[], ascii "etc"]⟩)
  · exact ⟨trivial, by decide +kernel⟩
  apply Relation.ReflTransGen.head (b := ⟨[], [ascii "etc"]⟩)
  · exact ⟨trivial, by decide +kernel⟩
  exact .single ⟨trivial, by decide +kernel⟩

end Archive
