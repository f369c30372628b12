import ForgeCI.Archives

/-!
# The names and links an archive may have

What the tests of the source say about the elements of a path.  A path is safe when it is a
list of names; a link is safe when its target goes up some directories and then down along
names, and the tests of the joined target compare how far it goes up with the depth of the link.
-/

namespace Archive

open FileTree Lexical

variable {name target root : Bytes} {names parent parts : List Bytes} {last : Bytes} {n : Nat}

/-- The text of a path. -/
abbrev path (names : List Bytes) : Bytes := [slash].intercalate names

theorem path_append {l m : List Bytes} (hl : l ≠ []) (hm : m ≠ []) :
    path (l ++ m) = path l ++ slash :: path m := by
  induction l with
  | nil => exact absurd rfl hl
  | cons a l ih =>
    cases l with
    | nil =>
      obtain ⟨b, m, rfl⟩ := List.exists_cons_of_ne_nil hm
      simp [path, List.intercalate_cons_cons]
    | cons b l =>
      have hrest := ih (by simp)
      simp only [path, List.cons_append, List.intercalate_cons_cons] at hrest ⊢
      rw [hrest]
      simp

/-- A non-empty list of names. -/
structure Safe (names : List Bytes) : Prop where
  ne_nil : names ≠ []
  names : ∀ part ∈ names, Name part

theorem Safe.split_path (h : Safe names) : split slash (path names) = names :=
  split_intercalate h.ne_nil fun part hpart => (h.names part hpart).slash_free

theorem Safe.canonical (h : Safe names) : Canonical slash dot names := .of_names h.names

theorem Safe.written_eq (h : Safe names) : written slash dot names = path names := by
  rw [written, if_neg h.ne_nil]

theorem Safe.isAbs_path (h : Safe names) : isAbs slash (path names) = false := by
  rw [← h.written_eq]
  exact h.canonical.isAbs_written slash_ne_dot

theorem Safe.path_ne_nil (h : Safe names) : path names ≠ [] := by
  obtain ⟨c, cs, heq, -⟩ := h.canonical.written_eq_cons slash_ne_dot
  rw [← h.written_eq, heq]
  simp

theorem not_climbs_iff {p : Bytes} :
    climbs p = false ↔ p ≠ [dot, dot] ∧ ¬[dot, dot, slash] <+: p := by
  rw [climbs, Bool.or_eq_false_iff, decide_eq_false_iff_not, ← Bool.not_eq_true,
    List.isPrefixOf_iff_prefix]

/-- The texts of lists of names. -/
theorem Safe.plain (h : Safe names) :
    clean (path names) = path names ∧ path names ≠ [dot] ∧ climbs (path names) = false := by
  obtain ⟨hclean, hdot, hup, hups⟩ :=
    (plain_iff slash_ne_dot h.isAbs_path).2 ⟨names, h.ne_nil, h.names, rfl⟩
  exact ⟨hclean, hdot, not_climbs_iff.2 ⟨hup, hups⟩⟩

/-- **The safe paths**: names, and no control character. -/
theorem unsafePath_iff :
    unsafePath name = false ↔
      hasControl name = false ∧ 0 ∉ name ∧ ∃ names, Safe names ∧ name = path names := by
  unfold unsafePath
  constructor
  · intro h
    split_ifs at h with hbad
    simp only [not_or, Bool.not_eq_true] at hbad
    obtain ⟨-, hzero, hcontrol, hrel⟩ := hbad
    simp only [Bool.or_eq_false_iff, decide_eq_false_iff_not, Decidable.not_not] at h
    obtain ⟨⟨hdot, hclimbs⟩, hclean⟩ := h
    rw [hclean] at hdot hclimbs
    obtain ⟨hup, hups⟩ := not_climbs_iff.1 hclimbs
    obtain ⟨names, hne, hnames, heq⟩ := (plain_iff slash_ne_dot hrel).1 ⟨hclean, hdot, hup, hups⟩
    exact ⟨hcontrol, hzero, names, ⟨hne, hnames⟩, heq⟩
  · rintro ⟨hcontrol, hzero, names, hsafe, rfl⟩
    grind [hsafe.plain, hsafe.path_ne_nil, hsafe.isAbs_path]

/-- **The safe targets**: up some directories, and then down along names. -/
theorem unsafeLink_iff :
    unsafeLink target = false ↔
      hasControl target = false ∧ 0 ∉ target ∧ ∃ n names, (∀ part ∈ names, Name part) ∧
        target = written slash dot (ups dot n ++ names) := by
  unfold unsafeLink
  simp only [Bool.or_eq_false_iff, decide_eq_false_iff_not, Decidable.not_not]
  constructor
  · rintro ⟨⟨⟨⟨-, hrel⟩, hzero⟩, hcontrol⟩, hclean⟩
    obtain ⟨parts, ⟨n, names, rfl, hnames⟩, heq⟩ := (clean_eq_self_iff slash_ne_dot hrel).1 hclean
    exact ⟨hcontrol, by simpa using hzero, n, names, hnames, heq⟩
  · rintro ⟨hcontrol, hzero, n, names, hnames, rfl⟩
    have hcanonical : Canonical slash dot (ups dot n ++ names) := ⟨n, names, rfl, hnames⟩
    obtain ⟨c, cs, heq, -⟩ := hcanonical.written_eq_cons slash_ne_dot
    exact ⟨⟨⟨⟨by simp [heq], hcanonical.isAbs_written slash_ne_dot⟩, by simpa using hzero⟩,
      hcontrol⟩, hcanonical.clean_written slash_ne_dot⟩

/-- The prefix test of the source compares the first element. -/
theorem below_iff (hfree : slash ∉ root) {p : Bytes} :
    below root p = true ↔ (split slash p).head? = some root := by
  have hroot : split slash root = [root] := by
    have hone : split slash ([slash].intercalate [root]) = [root] :=
      split_intercalate (by simp) (by simpa using hfree)
    simpa using hone
  have hbelow : below root p = true ↔ p = root ∨ root ++ [slash] <+: p := by
    rw [below, Bool.or_eq_true, decide_eq_true_iff, List.isPrefixOf_iff_prefix]
  rw [hbelow]
  constructor
  · rintro (rfl | ⟨more, rfl⟩)
    · rw [hroot]
      rfl
    · grind [split_append_slash]
  · intro h
    have hp : [slash].intercalate (split slash p) = p := intercalate_split
    cases hsplit : split slash p with
    | nil => exact absurd hsplit split_ne_nil
    | cons first rest =>
      rw [hsplit] at h hp
      obtain rfl : first = root := by simpa using h
      cases rest with
      | nil => exact .inl (by simpa using hp.symm)
      | cons second rest =>
        refine .inr ⟨[slash].intercalate (second :: rest), ?_⟩
        rw [← hp]
        simp

theorem below_written_iff (hfree : slash ∉ root) (hdot : root ≠ [dot])
    (h : Canonical slash dot parts) :
    below root (written slash dot parts) = true ↔ parts.head? = some root := by
  rw [below_iff hfree, written]
  split_ifs with hnil
  · rw [split_dot slash_ne_dot, hnil]
    simpa using Ne.symm hdot
  · rw [split_intercalate hnil (h.slash_free slash_ne_dot)]

theorem climbs_eq_below (p : Bytes) : climbs p = below [dot, dot] p := rfl

/-- The elements of a target read from the directory of a link. -/
def landing (parent : List Bytes) (n : Nat) (names : List Bytes) : List Bytes :=
  if n ≤ parent.length then parent.take (parent.length - n) ++ names
  else ups dot (n - parent.length) ++ names

theorem resolved_path (hsafe : Safe (parent ++ [last])) (hnames : ∀ part ∈ names, Name part) :
    resolved (path (parent ++ [last])) (written slash dot (ups dot n ++ names)) =
      written slash dot (landing parent n names) :=
  clean_joinPath_dir slash_ne_dot (fun part hpart => hsafe.names part (by simp [hpart]))
    (hsafe.names last (by simp)).slash_free hnames

theorem canonical_landing (hparent : ∀ part ∈ parent, Name part)
    (hnames : ∀ part ∈ names, Name part) : Canonical slash dot (landing parent n names) := by
  unfold landing
  split_ifs
  · apply Canonical.of_names
    grind
  · exact ⟨_, names, rfl, hnames⟩

/-- **A target stays below the root** if it goes up at most as far as its link lies deep. -/
theorem climbs_resolved_iff (hsafe : Safe (parent ++ [last])) (hnames : ∀ part ∈ names, Name part) :
    climbs (resolved (path (parent ++ [last])) (written slash dot (ups dot n ++ names))) = false ↔
      n ≤ parent.length := by
  have hparent : ∀ part ∈ parent, Name part := fun part hpart => hsafe.names part (by simp [hpart])
  have hbelow : climbs (written slash dot (landing parent n names)) = true ↔
      (landing parent n names).head? = some [dot, dot] := by
    rw [climbs_eq_below]
    exact below_written_iff (by decide) (by decide) (canonical_landing hparent hnames)
  rw [resolved_path hsafe hnames, ← Bool.not_eq_true, hbelow]
  unfold landing
  split_ifs with hn
  · simp only [hn, iff_true]
    intro hhead
    have hmem := List.mem_of_mem_head? hhead
    rcases List.mem_append.1 hmem with hmem | hmem
    · exact (hparent _ (List.mem_of_mem_take hmem)).ne_up rfl
    · exact (hnames _ hmem).ne_up rfl
  · obtain ⟨k, hk⟩ : ∃ k, n - parent.length = k + 1 := ⟨n - parent.length - 1, by omega⟩
    simp [hk, ups_succ, hn]

/-- **A target stays below a root by name**: it does not go up to the directory of the root, or
comes back by the name of the root. -/
theorem below_resolved_iff (hroot : Name root) (hsafe : Safe (parent ++ [last]))
    (hparent : parent ≠ [] → parent.head? = some root) (hnames : ∀ part ∈ names, Name part) :
    below root (resolved (path (parent ++ [last])) (written slash dot (ups dot n ++ names))) =
        true ↔ n ≤ parent.length ∧ (n = parent.length → names.head? = some root) := by
  have hplain : ∀ part ∈ parent, Name part :=
    fun part hpart => hsafe.names part (List.mem_append_left _ hpart)
  rw [resolved_path hsafe hnames, below_written_iff hroot.slash_free hroot.ne_dot
    (canonical_landing hplain hnames)]
  unfold landing
  rcases Nat.lt_trichotomy n parent.length with hlt | rfl | hgt
  · obtain ⟨first, rest, rfl⟩ : ∃ first rest, parent = first :: rest := by
      apply List.exists_cons_of_ne_nil
      rintro rfl
      simp at hlt
    obtain rfl : first = root := by simpa using hparent (by simp)
    obtain ⟨k, hk⟩ : ∃ k, (first :: rest).length - n = k + 1 :=
      ⟨(first :: rest).length - n - 1, by omega⟩
    grind
  · simp
  · obtain ⟨k, hk⟩ : ∃ k, n - parent.length = k + 1 := ⟨n - parent.length - 1, by omega⟩
    grind [hroot.ne_up, ups_succ]

theorem join_path {host : List Bytes} (hhost : ∀ part ∈ host, Name part) (hsafe : Safe names) :
    join host (path names) = host ++ names := by
  have hall : ∀ part ∈ host ++ names, Name part := by grind [hsafe.names]
  rw [join, hsafe.split_path]
  calc cleanParts dot true [] (host ++ names)
      = cleanParts dot true [] (host ++ names ++ []) := by rw [List.append_nil]
    _ = cleanParts dot true ((host ++ names).reverse ++ []) [] := cleanParts_names hall
    _ = host ++ names := by simp [cleanParts]

theorem rel_append (root more : List Bytes) : rel root (root ++ more) = more := by
  induction root with
  | nil => cases more <;> rfl
  | cons r root ih => simpa [rel] using ih

theorem within_append {host more : List Bytes} (h : ∀ part ∈ more, Name part) :
    within host (host ++ more) = true := by
  rw [within, rel_append, decide_eq_true_iff]
  intro hhead
  exact (h _ (List.mem_of_mem_head? hhead)).ne_up rfl

end Archive
