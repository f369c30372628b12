import ForgeCI.CacheSaves
import ForgeCI.EncodedPaths

/-!
# The validators of paths

Five functions of the source test whether a text is a path below some directory:
`safeArtifactPath` and `safeCachePath` of package `config`, `unsafePath` of packages `snapshot`
and `artifact`, and `safePath` of package `cache`.  They accept the same texts, up to backslashes
and control characters: the lists of names, written with slashes.
-/

namespace Config.Raw

open FileTree Archive
open Artifact (utf8)

/-- The body `safeArtifactPath` and `safeCachePath` share. -/
def safePath (value : Bytes) : Bool :=
  if value = [] ∨ value = [dot] ∨ Lexical.isAbs slash value = true ∨ 0 ∈ value ∨ 0x5c ∈ value ∨
      hasControl value = true then false
  else clean value = value && !climbs (clean value)

def safeArtifactPath (value : Bytes) : Bool := safePath value

def safeCachePath (value : Bytes) : Bool := safePath value

def cachePathsConflict (a b : Bytes) : Bool :=
  let a := clean a
  let b := clean b
  a = b || (b ++ [slash]).isPrefixOf a || (a ++ [slash]).isPrefixOf b

theorem encoding : Lexical.Encoding '/' '.' slash dot String.utf8EncodeChar where
  slash_eq := by decide
  dot_eq := by decide
  ne_nil := fun _ => String.utf8EncodeChar_ne_nil
  read := fun _ _ _ _ h => Runes.encode_append_inj h
  slash_free := by
    intro c hc hmem
    have hcode : c.toNat = '/'.toNat := Runes.toNat_of_mem_encode hmem (by decide)
    exact hc (Char.toNat_inj.1 hcode)

theorem utf8_eq (s : String) : utf8 s = s.toList.flatMap String.utf8EncodeChar := by
  have hencode := String.utf8Encode_toList (b := s)
  rw [utf8, String.toUTF8_eq_toByteArray, ← hencode, List.utf8Encode]
  simp

theorem splitSlash_eq (cs : List Char) : GoLib.splitSlash cs = Lexical.split '/' cs := by
  induction cs with
  | nil => rfl
  | cons c cs ih =>
    rw [Lexical.split, List.splitOn_cons_eq_if_modifyHead]
    by_cases hc : c = '/'
    · subst hc
      simp [GoLib.splitSlash, ih, Lexical.split]
    · have hne : Lexical.split '/' cs ≠ [] := Lexical.split_ne_nil
      obtain ⟨part, parts, hparts⟩ := List.exists_cons_of_ne_nil hne
      rw [hparts] at ih
      rw [Lexical.split] at hparts
      simp [GoLib.splitSlash, ih, hc, hparts]

theorem cleanParts_eq (rooted : Bool) (kept parts : List (List Char)) :
    GoLib.cleanParts rooted kept parts = Lexical.cleanParts '.' rooted kept parts := by
  induction parts generalizing kept with
  | nil => cases kept <;> rfl
  | cons part parts ih =>
    rw [Lexical.cleanParts_cons]
    cases kept with
    | nil | cons top rest => simp only [GoLib.cleanParts, ih]

theorem clean_eq (s : String) : (GoLib.clean s).toList = Lexical.clean '/' '.' s.toList := by
  have habs : GoLib.isAbs s = Lexical.isAbs '/' s.toList := rfl
  unfold GoLib.clean Lexical.clean Lexical.written
  rw [splitSlash_eq, habs]
  cases Lexical.isAbs '/' s.toList with
  | true => simp [cleanParts_eq, GoLib.joinSlash]
  | false =>
    rw [cleanParts_eq]
    by_cases hnil : Lexical.cleanParts '.' false [] (Lexical.split '/' s.toList) = []
    · simp [hnil]
    · simp [hnil, GoLib.joinSlash]

variable {s t : String}

theorem utf8_inj : utf8 s = utf8 t ↔ s = t := by
  rw [utf8_eq, utf8_eq, encoding.flatMap_inj, String.toList_inj]

theorem clean_utf8 (s : String) : clean (utf8 s) = utf8 (GoLib.clean s) := by
  rw [utf8_eq, utf8_eq, clean_eq]
  exact encoding.clean_flatMap

theorem isAbs_utf8 (s : String) : Lexical.isAbs slash (utf8 s) = GoLib.isAbs s := by
  rw [utf8_eq]
  exact encoding.isAbs_flatMap

theorem isPrefixOf_utf8 (s t : String) : (utf8 s).isPrefixOf (utf8 t) = GoLib.startsWith t s := by
  rw [Bool.eq_iff_iff, GoLib.startsWith, List.isPrefixOf_iff_prefix, List.isPrefixOf_iff_prefix,
    utf8_eq, utf8_eq]
  exact encoding.isPrefix_iff

theorem hasControl_utf8 (s : String) : hasControl (utf8 s) = s.toList.any GoLib.isControl := by
  rw [hasControl, utf8_eq, Runes.runes_flatMap_encode, List.any_map]
  rfl

/-- An ASCII character of a text is a byte of it. -/
theorem ascii_mem_utf8 {c : Char} {x : UInt8} (hx : x < 0x80) (hc : c.toNat = x.toNat) :
    x ∈ utf8 s ↔ c ∈ s.toList := by
  rw [utf8_eq, List.mem_flatMap]
  constructor
  · rintro ⟨c', hmem, hx'⟩
    have hcode : c'.toNat = c.toNat := (Runes.toNat_of_mem_encode hx' hx).trans hc.symm
    exact Char.toNat_inj.1 hcode ▸ hmem
  · intro hmem
    have hchar : c = Char.ofNat x.toNat := by rw [← hc, Char.ofNat_toNat]
    exact ⟨c, hmem, by rw [hchar, Runes.encode_ascii hx]; exact List.mem_singleton_self _⟩

/-- **The validators of texts** are those of their bytes. -/
theorem safePath_utf8 (s : String) : safePath (utf8 s) = Config.safePath s := by
  have hnil : utf8 s = [] ↔ s = "" := utf8_inj (t := "")
  have hdot : utf8 s = [dot] ↔ s = "." := utf8_inj (t := ".")
  have hzero : 0 ∈ utf8 s ↔ '\x00' ∈ s.toList := ascii_mem_utf8 (by decide) rfl
  have hback : 0x5c ∈ utf8 s ↔ '\\' ∈ s.toList := ascii_mem_utf8 (by decide) rfl
  have hbad : (utf8 s = [] ∨ utf8 s = [dot] ∨ Lexical.isAbs slash (utf8 s) = true ∨ 0 ∈ utf8 s ∨
      0x5c ∈ utf8 s ∨ hasControl (utf8 s) = true) ↔
      (s = "" ∨ s = "." ∨ GoLib.isAbs s = true ∨ '\x00' ∈ s.toList ∨ '\\' ∈ s.toList ∨
        s.toList.any GoLib.isControl = true) := by
    rw [hnil, hdot, isAbs_utf8, hzero, hback, hasControl_utf8]
  have hclean : clean (utf8 s) = utf8 s ↔ GoLib.clean s = s := by
    rw [clean_utf8, utf8_inj]
  have hclimbs : climbs (clean (utf8 s)) = false ↔
      GoLib.clean s ≠ ".." ∧ GoLib.startsWith (GoLib.clean s) "../" = false := by
    have hup : utf8 (GoLib.clean s) = [dot, dot] ↔ GoLib.clean s = ".." := utf8_inj (t := "..")
    have hups : [dot, dot, slash].isPrefixOf (utf8 (GoLib.clean s)) =
        GoLib.startsWith (GoLib.clean s) "../" := isPrefixOf_utf8 "../" _
    rw [climbs, clean_utf8, Bool.or_eq_false_iff, decide_eq_false_iff_not, hup, hups]
  grind [safePath, Config.safePath]

theorem cachePathsConflict_utf8 (a b : String) :
    cachePathsConflict (utf8 a) (utf8 b) = Config.cachePathsConflict a b := by
  have happend : ∀ v : String, utf8 v ++ [slash] = utf8 (v ++ "/") := by
    intro v
    rw [utf8_eq, utf8_eq, String.toList_append, List.flatMap_append]
    rfl
  have heq : (decide (utf8 (GoLib.clean a) = utf8 (GoLib.clean b))) =
      decide (GoLib.clean a = GoLib.clean b) := by
    rw [decide_eq_decide, utf8_inj]
  unfold cachePathsConflict Config.cachePathsConflict
  rw [clean_utf8, clean_utf8]
  dsimp only
  rw [happend, happend, isPrefixOf_utf8, isPrefixOf_utf8, heq]

variable {value a b : Bytes} {names names' : List Bytes}

/-- A list of one or more names, written with slashes. -/
def Normal (value : Bytes) : Prop := ∃ names, Safe names ∧ value = path names

theorem zero_not_mem (h : hasControl value = false) : 0 ∉ value := by
  intro hmem
  obtain ⟨c, hrune, hcode⟩ := Runes.exists_mem_runes (by decide) hmem
  rw [hasControl, List.any_eq_false] at h
  grind [GoLib.isControl]

/-- **The paths that package `config` accepts.** -/
theorem safePath_iff :
    safePath value = true ↔ Normal value ∧ 0x5c ∉ value ∧ hasControl value = false := by
  constructor
  · intro h
    unfold safePath at h
    split_ifs at h with hbad
    simp only [not_or, Bool.not_eq_true] at hbad
    obtain ⟨-, hdot, hrel, -, hback, hcontrol⟩ := hbad
    simp only [Bool.and_eq_true, decide_eq_true_eq, Bool.not_eq_true'] at h
    obtain ⟨hclean, hclimbs⟩ := h
    rw [hclean] at hclimbs
    obtain ⟨hup, hups⟩ := not_climbs_iff.1 hclimbs
    obtain ⟨names, hne, hnames, heq⟩ :=
      (Lexical.plain_iff slash_ne_dot hrel).1 ⟨hclean, hdot, hup, hups⟩
    exact ⟨⟨names, ⟨hne, hnames⟩, heq⟩, hback, hcontrol⟩
  · rintro ⟨⟨names, hsafe, rfl⟩, hback, hcontrol⟩
    obtain ⟨hclean, hdot, hclimbs⟩ := hsafe.plain
    rw [safePath, if_neg (by simp [hsafe.path_ne_nil, hdot, hsafe.isAbs_path, hback, hcontrol,
      zero_not_mem hcontrol]), hclean, hclimbs]
    simp

/-- A path starts another one as a text, at a slash, when its elements do. -/
theorem slashed_isPrefix_iff (h : Safe names) (h' : Safe names') :
    path names ++ [slash] <+: path names' ↔ names <+: names' ∧ names ≠ names' := by
  constructor
  · rintro ⟨rest, hrest⟩
    have hsplit := h'.split_path
    have hshape : path names' = path names ++ slash :: rest := by rw [← hrest]; simp
    rw [hshape, Lexical.split_append_slash, h.split_path] at hsplit
    refine ⟨⟨_, hsplit⟩, ?_⟩
    rintro rfl
    have hnil : Lexical.split slash rest = [] := List.append_right_eq_self.1 hsplit
    exact Lexical.split_ne_nil hnil
  · rintro ⟨⟨rest, rfl⟩, hne⟩
    have hrest : rest ≠ [] := by
      rintro rfl
      simp at hne
    exact ⟨path rest, by rw [path_append h.ne_nil hrest]; simp⟩

/-- **Two accepted paths conflict** when the elements of one start those of the other. -/
theorem cachePathsConflict_iff (h : Safe names) (h' : Safe names') :
    cachePathsConflict (path names) (path names') = true ↔
      names <+: names' ∨ names' <+: names := by
  have heq : path names = path names' ↔ names = names' := by grind [h.split_path, h'.split_path]
  unfold cachePathsConflict
  rw [h.plain.1, h'.plain.1]
  simp only [Bool.or_eq_true, decide_eq_true_eq, List.isPrefixOf_iff_prefix, heq,
    slashed_isPrefix_iff h h', slashed_isPrefix_iff h' h]
  grind

/-- **The five validators of paths.**  Package `config` accepts a list of one or more names
without backslash and control character; `unsafePath` of either archive package rejects what is
no such list or has a control character; package `cache` accepts what package `config` accepts;
an accepted path that is joined to a root lies strictly below it; and two accepted paths conflict
exactly when the names of one start those of the other. -/
theorem validators_agree (value : Bytes) :
    (safeArtifactPath value = true ↔ Normal value ∧ 0x5c ∉ value ∧ hasControl value = false) ∧
    (safeCachePath value = true ↔ Normal value ∧ 0x5c ∉ value ∧ hasControl value = false) ∧
    (unsafePath value = true ↔ ¬(Normal value ∧ hasControl value = false)) ∧
    (safeCachePath value = true →
      ∀ root, ∃ source, BuildCache.safePath root value = .ok source) ∧
    (∀ names, Safe names → value = path names →
      (∀ root : Bytes,
        Lexical.isAbs slash (Lexical.joinPath slash dot root value) = Lexical.isAbs slash root ∧
        Lexical.elements slash dot (Lexical.joinPath slash dot root value) =
          Lexical.elements slash dot root ++ names) ∧
      ∀ other names', Safe names' → other = path names' →
        (cachePathsConflict value other = true ↔ names <+: names' ∨ names' <+: names)) ∧
    ∀ s t : String, Config.safeArtifactPath s = safeArtifactPath (utf8 s) ∧
      Config.safeCachePath s = safeCachePath (utf8 s) ∧
      Config.cachePathsConflict s t = cachePathsConflict (utf8 s) (utf8 t) := by
  refine ⟨safePath_iff, safePath_iff, ?_, ?_, ?_, ?_⟩
  · rw [← Bool.not_eq_false, unsafePath_iff]
    refine not_congr ⟨?_, ?_⟩
    · rintro ⟨hcontrol, -, hnormal⟩
      exact ⟨hnormal, hcontrol⟩
    · rintro ⟨hnormal, hcontrol⟩
      exact ⟨hcontrol, zero_not_mem hcontrol, hnormal⟩
  · intro h root
    obtain ⟨⟨names, hsafe, rfl⟩, hback, hcontrol⟩ := safePath_iff.1 h
    obtain ⟨hclean, hdot, hclimbs⟩ := hsafe.plain
    refine ⟨join root (clean (path names)), ?_⟩
    rw [BuildCache.safePath, if_neg (by simp [hsafe.path_ne_nil, hdot, hsafe.isAbs_path, hback,
      zero_not_mem hcontrol]), if_neg (by simp [hclean, hclimbs])]
  · rintro names hsafe rfl
    refine ⟨Lexical.elements_joinPath slash_ne_dot hsafe.ne_nil hsafe.names, ?_⟩
    rintro other names' hsafe' rfl
    exact cachePathsConflict_iff hsafe hsafe'
  · intro s t
    exact ⟨(safePath_utf8 s).symm, (safePath_utf8 s).symm, (cachePathsConflict_utf8 s t).symm⟩

end Config.Raw
