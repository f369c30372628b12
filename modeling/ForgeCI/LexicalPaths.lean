import Mathlib.Data.List.Basic

/-!
# Slash-separated paths

The lexical functions on paths over any alphabet with a slash and a dot: `clean` shortens a
path without looking at a file system, `dir` drops its last element, `joinPath` appends one
path to another.
-/

namespace Lexical

variable {α : Type*} (slash dot : α)

/-- An element that names a file: neither empty nor `.` nor `..`. -/
structure Name (part : List α) : Prop where
  ne_nil : part ≠ []
  ne_dot : part ≠ [dot]
  ne_up : part ≠ [dot, dot]
  slash_free : slash ∉ part

/-- `n` times `..`. -/
def ups (n : Nat) : List (List α) := List.replicate n [dot, dot]

/-- A list of elements that begins with `..` as often as it likes, and then has names only. -/
def Canonical (parts : List (List α)) : Prop :=
  ∃ n names, parts = ups dot n ++ names ∧ ∀ name ∈ names, Name slash dot name

/-- Elements written as a relative path. -/
def written (parts : List (List α)) : List α :=
  if parts = [] then [dot] else [slash].intercalate parts

variable {slash dot} {parts names : List (List α)} {n : Nat}

theorem ups_succ : ups dot (n + 1) = [dot, dot] :: ups dot n := List.replicate_succ

theorem ups_reverse : (ups dot n).reverse = ups dot n := List.reverse_replicate

theorem Canonical.slash_free (hne : slash ≠ dot) (h : Canonical slash dot parts) :
    ∀ part ∈ parts, slash ∉ part := by
  obtain ⟨n, names, rfl, hnames⟩ := h
  intro part hpart
  rcases List.mem_append.1 hpart with hpart | hpart
  · obtain rfl := List.eq_of_mem_replicate hpart
    simpa using hne
  · exact (hnames part hpart).slash_free

theorem Canonical.ne_nil (h : Canonical slash dot parts) : ∀ part ∈ parts, part ≠ [] := by
  obtain ⟨n, names, rfl, hnames⟩ := h
  intro part hpart
  rcases List.mem_append.1 hpart with hpart | hpart
  · obtain rfl := List.eq_of_mem_replicate hpart
    simp
  · exact (hnames part hpart).ne_nil

theorem Canonical.of_names (h : ∀ name ∈ names, Name slash dot name) :
    Canonical slash dot names :=
  ⟨0, names, rfl, h⟩

/-- A written path is not empty, and does not begin with a slash. -/
theorem Canonical.written_eq_cons (hne : slash ≠ dot) (h : Canonical slash dot parts) :
    ∃ c cs, written slash dot parts = c :: cs ∧ c ≠ slash := by
  unfold written
  split_ifs with hnil
  · exact ⟨dot, [], rfl, hne.symm⟩
  · obtain ⟨first, rest, rfl⟩ := List.exists_cons_of_ne_nil hnil
    obtain ⟨c, cs, rfl⟩ := List.exists_cons_of_ne_nil (h.ne_nil first List.mem_cons_self)
    refine ⟨c, [slash].intercalate (cs :: rest), List.intercalate_cons_cons_left, ?_⟩
    rintro rfl
    exact h.slash_free hne _ List.mem_cons_self List.mem_cons_self

variable [DecidableEq α] (slash dot)

/-- The elements of a path, empty ones included. -/
def split (p : List α) : List (List α) := p.splitOn slash

/-- The element rules of `clean`; `kept` is what has been kept so far, last element first.
An empty element or `.` vanishes; `..` removes the element before it, vanishes at the start of
a rooted path and is kept at the start of a relative one. -/
def cleanParts (rooted : Bool) : List (List α) → List (List α) → List (List α)
  | kept, [] => kept.reverse
  | kept, part :: parts =>
      if part = [] ∨ part = [dot] then cleanParts rooted kept parts
      else if part = [dot, dot] then
        match kept with
        | [] => if rooted then cleanParts rooted [] parts
                else cleanParts rooted [[dot, dot]] parts
        | top :: rest =>
            if top = [dot, dot] then cleanParts rooted (part :: top :: rest) parts
            else cleanParts rooted rest parts
      else cleanParts rooted (part :: kept) parts

def isAbs (p : List α) : Bool := p.head? = some slash

def clean (p : List α) : List α :=
  if isAbs slash p then slash :: [slash].intercalate (cleanParts dot true [] (split slash p))
  else written slash dot (cleanParts dot false [] (split slash p))

/-- All but the last element, cleaned. -/
def dir (p : List α) : List α :=
  clean slash dot ((split slash p).dropLast.flatMap (· ++ [slash]))

/-- Two paths with a slash between them, cleaned; empty ones are ignored. -/
def joinPath (a b : List α) : List α :=
  if a = [] then (if b = [] then [] else clean slash dot b)
  else if b = [] then clean slash dot a
  else clean slash dot (a ++ slash :: b)

/-- The elements that are left of a path when it is cleaned. -/
def elements (p : List α) : List (List α) :=
  cleanParts dot (isAbs slash p) [] (split slash p)

instance (part : List α) : Decidable (Name slash dot part) :=
  decidable_of_iff (part ≠ [] ∧ part ≠ [dot] ∧ part ≠ [dot, dot] ∧ slash ∉ part)
    ⟨fun h => ⟨h.1, h.2.1, h.2.2.1, h.2.2.2⟩,
      fun h => ⟨h.ne_nil, h.ne_dot, h.ne_up, h.slash_free⟩⟩

variable {slash dot} {rooted : Bool} {p q : List α} {kept : List (List α)}

theorem split_ne_nil : split slash p ≠ [] := List.splitOn_ne_nil slash p

theorem slash_free_of_mem_split {part : List α} (h : part ∈ split slash p) : slash ∉ part := by
  induction p generalizing part with
  | nil =>
    obtain rfl : part = [] := by simpa [split] using h
    simp
  | cons c cs ih =>
    rw [split, List.splitOn_cons_eq_if_modifyHead] at h
    split_ifs at h with hc
    · rcases List.mem_cons.1 h with rfl | h
      · simp
      · exact ih h
    · have hne : split slash cs ≠ [] := split_ne_nil
      obtain ⟨head, rest, hsplit⟩ := List.exists_cons_of_ne_nil hne
      rw [split] at hsplit
      rw [hsplit, List.modifyHead_cons] at h
      grind [split]

theorem split_intercalate (hne : parts ≠ []) (hfree : ∀ part ∈ parts, slash ∉ part) :
    split slash ([slash].intercalate parts) = parts :=
  List.splitOn_intercalate slash hfree hne

theorem intercalate_split : [slash].intercalate (split slash p) = p :=
  List.intercalate_splitOn slash

theorem split_append_slash : split slash (p ++ slash :: q) = split slash p ++ split slash q :=
  List.splitOn_append_cons_self p q

theorem split_dot (hne : slash ≠ dot) : split slash [dot] = [[dot]] :=
  List.splitOn_eq_singleton (by simpa using hne)

theorem cleanParts_cons (part : List α) :
    cleanParts dot rooted kept (part :: parts) =
      if part = [] ∨ part = [dot] then cleanParts dot rooted kept parts
      else if part = [dot, dot] then
        match kept with
        | [] => if rooted then cleanParts dot rooted [] parts
                else cleanParts dot rooted [[dot, dot]] parts
        | top :: rest =>
          if top = [dot, dot] then cleanParts dot rooted (part :: top :: rest) parts
          else cleanParts dot rooted rest parts
      else cleanParts dot rooted (part :: kept) parts := by
  cases kept <;> rfl

theorem cleanParts_skip {part : List α} (h : part = [] ∨ part = [dot]) :
    cleanParts dot rooted kept (part :: parts) = cleanParts dot rooted kept parts := by
  rw [cleanParts_cons, if_pos h]

theorem cleanParts_name {name : List α} (h : Name slash dot name) :
    cleanParts dot rooted kept (name :: parts) = cleanParts dot rooted (name :: kept) parts := by
  rw [cleanParts_cons, if_neg (by simp [h.ne_nil, h.ne_dot]), if_neg h.ne_up]

theorem cleanParts_names (h : ∀ name ∈ names, Name slash dot name) :
    cleanParts dot rooted kept (names ++ parts) =
      cleanParts dot rooted (names.reverse ++ kept) parts := by
  induction names generalizing kept with
  | nil => rfl
  | cons name names ih =>
    rw [List.cons_append, cleanParts_name (h name List.mem_cons_self),
      ih fun x hx => h x (List.mem_cons_of_mem _ hx)]
    simp

theorem cleanParts_up_kept (top : List α) (htop : top ≠ [dot, dot]) :
    cleanParts dot rooted (top :: kept) ([dot, dot] :: parts) =
      cleanParts dot rooted kept parts := by
  rw [cleanParts_cons, if_neg (by simp), if_pos rfl]
  simp [htop]

/-- `..` goes back over names. -/
theorem cleanParts_ups_names (h : ∀ name ∈ kept, Name slash dot name) (hn : n ≤ kept.length) :
    cleanParts dot rooted kept (ups dot n ++ parts) =
      cleanParts dot rooted (kept.drop n) parts := by
  induction n generalizing kept with
  | zero => rfl
  | succ n ih =>
    cases kept with
    | nil => simp at hn
    | cons top kept =>
      have htop := h top List.mem_cons_self
      rw [ups, List.replicate_succ, List.cons_append, cleanParts_up_kept top htop.ne_up]
      exact ih (fun x hx => h x (List.mem_cons_of_mem _ hx)) (by simpa using hn)

/-- At the start of a relative path `..` stays. -/
theorem cleanParts_ups (m : Nat) :
    cleanParts dot false (ups dot m) (ups dot n ++ parts) =
      cleanParts dot false (ups dot (m + n)) parts := by
  induction n generalizing m with
  | zero => rfl
  | succ n ih =>
    have hnext : cleanParts dot false (ups dot m) ([dot, dot] :: (ups dot n ++ parts)) =
        cleanParts dot false (ups dot (m + 1)) (ups dot n ++ parts) := by
      rw [cleanParts_cons, if_neg (by simp), if_pos rfl]
      cases m with
      | zero => rfl
      | succ m => simp [ups, List.replicate_succ]
    calc cleanParts dot false (ups dot m) (ups dot (n + 1) ++ parts)
        = cleanParts dot false (ups dot m) ([dot, dot] :: (ups dot n ++ parts)) := rfl
      _ = cleanParts dot false (ups dot (m + 1)) (ups dot n ++ parts) := hnext
      _ = cleanParts dot false (ups dot (m + 1 + n)) parts := ih (m + 1)
      _ = cleanParts dot false (ups dot (m + (n + 1))) parts := by
          rw [Nat.add_right_comm m 1 n, Nat.add_assoc]

theorem cleanParts_canonical_eq (h : Canonical slash dot parts) :
    cleanParts dot false [] parts = parts := by
  obtain ⟨n, names, rfl, hnames⟩ := h
  calc cleanParts dot false [] (ups dot n ++ names)
      = cleanParts dot false (ups dot (0 + n)) names := cleanParts_ups 0
    _ = ups dot n ++ names := by
        rw [← List.append_nil names, cleanParts_names hnames]
        simp [cleanParts, ups_reverse]

/-- Going down, back and down again from the start. -/
theorem cleanParts_down_up_down {parent : List (List α)}
    (hparent : ∀ name ∈ parent, Name slash dot name)
    (hnames : ∀ name ∈ names, Name slash dot name) :
    cleanParts dot false [] (parent ++ (ups dot n ++ names)) =
      if n ≤ parent.length then parent.take (parent.length - n) ++ names
      else ups dot (n - parent.length) ++ names := by
  rw [cleanParts_names hparent, List.append_nil]
  have hreverse : ∀ name ∈ parent.reverse, Name slash dot name := by grind
  split_ifs with hn
  · rw [cleanParts_ups_names hreverse (by simpa using hn), ← List.append_nil names,
      cleanParts_names hnames]
    simp [cleanParts, List.drop_reverse]
  · -- the names are used up, and the rest of the `..` is kept
    have hsplit : ups dot n = ups dot parent.length ++ ups dot (n - parent.length) := by
      rw [ups, ups, ups, List.replicate_append_replicate]
      congr 1
      omega
    rw [hsplit, List.append_assoc, cleanParts_ups_names hreverse (by simp),
      List.drop_eq_nil_of_le (by simp)]
    exact cleanParts_canonical_eq ⟨_, names, rfl, hnames⟩

/-- Cleaning yields `..` in front and names after. -/
theorem canonical_cleanParts (hfree : ∀ part ∈ parts, slash ∉ part)
    (hnames : ∀ name ∈ names, Name slash dot name) :
    Canonical slash dot (cleanParts dot false (names ++ ups dot n) parts) := by
  induction parts generalizing names n with
  | nil => grind [cleanParts, ups_reverse, Canonical]
  | cons part parts ih =>
    have hrest : ∀ x ∈ parts, slash ∉ x := fun x hx => hfree x (List.mem_cons_of_mem _ hx)
    by_cases hskip : part = [] ∨ part = [dot]
    · rw [cleanParts_skip hskip]
      exact ih hrest hnames
    · by_cases hup : part = [dot, dot]
      · subst hup
        cases names with
        | nil =>
          have hone : cleanParts dot false (ups dot n) (ups dot 1 ++ parts) =
              cleanParts dot false (ups dot (n + 1)) parts := cleanParts_ups n
          have hnil :
              Canonical slash dot (cleanParts dot false ([] ++ ups dot (n + 1)) parts) :=
            ih hrest fun _ h => by cases h
          exact hone ▸ hnil
        | cons name names =>
          rw [List.cons_append, cleanParts_up_kept name (hnames name List.mem_cons_self).ne_up]
          exact ih hrest fun x hx => hnames x (List.mem_cons_of_mem _ hx)
      · have hname : Name slash dot part :=
          ⟨fun h => hskip (.inl h), fun h => hskip (.inr h), hup, hfree part List.mem_cons_self⟩
        rw [cleanParts_name hname, ← List.cons_append]
        grind

/-- Cleaning a rooted path yields names. -/
theorem names_cleanParts (hfree : ∀ part ∈ parts, slash ∉ part)
    (hkept : ∀ name ∈ kept, Name slash dot name) :
    ∀ name ∈ cleanParts dot true kept parts, Name slash dot name := by
  induction parts generalizing kept with
  | nil =>
    intro name hname
    exact hkept name (List.mem_reverse.1 hname)
  | cons part parts ih =>
    obtain ⟨hpart, hrest⟩ := List.forall_mem_cons.1 hfree
    by_cases hskip : part = [] ∨ part = [dot]
    · rw [cleanParts_skip hskip]
      exact ih hrest hkept
    · by_cases hup : part = [dot, dot]
      · subst hup
        cases kept with
        | nil => grind [cleanParts]
        | cons top kept =>
          obtain ⟨htop, hkept⟩ := List.forall_mem_cons.1 hkept
          rw [cleanParts_up_kept top htop.ne_up]
          exact ih hrest hkept
      · have hname : Name slash dot part :=
          ⟨fun h => hskip (.inl h), fun h => hskip (.inr h), hup, hpart⟩
        rw [cleanParts_name hname]
        exact ih hrest (List.forall_mem_cons.2 ⟨hname, hkept⟩)

theorem Canonical.isAbs_written (hne : slash ≠ dot) (h : Canonical slash dot parts) :
    isAbs slash (written slash dot parts) = false := by
  obtain ⟨c, cs, heq, hc⟩ := h.written_eq_cons hne
  rw [heq]
  simpa [isAbs] using hc

/-- The elements of a written path, and one more `.` if there are none. -/
theorem Canonical.cleanParts_split_written (hne : slash ≠ dot) (h : Canonical slash dot parts) :
    cleanParts dot false [] (split slash (written slash dot parts)) = parts := by
  unfold written
  split_ifs with hnil
  · rw [split_dot hne, cleanParts_skip (.inr rfl), hnil]
    rfl
  · rw [split_intercalate hnil (h.slash_free hne)]
    exact cleanParts_canonical_eq h

theorem Canonical.clean_written (hne : slash ≠ dot) (h : Canonical slash dot parts) :
    clean slash dot (written slash dot parts) = written slash dot parts := by
  rw [clean, h.isAbs_written hne, if_neg (by simp), h.cleanParts_split_written hne]

/-- **The relative paths that `clean` leaves alone.** -/
theorem clean_eq_self_iff (hne : slash ≠ dot) (hrel : isAbs slash p = false) :
    clean slash dot p = p ↔ ∃ parts, Canonical slash dot parts ∧ p = written slash dot parts := by
  constructor
  · intro h
    rw [clean, hrel, if_neg (by simp)] at h
    have hcanonical :
        Canonical slash dot (cleanParts dot false ([] ++ ups dot 0) (split slash p)) :=
      canonical_cleanParts (fun _ => slash_free_of_mem_split) (fun _ h => by cases h)
    exact ⟨_, hcanonical, h.symm⟩
  · rintro ⟨parts, hparts, rfl⟩
    exact hparts.clean_written hne

/-- **The paths that go down from where they start**: `clean` leaves them alone, and they do
not begin with `..`. -/
theorem plain_iff (hne : slash ≠ dot) (hrel : isAbs slash p = false) :
    (clean slash dot p = p ∧ p ≠ [dot] ∧ p ≠ [dot, dot] ∧ ¬ [dot, dot, slash] <+: p) ↔
      ∃ names, names ≠ [] ∧ (∀ name ∈ names, Name slash dot name) ∧
        p = [slash].intercalate names := by
  constructor
  · rintro ⟨hclean, hdot, hup, hups⟩
    obtain ⟨parts, ⟨n, names, rfl, hnames⟩, rfl⟩ := (clean_eq_self_iff hne hrel).1 hclean
    cases n with
    | zero =>
      have hnil : names ≠ [] := by
        rintro rfl
        exact hdot rfl
      exact ⟨names, hnil, hnames, if_neg hnil⟩
    | succ n =>
      exfalso
      rw [written, ups_succ, List.cons_append, if_neg (by simp)] at hup hups
      cases hrest : ups dot n ++ names with
      | nil =>
        rw [hrest] at hup
        exact hup rfl
      | cons part parts =>
        rw [hrest, List.intercalate_cons_cons] at hups
        exact hups ⟨[slash].intercalate (part :: parts), by simp⟩
  · rintro ⟨names, hnil, hnames, rfl⟩
    have hsplit : split slash ([slash].intercalate names) = names :=
      split_intercalate hnil fun name hname => (hnames name hname).slash_free
    have hwritten : [slash].intercalate names = written slash dot names := (if_neg hnil).symm
    refine ⟨?_, ?_, ?_, ?_⟩
    · rw [hwritten]
      exact (Canonical.of_names hnames).clean_written hne
    · intro heq
      rw [heq, split_dot hne] at hsplit
      exact (hnames [dot] (hsplit ▸ List.mem_cons_self)).ne_dot rfl
    · intro heq
      have hup : split slash [dot, dot] = [[dot, dot]] :=
        List.splitOn_eq_singleton (by simpa using hne)
      rw [heq, hup] at hsplit
      exact (hnames [dot, dot] (hsplit ▸ List.mem_cons_self)).ne_up rfl
    · rintro ⟨rest, hrest⟩
      have hfirst : split slash ([dot, dot] ++ slash :: rest) = [dot, dot] :: split slash rest :=
        List.splitOn_append_cons_self_of_not_mem (by simpa using hne) rest
      have hshape : [slash].intercalate names = [dot, dot] ++ slash :: rest := by
        rw [← hrest]
        rfl
      rw [hshape, hfirst] at hsplit
      exact (hnames [dot, dot] (hsplit ▸ List.mem_cons_self)).ne_up rfl

theorem split_closed (hfree : ∀ part ∈ parts, slash ∉ part) :
    split slash (parts.flatMap (· ++ [slash])) = parts ++ [[]] := by
  induction parts with
  | nil => rfl
  | cons part parts ih =>
    have hshape : (part :: parts).flatMap (· ++ [slash]) =
        part ++ slash :: parts.flatMap (· ++ [slash]) := by
      simp
    have hfirst := List.splitOn_append_cons_self_of_not_mem (hfree part List.mem_cons_self)
      (parts.flatMap (· ++ [slash]))
    grind [split]

/-- The directory of a path of names. -/
theorem dir_intercalate {parent : List (List α)} {last : List α}
    (hparent : ∀ name ∈ parent, Name slash dot name) (hlast : slash ∉ last) :
    dir slash dot ([slash].intercalate (parent ++ [last])) = written slash dot parent := by
  have hfree : ∀ part ∈ parent ++ [last], slash ∉ part := by
    intro part hpart
    rcases List.mem_append.1 hpart with hpart | hpart
    · exact (hparent part hpart).slash_free
    · rwa [List.mem_singleton.1 hpart]
  have hrel : isAbs slash (parent.flatMap (· ++ [slash])) = false := by
    cases parent with
    | nil => rfl
    | cons first rest =>
      have hfirst := hparent first List.mem_cons_self
      obtain ⟨c, cs, rfl⟩ := List.exists_cons_of_ne_nil hfirst.ne_nil
      have hc : c ≠ slash := by
        rintro rfl
        exact hfirst.slash_free List.mem_cons_self
      simpa [isAbs] using hc
  rw [dir, split_intercalate (by simp) hfree, List.dropLast_concat, clean, hrel,
    if_neg (by simp), split_closed fun name hname => (hparent name hname).slash_free,
    cleanParts_names hparent, cleanParts_skip (.inl rfl)]
  simp [cleanParts]

/-- The elements of a written path may be put in its place. -/
theorem Canonical.cleanParts_written_append (hne : slash ≠ dot) (h : Canonical slash dot parts)
    (kept rest : List (List α)) :
    cleanParts dot rooted kept (split slash (written slash dot parts) ++ rest) =
      cleanParts dot rooted kept (parts ++ rest) := by
  unfold written
  split_ifs with hnil
  · rw [split_dot hne, hnil]
    exact cleanParts_skip (.inr rfl)
  · rw [split_intercalate hnil (h.slash_free hne)]

/-- **A path read relative to the directory of another one**: its `..` go back over the names
of that directory, and what is left of them stays in front. -/
theorem clean_joinPath_dir (hne : slash ≠ dot) {parent : List (List α)} {last : List α}
    (hparent : ∀ name ∈ parent, Name slash dot name) (hlast : slash ∉ last)
    (hnames : ∀ name ∈ names, Name slash dot name) :
    clean slash dot (joinPath slash dot (dir slash dot ([slash].intercalate (parent ++ [last])))
        (written slash dot (ups dot n ++ names))) =
      written slash dot (if n ≤ parent.length then parent.take (parent.length - n) ++ names
        else ups dot (n - parent.length) ++ names) := by
  have hdir : Canonical slash dot parent := .of_names hparent
  have htarget : Canonical slash dot (ups dot n ++ names) := ⟨n, names, rfl, hnames⟩
  have hresolved : Canonical slash dot (if n ≤ parent.length then
      parent.take (parent.length - n) ++ names else ups dot (n - parent.length) ++ names) := by
    split_ifs
    · apply Canonical.of_names
      grind
    · exact ⟨_, names, rfl, hnames⟩
  obtain ⟨c, cs, hwritten, hc⟩ := hdir.written_eq_cons hne
  have hrel : isAbs slash (written slash dot parent ++
      slash :: written slash dot (ups dot n ++ names)) = false := by
    rw [hwritten]
    simpa [isAbs] using hc
  have hjoin : joinPath slash dot (written slash dot parent)
      (written slash dot (ups dot n ++ names)) = written slash dot (if n ≤ parent.length then
        parent.take (parent.length - n) ++ names else ups dot (n - parent.length) ++ names) := by
    obtain ⟨d, ds, htext, -⟩ := htarget.written_eq_cons hne
    have hparts : cleanParts dot false [] (split slash (written slash dot parent) ++
        split slash (written slash dot (ups dot n ++ names))) =
        cleanParts dot false [] (parent ++ (ups dot n ++ names)) := by
      have hlast : cleanParts dot false (parent.reverse ++ [])
          (split slash (written slash dot (ups dot n ++ names)) ++ []) =
          cleanParts dot false (parent.reverse ++ []) ((ups dot n ++ names) ++ []) :=
        htarget.cleanParts_written_append hne _ _
      rw [hdir.cleanParts_written_append hne, cleanParts_names hparent, cleanParts_names hparent]
      simpa using hlast
    rw [joinPath, if_neg (by simp [hwritten]), if_neg (by simp [htext]), clean, hrel,
      if_neg (by simp), split_append_slash, hparts, cleanParts_down_up_down hparent hnames]
  rw [dir_intercalate hparent hlast, hjoin]
  exact hresolved.clean_written hne

/-- Names at the end stay. -/
theorem cleanParts_append_names (h : ∀ name ∈ names, Name slash dot name) :
    cleanParts dot rooted kept (parts ++ names) = cleanParts dot rooted kept parts ++ names := by
  induction parts generalizing kept with
  | nil =>
    have hnames : cleanParts dot rooted kept (names ++ []) =
        cleanParts dot rooted (names.reverse ++ kept) [] := cleanParts_names h
    grind [cleanParts]
  | cons part parts ih =>
    rw [List.cons_append, cleanParts_cons, cleanParts_cons]
    cases kept with
    | nil | cons top rest =>
      dsimp only
      split_ifs <;> exact ih

theorem elements_clean (hne : slash ≠ dot) :
    isAbs slash (clean slash dot p) = isAbs slash p ∧
      elements slash dot (clean slash dot p) = elements slash dot p := by
  cases habs : isAbs slash p with
  | true =>
    have hnames : ∀ name ∈ cleanParts dot true [] (split slash p), Name slash dot name :=
      names_cleanParts (fun _ => slash_free_of_mem_split) (by simp)
    have hclean : clean slash dot p =
        slash :: [slash].intercalate (cleanParts dot true [] (split slash p)) := by
      rw [clean, habs, if_pos rfl]
    have hrooted : isAbs slash (clean slash dot p) = true := by simp [hclean, isAbs]
    have hsplit : ∀ rest, split slash (slash :: rest) = [] :: split slash rest :=
      fun rest => List.splitOn_append_cons_self [] rest
    refine ⟨hrooted, ?_⟩
    rw [elements, hrooted, elements, habs, hclean, hsplit, cleanParts_skip (.inl rfl)]
    by_cases hnil : cleanParts dot true [] (split slash p) = []
    · rw [hnil]
      rfl
    · rw [split_intercalate hnil fun name hname => (hnames name hname).slash_free,
        ← List.append_nil (cleanParts dot true [] (split slash p)), cleanParts_names hnames]
      simp [cleanParts]
  | false =>
    have hcanonical :
        Canonical slash dot (cleanParts dot false ([] ++ ups dot 0) (split slash p)) :=
      canonical_cleanParts (fun _ => slash_free_of_mem_split) (by simp)
    have hclean : clean slash dot p =
        written slash dot (cleanParts dot false [] (split slash p)) := by
      rw [clean, habs, if_neg (by simp)]
    have hrel : isAbs slash (clean slash dot p) = false := by
      rw [hclean]
      exact hcanonical.isAbs_written hne
    refine ⟨hrel, ?_⟩
    rw [elements, hrel, elements, habs, hclean]
    exact hcanonical.cleanParts_split_written hne

/-- **Names that are joined to a path** come after its own elements. -/
theorem elements_joinPath (hne : slash ≠ dot) (hnil : names ≠ [])
    (hnames : ∀ name ∈ names, Name slash dot name) (root : List α) :
    isAbs slash (joinPath slash dot root ([slash].intercalate names)) = isAbs slash root ∧
      elements slash dot (joinPath slash dot root ([slash].intercalate names)) =
        elements slash dot root ++ names := by
  have hsplit : split slash ([slash].intercalate names) = names :=
    split_intercalate hnil fun name hname => (hnames name hname).slash_free
  have htext : [slash].intercalate names ≠ [] := by
    intro heq
    rw [heq] at hsplit
    exact (hnames [] (hsplit ▸ List.mem_singleton.2 rfl)).ne_nil rfl
  have hjoin : joinPath slash dot root ([slash].intercalate names) =
      clean slash dot (if root = [] then [slash].intercalate names
        else root ++ slash :: [slash].intercalate names) := by
    unfold joinPath
    split_ifs <;> rfl
  rw [hjoin]
  by_cases hroot : root = []
  · subst hroot
    rw [if_pos rfl]
    obtain ⟨habs, helements⟩ := elements_clean (p := [slash].intercalate names) hne
    have hrel : isAbs slash ([slash].intercalate names) = false := by
      have hwritten : written slash dot names = [slash].intercalate names := if_neg hnil
      rw [← hwritten]
      exact (Canonical.of_names hnames).isAbs_written hne
    refine ⟨habs.trans hrel, ?_⟩
    rw [helements, elements, hrel, hsplit, cleanParts_canonical_eq (.of_names hnames)]
    rfl
  · rw [if_neg hroot]
    obtain ⟨habs, helements⟩ :=
      elements_clean (p := root ++ slash :: [slash].intercalate names) hne
    have hhead : isAbs slash (root ++ slash :: [slash].intercalate names) = isAbs slash root := by
      obtain ⟨c, cs, rfl⟩ := List.exists_cons_of_ne_nil hroot
      rfl
    refine ⟨habs.trans hhead, ?_⟩
    rw [helements, elements, hhead, split_append_slash, hsplit, cleanParts_append_names hnames]
    rfl

end Lexical
