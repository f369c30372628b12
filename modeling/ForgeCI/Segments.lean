import Mathlib.Data.List.Infix

/-!
# Separated segments

A path is a list of segments, each written after a separator that occurs in none
of them.  The lemmas read tests of the written text as statements about the
segments.
-/

namespace Segments

variable {α : Type*} {sep : α} {segs ws : List (List α)} {s w x y : List α}

/-- The segments, each after a separator. -/
def joined (sep : α) (segs : List (List α)) : List α :=
  segs.flatMap (sep :: ·)

@[simp] theorem joined_nil : joined sep [] = [] := rfl

@[simp] theorem joined_cons : joined sep (s :: segs) = sep :: (s ++ joined sep segs) := rfl

@[simp] theorem joined_append : joined sep (segs ++ ws) = joined sep segs ++ joined sep ws :=
  List.flatMap_append

/-- A separator after a segment lies beyond it. -/
theorem append_eq_append_sep (hs : sep ∉ s) (h : s ++ w = x ++ sep :: y) :
    ∃ x', x = s ++ x' ∧ w = x' ++ sep :: y := by
  rcases List.append_eq_append_iff.1 h with ⟨x', hx, hw⟩ | ⟨c, hc, hsep⟩
  · exact ⟨x', hx, hw⟩
  · cases c with
    | nil => exact ⟨[], by simpa using hc.symm, by simpa using hsep.symm⟩
    | cons b c => grind

/-- **A separator in the text starts a segment.** -/
theorem joined_eq_append_iff (h : ∀ s ∈ segs, sep ∉ s) :
    joined sep segs = x ++ sep :: y ↔
      ∃ pre s post, segs = pre ++ s :: post ∧ x = joined sep pre ∧ y = s ++ joined sep post := by
  constructor
  · intro heq
    induction segs generalizing x with
    | nil => simp at heq
    | cons s rest ih =>
      rw [joined_cons] at heq
      cases x with
      | nil => exact ⟨[], s, rest, rfl, rfl, (List.cons.inj heq).2.symm⟩
      | cons b x =>
        obtain ⟨rfl, htail⟩ := List.cons.inj heq
        obtain ⟨x', rfl, hrest⟩ := append_eq_append_sep (h s List.mem_cons_self) htail
        obtain ⟨pre, s', post, rfl, rfl, rfl⟩ :=
          ih (fun s' hs' => h s' (List.mem_cons_of_mem _ hs')) hrest
        exact ⟨s :: pre, s', post, rfl, rfl, rfl⟩
  · rintro ⟨pre, s, post, rfl, rfl, rfl⟩
    simp

/-- The text after a segment is empty or starts with a separator, so the first
segment can be read off. -/
theorem append_joined_inj (hs : sep ∉ s) (hw : sep ∉ w)
    (h : s ++ joined sep segs = w ++ joined sep ws) :
    s = w ∧ joined sep segs = joined sep ws := by
  cases segs with
  | nil =>
    cases ws with
    | nil => exact ⟨by simpa using h, rfl⟩
    | cons w' ws =>
      have : sep ∈ s := by
        rw [joined_nil, List.append_nil] at h
        rw [h]
        simp
      exact absurd this hs
  | cons s' segs =>
    rw [joined_cons] at h
    obtain ⟨x', hs', hws⟩ := append_eq_append_sep hw h.symm
    cases x' with
    | nil => exact ⟨by simpa using hs', by simpa using hws.symm⟩
    | cons b x' =>
      cases ws with
      | nil => simp at hws
      | cons w' ws =>
        obtain ⟨rfl, -⟩ := List.cons.inj hws
        exact absurd (by simp [hs']) hs

/-- **The text determines the segments.** -/
theorem joined_injective (hsegs : ∀ s ∈ segs, sep ∉ s) (hws : ∀ w ∈ ws, sep ∉ w)
    (h : joined sep segs = joined sep ws) : segs = ws := by
  induction segs generalizing ws with
  | nil =>
    cases ws with
    | nil => rfl
    | cons w ws => simp at h
  | cons s segs ih =>
    cases ws with
    | nil => simp at h
    | cons w ws =>
      obtain ⟨rfl, hrest⟩ := append_joined_inj (hsegs s List.mem_cons_self)
        (hws w List.mem_cons_self) (List.cons.inj h).2
      grind

/-- The text ends in given segments. -/
theorem suffix_joined_iff (hsegs : ∀ s ∈ segs, sep ∉ s) (hws : ∀ w ∈ ws, sep ∉ w) :
    joined sep ws <:+ joined sep segs ↔ ws <:+ segs := by
  constructor
  · rintro ⟨x, hx⟩
    cases ws with
    | nil => exact List.nil_suffix
    | cons w ws =>
      rw [joined_cons] at hx
      obtain ⟨pre, s, post, rfl, -, hpost⟩ := (joined_eq_append_iff hsegs).1 hx.symm
      have hmem : ∀ s' ∈ s :: post, sep ∉ s' := fun s' hs' =>
        hsegs s' (List.mem_append_right _ hs')
      refine ⟨pre, ?_⟩
      rw [joined_injective hws hmem (by rw [joined_cons, joined_cons, hpost])]
  · rintro ⟨pre, rfl⟩
    exact ⟨joined sep pre, joined_append.symm⟩

/-- The text contains a segment before another. -/
theorem infix_closed_iff (hsegs : ∀ s ∈ segs, sep ∉ s) (hw : sep ∉ w) :
    sep :: (w ++ [sep]) <:+: joined sep segs ↔ w ∈ segs.dropLast := by
  constructor
  · rintro ⟨x, z, hx⟩
    have heq : joined sep segs = x ++ sep :: (w ++ sep :: z) := by rw [← hx]; simp
    obtain ⟨pre, s, post, rfl, -, hpost⟩ := (joined_eq_append_iff hsegs).1 heq
    obtain ⟨z', hs, hz⟩ := append_eq_append_sep (hsegs s (by simp)) hpost.symm
    cases post with
    | nil => simp at hz
    | cons s' post =>
      cases z' with
      | nil => grind
      | cons b z' => grind [joined_cons]
  · intro hmem
    obtain ⟨pre, post, hsplit⟩ := List.append_of_mem hmem
    have hne : segs ≠ [] := by
      rintro rfl
      simp at hmem
    rw [← List.dropLast_append_getLast hne, hsplit]
    refine ⟨joined sep pre, ?_⟩
    cases post with
    | nil => exact ⟨segs.getLast hne, by simp⟩
    | cons p post =>
      exact ⟨p ++ joined sep (post ++ [segs.getLast hne]), by simp⟩

/-- The text contains a segment that starts with a word. -/
theorem infix_open_iff (hsegs : ∀ s ∈ segs, sep ∉ s) (hw : sep ∉ w) :
    sep :: w <:+: joined sep segs ↔ ∃ s ∈ segs, w <+: s := by
  constructor
  · rintro ⟨x, z, hx⟩
    have heq : joined sep segs = x ++ sep :: (w ++ z) := by rw [← hx]; simp
    obtain ⟨pre, s, post, rfl, -, hpost⟩ := (joined_eq_append_iff hsegs).1 heq
    refine ⟨s, by simp, ?_⟩
    rcases List.append_eq_append_iff.1 hpost with ⟨c, hs, -⟩ | ⟨c, hwc, hz⟩
    · exact ⟨c, hs.symm⟩
    · cases c with
      | nil => exact ⟨[], by simpa using hwc⟩
      | cons b c =>
        cases post with
        | nil => simp at hz
        | cons s' post =>
          obtain ⟨rfl, -⟩ := List.cons.inj hz
          exact absurd (by simp [hwc]) hw
  · rintro ⟨s, hs, c, rfl⟩
    obtain ⟨pre, post, rfl⟩ := List.append_of_mem hs
    exact ⟨joined sep pre, c ++ joined sep post, by simp⟩

end Segments
