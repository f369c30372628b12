import ForgeCI.LexicalPaths

/-!
# Paths under an encoding

The characters of a path are written as words over another alphabet, in such a way that text can
be read back from the left and the separator occurs only where it was written.  Then the lexical
functions on the written paths are those on the paths.
-/

namespace Lexical

variable {α β : Type*} {slash dot : α} {slash' dot' : β} {enc : α → List β}
  {p q : List α} {parts kept : List (List α)} {rooted : Bool}

/-- Words for the characters, one for the slash and one for the dot among them. -/
structure Encoding (slash dot : α) (slash' dot' : β) (enc : α → List β) : Prop where
  slash_eq : enc slash = [slash']
  dot_eq : enc dot = [dot']
  ne_nil : ∀ a, enc a ≠ []
  /-- The first character of a text is determined by the words. -/
  read : ∀ a b r r', enc a ++ r = enc b ++ r' → a = b ∧ r = r'
  slash_free : ∀ a, a ≠ slash → slash' ∉ enc a

namespace Encoding

variable (h : Encoding slash dot slash' dot' enc)

include h

/-- **One text starts another** exactly when their words do. -/
theorem isPrefix_iff : q.flatMap enc <+: p.flatMap enc ↔ q <+: p := by
  constructor
  · intro hpre
    induction q generalizing p with
    | nil => exact List.nil_prefix
    | cons a q ih =>
      obtain ⟨rest, hrest⟩ := hpre
      rw [List.flatMap_cons, List.append_assoc] at hrest
      cases p with
      | nil =>
        have hnil := List.append_eq_nil_iff.1 (hrest.trans List.flatMap_nil)
        exact absurd hnil.1 (h.ne_nil a)
      | cons b p => grind [h.read]
  · rintro ⟨rest, rfl⟩
    exact ⟨rest.flatMap enc, List.flatMap_append.symm⟩

theorem flatMap_inj : q.flatMap enc = p.flatMap enc ↔ q = p := by
  constructor
  · intro heq
    have hqp : q <+: p := h.isPrefix_iff.1 (heq ▸ List.prefix_refl _)
    have hpq : p <+: q := h.isPrefix_iff.1 (heq ▸ List.prefix_refl _)
    exact hqp.eq_of_length_le hpq.length_le
  · rintro rfl
    rfl

theorem flatMap_eq_nil : p.flatMap enc = [] ↔ p = [] :=
  h.flatMap_inj (p := [])

theorem flatMap_eq_dot : p.flatMap enc = [dot'] ↔ p = [dot] := by
  have hdot : [dot].flatMap enc = [dot'] := by simp [h.dot_eq]
  rw [← hdot, h.flatMap_inj]

theorem flatMap_eq_up : p.flatMap enc = [dot', dot'] ↔ p = [dot, dot] := by
  have hup : [dot, dot].flatMap enc = [dot', dot'] := by simp [h.dot_eq]
  rw [← hup, h.flatMap_inj]

theorem slash_mem_flatMap : slash' ∈ p.flatMap enc ↔ slash ∈ p := by
  grind [h.slash_free, h.slash_eq]

theorem intercalate_map :
    [slash'].intercalate (parts.map (·.flatMap enc)) = ([slash].intercalate parts).flatMap enc := by
  induction parts with
  | nil => rfl
  | cons part parts ih =>
    cases parts with
    | nil => simp
    | cons next parts =>
      rw [List.map_cons] at ih ⊢
      rw [List.map_cons, List.intercalate_cons_cons, ih, List.intercalate_cons_cons]
      simp [h.slash_eq]

variable [DecidableEq α] [DecidableEq β]

/-- **The elements of a written path.** -/
theorem split_flatMap : split slash' (p.flatMap enc) = (split slash p).map (·.flatMap enc) := by
  have hfree : ∀ part ∈ (split slash p).map (·.flatMap enc), slash' ∉ part := by
    intro part hpart
    obtain ⟨old, hold, rfl⟩ := List.mem_map.1 hpart
    exact fun hmem => slash_free_of_mem_split hold (h.slash_mem_flatMap.1 hmem)
  have hsplit : split slash p ≠ [] := split_ne_nil
  calc split slash' (p.flatMap enc)
      = split slash' (([slash].intercalate (split slash p)).flatMap enc) := by
        rw [intercalate_split]
    _ = split slash' ([slash'].intercalate ((split slash p).map (·.flatMap enc))) := by
        rw [h.intercalate_map]
    _ = (split slash p).map (·.flatMap enc) :=
        split_intercalate (by simpa using hsplit) hfree

theorem cleanParts_map :
    cleanParts dot' rooted (kept.map (·.flatMap enc)) (parts.map (·.flatMap enc)) =
      (cleanParts dot rooted kept parts).map (·.flatMap enc) := by
  induction parts generalizing kept with
  | nil => simp [cleanParts]
  | cons part parts ih =>
    have hup : [[dot', dot']] = [[dot, dot]].map (·.flatMap enc) := by simp [h.dot_eq]
    have hskips : (part.flatMap enc = [] ∨ part.flatMap enc = [dot']) ↔
        part = [] ∨ part = [dot] := or_congr h.flatMap_eq_nil h.flatMap_eq_dot
    rw [List.map_cons, cleanParts_cons, cleanParts_cons]
    by_cases hskip : part = [] ∨ part = [dot]
    · rw [if_pos (hskips.2 hskip), if_pos hskip, ih]
    · rw [if_neg (hskip ∘ hskips.1), if_neg hskip]
      by_cases hpart : part = [dot, dot]
      · rw [if_pos (h.flatMap_eq_up.2 hpart), if_pos hpart]
        cases kept with
        | nil => grind
        | cons top rest =>
          rw [List.map_cons]
          dsimp only
          by_cases htop : top = [dot, dot]
          · rw [if_pos (h.flatMap_eq_up.2 htop), if_pos htop]
            exact @ih (part :: top :: rest)
          · rw [if_neg (htop ∘ h.flatMap_eq_up.1), if_neg htop, ih]
      · grind [h.flatMap_eq_up]

theorem isAbs_flatMap : isAbs slash' (p.flatMap enc) = isAbs slash p := by
  cases p with
  | nil => rfl
  | cons a p =>
    obtain ⟨b, bs, hb⟩ := List.exists_cons_of_ne_nil (h.ne_nil a)
    have hhead : b = slash' ↔ a = slash := by
      constructor
      · rintro rfl
        by_contra hne
        exact h.slash_free a hne (by simp [hb])
      · grind [h.slash_eq]
    simp [isAbs, hb, hhead]

/-- **Cleaning a written path.** -/
theorem clean_flatMap : clean slash' dot' (p.flatMap enc) = (clean slash dot p).flatMap enc := by
  have hparts : cleanParts dot' (isAbs slash p) (List.map (List.flatMap enc) [])
      ((split slash p).map (·.flatMap enc)) =
      (cleanParts dot (isAbs slash p) [] (split slash p)).map (·.flatMap enc) := h.cleanParts_map
  rw [List.map_nil] at hparts
  unfold clean
  rw [h.isAbs_flatMap, h.split_flatMap]
  cases habs : isAbs slash p with
  | true => grind [h.intercalate_map, h.slash_eq]
  | false =>
    rw [habs] at hparts
    rw [if_neg (by simp), if_neg (by simp), hparts]
    unfold written
    by_cases hnil : cleanParts dot false [] (split slash p) = []
    · simp [hnil, h.dot_eq]
    · rw [if_neg (by simpa using hnil), if_neg hnil, h.intercalate_map]

end Encoding

end Lexical
