import Mathlib.Data.List.Nodup

/-!
# Keyed lists as tables

The two statements every operation is made of, `SELECT … WHERE key = k` and
`UPDATE … SET … WHERE p`, on a list of rows, with the lemmas that move a
lookup through an update.  `replace` writes one row back under its key.
-/

namespace Table

variable {α κ : Type*} [DecidableEq κ]

/-- The row with a given key. -/
def row? (key : α → κ) (k : κ) (l : List α) : Option α :=
  l.find? (key · = k)

/-- Rewrite the rows that satisfy a condition. -/
def updateWhere (p : α → Bool) (f : α → α) (l : List α) : List α :=
  l.map fun a => if p a then f a else a

/-- Write a row back under its key. -/
def replace (key : α → κ) (row : α) (l : List α) : List α :=
  updateWhere (key · = key row) (fun _ => row) l

variable {key : α → κ} {k : κ} {l : List α} {p : α → Bool} {f : α → α}
  {a b : α}

theorem row?_some (h : row? key k l = some a) : a ∈ l ∧ key a = k :=
  ⟨List.mem_of_find?_eq_some h, by simpa using List.find?_some h⟩

/-- With a primary key, a lookup is membership. -/
theorem row?_eq_some_iff (hl : (l.map key).Nodup) : row? key k l = some a ↔ a ∈ l ∧ key a = k := by
  refine ⟨row?_some, ?_⟩
  rintro ⟨ha, rfl⟩
  cases h : row? key (key a) l with
  | none => simpa using List.find?_eq_none.1 h a ha
  | some b =>
    obtain ⟨hb, hkey⟩ := row?_some h
    rw [List.inj_on_of_nodup_map hl hb ha hkey]

theorem mem_updateWhere {b : α} :
    b ∈ updateWhere p f l ↔ ∃ a ∈ l, (if p a then f a else a) = b :=
  List.mem_map

/-- An update that keeps a column keeps the list of its values. -/
theorem map_updateWhere {β : Type*} {g : α → β} (hf : ∀ a, p a → g (f a) = g a) :
    (updateWhere p f l).map g = l.map g := by
  rw [updateWhere, List.map_map]
  refine List.map_congr_left fun a _ => ?_
  by_cases hp : p a
  · simp [hp, hf a hp]
  · simp [hp]

/-- An update that takes rows out of `q` leaves fewer rows in `q`. -/
theorem countP_updateWhere_lt {q : α → Bool} (hout : ∀ a, p a → q (f a) = false)
    (hex : ∃ a ∈ l, p a ∧ q a) : (updateWhere p f l).countP q < l.countP q := by
  have hle : ∀ l : List α, (updateWhere p f l).countP q ≤ l.countP q := by
    intro l
    rw [updateWhere, List.countP_map]
    refine List.countP_mono_left fun a _ ha => ?_
    grind
  obtain ⟨a, ha, hp, hq⟩ := hex
  obtain ⟨pre, post, rfl⟩ := List.append_of_mem ha
  grind [updateWhere]

theorem forall₂_updateWhere {R : α → α → Prop}
    (h : ∀ a ∈ l, R a (if p a then f a else a)) : List.Forall₂ R l (updateWhere p f l) := by
  rw [updateWhere, List.forall₂_map_right_iff, List.forall₂_same]
  exact h

/-- Writing a row back changes the one row with its key. -/
theorem forall₂_replace {R : α → α → Prop} (hl : (l.map key).Nodup)
    (ha : a ∈ l) (hkey : key b = key a) (hab : R a b) (hrefl : ∀ x ∈ l, R x x) :
    List.Forall₂ R l (replace key b l) := by
  refine forall₂_updateWhere fun x hx => ?_
  by_cases hxb : key x = key b
  · obtain rfl : x = a := List.inj_on_of_nodup_map hl hx ha (hxb.trans hkey)
    simpa [hxb] using hab
  · simpa [hxb] using hrefl x hx

/-- Writing back a row as it was changes nothing. -/
theorem replace_self (hl : (l.map key).Nodup) (ha : a ∈ l) : replace key a l = l := by
  refine (List.map_congr_left fun x hx => ?_).trans (List.map_id _)
  by_cases hxa : key x = key a
  · simp [List.inj_on_of_nodup_map hl hx ha hxa]
  · simp [hxa]

/-- Writing a row back changes the table in one place. -/
theorem replace_split (hl : (l.map key).Nodup) (ha : a ∈ l) (hkey : key b = key a) :
    ∃ pre post, l = pre ++ a :: post ∧ replace key b l = pre ++ b :: post := by
  obtain ⟨pre, post, rfl⟩ := List.append_of_mem ha
  refine ⟨pre, post, rfl, ?_⟩
  have hother : ∀ x, x ∈ pre ∨ x ∈ post → key x ≠ key b := by grind
  have hsame : ∀ part : List α, (∀ x ∈ part, x ∈ pre ∨ x ∈ post) →
      part.map (fun x => if key x = key b then b else x) = part := by
    intro part hpart
    refine (List.map_congr_left fun x hx => ?_).trans (List.map_id _)
    simp [hother x (hpart x hx)]
  simp only [replace, updateWhere, List.map_append, List.map_cons, decide_eq_true_eq,
    hsame pre fun x hx => .inl hx, hsame post fun x hx => .inr hx, if_pos hkey.symm]

/-- Writing back a row that enters `q` adds one row to `q`. -/
theorem countP_replace (hl : (l.map key).Nodup) {q : α → Bool} (ha : a ∈ l)
    (hkey : key b = key a) (hqa : q a = false) (hqb : q b = true) :
    (replace key b l).countP q = l.countP q + 1 := by
  obtain ⟨pre, post, rfl, hreplace⟩ := replace_split hl ha hkey
  grind

variable {β γ : Type*} {R : α → β → Prop}
  {l : List α} {l' : List β}

/-- Every new row has an old row. -/
theorem exists_old (h : List.Forall₂ R l l') {b : β} (hb : b ∈ l') : ∃ a ∈ l, R a b := by
  induction h with
  | nil => cases hb
  | @cons a b' _ _ hab _ ih => grind

/-- Every old row has a new row. -/
theorem exists_new (h : List.Forall₂ R l l') (ha : a ∈ l) : ∃ b ∈ l', R a b :=
  exists_old (R := flip R) (List.Forall₂.flip h) ha

theorem forall₂_trans {S : β → γ → Prop} {T : α → γ → Prop}
    (hT : ∀ a b c, R a b → S b c → T a c) {l'' : List γ}
    (h : List.Forall₂ R l l') (h' : List.Forall₂ S l' l'') : List.Forall₂ T l l'' := by
  induction h generalizing l'' with
  | nil =>
    cases h'
    exact .nil
  | cons hab _ ih =>
    cases h' with
    | cons hbc hrest => exact .cons (hT _ _ _ hab hbc) (ih hrest)

/-- A count that no row joins does not grow. -/
theorem countP_le_of_forall₂ {p : α → Bool} {q : β → Bool}
    (h : List.Forall₂ R l l') (hR : ∀ a b, R a b → q b = true → p a = true) :
    l'.countP q ≤ l.countP p := by
  induction h with
  | nil => simp
  | @cons a b _ _ hab _ ih => grind

/-- A column that every row keeps is kept as a whole. -/
theorem map_eq_of_forall₂ {δ : Type*} {f : α → δ} {g : β → δ}
    (h : List.Forall₂ R l l') (hR : ∀ a b, R a b → g b = f a) : l'.map g = l.map f := by
  induction h with
  | nil => rfl
  | cons hab _ ih => simp [hR _ _ hab, ih]

end Table
