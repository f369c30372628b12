import Mathlib.Algebra.GroupWithZero.Nat
import Mathlib.Algebra.Order.BigOperators.Group.List
import Mathlib.Algebra.Order.Group.Nat
import Mathlib.Data.List.Dedup
import Mathlib.Data.List.Infix

/-!
# Prefixes that bring a total under a budget

Rows that share a key, of which the first counts, and the shortest prefix of a list without
which the rest fits a budget.
-/

namespace Budget

variable {ρ α τ : Type*}

section Firsts

variable [DecidableEq α] {key : ρ → α} {l : List ρ} {x y : ρ}

/-- The first row of each key. -/
def firsts (key : ρ → α) : List ρ → List ρ
  | [] => []
  | x :: l => x :: (firsts key l).filter (key · ≠ key x)

theorem firsts_sublist (key : ρ → α) (l : List ρ) : (firsts key l).Sublist l := by
  induction l with
  | nil => exact List.Sublist.slnil
  | cons x l ih => exact (List.filter_sublist.trans ih).cons_cons x

theorem mem_map_firsts {a : α} : a ∈ (firsts key l).map key ↔ a ∈ l.map key := by
  induction l with
  | nil => rfl
  | cons x l ih => grind [firsts]

theorem nodup_map_firsts (key : ρ → α) (l : List ρ) : ((firsts key l).map key).Nodup := by
  induction l with
  | nil => exact List.nodup_nil
  | cons x l ih =>
    rw [firsts, List.map_cons]
    apply List.nodup_cons.2
    refine ⟨?_, ih.sublist (List.filter_sublist.map key)⟩
    intro hmem
    obtain ⟨y, hy, hkey⟩ := List.mem_map.1 hmem
    exact of_decide_eq_true (List.mem_filter.1 hy).2 hkey

/-- **The first row of a key** comes before all rows of the key. -/
theorem firsts_first {R : ρ → ρ → Prop} (hrefl : ∀ x, R x x) (h : l.Pairwise R)
    (hx : x ∈ firsts key l) (hy : y ∈ l) (hkey : key y = key x) : R x y := by
  induction l with
  | nil => cases hx
  | cons z l ih =>
    obtain ⟨hz, hl⟩ := List.pairwise_cons.1 h
    rcases List.mem_cons.1 hx with rfl | hx
    · grind
    · grind

end Firsts

/-- Take rows while a condition on the running state holds. -/
def trim (exceeds : τ → Bool) (less : τ → ρ → τ) : τ → List ρ → List ρ
  | _, [] => []
  | s, x :: l => if exceeds s then x :: trim exceeds less (less s x) l else []

/-- The same for a loop that skips the keys it has taken. -/
def scan [DecidableEq α] (key : ρ → α) (exceeds : τ → Bool) (less : τ → ρ → τ) :
    τ → List α → List ρ → List α
  | _, taken, [] => taken
  | s, taken, x :: l =>
      if exceeds s then
        if key x ∈ taken then scan key exceeds less s taken l
        else scan key exceeds less (less s x) (taken ++ [key x]) l
      else taken

variable {exceeds : τ → Bool} {less : τ → ρ → τ} {s : τ} {l : List ρ}
  {weight : ρ → Nat} {budget : Nat}

theorem trim_front (s : τ) (l : List ρ) : trim exceeds less s l <+: l := by
  induction l generalizing s with
  | nil => exact List.prefix_rfl
  | cons x l ih => grind [trim]

theorem trim_of_not_exceeds (h : exceeds s = false) : trim exceeds less s l = [] := by
  cases l with
  | nil => rfl
  | cons x l => simp [trim, h]

/-- A row is taken exactly when the condition holds at it and at every row before it. -/
theorem lt_length_trim_iff {i : Nat} (hi : i < l.length) :
    i < (trim exceeds less s l).length ↔
      ∀ k ≤ i, exceeds ((l.take k).foldl less s) = true := by
  induction l generalizing s i with
  | nil => cases hi
  | cons x l ih =>
    unfold trim
    split_ifs with hs
    · cases i with
      | zero => simp [hs]
      | succ i =>
        rw [List.length_cons, Nat.succ_lt_succ_iff, ih (Nat.lt_of_succ_lt_succ hi)]
        constructor
        · intro h k hk
          cases k with
          | zero => exact hs
          | succ k => exact h k (Nat.le_of_succ_le_succ hk)
        · exact fun h k hk => h (k + 1) (Nat.succ_le_succ hk)
    · refine ⟨fun h => absurd h (Nat.not_lt_zero i), fun h => absurd (h 0 (Nat.zero_le i)) hs⟩

/-- **A loop that skips** the keys it has taken takes what the plain loop takes of the first
rows. -/
theorem scan_eq_trim [DecidableEq α] (key : ρ → α) (s : τ) (taken : List α) (l : List ρ) :
    scan key exceeds less s taken l =
      taken ++ (trim exceeds less s ((firsts key l).filter (key · ∉ taken))).map key := by
  induction l generalizing s taken with
  | nil => simp [scan, firsts, trim]
  | cons x l ih =>
    unfold scan
    split_ifs with hover hx
    · have hskip : (firsts key (x :: l)).filter (key · ∉ taken) =
          (firsts key l).filter (key · ∉ taken) := by
        rw [firsts, List.filter_cons_of_neg (by simpa using hx), List.filter_filter]
        grind
      rw [ih, hskip]
    · have htake : (firsts key (x :: l)).filter (key · ∉ taken) =
          x :: (firsts key l).filter (key · ∉ taken ++ [key x]) := by
        rw [firsts, List.filter_cons_of_pos (by simpa using hx), List.filter_filter]
        grind
      rw [ih, htake]
      simp [trim, hover]
    · rw [trim_of_not_exceeds (by simpa using hover)]
      simp

/-- The prefix without which the rest fits, and no shorter one. -/
structure Shortest (weight : ρ → Nat) (budget : Nat) (l p : List ρ) : Prop where
  front : p <+: l
  fits : ((l.drop p.length).map weight).sum ≤ budget
  needed : ∀ k < p.length, budget < ((l.drop k).map weight).sum

/-- When everything fits, the shortest prefix is empty. -/
theorem Shortest.eq_nil {p : List ρ}
    (h : Shortest weight budget l p) (hfits : (l.map weight).sum ≤ budget) : p = [] := by
  by_contra hne
  have hneeded := h.needed 0 (List.length_pos_iff.2 hne)
  rw [List.drop_zero] at hneeded
  omega

theorem sum_drop_le (weight : ρ → Nat) (l : List ρ) {k k' : Nat} (h : k ≤ k') :
    ((l.drop k').map weight).sum ≤ ((l.drop k).map weight).sum :=
  ((List.drop_sublist_drop_left l h).map weight).sum_le_sum (by simp)

/-- A row is in the shortest prefix exactly when the rows from it on are too much. -/
theorem Shortest.lt_length_iff {p : List ρ} {i : Nat} (h : Shortest weight budget l p) :
    i < p.length ↔ budget < ((l.drop i).map weight).sum := by
  refine ⟨h.needed i, fun hover => ?_⟩
  by_contra hle
  have hfits := h.fits
  have hrest := sum_drop_le weight l (Nat.le_of_not_lt hle)
  omega

/-- **The rows taken are the shortest prefix**, if the running state is a function `state` of
the rest. -/
theorem trim_shortest (state : List ρ → τ)
    (hover : ∀ l', l' <:+ l → exceeds (state l') = decide (budget < (l'.map weight).sum))
    (hless : ∀ x l', x :: l' <:+ l → less (state (x :: l')) x = state l') :
    Shortest weight budget l (trim exceeds less (state l) l) := by
  induction l with
  | nil => exact ⟨List.prefix_rfl, by simp, by simp [trim]⟩
  | cons x l ih =>
    have hrest := ih (fun l' h => hover l' (h.trans (List.suffix_cons x l)))
      fun y l' h => hless y l' (h.trans (List.suffix_cons x l))
    have hx := hover (x :: l) List.suffix_rfl
    unfold trim
    rw [hless x l List.suffix_rfl]
    split_ifs with h
    · rw [h] at hx
      refine ⟨List.cons_prefix_cons.2 ⟨rfl, hrest.front⟩, hrest.fits, ?_⟩
      intro k hk
      cases k with
      | zero => exact of_decide_eq_true hx.symm
      | succ k => exact hrest.needed k (by simpa using hk)
    · rw [Bool.not_eq_true] at h
      rw [h] at hx
      exact ⟨List.nil_prefix, Nat.le_of_not_lt (of_decide_eq_false hx.symm), by simp⟩

end Budget
