import Mathlib.Data.List.Basic

/-!
# Row locks held by open transactions

A schedule is a list of transactions, each with the set of row keys it has
locked.  A transaction takes its next step with the others frozen, so a step
replaces one entry of the list.  The locks are exclusive as long as a
transaction only takes a lock that no other transaction holds.
-/

namespace RowLocks

variable {τ κ : Type*} (locks : τ → κ → Bool)

/-- Some transaction other than the `i`-th holds the lock on a row. -/
def heldByOther (txs : List τ) (i : Nat) (k : κ) : Bool :=
  (txs.eraseIdx i).any (locks · k)

/-- No two transactions hold the lock on one row. -/
def Exclusive (txs : List τ) : Prop :=
  ∀ (i j : Nat) (t u : τ) (k : κ),
    txs[i]? = some t → txs[j]? = some u → locks t k → locks u k → i = j

variable {locks} {txs : List τ} {i : Nat} {t : τ}

theorem heldByOther_iff {k : κ} :
    heldByOther locks txs i k = true ↔ ∃ j u, j ≠ i ∧ txs[j]? = some u ∧ locks u k := by
  simp only [heldByOther, List.any_eq_true, List.mem_eraseIdx_iff_getElem?]
  grind

/-- An entry of the list after a step is the entry the step wrote, or an old
one in another place. -/
theorem getElem?_set_cases {j : Nat} {u : τ} (h : (txs.set i t)[j]? = some u) :
    (j = i ∧ u = t) ∨ (j ≠ i ∧ txs[j]? = some u) := by
  by_cases hij : i = j
  · grind
  · grind

theorem getElem?_set_new {old : τ} (h : txs[i]? = some old) : (txs.set i t)[i]? = some t := by
  simp [List.getElem?_set_self', h]

theorem getElem?_set_old {j : Nat} (h : j ≠ i) : (txs.set i t)[j]? = txs[j]? :=
  List.getElem?_set_ne (Ne.symm h)

/-- A step that only takes free locks keeps the locks exclusive. -/
theorem Exclusive.set (h : Exclusive locks txs) {old : τ} (hold : txs[i]? = some old)
    (hnew : ∀ k, locks t k → locks old k ∨ heldByOther locks txs i k = false) :
    Exclusive locks (txs.set i t) := by
  have key : ∀ j u k, j ≠ i → txs[j]? = some u → locks u k → ¬ locks t k := by
    intro j u k hj hu hk ht
    rcases hnew k ht with hk' | hfree
    · exact hj (h j i u old k hu hold hk hk')
    · exact Bool.eq_false_iff.1 hfree (heldByOther_iff.2 ⟨j, u, hj, hu, hk⟩)
  intro j j' u u' k hu hu' hk hk'
  rcases getElem?_set_cases hu with ⟨rfl, rfl⟩ | ⟨hj, hold'⟩ <;>
    rcases getElem?_set_cases hu' with ⟨rfl, rfl⟩ | ⟨hj', hold''⟩
  · rfl
  · exact absurd hk (key j' u' k hj' hold'' hk')
  · exact absurd hk' (key j u k hj hold' hk)
  · exact h j j' u u' k hold' hold'' hk hk'

/-- The committed rows and the open transactions. -/
structure Schedule (ρ τ : Type*) where
  rows : ρ
  txs : List τ

variable {ρ : Type*} (locks) (next : (κ → Bool) → ρ → τ → Option (ρ × τ))

/-- The `i`-th transaction takes its next step, the others being frozen.  It is
told which rows no other transaction has locked. -/
def Schedule.step (st : Schedule ρ τ) (i : Nat) : Option (Schedule ρ τ) :=
  match st.txs[i]? with
  | none => none
  | some t =>
      (next (fun k => !heldByOther locks st.txs i k) st.rows t).map fun p =>
        ⟨p.1, st.txs.set i p.2⟩

/-- Good rows, exclusive locks, and transactions consistent with the rows. -/
structure Schedule.Consistent (good : ρ → Prop) (fits : ρ → τ → Prop) (st : Schedule ρ τ) :
    Prop where
  good : good st.rows
  exclusive : Exclusive locks st.txs
  fits : ∀ (i : Nat) (t : τ), st.txs[i]? = some t → fits st.rows t

variable {locks next} {st st' : Schedule ρ τ} {good : ρ → Prop} {fits : ρ → τ → Prop}

theorem Schedule.step_cases (h : st.step locks next i = some st') :
    ∃ t t', st.txs[i]? = some t ∧ st'.txs = st.txs.set i t' ∧
      next (fun k => !heldByOther locks st.txs i k) st.rows t = some (st'.rows, t') := by
  unfold step at h
  cases hi : st.txs[i]? with
  | none => simp [hi] at h
  | some t =>
    simp only [hi, Option.map_eq_some_iff] at h
    grind

/-- Two transactions that hold the lock on one row are the same. -/
theorem Schedule.Consistent.apart (h : st.Consistent locks good fits) {j : Nat} {u : τ} {k : κ}
    (hi : st.txs[i]? = some t) (hj : st.txs[j]? = some u) (ht : locks t k = true)
    (hu : locks u k = true) : i = j :=
  h.exclusive i j t u k hi hj ht hu

/-- **The invariant rule for schedules.**  A step keeps the rows good and its own
transaction consistent and takes free locks only; the transactions that hold none
of its locks stay consistent with the rows it leaves. -/
theorem Schedule.Consistent.step
    (hown : ∀ free r t r' t', good r → fits r t → next free r t = some (r', t') →
      good r' ∧ fits r' t' ∧ ∀ k, locks t' k = true → locks t k = true ∨ free k = true)
    (hothers : ∀ free r t r' t' u, good r → fits r t → fits r u →
      (∀ k, locks t k = true → locks u k = true → False) →
      next free r t = some (r', t') → fits r' u)
    (h : st.Consistent locks good fits) (hstep : st.step locks next i = some st') :
    st'.Consistent locks good fits := by
  obtain ⟨t, t', hi, htxs, hnext⟩ := Schedule.step_cases hstep
  obtain ⟨hgood, hfits, hlocks⟩ := hown _ _ _ _ _ h.good (h.fits i t hi) hnext
  refine ⟨hgood, ?_, fun j u hj => ?_⟩
  · rw [htxs]
    exact h.exclusive.set hi fun k hk => by simpa using hlocks k hk
  · rw [htxs] at hj
    rcases getElem?_set_cases hj with ⟨-, rfl⟩ | ⟨hne, hj⟩
    · exact hfits
    · exact hothers _ _ _ _ _ _ h.good (h.fits i t hi) (h.fits j u hj)
        (fun k hk hk' => hne (h.apart hj hi hk' hk)) hnext

end RowLocks
