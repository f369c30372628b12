import Mathlib.Data.List.Basic

/-!
# Recorded runs of a labelled step relation

A run is recorded one step at a time: the state before, the action, the state
after.  Recording the intermediate states makes "in every state reached" and
"every step meets the guard" quantifiers over one list, so that an invariant,
a guarded invariant and an exact guard are all statements about the same
object.
-/

namespace Traces

variable {σ α : Type*}

/-- One recorded step. -/
structure Step (σ α : Type*) where
  before : σ
  act : α
  after : σ

/-- `Trace next s₀ tr s`: the recorded steps `tr` lead from `s₀` to `s`. -/
inductive Trace (next : σ → α → σ → Prop) (s₀ : σ) : List (Step σ α) → σ → Prop
  | nil : Trace next s₀ [] s₀
  | snoc {tr : List (Step σ α)} {s s' : σ} {a : α}
      (run : Trace next s₀ tr s) (step : next s a s') :
      Trace next s₀ (tr ++ [⟨s, a, s'⟩]) s'

variable {next : σ → α → σ → Prop} {s₀ s : σ} {tr : List (Step σ α)}

/-- A predicate that holds initially and is kept by every step holds at the
end of every run. -/
theorem Trace.final_invariant (I : σ → Prop) (h₀ : I s₀)
    (hstep : ∀ s a s', I s → next s a s' → I s') (h : Trace next s₀ tr s) : I s := by
  induction h with
  | nil => exact h₀
  | snoc _ hs ih => exact hstep _ _ _ ih hs

/-- A run ends where it started or after one of its steps. -/
theorem Trace.final_after (h : Trace next s₀ tr s) : s = s₀ ∨ ∃ st ∈ tr, st.after = s := by
  cases h with
  | nil => exact .inl rfl
  | snoc => exact .inr ⟨_, List.mem_append_right _ List.mem_cons_self, rfl⟩

variable {pre post : List (Step σ α)}

/-- A run splits at any of its recorded steps. -/
theorem Trace.split {st : Step σ α} (h : Trace next s₀ (pre ++ st :: post) s) :
    Trace next s₀ pre st.before ∧ next st.before st.act st.after ∧
      Trace next st.after post s := by
  generalize htr : pre ++ st :: post = whole at h
  induction h generalizing post with
  | nil => simp at htr
  | @snoc tr t t' a run step ih =>
    rcases List.eq_nil_or_concat post with rfl | ⟨rest, last, rfl⟩
    · obtain ⟨rfl, hlast⟩ := List.append_inj' htr rfl
      obtain rfl : st = ⟨t, a, t'⟩ := by simpa using hlast
      exact ⟨run, step, .nil⟩
    · rw [List.concat_eq_append, ← List.cons_append, ← List.append_assoc] at htr
      obtain ⟨hpre, hlast⟩ := List.append_inj' htr rfl
      obtain rfl : last = ⟨t, a, t'⟩ := by simpa using hlast
      obtain ⟨h1, h2, h3⟩ := ih hpre
      rw [List.concat_eq_append]
      exact ⟨h1, h2, .snoc h3 step⟩

/-- Runs compose. -/
theorem Trace.append {middle : σ} (h₁ : Trace next s₀ pre middle) (h₂ : Trace next middle post s) :
    Trace next s₀ (pre ++ post) s := by
  induction h₂ with
  | nil => simpa using h₁
  | snoc _ step ih =>
    rw [← List.append_assoc]
    exact .snoc ih step

/-- A run may start with a step. -/
theorem Trace.cons {a : α} {middle : σ} (step : next s₀ a middle)
    (h : Trace next middle tr s) : Trace next s₀ (⟨s₀, a, middle⟩ :: tr) s :=
  Trace.append (.snoc .nil step) h

/-- The recorded steps determine where a run ends. -/
theorem Trace.unique {s' : σ} (h : Trace next s₀ tr s) (h' : Trace next s₀ tr s') :
    s = s' := by
  generalize htr : tr = whole at h'
  cases h' with
  | nil =>
    cases h with
    | nil => rfl
    | snoc => simp at htr
  | snoc =>
    cases h with
    | nil => simp at htr
    | snoc =>
      obtain ⟨-, hlast⟩ := List.append_inj' htr rfl
      grind

/-- A run splits at any point of its record. -/
theorem Trace.split_append (h : Trace next s₀ (pre ++ post) s) :
    ∃ middle, Trace next s₀ pre middle ∧ Trace next middle post s := by
  cases post with
  | nil => exact ⟨s, by simpa using h, .nil⟩
  | cons st post =>
    obtain ⟨hpre, hstep, hpost⟩ := h.split
    exact ⟨st.before, hpre, .cons hstep hpost⟩

/-- The rest of a run, from a state on the way. -/
theorem Trace.rest {middle : σ}
    (h : Trace next s₀ (pre ++ post) s) (hpre : Trace next s₀ pre middle) :
    Trace next middle post s := by
  obtain ⟨middle', hpre', hpost⟩ := h.split_append
  rwa [hpre.unique hpre']

/-- Every recorded step is a step of the system from a state a run reaches. -/
theorem Trace.step_of_mem (h : Trace next s₀ tr s) {st : Step σ α} (hst : st ∈ tr) :
    ∃ pre, Trace next s₀ pre st.before ∧ next st.before st.act st.after := by
  obtain ⟨pre, post, rfl⟩ := List.append_of_mem hst
  exact ⟨pre, h.split.1, h.split.2.1⟩

/-- What every step keeps under an invariant is kept from any step on. -/
theorem Trace.kept (I P : σ → Prop) (h₀ : I s₀) (hI : ∀ s a s', I s → next s a s' → I s')
    (hP : ∀ s a s', I s → next s a s' → P s → P s') (h : Trace next s₀ tr s)
    {st : Step σ α} (hst : st ∈ tr) (hafter : P st.after) : P s := by
  obtain ⟨pre, post, rfl⟩ := List.append_of_mem hst
  obtain ⟨hpre, hnext, hpost⟩ := h.split
  have hIafter := hI _ _ _ (hpre.final_invariant I h₀ hI) hnext
  exact (hpost.final_invariant (fun s => I s ∧ P s) ⟨hIafter, hafter⟩ fun s a s' hs hn =>
    ⟨hI s a s' hs.1 hn, hP s a s' hs.1 hn hs.2⟩).2

/-- A computation with a partial step function is a run. -/
theorem Trace.of_foldlM {f : σ → α → Option σ} {acts : List α}
    (h : acts.foldlM f s₀ = some s) :
    ∃ tr, Trace (fun s a s' => f s a = some s') s₀ tr s ∧ tr.map Step.act = acts := by
  induction acts generalizing s₀ with
  | nil =>
    obtain rfl : s₀ = s := by simpa using h
    exact ⟨[], .nil, rfl⟩
  | cons a rest ih =>
    obtain ⟨middle, hstep, hrest⟩ := Option.bind_eq_some_iff.1 (by simpa using h)
    obtain ⟨tr, htr, hacts⟩ := ih hrest
    exact ⟨_, .cons hstep htr, by simp [hacts]⟩

/-- A computed view of the end is the view of the end of a run. -/
theorem Trace.of_foldlM_map {f : σ → α → Option σ} {acts : List α} {β : Type*} {view : σ → β}
    {v : β} (h : (acts.foldlM f s₀).map view = some v) :
    ∃ tr s, Trace (fun s a s' => f s a = some s') s₀ tr s ∧ tr.map Step.act = acts ∧
      view s = v := by
  obtain ⟨s, hs, hview⟩ := Option.map_eq_some_iff.1 h
  obtain ⟨tr, htr, hacts⟩ := Trace.of_foldlM hs
  exact ⟨tr, s, htr, hacts, hview⟩

/-- A computation that checks a guard before every step is a run that meets it. -/
theorem Trace.of_guarded_foldlM {f : σ → α → Option σ} {guard : σ → α → Bool} {acts : List α}
    (h : acts.foldlM (fun s a => if guard s a then f s a else none) s₀ = some s) :
    ∃ tr, Trace (fun s a s' => f s a = some s') s₀ tr s ∧
      ∀ st ∈ tr, guard st.before st.act = true := by
  induction acts generalizing s₀ with
  | nil =>
    obtain rfl : s₀ = s := by simpa using h
    exact ⟨[], .nil, by simp⟩
  | cons a rest ih =>
    obtain ⟨middle, hstep, hrest⟩ := Option.bind_eq_some_iff.1 (by simpa using h)
    split_ifs at hstep with hguard
    obtain ⟨tr, htr, hall⟩ := ih hrest
    exact ⟨_, .cons hstep htr, by simpa using ⟨hguard, hall⟩⟩

/-- An invariant holds before and after every recorded step. -/
theorem Trace.invariant (I : σ → Prop) (h₀ : I s₀)
    (hstep : ∀ s a s', I s → next s a s' → I s') (h : Trace next s₀ tr s) :
    ∀ st ∈ tr, I st.before ∧ I st.after := by
  intro st hst
  obtain ⟨pre, hpre, hnext⟩ := h.step_of_mem hst
  have hbefore : I st.before := hpre.final_invariant I h₀ hstep
  exact ⟨hbefore, hstep _ _ _ hbefore hnext⟩

/-- The invariant rule for runs all of whose steps meet a guard. -/
theorem Trace.guarded (I : σ → Prop) (guard : σ → α → Prop) (h₀ : I s₀)
    (hstep : ∀ s a s', I s → guard s a → next s a s' → I s')
    (h : Trace next s₀ tr s) (hguard : ∀ st ∈ tr, guard st.before st.act) :
    I s ∧ ∀ st ∈ tr, I st.before ∧ I st.after := by
  induction h with
  | nil => exact ⟨h₀, by simp⟩
  | @snoc tr t t' a run step ih =>
    obtain ⟨ht, hall⟩ := ih fun st hst => hguard st (List.mem_append_left _ hst)
    have ht' : I t' := hstep t a t' ht (hguard ⟨t, a, t'⟩ (by simp)) step
    grind

/-- **Exact guards.**  Suppose that, in the states that admitted actions reach,
the steps that meet the guard keep `I` and those that miss it break `I`.  Then
`I` holds in every state of a run exactly when every step of it meets the
guard. -/
theorem Trace.exact (ok : α → Prop) (I : σ → Prop) (guard : σ → α → Prop) (hI₀ : I s₀)
    (hkeep : ∀ pre s a s', Trace next s₀ pre s → (∀ st ∈ pre, ok st.act) → ok a →
      I s → guard s a → next s a s' → I s')
    (hbreak : ∀ pre s a s', Trace next s₀ pre s → (∀ st ∈ pre, ok st.act) → ok a →
      I s → ¬ guard s a → next s a s' → ¬ I s')
    (h : Trace next s₀ tr s) (hok : ∀ st ∈ tr, ok st.act) :
    (∀ st ∈ tr, I st.after) ↔ ∀ st ∈ tr, guard st.before st.act := by
  constructor
  · intro hall st hst
    obtain ⟨pre, post, rfl⟩ := List.append_of_mem hst
    obtain ⟨hpre, hnext, -⟩ := h.split
    have hbefore : I st.before := by
      cases hpre with
      | nil => exact hI₀
      | @snoc tr' t _ a run step =>
        exact hall ⟨t, a, st.before⟩ (by simp)
    grind
  · intro hguard
    suffices hboth : I s ∧ ∀ st ∈ tr, I st.after from hboth.2
    induction h with
    | nil => exact ⟨hI₀, by simp⟩
    | @snoc tr t t' a run step ih =>
      have hok' : ∀ st ∈ tr, ok st.act := fun st hst => hok st (List.mem_append_left _ hst)
      obtain ⟨ht, hall⟩ := ih hok' fun st hst => hguard st (List.mem_append_left _ hst)
      have ht' : I t' := hkeep tr t a t' run hok' (hok ⟨t, a, t'⟩ (by simp)) ht
        (hguard ⟨t, a, t'⟩ (by simp)) step
      grind

/-- **Exact guards at the end of a run.**  Suppose that a bad state stays bad unless the
run is out, for good, and that a step from a good state is bad exactly when it misses the
guard.  Then a run that is not out ends in a good state exactly when every step of it meets
the guard. -/
theorem Trace.exact_final (bad out : σ → Prop) (guard : σ → α → Prop) (h₀ : ¬ bad s₀)
    (hout : ∀ s a s', out s → next s a s' → out s')
    (habsorb : ∀ pre s a s', Trace next s₀ pre s → bad s → next s a s' → ¬ out s' → bad s')
    (hexact : ∀ pre s a s', Trace next s₀ pre s → ¬ bad s → next s a s' → ¬ out s' →
      (bad s' ↔ ¬ guard s a))
    (h : Trace next s₀ tr s) (hs : ¬ out s) :
    ¬ bad s ↔ ∀ st ∈ tr, guard st.before st.act := by
  induction h with
  | nil => simpa using h₀
  | @snoc tr t t' a run step ih =>
    have hlast : (∀ st ∈ tr ++ [⟨t, a, t'⟩], guard st.before st.act) ↔
        (∀ st ∈ tr, guard st.before st.act) ∧ guard t a := by
      simp only [List.forall_mem_append, List.forall_mem_singleton]
    grind

/-- A run splits at two recorded steps, the later one starting in a state
reached from the end of the earlier one. -/
theorem Trace.split_two {pre mid post : List (Step σ α)} {a b : Step σ α}
    (h : Trace next s₀ (pre ++ a :: (mid ++ b :: post)) s) :
    Trace next s₀ pre a.before ∧ next a.before a.act a.after ∧
      Trace next a.after mid b.before ∧ next b.before b.act b.after := by
  obtain ⟨h1, h2, h3⟩ := h.split
  exact ⟨h1, h2, h3.split.1, h3.split.2.1⟩

end Traces
