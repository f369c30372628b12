import ForgeCI.Kahn

/-!
# Failures that propagate along dependencies

Nodes fail or not, and a node is held back when one of the nodes it needs
failed or was itself held back.  Stated one edge at a time this is a fixpoint
equation (`Closed`); on a topological order it has one solution only, which
does not mention the order: a node is held back exactly when it depends,
directly or through others, on a node that fails (`Closed.held_iff`), and then
also on one that fails without being held back (`Closed.exists_ran`).
-/

namespace Propagation

variable {ι : Type*} {needs : ι → List ι} {order : List ι} {fails held : ι → Prop} {n d : ι}

/-- One node needs another, directly or through others. -/
def DependsOn (needs : ι → List ι) : ι → ι → Prop :=
  Relation.TransGen fun n d => d ∈ needs n

/-- Exactly the nodes with a need that fails or is held back are held back. -/
def Closed (needs : ι → List ι) (order : List ι) (fails held : ι → Prop) : Prop :=
  ∀ n ∈ order, held n ↔ ∃ d ∈ needs n, held d ∨ fails d

/-- The needs of an ordered node are ordered. -/
theorem mem_of_needs (h : Kahn.Topological needs order) (hn : n ∈ order) (hd : d ∈ needs n) :
    d ∈ order := by
  obtain ⟨pre, post, rfl⟩ := List.append_of_mem hn
  exact List.mem_append_left _ (h pre n post rfl d hd)

/-- So is everything an ordered node depends on. -/
theorem mem_of_dependsOn (h : Kahn.Topological needs order) (hdep : DependsOn needs n d)
    (hn : n ∈ order) : d ∈ order := by
  induction hdep with
  | single hd => exact mem_of_needs h hn hd
  | tail _ hd ih => exact mem_of_needs h ih hd

/-- An initial part of a topological order is one. -/
theorem topological_of_append {pre post : List ι} (h : Kahn.Topological needs (pre ++ post)) :
    Kahn.Topological needs pre := by
  rintro left n right rfl d hd
  exact h left n (right ++ post) (by simp) d hd

/-- **Induction along a topological order.** -/
theorem induction_on {P : ι → Prop} (h : Kahn.Topological needs order)
    (step : ∀ n ∈ order, (∀ d ∈ needs n, P d) → P n) : ∀ n ∈ order, P n := by
  intro n hn
  by_contra hnot
  obtain ⟨m, hm, hPm, hfirst⟩ := h.exists_first (P := fun n => ¬ P n) ⟨n, hn, hnot⟩
  exact hPm (step m hm fun d hd => not_not.1 (hfirst d hd).2)

/-- A node that is held back depends on one that fails and is not. -/
theorem Closed.exists_ran (hc : Closed needs order fails held) (h : Kahn.Topological needs order) :
    ∀ n ∈ order, held n → ∃ d, DependsOn needs n d ∧ fails d ∧ ¬ held d := by
  refine induction_on h fun n hn ih hheld => ?_
  obtain ⟨d, hd, hbad⟩ := (hc n hn).1 hheld
  by_cases hdheld : held d
  · obtain ⟨e, hde, he⟩ := ih d hd hdheld
    exact ⟨e, .head hd hde, he⟩
  · exact ⟨d, .single hd, hbad.resolve_left hdheld, hdheld⟩

/-- A failure holds back everything that depends on it. -/
theorem Closed.held_of_dependsOn (hc : Closed needs order fails held)
    (h : Kahn.Topological needs order) (hdep : DependsOn needs n d) (hd : fails d) :
    n ∈ order → held n := by
  induction hdep using Relation.TransGen.head_induction_on with
  | single hnd => exact fun hn => (hc _ hn).2 ⟨d, hnd, .inr hd⟩
  | head hnm _ ih =>
    exact fun hn => (hc _ hn).2 ⟨_, hnm, .inl (ih (mem_of_needs h hn hnm))⟩

/-- **The only solution.** -/
theorem Closed.held_iff (hc : Closed needs order fails held)
    (h : Kahn.Topological needs order) (hn : n ∈ order) :
    held n ↔ ∃ d, DependsOn needs n d ∧ fails d := by
  constructor
  · intro hheld
    obtain ⟨d, hdep, hd, -⟩ := hc.exists_ran h n hn hheld
    exact ⟨d, hdep, hd⟩
  · grind [hc.held_of_dependsOn]

end Propagation
