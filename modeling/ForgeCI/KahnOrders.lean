import Mathlib.Data.Fintype.Pigeonhole
import Mathlib.Data.Set.Finite.Basic
import ForgeCI.Kahn

/-!
# The order that Kahn's algorithm finds, and what it leaves out

The nodes that the loop leaves out are those from which a cycle is reachable, and the order of a
loop that always takes the least ready node is the least of all topological orders.
-/

namespace Kahn

open Relation

variable {ι : Type*} {names order : List ι} {needs dependents : ι → List ι} {n : ι}

/-- `a` needs `b`. -/
def Needs (needs : ι → List ι) (a b : ι) : Prop := b ∈ needs a

/-- From `n` a cycle is reachable. -/
def ReachesCycle (needs : ι → List ι) (n : ι) : Prop :=
  ∃ m, ReflTransGen (Needs needs) n m ∧ TransGen (Needs needs) m m

/-- **Where every node needs another**, a cycle is reachable from each: a walk in a finite set
comes back. -/
theorem reaches_cycle {left : List ι} (h : ∀ n ∈ left, ∃ m ∈ left, m ∈ needs n) (hn : n ∈ left) :
    ReachesCycle needs n := by
  have hnext : ∀ x : {m // m ∈ left}, ∃ y : {m // m ∈ left}, Needs needs x.1 y.1 := by
    intro x
    obtain ⟨m, hm, hneed⟩ := h x.1 x.2
    exact ⟨⟨m, hm⟩, hneed⟩
  choose next hnext using hnext
  have hstep : ∀ i, Needs needs (next^[i] ⟨n, hn⟩).1 (next^[i + 1] ⟨n, hn⟩).1 := by
    intro i
    rw [Function.iterate_succ_apply']
    exact hnext _
  have hreach : ∀ i, ReflTransGen (Needs needs) n (next^[i] ⟨n, hn⟩).1 := by
    intro i
    induction i with
    | zero => exact .refl
    | succ i ih => exact ih.tail (hstep i)
  have hwalk : ∀ i k, TransGen (Needs needs) (next^[i] ⟨n, hn⟩).1 (next^[i + k + 1] ⟨n, hn⟩).1 := by
    intro i k
    induction k with
    | zero => exact .single (hstep i)
    | succ k ih => exact ih.tail (hstep (i + k + 1))
  have hloop : ∀ i j, i < j → next^[i] ⟨n, hn⟩ = next^[j] ⟨n, hn⟩ → ReachesCycle needs n := by
    intro i j hij heq
    refine ⟨(next^[i] ⟨n, hn⟩).1, hreach i, ?_⟩
    have hcycle := hwalk i (j - i - 1)
    rw [show i + (j - i - 1) + 1 = j by omega, ← heq] at hcycle
    exact hcycle
  have : Finite {m // m ∈ left} := (List.finite_toSet left).to_subtype
  obtain ⟨i, j, hne, heq⟩ := Finite.exists_ne_map_eq_of_infinite fun i : Nat => next^[i] ⟨n, hn⟩
  grind

/-- A topological order is closed under needs. -/
theorem Topological.closed (h : Topological needs order) {m : ι} (hn : n ∈ order)
    (hreach : ReflTransGen (Needs needs) n m) : m ∈ order := by
  induction hreach with
  | refl => exact hn
  | tail _ hneed ih =>
    obtain ⟨pre, post, rfl⟩ := List.append_of_mem ih
    exact List.mem_append_left _ (h pre _ post rfl _ hneed)

/-- In a topological order of distinct nodes, what a node needs comes before it, however far. -/
theorem Topological.before (h : Topological needs order) {m : ι} {pre post : List ι}
    (horder : order = pre ++ n :: post) (hreach : TransGen (Needs needs) n m) : m ∈ pre := by
  induction hreach using TransGen.head_induction_on generalizing pre post with
  | single hneed => exact h pre _ post horder _ hneed
  | @head a c hneed _ ih =>
    obtain ⟨pre', post', rfl⟩ := List.append_of_mem (h pre _ post horder _ hneed)
    grind

/-- **No cycle is reachable** from a node of a topological order. -/
theorem Topological.not_reachesCycle (h : Topological needs order) (hnodup : order.Nodup)
    (hn : n ∈ order) : ¬ ReachesCycle needs n := by
  rintro ⟨m, hreach, hcycle⟩
  obtain ⟨pre, post, rfl⟩ := List.append_of_mem (h.closed hn hreach)
  have hmem := h.before rfl hcycle
  exact (List.nodup_append.1 hnodup).2.2 m hmem m List.mem_cons_self rfl

section Loop

variable [DecidableEq ι] {s : State ι} {arrange : List ι → List ι}

/-- **What the loop leaves out**, once no node is ready. -/
theorem Inv.mem_order_iff (h : Inv names needs s) (hready : s.ready = [])
    (hneeds : ∀ n ∈ names, ∀ d ∈ needs n, d ∈ names) (hn : n ∈ names) :
    n ∈ s.order ↔ ¬ ReachesCycle needs n := by
  have hnodup := h.nodup
  rw [hready, List.append_nil] at hnodup
  constructor
  · exact h.topological.not_reachesCycle hnodup
  · intro hfree
    by_contra hout
    apply hfree
    have hleft : ∀ n ∈ names.filter (· ∉ s.order),
        ∃ m ∈ names.filter (· ∉ s.order), m ∈ needs n := by
      intro n hn
      obtain ⟨hn, hout⟩ := List.mem_filter.1 hn
      have hdegree : s.indegree n ≠ 0 := by grind [h.zero_iff]
      rw [h.degree n hn] at hdegree
      obtain ⟨d, hd⟩ := List.exists_mem_of_length_pos
        (l := (needs n).filter (· ∉ s.order)) (by omega)
      grind
    exact reaches_cycle hleft (List.mem_filter.2 ⟨hn, decide_eq_true hout⟩)

theorem Inv.indegree_pos_iff (h : Inv names needs s) (hready : s.ready = []) (hn : n ∈ names) :
    0 < s.indegree n ↔ n ∉ s.order := by
  have hzero := h.zero_iff n hn
  have hdegree := h.degree n hn
  rw [hready, List.append_nil] at hzero
  rw [← hzero]
  omega

end Loop

section Least

variable {le lt : ι → ι → Prop}

/-- Every node of the order was the least that could come next. -/
def Greedy (le : ι → ι → Prop) (names : List ι) (needs : ι → List ι) (order : List ι) : Prop :=
  ∀ pre n post, order = pre ++ n :: post → ∀ m ∈ names, m ∉ pre → (∀ d ∈ needs m, d ∈ pre) →
    le n m

/-- **A greedy order is the least**, by induction on what two orders do not share: at the first
difference the other order takes a node that could have come next. -/
theorem Greedy.least_from (hlt : ∀ a b, le a b → a ≠ b → lt a b) {pre rest other : List ι}
    (h : Greedy le names needs (pre ++ rest)) (hother : Topological needs (pre ++ other))
    (hnodup : (pre ++ other).Nodup) (hnames : ∀ m ∈ other, m ∈ names)
    (hlength : rest.length = other.length) : rest = other ∨ List.Lex lt rest other := by
  induction rest generalizing pre other with
  | nil => exact .inl (List.length_eq_zero_iff.1 hlength.symm).symm
  | cons a rest ih =>
    cases other with
    | nil => cases hlength
    | cons b other =>
      by_cases hab : a = b
      · subst hab
        have hmore : ∀ l : List ι, pre ++ a :: l = (pre ++ [a]) ++ l := fun l => by simp
        rw [hmore] at h hother hnodup
        rcases ih h hother hnodup (fun m hm => hnames m (List.mem_cons_of_mem _ hm))
          (by simpa using hlength) with rfl | hlex
        · exact .inl rfl
        · exact .inr (.cons hlex)
      · right
        apply List.Lex.rel
        apply hlt a b _ hab
        apply h pre a rest rfl b (hnames b List.mem_cons_self)
        · intro hmem
          exact (List.nodup_append.1 hnodup).2.2 b hmem b List.mem_cons_self rfl
        · exact hother pre b other rfl

theorem Greedy.least (hlt : ∀ a b, le a b → a ≠ b → lt a b) (h : Greedy le names needs order)
    (hnames : names.Nodup) (hperm : order.Perm names) {other : List ι} (hother : other.Perm names)
    (htopological : Topological needs other) : order = other ∨ List.Lex lt order other := by
  have hlength : order.length = other.length := hperm.length_eq.trans hother.length_eq.symm
  have hgreedy : Greedy le names needs ([] ++ order) := h
  exact hgreedy.least_from hlt htopological (hother.nodup_iff.2 hnames)
    (fun m hm => hother.mem_iff.1 hm) hlength

variable [DecidableEq ι] {s : State ι} {arrange : List ι → List ι}

/-- The loop takes the least ready node. -/
structure Ordered (le : ι → ι → Prop) (names : List ι) (needs : ι → List ι) (s : State ι) :
    Prop where
  sorted : s.ready.Pairwise le
  greedy : Greedy le names needs s.order

theorem sorted_foldl_release (harrange : ∀ l, (arrange l).Pairwise le) (ds : List ι)
    (h : s.ready.Pairwise le) : (ds.foldl (release arrange) s).ready.Pairwise le := by
  induction ds generalizing s with
  | nil => exact h
  | cons d ds ih => grind [release]

omit [DecidableEq ι] in
theorem ordered_start (harrange : ∀ l, (arrange l).Pairwise le) :
    Ordered le names needs (start names needs arrange) := by
  refine ⟨harrange _, ?_⟩
  intro pre n post h
  simp [start] at h

/-- A node whose needs are ordered is ready, or ordered itself. -/
theorem Inv.ready_of_needs (h : Inv names needs s) (hn : n ∈ names)
    (hneeds : ∀ d ∈ needs n, d ∈ s.order) : n ∈ s.order ++ s.ready := by
  apply (h.zero_iff n hn).1
  rw [h.degree n hn]
  have hnone : (needs n).filter (· ∉ s.order) = [] := by
    apply List.filter_eq_nil_iff.2
    intro d hd
    simpa using hneeds d hd
  rw [hnone]
  rfl

/-- **Step lemma** for the order. -/
theorem ordered_advance (hrefl : ∀ a, le a a) (harrange : ∀ l, (arrange l).Pairwise le)
    (hinv : Inv names needs s) (h : Ordered le names needs s) :
    Ordered le names needs (advance dependents arrange s) := by
  unfold advance
  cases hready : s.ready with
  | nil => exact h
  | cons n rest =>
    have hsorted := h.sorted
    rw [hready] at hsorted
    obtain ⟨hleast, hrest⟩ := List.pairwise_cons.1 hsorted
    refine ⟨sorted_foldl_release harrange _ hrest, ?_⟩
    rw [order_foldl_release]
    intro pre a post horder m hm hnew hneeds
    rcases List.eq_nil_or_concat post with rfl | ⟨post', last, rfl⟩
    · obtain ⟨rfl, hlast⟩ := List.append_inj' horder rfl
      obtain rfl : n = a := by simpa using hlast
      have hmem := hinv.ready_of_needs hm hneeds
      grind
    · rw [List.concat_eq_append, ← List.cons_append, ← List.append_assoc] at horder
      exact h.greedy pre a post' (List.append_inj' horder rfl).1 m hm hnew hneeds

/-- **Run lemma** for the order. -/
theorem ordered_loop (hrefl : ∀ a, le a a) (hperm : ∀ l, (arrange l).Perm l)
    (harrange : ∀ l, (arrange l).Pairwise le) (hE : Edges names needs dependents) (fuel : Nat)
    (hinv : Inv names needs s) (h : Ordered le names needs s) :
    Ordered le names needs (loop dependents arrange fuel s) := by
  induction fuel generalizing s with
  | zero => exact h
  | succ fuel ih =>
    unfold loop
    split
    · exact h
    · exact ih (inv_advance hE hperm hinv) (ordered_advance hrefl harrange hinv h)

end Least

end Kahn
