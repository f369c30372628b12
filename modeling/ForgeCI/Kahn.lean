import Mathlib.Data.List.Perm.Basic
import Mathlib.Data.List.Dedup
import Mathlib.Tactic.Linarith

/-!
# Kahn's algorithm

Kahn's topological sort over an arbitrary type of nodes.  `needs` and
`dependents` are the two directions of one edge relation, `arrange` is the
permutation that keeps the ready list in the order the caller wants.

`Inv` is the loop invariant: the in-degree of a node counts its needs that are
not yet in the order, a node of in-degree zero is exactly one that is ordered
or ready, and every ordered node comes after its needs.
-/

namespace Kahn

variable {ι : Type*} [DecidableEq ι]

structure State (ι : Type*) where
  indegree : ι → Int
  ready : List ι
  order : List ι

/-- Lower the in-degree of one dependent and make it ready at zero. -/
def release (arrange : List ι → List ι) (s : State ι) (d : ι) : State ι :=
  if s.indegree d - 1 = 0 then
    { s with
      indegree := Function.update s.indegree d (s.indegree d - 1)
      ready := arrange (s.ready ++ [d]) }
  else { s with indegree := Function.update s.indegree d (s.indegree d - 1) }

/-- One turn of the loop: the first ready node is ordered and its dependents
are released. -/
def advance (dependents : ι → List ι) (arrange : List ι → List ι) (s : State ι) :
    State ι :=
  match s.ready with
  | [] => s
  | n :: rest =>
      (dependents n).foldl (release arrange)
        { s with ready := rest, order := s.order ++ [n] }

/-- The loop runs while a node is ready. -/
def loop (dependents : ι → List ι) (arrange : List ι → List ι) :
    Nat → State ι → State ι
  | 0, s => s
  | fuel + 1, s =>
      if s.ready = [] then s
      else loop dependents arrange fuel (advance dependents arrange s)

def start (names : List ι) (needs : ι → List ι) (arrange : List ι → List ι) :
    State ι where
  indegree n := (needs n).length
  ready := arrange (names.filter fun n => needs n = [])
  order := []

/-- Every element of the list comes after its needs. -/
def Topological (needs : ι → List ι) (order : List ι) : Prop :=
  ∀ pre n post, order = pre ++ n :: post → ∀ d ∈ needs n, d ∈ pre

/-- The two directions of one duplicate-free edge relation on `names`. -/
structure Edges (names : List ι) (needs dependents : ι → List ι) : Prop where
  names_nodup : names.Nodup
  needs_nodup : ∀ n ∈ names, (needs n).Nodup
  dependents_nodup : ∀ n ∈ names, (dependents n).Nodup
  mem_dependents : ∀ n ∈ names, ∀ m, m ∈ dependents n ↔ m ∈ names ∧ n ∈ needs m

structure Inv (names : List ι) (needs : ι → List ι) (s : State ι) : Prop where
  nodup : (s.order ++ s.ready).Nodup
  subset : ∀ n ∈ s.order ++ s.ready, n ∈ names
  degree : ∀ n ∈ names, s.indegree n = ((needs n).filter (· ∉ s.order)).length
  zero_iff : ∀ n ∈ names, s.indegree n = 0 ↔ n ∈ s.order ++ s.ready
  topological : Topological needs s.order

variable {names : List ι} {needs dependents : ι → List ι}
  {arrange : List ι → List ι} {s : State ι}

/-- What releasing a duplicate-free list of nodes does. -/
theorem foldl_release (harrange : ∀ l, (arrange l).Perm l) {ds : List ι}
    (hds : ds.Nodup) (s : State ι) : (ds.foldl (release arrange) s).order = s.order ∧
      (∀ n, (ds.foldl (release arrange) s).indegree n =
        if n ∈ ds then s.indegree n - 1 else s.indegree n) ∧
      (ds.foldl (release arrange) s).ready.Perm
        (s.ready ++ ds.filter fun d => s.indegree d - 1 = 0) := by
  induction ds generalizing s with
  | nil => simp
  | cons d rest ih =>
    obtain ⟨hd, hrest⟩ := List.nodup_cons.1 hds
    have hindegree : (release arrange s d).indegree =
        Function.update s.indegree d (s.indegree d - 1) := by
      unfold release; split <;> rfl
    have horder : (release arrange s d).order = s.order := by
      unfold release; split <;> rfl
    have hready : (release arrange s d).ready.Perm
        (s.ready ++ [d].filter fun d => s.indegree d - 1 = 0) := by
      unfold release
      split <;> rename_i h0
      · simpa [h0] using harrange (s.ready ++ [d])
      · simp [h0]
    obtain ⟨h1, h2, h3⟩ := ih hrest (release arrange s d)
    have hother : ∀ n ∈ rest, (release arrange s d).indegree n = s.indegree n := by
      intro n hn
      have hne : n ≠ d := fun h => hd (h ▸ hn)
      rw [hindegree, Function.update_of_ne hne]
    rw [List.foldl_cons]
    refine ⟨h1.trans horder, fun n => ?_, ?_⟩
    · rw [h2 n]
      by_cases hn : n = d
      · subst hn
        simp [hd, hindegree]
      · simp [hn, hindegree]
    · have hfilter : rest.filter (fun n => (release arrange s d).indegree n - 1 = 0) =
          rest.filter fun n => s.indegree n - 1 = 0 :=
        List.filter_congr fun n hn => by rw [hother n hn]
      rw [hfilter] at h3
      refine h3.trans ?_
      have hsplit : (d :: rest).filter (fun n => decide (s.indegree n - 1 = 0)) =
          [d].filter (fun n => decide (s.indegree n - 1 = 0)) ++
            rest.filter fun n => decide (s.indegree n - 1 = 0) := by
        rw [← List.filter_append]; rfl
      rw [hsplit, ← List.append_assoc]
      exact hready.append_right _

/-- Ordering one more node removes it from the unordered needs of the others. -/
theorem length_filter_append_singleton {needs order : List ι} {n : ι}
    (hneeds : needs.Nodup) (hn : n ∉ order) : ((needs.filter (· ∉ order)).length : Int) =
      ((needs.filter (· ∉ order ++ [n])).length : Int) + if n ∈ needs then 1 else 0 := by
  induction needs with
  | nil => simp
  | cons d rest ih =>
    obtain ⟨hd, hrest⟩ := List.nodup_cons.1 hneeds
    have ih := ih hrest
    by_cases hdn : d = n
    · subst hdn
      simp only [List.filter_cons, hn, hd, List.mem_append,
        List.mem_cons, not_false_eq_true, decide_true, if_true, or_true, not_true_eq_false,
        decide_false, Bool.false_eq_true, if_false, List.length_cons, true_or] at ih ⊢
      push_cast
      linarith
    · have hnd : n ≠ d := Ne.symm hdn
      by_cases hdo : d ∈ order <;>
        simp [hdo, hdn, hnd] at ih ⊢ <;> linarith

theorem inv_start (hE : Edges names needs dependents)
    (harrange : ∀ l, (arrange l).Perm l) : Inv names needs (start names needs arrange) where
  nodup := by
    simp only [start, List.nil_append]
    exact (harrange _).nodup_iff.2 (hE.names_nodup.filter _)
  subset := by
    intro n hn
    have := (harrange _).mem_iff.1 (by simpa [start] using hn)
    exact (List.mem_filter.1 this).1
  degree := by simp [start]
  zero_iff := by
    intro n hn
    simp [start, (harrange _).mem_iff, hn]
  topological := by
    intro pre n post h
    simp [start] at h

/-- An ordered or ready node has all its needs in the order. -/
theorem Inv.needs_ordered (h : Inv names needs s) {n : ι}
    (hn : n ∈ s.order ++ s.ready) : ∀ d ∈ needs n, d ∈ s.order := by
  have hnames := h.subset n hn
  have hlen := h.degree n hnames
  rw [(h.zero_iff n hnames).2 hn] at hlen
  have hnil : (needs n).filter (· ∉ s.order) = [] :=
    List.length_eq_zero_iff.1 (by exact_mod_cast hlen.symm)
  intro d hd
  simpa using List.filter_eq_nil_iff.1 hnil d hd

/-- **Step lemma.**  A turn of the loop keeps the invariant. -/
theorem inv_advance (hE : Edges names needs dependents)
    (harrange : ∀ l, (arrange l).Perm l) (h : Inv names needs s) :
    Inv names needs (advance dependents arrange s) := by
  unfold advance
  cases hready : s.ready with
  | nil => simpa [hready] using h
  | cons n rest =>
    have hnames : n ∈ names := h.subset n (by simp [hready])
    obtain ⟨horder, hdegree, hperm⟩ := foldl_release harrange
      (hE.dependents_nodup n hnames) { s with ready := rest, order := s.order ++ [n] }
    simp only at horder hdegree hperm ⊢
    have hnodup := h.nodup
    rw [hready] at hnodup
    have hnorder : n ∉ s.order := fun hmem =>
      (List.nodup_append.1 hnodup).2.2 n hmem n List.mem_cons_self rfl
    have hneedsN : ∀ d ∈ needs n, d ∈ s.order :=
      h.needs_ordered (by simp [hready])
    -- a node that is already ordered or ready does not wait for `n`
    have hdone : ∀ m ∈ s.order ++ s.ready, m ∉ dependents n := by
      intro m hm hdep
      exact hnorder (h.needs_ordered hm n ((hE.mem_dependents n hnames m).1 hdep).2)
    have hmem : ∀ m, m ∈ ((dependents n).foldl (release arrange)
          { s with ready := rest, order := s.order ++ [n] }).order ++
        ((dependents n).foldl (release arrange)
          { s with ready := rest, order := s.order ++ [n] }).ready ↔
        m ∈ s.order ++ s.ready ∨ (m ∈ dependents n ∧ s.indegree m - 1 = 0) := by
      intro m
      rw [List.mem_append, horder, hperm.mem_iff, hready]
      simp only [List.mem_append, List.mem_filter, List.mem_cons, decide_eq_true_eq]
      tauto
    constructor
    · rw [horder]
      have hall : ((s.order ++ [n]) ++ rest).Nodup := by simpa using hnodup
      have hnew : ((dependents n).filter fun d => s.indegree d - 1 = 0).Nodup :=
        (hE.dependents_nodup n hnames).filter _
      refine (hperm.append_left _).nodup_iff.2 ?_
      rw [← List.append_assoc, List.nodup_append]
      refine ⟨hall, hnew, ?_⟩
      rintro a ha b hb rfl
      exact hdone a (by simpa [hready] using ha) (List.mem_filter.1 hb).1
    · grind [h.subset, hE.mem_dependents]
    · intro m hm
      rw [hdegree m, horder, h.degree m hm,
        length_filter_append_singleton (hE.needs_nodup m hm) hnorder]
      have hiff : m ∈ dependents n ↔ n ∈ needs m := by
        rw [hE.mem_dependents n hnames m]; simp [hm]
      by_cases hneed : n ∈ needs m <;> simp [hiff, hneed]
    · intro m hm
      rw [hdegree m, hmem m]
      by_cases hdep : m ∈ dependents n
      · have hnot : m ∉ s.order ++ s.ready := fun hmem => hdone m hmem hdep
        simp [hdep, hnot]
      · rw [if_neg hdep, h.zero_iff m hm]
        simp [hdep]
    · rw [horder]
      intro pre m post heq d hd
      rcases List.eq_nil_or_concat post with rfl | ⟨post', last, rfl⟩
      · obtain ⟨rfl, hlast⟩ := List.append_inj' heq rfl
        grind
      · rw [List.concat_eq_append, ← List.cons_append, ← List.append_assoc] at heq
        exact h.topological pre m post' (List.append_inj' heq rfl).1 d hd

/-- **Run lemma.** -/
theorem inv_loop (hE : Edges names needs dependents)
    (harrange : ∀ l, (arrange l).Perm l) (fuel : Nat) (h : Inv names needs s) :
    Inv names needs (loop dependents arrange fuel s) := by
  induction fuel generalizing s with
  | zero => exact h
  | succ fuel ih =>
    unfold loop
    split
    · exact h
    · exact ih (inv_advance hE harrange h)

theorem Inv.length_le (h : Inv names needs s) :
    s.order.length + s.ready.length ≤ names.length := by
  rw [← List.length_append]
  exact (List.subperm_of_subset h.nodup h.subset).length_le

theorem order_foldl_release (ds : List ι) (s : State ι) :
    (ds.foldl (release arrange) s).order = s.order := by
  induction ds generalizing s with
  | nil => rfl
  | cons d ds ih => grind [release]

theorem length_order_advance (h : s.ready ≠ []) :
    (advance dependents arrange s).order.length = s.order.length + 1 := by
  unfold advance
  cases hready : s.ready with
  | nil => exact absurd hready h
  | cons n rest => simp [order_foldl_release]

/-- As many turns as there are nodes are enough: the loop ends because no node
is ready, never because it was cut short. -/
theorem loop_ready (hE : Edges names needs dependents)
    (harrange : ∀ l, (arrange l).Perm l) {fuel : Nat} (h : Inv names needs s)
    (hfuel : names.length ≤ s.order.length + fuel) :
    (loop dependents arrange fuel s).ready = [] := by
  induction fuel generalizing s with
  | zero =>
    have hlen := h.length_le
    exact List.length_eq_zero_iff.1 (by simp only [loop]; omega)
  | succ fuel ih =>
    unfold loop
    split
    · assumption
    · rename_i hne
      refine ih (inv_advance hE harrange h) ?_
      rw [length_order_advance hne]
      omega

/-- A complete order is a topological permutation of the nodes. -/
theorem Inv.perm_of_complete (h : Inv names needs s) (hlen : s.order.length = names.length) :
    s.order.Perm names := by
  have hle := h.length_le
  have hready : s.ready = [] := List.length_eq_zero_iff.1 (by omega)
  have hnodup := h.nodup
  have hsubset := h.subset
  rw [hready, List.append_nil] at hnodup hsubset
  exact (List.subperm_of_subset hnodup hsubset).perm_of_length_le (le_of_eq hlen.symm)

omit [DecidableEq ι] in
/-- Among the elements of a topological order with a property there is a first
one: its needs are ordered too and do not have the property. -/
theorem Topological.exists_first {needs : ι → List ι} {order : List ι}
    (h : Topological needs order) {P : ι → Prop} (hex : ∃ n ∈ order, P n) :
    ∃ n ∈ order, P n ∧ ∀ d ∈ needs n, d ∈ order ∧ ¬ P d := by
  classical
  obtain ⟨n, hn, hP⟩ := hex
  obtain ⟨m, hm⟩ : ∃ m, order.find? (fun n => decide (P n)) = some m :=
    Option.isSome_iff_exists.1 (List.find?_isSome.2 ⟨n, hn, decide_eq_true hP⟩)
  obtain ⟨hPm, pre, post, rfl, hpre⟩ := List.find?_eq_some_iff_append.1 hm
  refine ⟨m, by simp, of_decide_eq_true hPm, fun d hd => ?_⟩
  have hdpre : d ∈ pre := h pre m post rfl d hd
  exact ⟨List.mem_append_left _ hdpre, by simpa using hpre d hdpre⟩

end Kahn
