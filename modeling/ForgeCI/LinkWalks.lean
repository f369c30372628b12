import ForgeCI.FileTree

/-!
# Resolution inside a tree

Which resolutions stay below a directory.  The targets of the links are lists of `..` followed
by names, and go up at most to the base directory.  A resolution then stays below the base,
however many links it follows: what is left to read never begins with more `..` than lead back
to the base, because the elements after a link are names.
-/

namespace FileTree

open Lexical

/-- The elements that lead somewhere. -/
def trim (todo : List Bytes) : List Bytes := todo.filter fun part => part ≠ [] ∧ part ≠ [dot]

theorem trim_append (a b : List Bytes) : trim (a ++ b) = trim a ++ trim b := List.filter_append a b

theorem trim_eq_self {todo : List Bytes} (h : Canonical slash dot todo) : trim todo = todo := by
  obtain ⟨n, names, rfl, hnames⟩ := h
  apply List.filter_eq_self.2
  intro part hpart
  rcases List.mem_append.1 hpart with hpart | hpart
  · obtain rfl := List.eq_of_mem_replicate hpart
    decide
  · simp [(hnames part hpart).ne_nil, (hnames part hpart).ne_dot]

/-- The elements of a target, without the `.` that stands for none. -/
theorem trim_split_written {parts : List Bytes} (h : Canonical slash dot parts) :
    trim (split slash (written slash dot parts)) = parts := by
  unfold written
  split_ifs with hnil
  · rw [split_dot slash_ne_dot, hnil]
    rfl
  · rw [split_intercalate hnil (h.slash_free slash_ne_dot)]
    exact trim_eq_self h

namespace Disk

variable {d : Disk} {base : Path} {seen : Path → Prop} {ok : Option Bytes → Prop} {w w' : Walk}

/-- Resolution in steps of one element, with any number of links; elements are read in the
directories `seen`. -/
def Reaches (d : Disk) (seen : Path → Prop) : Walk → Walk → Prop :=
  Relation.ReflTransGen fun w w' => seen w.here ∧ d.next w = some w'

/-- The links below the base go up to the base at most, and do not end there unless that is
allowed. -/
def Contained (d : Disk) (base : Path) (seen : Path → Prop) (ok : Option Bytes → Prop) : Prop :=
  ∀ inner name target, seen (base ++ inner) → ok (inner ++ [name]).head? →
    d.node (base ++ (inner ++ [name])) = some (.link target) →
    ∃ n names, (∀ part ∈ names, Name part) ∧ target = written slash dot (ups dot n ++ names) ∧
      n ≤ inner.length ∧ (n = inner.length → ok names.head?)

/-- A resolution that stays inside: where it is, how often it goes up, and the names after
that. -/
structure Inside (base : Path) (ok : Option Bytes → Prop) (w : Walk) (inner : List Bytes) (n : Nat)
    (names : List Bytes) : Prop where
  here : w.here = base ++ inner
  todo : trim w.todo = ups dot n ++ names
  plain : ∀ part ∈ names, Name part
  depth : n ≤ inner.length
  back : n = inner.length → ok names.head?
  start : inner ≠ [] → ok inner.head?

/-- One step of a resolution, by the element that is read. -/
theorem next_cases {part : Bytes} {rest : List Bytes} (htodo : w.todo = part :: rest)
    (h : d.next w = some w') : ((part = [] ∨ part = [dot]) ∧ w' = ⟨w.here, rest⟩) ∨
      (part = [dot, dot] ∧ w' = ⟨w.here.dropLast, rest⟩) ∨
      (¬(part = [] ∨ part = [dot]) ∧ part ≠ [dot, dot] ∧
        ((∃ target, d.node (w.here ++ [part]) = some (.link target) ∧
            w' = ⟨if isAbs slash target then [] else w.here, split slash target ++ rest⟩) ∨
          w' = ⟨w.here ++ [part], rest⟩)) := by
  unfold next at h
  rw [htodo] at h
  simp only [advance] at h
  cases hhere : d.node w.here with
  | none => simp [hhere] at h
  | some holder =>
    cases holder with
    | dir mode =>
      simp only [hhere] at h
      by_cases hsearch : searchable mode = false
      · simp [hsearch] at h
      · rw [if_neg hsearch] at h
        by_cases hskip : part = [] ∨ part = [dot]
        · simp only [if_pos hskip] at h
          exact .inl ⟨hskip, (Option.some.inj h).symm⟩
        · rw [if_neg hskip] at h
          by_cases hup : part = [dot, dot]
          · simp only [if_pos hup] at h
            exact .inr (.inl ⟨hup, (Option.some.inj h).symm⟩)
          · rw [if_neg hup] at h
            refine .inr (.inr ⟨hskip, hup, ?_⟩)
            cases hnode : d.node (w.here ++ [part]) with
            | none => simp [hnode] at h
            | some node =>
              cases node with
              | link target =>
                simp only [hnode] at h
                exact .inl ⟨target, rfl, (Option.some.inj h).symm⟩
              | _ =>
                simp only [hnode] at h
                exact .inr (Option.some.inj h).symm
    | _ => simp [hhere] at h

/-- One step stays inside. -/
theorem Inside.next (hcontained : d.Contained base seen ok) (hany : ok none → ∀ first, ok first)
    {inner names : List Bytes} {n : Nat} (hw : Inside base ok w inner n names)
    (hseen : seen w.here) (h : d.next w = some w') :
    ∃ inner' n' names', Inside base ok w' inner' n' names' := by
  cases htodo : w.todo with
  | nil => grind [Disk.next]
  | cons part rest =>
    have htrim := hw.todo
    rw [htodo, ← List.singleton_append, trim_append] at htrim
    rcases next_cases htodo h with ⟨hskip, rfl⟩ | ⟨rfl, rfl⟩ | ⟨hskip, hup, hmove⟩
    · -- an element that leads nowhere
      have hnone : trim [part] = [] := by
        rcases hskip with rfl | rfl <;> decide
      rw [hnone, List.nil_append] at htrim
      exact ⟨inner, n, names, hw.here, htrim, hw.plain, hw.depth, hw.back, hw.start⟩
    · -- up: there is a directory to go back over
      have hone : trim [[dot, dot]] = [[dot, dot]] := by decide
      rw [hone] at htrim
      cases n with
      | zero =>
        have hmem : [dot, dot] ∈ names := by
          have : [dot, dot] ∈ ups dot 0 ++ names := htrim ▸ List.mem_cons_self
          simpa [ups] using this
        exact absurd rfl (hw.plain _ hmem).ne_up
      | succ n =>
        rw [ups_succ, List.singleton_append, List.cons_append, List.cons.injEq] at htrim
        have hdepth := hw.depth
        obtain ⟨init, last, rfl⟩ : ∃ init last, inner = init ++ [last] := by
          apply (List.eq_nil_or_concat' inner).resolve_left
          rintro rfl
          simp at hdepth
        rw [List.length_append, List.length_singleton] at hdepth
        refine ⟨init, n, names, ?_, htrim.2, hw.plain, by omega, ?_, ?_⟩
        · rw [hw.here, ← List.append_assoc, List.dropLast_concat]
        · intro hn
          exact hw.back (by simp [hn])
        · intro hinit
          have hstart := hw.start (by simp)
          rwa [List.head?_append_of_ne_nil _ hinit] at hstart
    · -- a name: nothing goes up before it
      have hone : trim [part] = [part] := by grind [trim]
      rw [hone, List.singleton_append] at htrim
      cases n with
      | succ n => grind [ups_succ]
      | zero =>
        have hnames : part :: trim rest = names := by simpa [ups] using htrim
        subst hnames
        have hrest : ∀ x ∈ trim rest, Name x := fun x hx =>
          hw.plain x (List.mem_cons_of_mem _ hx)
        have hfirst : ok (inner ++ [part]).head? := by
          by_cases hinner : inner = []
          · simpa [hinner] using hw.back (by simp [hinner])
          · rw [List.head?_append_of_ne_nil _ hinner]
            exact hw.start hinner
        rcases hmove with ⟨target, hlink, rfl⟩ | rfl
        · rw [hw.here, List.append_assoc] at hlink
          rw [hw.here] at hseen
          obtain ⟨k, more, hmore, rfl, hk, hback⟩ :=
            hcontained inner part target hseen hfirst hlink
          have hcanonical : Canonical slash dot (ups dot k ++ more) := ⟨k, more, rfl, hmore⟩
          refine ⟨inner, k, more ++ trim rest, ?_, ?_, ?_, hk, ?_, hw.start⟩
          · rw [hcanonical.isAbs_written slash_ne_dot, hw.here]
            rfl
          · rw [trim_append, trim_split_written hcanonical, List.append_assoc]
          · grind
          · intro hkeq
            by_cases hnil : more = []
            · exact hany (by simpa [hnil] using hback hkeq) _
            · rw [List.head?_append_of_ne_nil _ hnil]
              exact hback hkeq
        · refine ⟨inner ++ [part], 0, trim rest, ?_, by simp [ups], hrest, by simp, by simp,
            fun _ => hfirst⟩
          rw [hw.here, List.append_assoc]

/-- **A resolution that starts inside stays inside**, through links of any number. -/
theorem stays_inside (hcontained : d.Contained base seen ok) (hany : ok none → ∀ first, ok first)
    {inner names : List Bytes} {n : Nat} (hw : Inside base ok w inner n names)
    (h : d.Reaches seen w w') : ∃ inner' n' names', Inside base ok w' inner' n' names' := by
  induction h with
  | refl => exact ⟨inner, n, names, hw⟩
  | tail _ hstep ih =>
    obtain ⟨inner', n', names', hinside⟩ := ih
    exact hinside.next hcontained hany hstep.1 hstep.2

end Disk

end FileTree
