import Mathlib.Data.List.Induction
import Mathlib.Data.List.Sort
import ForgeCI.FileTree

/-!
# The order in which a tree is walked

A walk visits a directory before its entries, and the entries of a directory by name.  This is
the dictionary order of the paths, element by element, with the bytes of the names in their
own order: `Disk.inside` lists the paths of a subtree in that order.
-/

namespace FileTree

section Dictionary

variable {α : Type*} (r : α → α → Prop)

/-- The dictionary order: a list comes before its extensions. -/
def Precedes : List α → List α → Prop
  | [], _ => True
  | _ :: _, [] => False
  | a :: as, b :: bs => r a b ∧ (r b a → Precedes as bs)

def decidePrecedes [DecidableRel r] : ∀ l m, Decidable (Precedes r l m)
  | [], _ => isTrue trivial
  | _ :: _, [] => isFalse id
  | a :: as, b :: bs =>
      have := decidePrecedes as bs
      inferInstanceAs (Decidable (r a b ∧ (r b a → Precedes r as bs)))

instance [DecidableRel r] : DecidableRel (Precedes r) := decidePrecedes r

variable {r}

/-- A proper extension does not come first. -/
theorem not_precedes_append {l extra : List α} (h : ∀ a, r a a) (hextra : extra ≠ []) :
    ¬Precedes r (l ++ extra) l := by
  induction l with
  | nil =>
    obtain ⟨e, es, rfl⟩ := List.exists_cons_of_ne_nil hextra
    exact id
  | cons a as ih => exact fun hle => ih (hle.2 (h a))

instance [Std.Total r] : Std.Total (Precedes r) where
  total := by
    intro l m
    induction l generalizing m with
    | nil => exact .inl trivial
    | cons a as ih =>
        cases m with
        | nil => exact .inr trivial
        | cons b bs =>
            by_cases hab : r a b
            · by_cases hba : r b a
              · rcases ih bs with h | h
                · exact .inl ⟨hab, fun _ => h⟩
                · exact .inr ⟨hba, fun _ => h⟩
              · exact .inl ⟨hab, fun h => absurd h hba⟩
            · have hba := (Std.Total.total a b).resolve_left hab
              exact .inr ⟨hba, fun h => absurd h hab⟩

instance [IsTrans α r] : IsTrans (List α) (Precedes r) where
  trans := by
    intro l m n
    induction l generalizing m n with
    | nil => exact fun _ _ => trivial
    | cons a as ih =>
        intro hlm hmn
        cases m with
        | nil => cases hlm
        | cons b bs =>
            cases n with
            | nil => cases hmn
            | cons c cs =>
                refine ⟨IsTrans.trans _ _ _ hlm.1 hmn.1, fun hca => ?_⟩
                exact ih bs cs (hlm.2 (IsTrans.trans _ _ _ hmn.1 hca))
                  (hmn.2 (IsTrans.trans _ _ _ hca hlm.1))

instance [Std.Antisymm r] : Std.Antisymm (Precedes r) where
  antisymm := by
    intro l m
    induction l generalizing m with
    | nil =>
        intro _ h
        cases m with
        | nil => rfl
        | cons b bs => cases h
    | cons a as ih =>
        intro hlm hml
        cases m with
        | nil => cases hlm
        | cons b bs =>
            obtain rfl := Std.Antisymm.antisymm a b hlm.1 hml.1
            rw [ih bs (hlm.2 hml.1) (hml.2 hlm.1)]

end Dictionary

/-- The order of strings. -/
abbrev BytesLE : Bytes → Bytes → Prop := Precedes (· ≤ ·)

/-- The order of a walk. -/
abbrev WalkLE : List Bytes → List Bytes → Prop := Precedes BytesLE

/-- Two listings of the same paths are the same. -/
theorem listing_ext {l m : List (List Bytes)} (hl : l.Pairwise WalkLE) (hm : m.Pairwise WalkLE)
    (hln : l.Nodup) (hmn : m.Nodup) (h : ∀ rel, rel ∈ l ↔ rel ∈ m) : l = m :=
  ((List.perm_ext_iff_of_nodup hln hmn).2 h).eq_of_pairwise' hl hm

namespace Disk

variable {d : Disk} {root : Path} {rel : List Bytes}

/-- The paths of a subtree, relative to its root and with the root itself, in the order of a
walk. -/
def inside (d : Disk) (root : Path) : List (List Bytes) :=
  ((d.nodes.keys.filter root.isPrefixOf).map (·.drop root.length)).insertionSort WalkLE

theorem mem_inside : rel ∈ d.inside root ↔ (d.node (root ++ rel)).isSome := by
  unfold inside Disk.node
  rw [(List.perm_insertionSort _ _).mem_iff, AList.lookup_isSome, AList.mem_keys]
  simp only [List.mem_map, List.mem_filter, List.isPrefixOf_iff_prefix]
  constructor
  · rintro ⟨p, ⟨hp, extra, rfl⟩, rfl⟩
    simpa using hp
  · grind

theorem nodup_inside : (d.inside root).Nodup := by
  unfold inside
  rw [(List.perm_insertionSort _ _).nodup_iff]
  apply List.Nodup.map_on _ (d.nodes.keys_nodup.filter _)
  intro p hp q hq heq
  obtain ⟨extra, rfl⟩ := List.isPrefixOf_iff_prefix.1 (List.mem_filter.1 hp).2
  obtain ⟨extra', rfl⟩ := List.isPrefixOf_iff_prefix.1 (List.mem_filter.1 hq).2
  simpa using heq

theorem pairwise_inside : (d.inside root).Pairwise WalkLE :=
  List.pairwise_insertionSort _ _

variable {p q : Path} {abs : List Bytes} {node : Node}

/-- What leads to a node are names, and directories. -/
theorem dir_of_node (h : d.node (p ++ rel) = some node) :
    (∀ part ∈ rel, Name part) ∧ ∀ pre, pre <+: rel → pre ≠ rel →
      ∃ mode, d.node (p ++ pre) = some (.dir mode) := by
  induction rel using List.reverseRecOn generalizing node with
  | nil => grind
  | append_singleton rel last ih =>
    have hlast : d.node (p ++ rel ++ [last]) = some node := by simpa using h
    obtain ⟨hname, mode, hmode⟩ := d.in_dir_of_node hlast
    obtain ⟨hnames, hdirs⟩ := ih hmode
    refine ⟨?_, fun pre hpre hne => ?_⟩
    · grind
    · rcases List.prefix_concat_iff.1 hpre with rfl | hpre
      · exact absurd rfl hne
      · by_cases hwhole : pre = rel
        · exact ⟨mode, hwhole ▸ hmode⟩
        · exact hdirs pre hpre hwhole

/-- The directories on the way from `p` may be searched. -/
def Open (d : Disk) (p : Path) (rel : List Bytes) : Prop :=
  ∀ pre mode, pre <+: rel → pre ≠ rel → d.node (p ++ pre) = some (.dir mode) →
    searchable mode = true

theorem Open.of_append {more : List Bytes} (h : d.Open p (rel ++ more)) : d.Open p rel := by
  intro pre mode hpre hne
  apply h pre mode (hpre.trans (List.prefix_append _ _))
  rintro rfl
  have hlen := hpre.length_le
  rw [List.length_append] at hlen
  grind

theorem Clear.opens (h : d.Clear p rel) : d.Open p rel := by
  rintro pre mode ⟨more, rfl⟩ hne hmode
  cases more with
  | nil => simp at hne
  | cons part more =>
    obtain ⟨-, -, ⟨m, hm, hsearch⟩, -⟩ := clear_append.1 h
    grind

/-- A way through directories that may be searched is clear. -/
theorem clear_of_open (h : d.node (p ++ rel) = some node) (hopen : d.Open p rel)
    (hlink : node.isLink = false) : d.Clear p rel := by
  induction rel using List.reverseRecOn generalizing node with
  | nil => trivial
  | append_singleton rel last ih =>
    have hlast : d.node (p ++ rel ++ [last]) = some node := by simpa using h
    obtain ⟨hname, mode, hmode⟩ := d.in_dir_of_node hlast
    have hrel : d.Clear p rel := ih hmode hopen.of_append rfl
    have hsearch := hopen rel mode (List.prefix_append _ _) (by simp) hmode
    exact clear_append.2 ⟨hrel, hname, ⟨mode, hmode, hsearch⟩, ⟨node, hlast, hlink⟩, trivial⟩

/-- A root with something in it is a directory, so the path leads to it. -/
theorem leads_of_lstat {top : Node} (htop : d.lstat abs = .ok (p, top)) {last : Bytes}
    (hnode : d.node (p ++ rel ++ [last]) = some node) : d.Leads abs p := by
  obtain ⟨hp, hlead⟩ := lstat_ok htop
  have hlong : d.node (p ++ (rel ++ [last])) = some node := by simpa using hnode
  obtain ⟨mode, hmode⟩ := (dir_of_node hlong).2 [] (by simp) (by simp)
  apply hlead
  obtain rfl : top = .dir mode := by simpa [hp] using hmode
  rfl

/-- **What can be looked at** below a root that has been found: what lies behind directories
that may be searched. -/
theorem lstat_of_open {top : Node} (htop : d.lstat abs = .ok (p, top))
    (hnode : d.node (p ++ rel) = some node) (hopen : d.Open p rel) :
    d.lstat (abs ++ rel) = .ok (p ++ rel, node) := by
  rcases List.eq_nil_or_concat' rel with rfl | ⟨init, last, rfl⟩
  · obtain ⟨hp, -⟩ := lstat_ok htop
    grind
  · have hlast : d.node (p ++ init ++ [last]) = some node := by simpa using hnode
    obtain ⟨hname, mode, hmode⟩ := d.in_dir_of_node hlast
    have hsearch := hopen init mode (List.prefix_append _ _) (by simp) hmode
    have hlead : d.Leads (abs ++ init) (p ++ init) :=
      (leads_of_lstat htop hlast).append (clear_of_open hmode hopen.of_append rfl)
    rw [← List.append_assoc, lstat_eq hlead hmode hsearch hname, hlast, ← List.append_assoc]

/-- Nothing else can be looked at. -/
theorem open_of_lstat {top found : Node} (htop : d.lstat abs = .ok (p, top))
    (hnode : d.node (p ++ rel) = some node) (h : d.lstat (abs ++ rel) = .ok (q, found)) :
    d.Open p rel := by
  rcases List.eq_nil_or_concat' rel with rfl | ⟨init, last, rfl⟩
  · intro pre mode hpre hne
    exact absurd (List.prefix_nil.1 hpre) hne
  · have hlast : d.node (p ++ init ++ [last]) = some node := by simpa using hnode
    obtain ⟨hnames, hdirs⟩ := dir_of_node hnode
    rw [← List.append_assoc] at h
    obtain ⟨parent, hlead, -, -, mode, hparent, hsearch⟩ :=
      lstat_append_ok (hnames last (by simp)) h
    have hlinks : ∀ pre, pre <+: init → ∀ n, d.node (p ++ pre) = some n → n.isLink = false := by
      intro pre hpre n hn
      have hne : pre ≠ init ++ [last] := by grind [hpre.length_le]
      obtain ⟨m, hm⟩ := hdirs pre (hpre.trans (List.prefix_append _ _)) hne
      obtain rfl : n = .dir m := by simpa [hn] using hm
      rfl
    obtain ⟨rfl, hclear⟩ := (leads_of_lstat htop hlast).eq_of_linkless
      (fun part hpart => hnames part (by simp [hpart])) hlinks hlead
    intro pre m hpre hne hm
    rcases List.prefix_concat_iff.1 hpre with rfl | hpre
    · exact absurd rfl hne
    · by_cases hwhole : pre = init
      · grind
      · exact hclear.opens pre m hpre hwhole hm

end Disk

end FileTree
