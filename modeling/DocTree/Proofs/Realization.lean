import DocTree.Store
import DocTree.Proofs.Forest
import Mathlib.Data.List.Perm.Subperm
import Mathlib.Data.Nat.Init

/-!
Stores that realize forests. All five links of every node are those of the forest; then what is read
by following links, the children of a node and the nodes above it, is what the forest says. Cells below
a base are left out of the account, so that whatever they hold does not matter.
-/
namespace DocTree

open Siblings

theorem Cell.ext_get {c d : Cell} (hlabel : c.label = d.label) (hget : ∀ l, c.get l = d.get l) :
    c = d := by
  obtain ⟨_, _, _, _, _, _⟩ := c
  obtain ⟨_, _, _, _, _, _⟩ := d
  cases hlabel
  cases hget .parent
  cases hget .firstChild
  cases hget .lastChild
  cases hget .previous
  cases hget .next
  rfl

namespace Store

/-- From the cell `base` on, the links of the store are those of the forest, and no node before it
belongs to the forest. -/
structure Realizes (s : Store) (base : ℕ) (f : Forest) : Prop where
  link_eq : ∀ n, base ≤ n.index → ∀ l, s.link l n = f.link l n
  inside : ∀ c p, f.parent c = some p → base ≤ c.index ∧ base ≤ p.index

/-- What lies beyond the last cell has no links. -/
theorem link_eq_none_of_size_le (s : Store) (l : Link) {n : NodeId} (h : s.size ≤ n.index) :
    s.link l n = none := by
  have hcell : s.cell n = default := by
    simp only [size] at h
    simp [cell, Array.getD_eq_getD_getElem?, Array.getElem?_eq_none h]
  rw [link, hcell]
  exact Cell.get_detached .node l

theorem index_lt_of_link {s : Store} {l : Link} {n m : NodeId} (h : s.link l n = some m) :
    n.index < s.size := by
  by_contra hle
  rw [link_eq_none_of_size_le s l (Nat.le_of_not_lt hle)] at h
  exact absurd h (by simp)

theorem ne_fresh {s : Store} {n : NodeId} (h : n.index < s.size) : n ≠ s.fresh := by
  intro he
  rw [he] at h
  exact absurd h (Nat.lt_irrefl _)

/-- A store is known by its labels and its links. -/
theorem ext_links {s t : Store} (hsize : s.size = t.size)
    (hlabel : ∀ n, n.index < s.size → s.label n = t.label n)
    (hlink : ∀ l n, n.index < s.size → s.link l n = t.link l n) : s = t := by
  obtain ⟨cs⟩ := s
  obtain ⟨ds⟩ := t
  congr 1
  refine Array.ext hsize fun i hi hj => ?_
  have hcell : (Store.mk cs).cell ⟨i⟩ = (Store.mk ds).cell ⟨i⟩ :=
    Cell.ext_get (hlabel ⟨i⟩ hi) fun l => hlink l ⟨i⟩ hi
  simpa [cell, Array.getD_eq_getD_getElem?, hi, hj] using hcell

/-- The nodes met from a start on, one link after the other, up to the end. -/
inductive Path (s : Store) (l : Link) : Option NodeId → List NodeId → Prop
  | nil : Path s l none []
  | cons {n : NodeId} {ns : List NodeId} (h : Path s l (s.link l n) ns) : Path s l (some n) (n :: ns)

namespace Path

variable {s : Store} {l : Link}

theorem unique {start : Option NodeId} {ns ms : List NodeId} (hn : s.Path l start ns)
    (hm : s.Path l start ms) : ns = ms := by
  induction hn generalizing ms with
  | nil => cases hm; rfl
  | cons _ ih =>
    cases hm with
    | cons hrest => rw [ih hrest]

/-- From each of its nodes a path leads on to its end. -/
theorem suffix {start : Option NodeId} {left right : List NodeId} {n : NodeId}
    (h : s.Path l start (left ++ n :: right)) : s.Path l (some n) (n :: right) := by
  induction left generalizing start with
  | nil =>
    cases h with
    | cons hrest => exact .cons hrest
  | cons m ms ih =>
    cases h with
    | cons hrest => exact ih hrest

/-- A path that ends does not meet a node twice. -/
theorem nodup {start : Option NodeId} {ns : List NodeId} (h : s.Path l start ns) : ns.Nodup := by
  induction h with
  | nil => exact List.nodup_nil
  | @cons n ns hrest ih =>
    refine List.nodup_cons.mpr ⟨fun hmem => ?_, ih⟩
    obtain ⟨left, right, rfl⟩ := List.append_of_mem hmem
    have hlength := congrArg List.length (hrest.suffix.unique (.cons hrest))
    simp only [List.length_cons, List.length_append] at hlength
    omega

/-- A path stays when the links of its nodes do. -/
theorem congr {s' : Store} {start : Option NodeId} {ns : List NodeId} (h : s.Path l start ns)
    (hl : ∀ n ∈ ns, s'.link l n = s.link l n) : s'.Path l start ns := by
  induction h with
  | nil => exact .nil
  | @cons n ns _ ih =>
    rw [List.forall_mem_cons] at hl
    refine .cons ?_
    rw [hl.1]
    exact ih hl.2

/-- On a path stands what is met from its start on. -/
theorem mem_iff {start : Option NodeId} {ns : List NodeId} (h : s.Path l start ns) (m : NodeId) :
    m ∈ ns ↔ ∃ a, start = some a ∧ Relation.ReflTransGen (fun x y => s.link l x = some y) a m := by
  induction h with
  | nil => simp
  | @cons n ns hrest ih =>
    simp only [List.mem_cons, ih, Option.some.injEq, exists_eq_left']
    constructor
    · rintro (rfl | ⟨a, ha, hm⟩)
      · exact .refl
      · exact .head ha hm
    · intro hm
      rcases Relation.ReflTransGen.cases_head hm with rfl | ⟨a, ha, hm⟩
      · exact Or.inl rfl
      · exact Or.inr ⟨a, ha, hm⟩

/-- A path that ends does not run in a circle. -/
theorem not_transGen {n : NodeId} {ns : List NodeId} (h : s.Path l (some n) ns) :
    ¬ Relation.TransGen (fun x y => s.link l x = some y) n n := by
  intro hn
  obtain ⟨m, hm, hmn⟩ := Relation.TransGen.head'_iff.mp hn
  have hnodup := h.nodup
  cases h with
  | cons hrest => exact (List.nodup_cons.mp hnodup).1 ((hrest.mem_iff n).mpr ⟨m, hm, hmn⟩)

end Path

/-- So many different cells there are at most. -/
theorem length_le_size {s : Store} {ns : List NodeId} (hnodup : ns.Nodup)
    (hlt : ∀ n ∈ ns, n.index < s.size) : ns.length ≤ s.size := by
  have hsub : ns ⊆ (List.range s.size).map NodeId.mk := by
    intro n hn
    exact List.mem_map.mpr ⟨n.index, List.mem_range.mpr (hlt n hn), rfl⟩
  simpa using (List.subperm_of_subset hnodup hsub).length_le

theorem follow_eq_of_path {s : Store} {l : Link} {k : ℕ} {start : Option NodeId}
    {ns : List NodeId} (h : s.Path l start ns) (hk : ns.length ≤ k) : s.follow l k start = ns := by
  induction h generalizing k with
  | nil => cases k <;> rfl
  | cons _ ih =>
    cases k with
    | zero => simp at hk
    | succ k =>
      rw [follow, ih]
      simpa using hk

/-- A path among the cells is followed to its end. -/
theorem follow_size {s : Store} {l : Link} {start : Option NodeId} {ns : List NodeId}
    (h : s.Path l start ns) (hlt : ∀ n ∈ ns, n.index < s.size) : s.follow l s.size start = ns :=
  follow_eq_of_path h (length_le_size h.nodup hlt)

namespace Realizes

/-- A store with the same labels that realizes the same forest is the same. -/
theorem eq {s t : Store} {f : Forest} (hs : s.Realizes 0 f) (ht : t.Realizes 0 f)
    (hsize : s.size = t.size) (hlabel : ∀ n, n.index < s.size → s.label n = t.label n) : s = t :=
  ext_links hsize hlabel fun l n _ => by
    rw [hs.link_eq n (Nat.zero_le _), ht.link_eq n (Nat.zero_le _)]

variable {s : Store} {base : ℕ} {f : Forest} (h : s.Realizes base f)

include h

theorem parent_eq {n : NodeId} (hn : base ≤ n.index) : s.link .parent n = f.parent n :=
  h.link_eq n hn .parent

theorem firstChild_eq {n : NodeId} (hn : base ≤ n.index) :
    s.link .firstChild n = (f.children n).head? :=
  h.link_eq n hn .firstChild

theorem lastChild_eq {n : NodeId} (hn : base ≤ n.index) :
    s.link .lastChild n = (f.children n).getLast? :=
  h.link_eq n hn .lastChild

theorem next_eq {p c : NodeId} (hc : c ∈ f.children p) :
    s.link .next c = after? c (f.children p) := by
  have hp := f.parent_eq_some_iff.mpr hc
  simp [h.link_eq c (h.inside c p hp).1, Forest.link, hp]

theorem previous_eq {p c : NodeId} (hc : c ∈ f.children p) :
    s.link .previous c = before? c (f.children p) := by
  have hp := f.parent_eq_some_iff.mpr hc
  simp [h.link_eq c (h.inside c p hp).1, Forest.link, hp]

theorem base_le {p c : NodeId} (hc : c ∈ f.children p) : base ≤ c.index ∧ base ≤ p.index :=
  h.inside c p (f.parent_eq_some_iff.mpr hc)

theorem index_lt {p c : NodeId} (hc : c ∈ f.children p) :
    c.index < s.size ∧ p.index < s.size := by
  have hparent := f.parent_eq_some_iff.mpr hc
  refine ⟨index_lt_of_link ((h.parent_eq (h.base_le hc).1).trans hparent), ?_⟩
  obtain ⟨m, hm⟩ := List.exists_mem_of_ne_nil _ (List.ne_nil_of_mem hc)
  cases hhead : (f.children p).head? with
  | none => simp_all
  | some first => exact index_lt_of_link ((h.firstChild_eq (h.base_le hc).2).trans hhead)

/-- The siblings on both sides of a child. -/
theorem siblings_eq {p c : NodeId} {left right : List NodeId}
    (hp : f.children p = left ++ c :: right) :
    s.link .previous c = left.getLast? ∧ s.link .next c = right.head? := by
  have hmem : c ∈ f.children p := hp ▸ List.mem_append_right left (List.mem_cons_self ..)
  obtain ⟨hleft, hright⟩ := Forest.notMem_of_children_eq hp
  rw [h.previous_eq hmem, h.next_eq hmem, hp]
  exact ⟨before?_append_cons left hright, after?_append_cons right hleft⟩

/-- The next links lead along the rest of the children. -/
theorem path_next {p : NodeId} {left right : List NodeId} (hp : f.children p = left ++ right) :
    s.Path .next right.head? right := by
  induction right generalizing left with
  | nil => exact .nil
  | cons c cs ih =>
    refine .cons ?_
    rw [(h.siblings_eq hp).2]
    have hrest : f.children p = (left ++ [c]) ++ cs := by simpa using hp
    exact ih hrest

/-- The children of a node are those of the forest. -/
theorem children_eq {n : NodeId} (hn : base ≤ n.index) : s.children n = f.children n := by
  have hall : f.children n = [] ++ f.children n := rfl
  unfold children
  rw [h.firstChild_eq hn]
  exact follow_size (h.path_next hall) fun c hc => (h.index_lt hc).1

theorem exists_path_up {n : NodeId} (hn : base ≤ n.index) :
    ∃ ns, s.Path .parent (s.link .parent n) ns ∧
      (∀ m ∈ ns, m.index < s.size) ∧
      ∀ m, m ∈ ns ↔ ∃ p, f.parent n = some p ∧ f.Above m p := by
  obtain ⟨rank, bound, hrank⟩ := f.ranked
  -- the distance to the highest rank shrinks at every step upwards
  induction hk : bound - rank n using Nat.strong_induction_on generalizing n with
  | h k ih =>
    cases hp : f.parent n with
    | none =>
      refine ⟨[], ?_, by simp, by simp⟩
      rw [h.parent_eq hn, hp]
      exact .nil
    | some p =>
      have hstep := hrank n p hp
      obtain ⟨ns, hpath, hlt, hmem⟩ := ih (bound - rank p) (by omega) (h.inside n p hp).2 rfl
      refine ⟨p :: ns, ?_, ?_, ?_⟩
      · rw [h.parent_eq hn, hp]
        exact .cons hpath
      · have hpsize := (h.index_lt (f.parent_eq_some_iff.mp hp)).2
        intro m hm
        rcases List.mem_cons.mp hm with rfl | hm
        · exact hpsize
        · exact hlt m hm
      · intro m
        rw [List.mem_cons, hmem m]
        simp only [Option.some.injEq, exists_eq_left']
        rw [Forest.above_iff (a := m) (n := p)]

/-- The nodes above a node are those of the forest. -/
theorem mem_ancestors {m n : NodeId} (hn : base ≤ n.index) :
    m ∈ s.ancestors n ↔ ∃ p, f.parent n = some p ∧ f.Above m p := by
  obtain ⟨ns, hpath, hlt, hmem⟩ := h.exists_path_up hn
  unfold ancestors
  rw [follow_size hpath hlt, hmem m]

end Realizes

end Store

end DocTree
