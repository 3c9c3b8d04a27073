import DocTree.Store
import DocTree.Proofs.Siblings
import Mathlib.Logic.Relation

/-!
Ordered forests over node names, apart from any store. A forest says which children a node has, in
which order; all five links of a node can be read off that. That no node stands below itself is kept as
a ranking, smaller below than above.
-/
namespace DocTree

open Siblings

/-- Every node ranks below its parent, and there is a highest rank of a parent. -/
def Ranked (parent : NodeId → Option NodeId) : Prop :=
  ∃ (rank : NodeId → ℕ) (bound : ℕ), ∀ c p, parent c = some p → rank c < rank p ∧ rank p ≤ bound

/-- Adding one edge, not from a node to its own tree, keeps the ranking. -/
theorem Ranked.add_edge {parent parent' : NodeId → Option NodeId} (h : Ranked parent) {c p : NodeId}
    (hcp : ¬ Relation.ReflTransGen (fun x y => parent x = some y) p c)
    (hedge : ∀ x y, parent' x = some y → parent x = some y ∨ x = c ∧ y = p) : Ranked parent' := by
  classical
  obtain ⟨rank, bound, hrank⟩ := h
  -- everything from `p` upwards is lifted above the whole tree of `c`
  let lift (n : NodeId) : ℕ :=
    if Relation.ReflTransGen (fun x y => parent x = some y) p n then rank c + 1 else 0
  have hlift : ∀ n, lift n ≤ rank c + 1 := by
    intro n
    by_cases hn : Relation.ReflTransGen (fun x y => parent x = some y) p n <;> simp [lift, hn]
  refine ⟨fun n => rank n + lift n, max bound (rank p) + rank c + 1, fun x y hxy => ?_⟩
  rcases hedge x y hxy with hold | ⟨rfl, rfl⟩
  · have hlt := hrank x y hold
    have hy := hlift y
    refine ⟨?_, by simp only; omega⟩
    by_cases hx : Relation.ReflTransGen (fun x y => parent x = some y) p x
    · simp only [lift, hx, hx.tail hold, if_true]
      omega
    · simp only [lift, hx, if_false]
      omega
  · simp only [lift, hcp, Relation.ReflTransGen.refl, if_true, if_false]
    omega

structure Forest where
  children : NodeId → List NodeId
  parent : NodeId → Option NodeId
  parent_eq_some_iff : ∀ {c p}, parent c = some p ↔ c ∈ children p
  nodup_children : ∀ p, (children p).Nodup
  ranked : Ranked parent

namespace Forest

/-- A forest is its lists of children. -/
theorem ext_children {f g : Forest} (h : ∀ n, f.children n = g.children n) : f = g := by
  have hparent : ∀ n, f.parent n = g.parent n := by
    intro n
    apply Option.ext
    intro p
    rw [f.parent_eq_some_iff, g.parent_eq_some_iff, h p]
  obtain ⟨fc, fp, _, _, _⟩ := f
  obtain ⟨gc, gp, _, _, _⟩ := g
  obtain rfl : fc = gc := funext h
  obtain rfl : fp = gp := funext hparent
  rfl

def empty : Forest where
  children _ := []
  parent _ := none
  parent_eq_some_iff := by simp
  nodup_children _ := List.nodup_nil
  ranked := ⟨fun _ => 0, 0, by simp⟩

/-- The links of a node, read off the lists of children. -/
def link (f : Forest) (l : Link) (n : NodeId) : Option NodeId :=
  match l with
  | .parent => f.parent n
  | .firstChild => (f.children n).head?
  | .lastChild => (f.children n).getLast?
  | .previous => (f.parent n).bind fun p => before? n (f.children p)
  | .next => (f.parent n).bind fun p => after? n (f.children p)

variable (f : Forest)

/-- `a` is `n` or stands above it. -/
def Above (a n : NodeId) : Prop := Relation.ReflTransGen (fun x y => f.parent x = some y) n a

variable {f}

theorem above_refl (n : NodeId) : f.Above n n := Relation.ReflTransGen.refl

theorem Above.trans {a b c : NodeId} (hab : f.Above a b) (hbc : f.Above b c) : f.Above a c :=
  Relation.ReflTransGen.trans hbc hab

theorem above_of_mem_children {p c : NodeId} (h : c ∈ f.children p) : f.Above p c :=
  Relation.ReflTransGen.single (f.parent_eq_some_iff.mpr h)

theorem above_iff {a n : NodeId} :
    f.Above a n ↔ a = n ∨ ∃ p, f.parent n = some p ∧ f.Above a p := by
  constructor
  · intro h
    rcases Relation.ReflTransGen.cases_head h with rfl | ⟨p, hp, hap⟩
    · exact Or.inl rfl
    · exact Or.inr ⟨p, hp, hap⟩
  · rintro (rfl | ⟨p, hp, hap⟩)
    · exact above_refl a
    · exact Relation.ReflTransGen.head hp hap

theorem not_above_of_free {a n : NodeId} (h : f.parent n = none) (hne : a ≠ n) :
    ¬ f.Above a n := by
  intro ha
  rcases above_iff.mp ha with he | ⟨p, hp, -⟩
  · exact hne he
  · rw [h] at hp
    exact absurd hp (by simp)

theorem not_above_parent {p c : NodeId} (h : f.parent c = some p) : ¬ f.Above c p := by
  obtain ⟨rank, bound, hrank⟩ := f.ranked
  have hle : ∀ a n, f.Above a n → rank n ≤ rank a := by
    intro a n hn
    induction hn with
    | refl => exact Nat.le_refl _
    | tail _ hstep ih =>
      have hlt := (hrank _ _ hstep).1
      omega
  intro hcp
  have hlt := (hrank c p h).1
  have hback := hle c p hcp
  omega

/-- Two nodes that stand above each other are one. -/
theorem Above.antisymm {a b : NodeId} (hab : f.Above a b) (hba : f.Above b a) : a = b := by
  rcases above_iff.mp hab with he | ⟨p, hp, hap⟩
  · exact he
  · exact absurd (hba.trans hap) (not_above_parent hp)

theorem not_mem_children_self (p : NodeId) : p ∉ f.children p := fun h =>
  not_above_parent (f.parent_eq_some_iff.mpr h) (above_refl p)

/-- Of two nodes above a third one stands above the other. -/
theorem Above.total {a b n : NodeId} (ha : f.Above a n) (hb : f.Above b n) :
    f.Above b a ∨ f.Above a b :=
  Relation.ReflTransGen.total_of_right_unique
    (fun _ _ _ h h' => Option.some.inj (h.symm.trans h')) ha hb

theorem not_mem_children_of_free {n : NodeId} (h : f.parent n = none) (p : NodeId) :
    n ∉ f.children p := by
  intro hm
  rw [f.parent_eq_some_iff.mpr hm] at h
  exact absurd h (by simp)

/-- A child stands in one place only. -/
theorem notMem_of_children_eq {p c : NodeId} {left right : List NodeId}
    (h : f.children p = left ++ c :: right) : c ∉ left ∧ c ∉ right := by
  have hnodup := List.nodup_append.mp (h ▸ f.nodup_children p)
  refine ⟨?_, (List.nodup_cons.mp hnodup.2.1).1⟩
  intro hc
  exact hnodup.2.2 c hc c (List.mem_cons_self ..) rfl

theorem parent_unique {c p q : NodeId} (hp : c ∈ f.children p) (hq : c ∈ f.children q) : p = q :=
  Option.some.inj ((f.parent_eq_some_iff.mpr hp).symm.trans (f.parent_eq_some_iff.mpr hq))

theorem link_previous {p c : NodeId} (hc : c ∈ f.children p) :
    f.link .previous c = before? c (f.children p) := by
  simp [link, f.parent_eq_some_iff.mpr hc]

theorem link_next {p c : NodeId} (hc : c ∈ f.children p) :
    f.link .next c = after? c (f.children p) := by
  simp [link, f.parent_eq_some_iff.mpr hc]

theorem link_of_free {n : NodeId} (h : f.parent n = none) :
    f.link .previous n = none ∧ f.link .next n = none := by
  simp [link, h]

/-- Neighbours have one parent. -/
theorem exists_parent_of_after? {x y p : NodeId} (h : after? x (f.children p) = some y) :
    f.parent x = some p ∧ f.parent y = some p := by
  obtain ⟨left, right, he⟩ := (after?_eq_some_iff (f.nodup_children p)).mp h
  exact ⟨f.parent_eq_some_iff.mpr (by simp [he]), f.parent_eq_some_iff.mpr (by simp [he])⟩

theorem link_previous_eq_some_iff {x y : NodeId} :
    f.link .previous y = some x ↔ f.link .next x = some y := by
  simp only [link, Option.bind_eq_some_iff]
  constructor
  · rintro ⟨p, -, hx⟩
    have hafter := (before?_eq_some_iff_after? (f.nodup_children p)).mp hx
    exact ⟨p, (exists_parent_of_after? hafter).1, hafter⟩
  · rintro ⟨p, -, hy⟩
    exact ⟨p, (exists_parent_of_after? hy).2,
      (before?_eq_some_iff_after? (f.nodup_children p)).mpr hy⟩

theorem parent_eq_of_next {x y : NodeId} (h : f.link .next x = some y) :
    f.parent x = f.parent y := by
  obtain ⟨p, -, hy⟩ := Option.bind_eq_some_iff.mp h
  rw [(exists_parent_of_after? hy).1, (exists_parent_of_after? hy).2]

end Forest

end DocTree
