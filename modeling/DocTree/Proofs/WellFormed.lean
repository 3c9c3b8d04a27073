import DocTree.Proofs.Spanning
import Mathlib.Data.Finset.Card
import Mathlib.Data.Finset.Range

/-!
Stores whose links are in order. The conditions speak of links only: the children of every node form a
chain, linked in both directions from its first to its last child, of just the nodes that name it as
their parent; a node without parent has no siblings; and nobody is their own ancestor. A store meets
them just when it realizes a forest.
-/
namespace DocTree

open Siblings OrderedTree

/-- Where nobody is their own ancestor a node ranks by the number of nodes below it. -/
theorem Ranked.of_acyclic {parent : NodeId → Option NodeId} {size : ℕ}
    (hlt : ∀ c p, parent c = some p → c.index < size)
    (hacyclic : ∀ n, ¬ Relation.TransGen (fun c p => parent c = some p) n n) : Ranked parent := by
  classical
  let below (n : NodeId) : Finset ℕ := (Finset.range size).filter fun i =>
    Relation.TransGen (fun c p => parent c = some p) ⟨i⟩ n
  refine ⟨fun n => (below n).card, size, fun c p hcp => ⟨Finset.card_lt_card ?_, ?_⟩⟩
  · refine Finset.ssubset_iff_subset_ne.mpr ⟨fun i hi => ?_, fun he => ?_⟩
    · simp only [below, Finset.mem_filter] at hi ⊢
      exact ⟨hi.1, hi.2.tail hcp⟩
    · have hc : c.index ∈ below p :=
        Finset.mem_filter.mpr ⟨Finset.mem_range.mpr (hlt c p hcp), .single hcp⟩
      rw [← he] at hc
      exact hacyclic c (Finset.mem_filter.mp hc).2
  · exact (Finset.card_filter_le _ _).trans (Finset.card_range _).le

namespace Store

/-- The next links lead from `start` along `ns` to an end, and every node on the way names the one
before it, the first one `before`. -/
inductive Chain (s : Store) : (before start : Option NodeId) → List NodeId → Prop
  | nil (before : Option NodeId) : Chain s before none []
  | cons {before : Option NodeId} {n : NodeId} {ns : List NodeId}
      (hprevious : s.link .previous n = before)
      (hrest : Chain s (some n) (s.link .next n) ns) : Chain s before (some n) (n :: ns)

structure ChildChain (s : Store) (p : NodeId) (ns : List NodeId) : Prop where
  chain : s.Chain none (s.link .firstChild p) ns
  last : s.link .lastChild p = ns.getLast?
  nodup : ns.Nodup
  owned : ∀ c, c ∈ ns ↔ s.link .parent c = some p

structure WellFormed (s : Store) : Prop where
  exists_chain : ∀ p, ∃ ns, s.ChildChain p ns
  free : ∀ n, s.link .parent n = none → s.link .previous n = none ∧ s.link .next n = none
  acyclic : ∀ n, ¬ Relation.TransGen (fun c p => s.link .parent c = some p) n n

namespace Chain

variable {s : Store} {before start : Option NodeId}

theorem path {ns : List NodeId} (h : s.Chain before start ns) : s.Path .next start ns := by
  induction h with
  | nil => exact .nil
  | cons _ _ ih => exact .cons ih

theorem start_eq {ns : List NodeId} (h : s.Chain before start ns) : start = ns.head? := by
  cases h <;> rfl

theorem next_eq {left right : List NodeId} {n : NodeId}
    (h : s.Chain before start (left ++ n :: right)) : s.link .next n = right.head? := by
  induction left generalizing before start with
  | nil =>
    cases h with
    | cons _ hrest => exact hrest.start_eq
  | cons m ms ih =>
    cases h with
    | cons _ hrest => exact ih hrest

theorem previous_eq {left right : List NodeId} {n : NodeId}
    (h : s.Chain before start (left ++ n :: right)) :
    s.link .previous n = left.getLast?.or before := by
  induction left generalizing before start with
  | nil =>
    cases h with
    | cons hprevious _ => simpa using hprevious
  | cons m ms ih =>
    cases h with
    | cons _ hrest =>
      rw [ih hrest]
      cases ms <;> simp [List.getLast?_eq_some_getLast]

/-- A chain stays when the links of its nodes do. -/
theorem congr {s' : Store} {ns : List NodeId} (h : s.Chain before start ns)
    (hl : ∀ n ∈ ns, ∀ l, s'.link l n = s.link l n) : s'.Chain before start ns := by
  induction h with
  | nil => exact .nil _
  | @cons before n ns hprevious _ ih =>
    rw [List.forall_mem_cons] at hl
    refine .cons ((hl.1 .previous).trans hprevious) ?_
    rw [hl.1 .next]
    exact ih hl.2

end Chain

theorem ChildChain.children_eq {s : Store} {p : NodeId} {ns : List NodeId}
    (h : s.ChildChain p ns) : s.children p = ns :=
  follow_size h.chain.path fun c hc => index_lt_of_link ((h.owned c).mp hc)

namespace WellFormed

variable {s : Store} (h : s.WellFormed)

include h

theorem childChain (p : NodeId) : s.ChildChain p (s.children p) := by
  obtain ⟨ns, hns⟩ := h.exists_chain p
  rwa [hns.children_eq]

theorem ranked : Ranked (s.link .parent) :=
  .of_acyclic (fun _ _ hcp => index_lt_of_link hcp) h.acyclic

def forest : Forest where
  children := s.children
  parent := s.link .parent
  parent_eq_some_iff := fun {c p} => ((h.childChain p).owned c).symm
  nodup_children p := (h.childChain p).nodup
  ranked := h.ranked

theorem realizes : s.Realizes 0 h.forest where
  inside _ _ _ := ⟨Nat.zero_le _, Nat.zero_le _⟩
  link_eq n _ l := by
    have hchain := (h.childChain n).chain
    have hsibling : ∀ p, s.link .parent n = some p → ∃ left right,
        s.children p = left ++ n :: right ∧ n ∉ left ∧ n ∉ right := fun p hp =>
      exists_split (((h.childChain p).owned n).mpr hp) (h.childChain p).nodup
    cases l with
    | parent => rfl
    | firstChild => exact hchain.start_eq
    | lastChild => exact (h.childChain n).last
    | previous =>
      cases hp : s.link .parent n with
      | none => simpa [Forest.link, forest, hp] using (h.free n hp).1
      | some p =>
        obtain ⟨left, right, hs, hleft, hright⟩ := hsibling p hp
        have hprevious := (hs ▸ (h.childChain p).chain).previous_eq
        simpa [Forest.link, forest, hp, hs, before?_append_cons left hright] using hprevious
    | next =>
      cases hp : s.link .parent n with
      | none => simpa [Forest.link, forest, hp] using (h.free n hp).2
      | some p =>
        obtain ⟨left, right, hs, hleft, hright⟩ := hsibling p hp
        have hnext := (hs ▸ (h.childChain p).chain).next_eq
        simpa [Forest.link, forest, hp, hs, after?_append_cons right hleft] using hnext

end WellFormed

namespace Realizes

variable {s : Store} {base : ℕ} {f : Forest} (h : s.Realizes base f)

include h

/-- The children of a node are linked in both directions. -/
theorem chain {p : NodeId} {left right : List NodeId} (hp : f.children p = left ++ right) :
    s.Chain left.getLast? right.head? right := by
  induction right generalizing left with
  | nil => exact .nil _
  | cons c cs ih =>
    refine .cons (h.siblings_eq hp).1 ?_
    rw [(h.siblings_eq hp).2]
    have hrest : f.children p = (left ++ [c]) ++ cs := by simpa using hp
    simpa using ih hrest

end Realizes

theorem Realizes.wellFormed {s : Store} {f : Forest} (h : s.Realizes 0 f) : s.WellFormed where
  exists_chain p := by
    have hp := Nat.zero_le p.index
    refine ⟨f.children p, ?_, h.lastChild_eq hp, f.nodup_children p, fun c => ?_⟩
    · have hall : f.children p = [] ++ f.children p := rfl
      rw [h.firstChild_eq hp]
      exact h.chain hall
    · rw [h.parent_eq (Nat.zero_le _), f.parent_eq_some_iff]
  free n hn := by
    rw [h.parent_eq (Nat.zero_le _)] at hn
    rw [h.link_eq n (Nat.zero_le _), h.link_eq n (Nat.zero_le _)]
    exact Forest.link_of_free hn
  acyclic n hn := by
    obtain ⟨p, hp, habove⟩ := Relation.TransGen.head'_iff.mp hn
    have hlink : s.link .parent = f.parent := funext fun m => h.parent_eq (Nat.zero_le _)
    rw [hlink] at hp habove
    exact Forest.not_above_parent hp habove

/-- The links of a store are in order just when they are those of a forest. -/
theorem wellFormed_iff (s : Store) : s.WellFormed ↔ ∃ f : Forest, s.Realizes 0 f :=
  ⟨fun h => ⟨h.forest, h.realizes⟩, fun ⟨_, h⟩ => h.wellFormed⟩

end Store

end DocTree
