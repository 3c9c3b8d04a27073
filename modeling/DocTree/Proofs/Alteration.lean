import DocTree.Proofs.Spanning
import DocTree.Proofs.Surgery

/-!
Alterations of a store and of the forest in it. What a step may change is said by two lists: the nodes
that may get other children and the nodes that may get another parent. Labels stay, no cell is lost, and
of new cells nothing is said. Steps are put one after the other by joining the lists.
-/
namespace DocTree.Store

open OrderedTree

/-- From `s` to `s'` at most the nodes in `touched` get other children, and at most those in `moved`
another parent. -/
structure Alters (base : ℕ) (touched moved : List NodeId) (s : Store) (f : Forest) (s' : Store)
    (f' : Forest) : Prop where
  realizes : s'.Realizes base f'
  size_le : s.size ≤ s'.size
  label_eq : ∀ n, n.index < s.size → s'.label n = s.label n
  children_eq : ∀ n, n.index < s.size → n ∉ touched → f'.children n = f.children n
  parent_eq : ∀ n, n.index < s.size → n ∉ moved → f'.parent n = f.parent n

namespace Alters

variable {base : ℕ} {touched moved touched' moved' : List NodeId} {s s' s'' : Store}
  {f f' f'' : Forest}

theorem refl (h : s.Realizes base f) : Alters base [] [] s f s f :=
  ⟨h, Nat.le_refl _, fun _ _ => rfl, fun _ _ _ => rfl, fun _ _ _ => rfl⟩

theorem trans (h : Alters base touched moved s f s' f')
    (h' : Alters base touched' moved' s' f' s'' f'') :
    Alters base (touched ++ touched') (moved ++ moved') s f s'' f'' where
  realizes := h'.realizes
  size_le := Nat.le_trans h.size_le h'.size_le
  label_eq n hn := (h'.label_eq n (Nat.lt_of_lt_of_le hn h.size_le)).trans (h.label_eq n hn)
  children_eq n hn hout := by
    rw [List.mem_append, not_or] at hout
    exact (h'.children_eq n (Nat.lt_of_lt_of_le hn h.size_le) hout.2).trans (h.children_eq n hn hout.1)
  parent_eq n hn hout := by
    rw [List.mem_append, not_or] at hout
    exact (h'.parent_eq n (Nat.lt_of_lt_of_le hn h.size_le) hout.2).trans (h.parent_eq n hn hout.1)

theorem mono (h : Alters base touched moved s f s' f')
    (htouched : ∀ n ∈ touched, n.index < s.size → n ∈ touched')
    (hmoved : ∀ n ∈ moved, n.index < s.size → n ∈ moved') :
    Alters base touched' moved' s f s' f' where
  realizes := h.realizes
  size_le := h.size_le
  label_eq := h.label_eq
  children_eq n hn hout := h.children_eq n hn fun hm => hout (htouched n hm hn)
  parent_eq n hn hout := h.parent_eq n hn fun hm => hout (hmoved n hm hn)

theorem kind_eq (h : Alters base touched moved s f s' f') {n : NodeId} (hn : n.index < s.size) :
    s'.kind n = s.kind n := by
  rw [kind, kind, h.label_eq n hn]

theorem spans (h : Alters base touched moved s f s' f') {t : OrderedTree NodeId} (ht : f.Spans t)
    (hlt : ∀ n ∈ t.nodes, n.index < s.size) (hout : ∀ n ∈ t.nodes, n ∉ touched) : f'.Spans t :=
  ht.congr fun n hn => h.children_eq n (hlt n hn) (hout n hn)

/-- The trees of children stay when only their parent and siblings in front are touched. -/
theorem spans_back (h : Alters base touched moved s f s' f') (hs : s.Realizes base f) {p : NodeId}
    {done : List NodeId} {us : List (OrderedTree NodeId)} (hp : f.children p = done ++ us.map root)
    (hus : ∀ u ∈ us, f.Spans u) (htouched : ∀ n ∈ touched, n = p ∨ n ∈ done)
    {u : OrderedTree NodeId} (hu : u ∈ us) : f'.Spans u := by
  have hmem : u.root ∈ f.children p := hp ▸ List.mem_append_right _ (List.mem_map_of_mem hu)
  have hin : ∀ n ∈ u.nodes, n ∈ us.flatMap nodes := fun n hn => List.mem_flatMap.mpr ⟨u, hu, hn⟩
  refine h.spans (hus u hu) (fun n hn => hs.nodes_lt_of_children hp hus n (hin n hn)) ?_
  intro n hn hout
  rcases htouched n hout with hparent | hfront
  · exact (hus u hu).parent_notMem hmem (hparent ▸ hn)
  · exact (Forest.Spans.notMem_of_mem_front hp hus hfront).2 (hin n hn)

section Links

variable (h : Alters base touched moved s f s' f') (hs : s.Realizes base f) {n : NodeId}
  (hbase : base ≤ n.index) (hn : n.index < s.size) (hmoved : n ∉ moved)
  (hparent : ∀ p, f.parent n = some p → p ∉ touched)

include h hs hbase hn hmoved hparent

/-- A node that is not moved, of a parent that is not touched, stays in its place. -/
theorem position_eq : s'.position n = s.position n := by
  have hp := h.parent_eq n hn hmoved
  have hsiblings : ∀ p, f.parent n = some p → f'.children p = f.children p := fun p hnp =>
    h.children_eq p (hs.index_lt (f.parent_eq_some_iff.mp hnp)).2 (hparent p hnp)
  simp only [position, h.realizes.link_eq n hbase, hs.link_eq n hbase, Forest.link, hp,
    Position.mk.injEq, true_and]
  exact ⟨Option.bind_congr fun p hnp => by rw [hsiblings p hnp],
    Option.bind_congr fun p hnp => by rw [hsiblings p hnp]⟩

theorem link_eq (htouched : n ∉ touched) (l : Link) : s'.link l n = s.link l n := by
  have hposition := h.position_eq hs hbase hn hmoved hparent
  simp only [position, Position.mk.injEq] at hposition
  have hchildren := h.children_eq n hn htouched
  cases l with
  | parent => exact hposition.1
  | firstChild => rw [h.realizes.firstChild_eq hbase, hs.firstChild_eq hbase, hchildren]
  | lastChild => rw [h.realizes.lastChild_eq hbase, hs.lastChild_eq hbase, hchildren]
  | previous => exact hposition.2.1
  | next => exact hposition.2.2

end Links

end Alters

end DocTree.Store
