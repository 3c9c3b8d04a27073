import DocTree.Store.Surgery
import DocTree.Proofs.Consistency
import DocTree.Proofs.DocumentOrder

/-!
The order of a walk. Wherever the consistency check goes through, a walk from the root comes to an end and
yields what is reached from it in document order: a node, and then what walks from its children yield, one
after the other. A walk from any node of the tree yields the stretch of that order in which the node and
everything below it stand.
-/
namespace DocTree.Store

open OrderedTree

/-- A walk from `n` through the store as it is yields `ns` and ends then: no limit that is not below the
number of these nodes cuts it short or makes it go on. -/
def WalksTo (s : Store) (n : NodeId) (ns : List NodeId) : Prop :=
  ∀ limit, ns.length ≤ limit →
    Id.run (traverse (pure s) Walk.advance (fun _ => pure ()) limit (Walk.start n)) = ns

structure WalksInOrder (s : Store) (root : NodeId) : Prop where
  exists_tree : ∃ t, s.ReachesTree root t ∧ ∀ u ∈ t.subtrees, s.WalksTo u.root u.nodes
  walksTo : ∀ v ∈ s.walk root, s.WalksTo v (s.walk v)
  walk_eq : ∀ v ∈ s.walk root, s.walk v = v :: (s.children v).flatMap s.walk
  mem_iff : ∀ v ∈ s.walk root, ∀ n, n ∈ s.walk v ↔ s.Reaches v n
  nodup : (s.walk root).Nodup
  root_mem : root ∈ s.walk root
  segment : ∀ v ∈ s.walk root, s.walk v <:+: s.walk root
  behind_parent : ∀ n ∈ s.walk root, ∀ p, s.link .parent n = some p →
    [p, n].Sublist (s.walk root)
  behind_previous : ∀ n ∈ s.walk root, n ≠ root → ∀ m, s.link .previous n = some m →
    s.walk m ++ s.walk n <:+: s.walk root

variable {s : Store} {t : OrderedTree NodeId}

theorem Linked.walksTo (h : s.Linked t) : s.WalksTo t.root t.nodes := by
  intro limit hlimit
  have hone : [t].flatMap nodes = t.nodes := List.flatMap_singleton ..
  rw [← hone] at hlimit ⊢
  exact traverse_walk_eq (by simpa using h) rfl hlimit

/-- The node in front of a child is the root of the tree in front of its tree. -/
theorem Linked.exists_infix_of_previous (h : s.Linked t) {u : OrderedTree NodeId}
    (hu : u ∈ t.children) {m : NodeId} (hm : s.link .previous u.root = some m) :
    ∃ v, v.root = m ∧ [v, u] <:+: t.children := by
  cases h with
  | @node n ts hchain _ _ _ =>
    obtain ⟨left, right, rfl⟩ := List.append_of_mem hu
    have hprevious : s.link .previous u.root = (left.map OrderedTree.root).getLast? := by
      rw [List.map_append, List.map_cons] at hchain
      simpa using hchain.previous_eq
    rw [hm] at hprevious
    obtain ⟨front, hfront⟩ := List.getLast?_eq_some_iff.mp hprevious.symm
    obtain ⟨vs, ws, rfl, -, hws⟩ := List.map_eq_append_iff.mp hfront
    obtain ⟨v, rfl, rfl⟩ := List.map_eq_singleton_iff.mp hws
    exact ⟨v, rfl, vs, right, by simp⟩

section Reaches

variable {root : NodeId} (h : s.ReachesTree root t)

include h

/-- A walk from a place of the tree yields the nodes at and below it. -/
theorem ReachesTree.walk_eq (hroot : root.index < s.size) {u : OrderedTree NodeId}
    (hu : u ∈ t.subtrees) : s.walk u.root = u.nodes := by
  have hlinked := h.linked.subtree hu
  have hnodup := (nodes_infix_of_mem_subtrees hu).sublist.nodup h.nodup
  refine hlinked.walk_eq hnodup ?_
  rcases exists_mem_children_of_mem_subtrees hu with rfl | ⟨v, hv, huv⟩
  · rwa [h.root_eq]
  · exact index_lt_of_link ((h.linked.subtree hv).parent_eq huv)

theorem ReachesTree.exists_owner {u : OrderedTree NodeId} (hu : u ∈ t.subtrees)
    (hne : u.root ≠ root) : ∃ v ∈ t.subtrees, u ∈ v.children := by
  rcases exists_mem_children_of_mem_subtrees hu with rfl | hchild
  · exact absurd h.root_eq hne
  · exact hchild

theorem ReachesTree.parent_sublist {u : OrderedTree NodeId} (hu : u ∈ t.subtrees) {p : NodeId}
    (hp : s.link .parent u.root = some p) : [p, u.root].Sublist t.nodes := by
  have hne : u.root ≠ root := by
    intro he
    rw [he, h.parent_root] at hp
    exact absurd hp (by simp)
  obtain ⟨v, hv, huv⟩ := h.exists_owner hu hne
  obtain rfl : v.root = p := Option.some.inj (((h.linked.subtree hv).parent_eq huv).symm.trans hp)
  have hmem : u.root ∈ v.children.flatMap nodes := List.mem_flatMap.mpr ⟨u, huv, u.root_mem_nodes⟩
  have hpair : [v.root, u.root].Sublist v.nodes := by
    rw [nodes_eq_cons v]
    exact (List.singleton_sublist.mpr hmem).cons_cons _
  exact hpair.trans (nodes_infix_of_mem_subtrees hv).sublist

/-- The tree of a node comes right behind that of the sibling in front of it. -/
theorem ReachesTree.exists_previous_infix {u : OrderedTree NodeId} (hu : u ∈ t.subtrees)
    (hne : u.root ≠ root) {m : NodeId} (hm : s.link .previous u.root = some m) :
    ∃ w ∈ t.subtrees, w.root = m ∧ w.nodes ++ u.nodes <:+: t.nodes := by
  obtain ⟨v, hv, huv⟩ := h.exists_owner hu hne
  obtain ⟨w, hw, hpair⟩ := (h.linked.subtree hv).exists_infix_of_previous huv hm
  have hinfix : w.nodes ++ u.nodes <:+: v.nodes := by simpa using flatMap_nodes_infix hpair
  exact ⟨w, mem_subtrees_of_mem_children hv (hpair.subset (by simp)), hw,
    hinfix.trans (nodes_infix_of_mem_subtrees hv)⟩

theorem ReachesTree.walksInOrder (hroot : root.index < s.size) : s.WalksInOrder root := by
  have hwalk : ∀ u ∈ t.subtrees, s.walk u.root = u.nodes := fun u hu => h.walk_eq hroot hu
  have hall : s.walk root = t.nodes := h.root_eq ▸ hwalk t t.self_mem_subtrees
  have hplace : ∀ n ∈ s.walk root, ∃ u ∈ t.subtrees, u.root = n ∧ s.Linked u := by
    rw [hall]
    exact fun n hn => h.linked.exists_subtree hn
  refine ⟨⟨t, h, fun u hu => (h.linked.subtree hu).walksTo⟩, ?_, ?_, ?_, hall ▸ h.nodup,
    hall ▸ h.root_eq ▸ t.root_mem_nodes, ?_, ?_, ?_⟩
  · intro v hv
    obtain ⟨u, hu, rfl, hlinked⟩ := hplace v hv
    exact (hwalk u hu).symm ▸ hlinked.walksTo
  · intro v hv
    obtain ⟨u, hu, rfl, hlinked⟩ := hplace v hv
    have hchildren : ∀ c ∈ u.children, s.walk c.root = c.nodes := fun c hc =>
      hwalk c (mem_subtrees_of_mem_children hu hc)
    rw [hwalk u hu, hlinked.children_eq, List.flatMap_map, List.flatMap_congr hchildren,
      nodes_eq_cons]
  · intro v hv n
    obtain ⟨u, hu, rfl, hlinked⟩ := hplace v hv
    rw [hwalk u hu, hlinked.mem_nodes_iff]
  · intro v hv
    obtain ⟨u, hu, rfl, -⟩ := hplace v hv
    rw [hwalk u hu, hall]
    exact nodes_infix_of_mem_subtrees hu
  · intro n hn p hp
    obtain ⟨u, hu, rfl, -⟩ := hplace n hn
    rw [hall]
    exact h.parent_sublist hu hp
  · intro n hn hne m hm
    obtain ⟨u, hu, rfl, -⟩ := hplace n hn
    obtain ⟨w, hw, rfl, hinfix⟩ := h.exists_previous_infix hu hne hm
    rw [hwalk w hw, hwalk u hu, hall]
    exact hinfix

end Reaches

/-- Where the check of a root goes through, walks from the root and from the nodes below it come to an end
and go in document order. -/
theorem walksInOrder_of_check {root : NodeId} (hroot : root.index < s.size)
    (h : s.check root = .ok ()) : s.WalksInOrder root := by
  obtain ⟨t, rfl, hlinked, hnodup, hparent⟩ := (s.check_eq_ok_iff_linked root).mp h
  exact (hlinked.reachesTree hnodup hparent).walksInOrder hroot

/-- A root over two nodes, with a third one below the first of them. -/
def grandchild : Store :=
  ((((((Store.empty.push .node).push .node).push .node).push .node).append ⟨0⟩ ⟨1⟩).append
    ⟨1⟩ ⟨2⟩).append ⟨0⟩ ⟨3⟩

theorem grandchild_walksInOrder : grandchild.check ⟨0⟩ = .ok () ∧
    grandchild.WalksInOrder ⟨0⟩ ∧ grandchild.walk ⟨0⟩ = [⟨0⟩, ⟨1⟩, ⟨2⟩, ⟨3⟩] := by
  have hcheck : grandchild.check ⟨0⟩ = .ok () := by decide +kernel
  exact ⟨hcheck, walksInOrder_of_check (by decide) hcheck, by decide +kernel⟩

/-- If the root has no next sibling, a walk yields all nodes to which first-child and next links lead. -/
theorem mem_walk_iff_of_check {root : NodeId} (hroot : root.index < s.size)
    (hnext : s.link .next root = none) (h : s.check root = .ok ()) (n : NodeId) :
    n ∈ s.walk root ↔ Relation.ReflTransGen s.Leads root n := by
  obtain ⟨t, htree, -⟩ := exists_tree_of_check hnext h
  have hwalk := htree.walksInOrder hroot
  rw [hwalk.mem_iff root hwalk.root_mem, reaches_iff_of_next_eq_none hnext]

end DocTree.Store
