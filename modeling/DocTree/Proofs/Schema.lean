import DocTree.Proofs.ContentModel

/-!
The schema that a finished tree follows, said of the links of the store that holds it: whoever reads the
tree finds below each node what its kind holds, and each node below a kind it belongs to.
-/
namespace DocTree

open OrderedTree

structure Store.FollowsSchema (s : Store) (root : NodeId) (merge : Bool) : Prop where
  root_ne_item : s.kind root ≠ .item
  holds : ∀ n ∈ (s.tree root).nodes, (s.kind n).Holds merge ((s.children n).map s.kind)
  exists_owner : ∀ n ∈ (s.tree root).nodes, ∀ owners, (s.kind n).owners? = some owners →
    ∃ p, s.link .parent n = some p ∧ s.kind p ∈ owners
  lists_apart : merge = true → ∀ n ∈ (s.tree root).nodes, ∀ m, s.link .next n = some m →
    ¬ (s.kind n = .list ∧ s.kind m = .list)

namespace Store.Represents

variable {s : Store} {root : NodeId} {t : OrderedTree (Label Value)} {merge : Bool}
  (h : s.Represents root t)

include h

/-- At the places of a store stands what stands at the places of the tree it represents. -/
theorem forall_subtrees {P : OrderedTree (Label Value) → Prop} (ht : ∀ u ∈ t.subtrees, P u) :
    ∀ u ∈ (s.tree root).subtrees, P (u.map s.label) := by
  intro u hu
  refine ht _ ?_
  rw [← h.map_label, subtrees_map]
  exact List.mem_map_of_mem hu

theorem kind_root : t.root.kind = s.kind root := by
  rw [← h.map_label, root_map, Store.root_tree]
  rfl

/-- Each node of the tree but the root is a child at another place. -/
theorem exists_linked_above {n : NodeId} (hn : n ∈ (s.tree root).nodes) :
    n = root ∨ ∃ v ∈ (s.tree root).subtrees, s.Linked v ∧ ∃ u ∈ v.children, u.root = n := by
  obtain ⟨u, hu, rfl, -⟩ := h.isTree.linked.exists_subtree hn
  rcases exists_mem_children_of_mem_subtrees hu with rfl | ⟨v, hv, huv⟩
  · exact Or.inl (Store.root_tree s root)
  · exact Or.inr ⟨v, hv, h.isTree.linked.subtree hv, u, huv, rfl⟩

/-- A tree that fits at all places is followed by the links that represent it. -/
theorem followsSchema (hroot : t.root.kind.owners? = none) (hfits : ∀ u ∈ t.subtrees, Fits merge u) :
    s.FollowsSchema root merge := by
  have hplaces := h.forall_subtrees hfits
  rw [h.kind_root] at hroot
  refine ⟨?_, fun n hn => ?_, fun n hn owners howners => ?_, fun hmerge n hn m hm => ?_⟩
  · intro hitem
    rw [hitem] at hroot
    exact absurd hroot (by decide)
  · obtain ⟨u, hu, rfl, hlinked⟩ := h.isTree.linked.exists_subtree hn
    have hholds := (hplaces u hu).holds
    simp only [root_map, children_map, rootKinds, List.map_map, Function.comp_def] at hholds
    rw [hlinked.children_eq, List.map_map]
    exact hholds
  · rcases h.exists_linked_above hn with rfl | ⟨v, hv, hlinked, u, hu, rfl⟩
    · rw [hroot] at howners
      exact absurd howners (by simp)
    -- a node below the root is looked at from the place of its parent
    · refine ⟨v.root, hlinked.parent_eq hu, ?_⟩
      have hbelongs := (hplaces v hv).belongs (u.map s.label)
        (by simpa using List.mem_map_of_mem hu)
      simp only [root_map] at hbelongs
      exact hbelongs owners howners
  · rcases h.exists_linked_above hn with rfl | ⟨v, hv, hlinked, u, hu, rfl⟩
    · have hfree := h.isTree.next_root
      rw [Store.root_tree, hm] at hfree
      exact absurd hfree (by simp)
    · have hapart := (hplaces v hv).apart hmerge
      simp only [children_map, List.isChain_map, root_map] at hapart
      have hkinds : (v.children.map OrderedTree.root).IsChain fun a b =>
          ¬ (s.kind a = .list ∧ s.kind b = .list) := (List.isChain_map _).mpr hapart
      exact hlinked.rel_next hkinds (List.mem_map_of_mem hu) hm

end Store.Represents

/-- What is built follows the schema. -/
theorem build_followsSchema {digits : Option ℕ} {levels : ℕ} {source : Value}
    {options : BuildOptions} {w w' : Workspace} {root : NodeId}
    (h : build digits levels source options w = .ok root w') :
    w'.store.FollowsSchema root options.mergeAdjacentItems := by
  obtain ⟨hroot, hfits⟩ := fits_finished (fault?_eq_none_of_build h) options.mergeAdjacentItems
  exact (represents_of_build h).followsSchema hroot hfits

theorem build_itemDocument_followsSchema :
    ∃ root w', build (some 4300) 2 itemDocument ⟨true, false⟩ .empty = .ok root w' ∧
      w'.store.FollowsSchema root true := by
  have haccepted : itemDocument.fault? (some 4300) 2 = none := rfl
  obtain ⟨root, w', hbuild, -⟩ := builds_finished haccepted ⟨true, false⟩ .empty
  exact ⟨root, w', hbuild, build_followsSchema hbuild⟩

end DocTree
