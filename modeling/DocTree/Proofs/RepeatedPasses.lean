import DocTree.Proofs.Normalization

/-!
Passes one after the other. Each pass wraps the root, if that is asked for, and then the items below it,
with or without merging. After the first pass every item stands in a list, and then nothing is left to
do: a later pass makes no list and gives back the very store, whichever way it treats runs of items.
-/
namespace DocTree.Store

open OrderedTree

structure Pass where
  store : Store
  root : NodeId
  made : Nat

def pass (fixup merge : Bool) (s : Store) (root : NodeId) : Option Pass :=
  let (s, root) := if fixup then s.wrapRoot root else (s, root)
  (s.wrapItems root merge).map fun (s, made) => ⟨s, root, made⟩

/-- What the passes leave, each one starting from what the one before it has left. -/
def passes (fixup : Bool) : List Bool → Store → NodeId → Option (List Pass)
  | [], _, _ => some []
  | merge :: merges, s, root => do
    let done ← s.pass fixup merge root
    let later ← passes fixup merges done.store done.root
    return done :: later

structure Grouped (s : Store) (root : NodeId) : Prop where
  wellFormed : s.WellFormed
  index_lt : root.index < s.size
  itemsInLists : ItemsInLists s.kind (s.tree root)

/-- A tree of old nodes in their places is the old tree. -/
theorem eq_of_map_origin {size : ℕ} {t t' : OrderedTree NodeId}
    (h : t'.map (origin size) = t.map some) : t' = t := by
  have hold : ∀ n ∈ t'.nodes, origin size n = some n := by
    intro n hn
    have hmem : origin size n ∈ (t.map some).nodes := by
      rw [← h, nodes_map]
      exact List.mem_map_of_mem hn
    rw [nodes_map] at hmem
    obtain ⟨m, -, hm⟩ := List.mem_map.mp hmem
    unfold origin at hm ⊢
    split at hm
    · rename_i hlt
      rw [if_pos hlt]
    · exact absurd hm (by simp)
  have hback : ∀ u : OrderedTree NodeId, (u.map some).map (Option.getD · default) = u := by
    intro u
    rw [OrderedTree.map_map]
    exact u.map_id
  rw [map_congr hold] at h
  rw [← hback t', h, hback]

section Items

variable {s : Store} {root : NodeId}

/-- Wrapping the items puts each of them into a list. -/
theorem WellFormed.grouped_wrapItems (h : s.WellFormed) (hlt : root.index < s.size) (merge : Bool) :
    ∃ s' made, s.wrapItems root merge = some (s', made) ∧ s'.Grouped root ∧
      s'.kind root = s.kind root := by
  have hs := h.realizes
  have ht := hs.spans_tree (Nat.zero_le _) hlt
  have hroot := s.root_tree root
  obtain ⟨s', made, f', t', hrun, hrebuilds, hshape⟩ :=
    hs.wrapItems ht (Nat.zero_le _) (by rwa [hroot]) merge
  have hs' := hrebuilds.alters.realizes
  have hsize := hrebuilds.alters.size_le
  have hroot' := hrebuilds.root_eq.trans hroot
  have hlt' : t'.root.index < s'.size := by
    rw [hroot']
    omega
  have htree : s'.tree root = t' := hroot' ▸ hs'.tree_eq hrebuilds.spans (Nat.zero_le _) hlt'
  have hitems : ItemsInLists Label.kind (t'.map s'.label) := by
    rw [hrebuilds.map_label (hs'.nodes_lt hrebuilds.spans hlt') hshape]
    exact itemsInLists_normalize rfl merge _
  rw [hroot] at hrun
  refine ⟨s', made, hrun, ⟨hs'.wellFormed, hroot' ▸ hlt', ?_⟩, hrebuilds.alters.kind_eq hlt⟩
  have hkind : ∀ n, (s'.label n).kind = s'.kind n := fun _ => rfl
  rw [htree]
  exact (itemsInLists_map hkind).mp hitems

/-- With all items in lists the links stay as they are. -/
theorem Grouped.wrapItems (h : s.Grouped root) (merge : Bool) :
    s.wrapItems root merge = some (s, 0) := by
  have hs := h.wellFormed.realizes
  have ht := hs.spans_tree (Nat.zero_le _) h.index_lt
  have hroot := s.root_tree root
  obtain ⟨s', made, f', t', hrun, hrebuilds, hshape⟩ :=
    hs.wrapItems ht (Nat.zero_le _) (by rw [hroot]; exact h.index_lt) merge
  have hkind : ∀ n, originKind s.kind (some n) = s.kind n := fun _ => rfl
  have hstay : normalized s.kind merge (s.tree root) = (s.tree root).map some :=
    normalize_of_itemsInLists ((itemsInLists_map hkind).mpr h.itemsInLists) merge
  obtain rfl := eq_of_map_origin (hshape.trans hstay)
  have hsize := hrebuilds.adds.size_eq
  have hmade : made = 0 := by
    by_contra hne
    have hnew := hrebuilds.covers s.fresh (Nat.le_refl _) (by simp only [fresh]; omega)
    have hlt := hs.nodes_lt ht (by rw [hroot]; exact h.index_lt) _ hnew
    exact ne_fresh hlt rfl
  subst hmade
  have hforest : f' = h.wellFormed.forest := by
    refine Forest.ext_children fun n => ?_
    by_cases hn : n ∈ (s.tree root).nodes
    · exact hrebuilds.spans.children_unique ht n hn
    · by_cases hlt : n.index < s.size
      · exact hrebuilds.alters.children_eq n hlt hn
      · rw [(hrebuilds.alters.realizes.free_of_size_le (by omega)).2,
          (hs.free_of_size_le (by omega)).2]
  have heq : s' = s := by
    refine (hforest ▸ hrebuilds.alters.realizes).eq hs (by omega) fun n hn => ?_
    exact hrebuilds.alters.label_eq n (by omega)
  rw [hroot] at hrun
  rw [hrun, heq]

end Items

section Passes

variable {s : Store} {root : NodeId} {fixup : Bool}

theorem kind_wrapRoot (s : Store) (root : NodeId) :
    (s.wrapRoot root).1.kind (s.wrapRoot root).2 ≠ .item := by
  unfold Store.wrapRoot
  split
  · simp [kind, Label.kind]
  · assumption

theorem WellFormed.wrapRoot (h : s.WellFormed) (hlt : root.index < s.size)
    (hfree : s.link .parent root = none) :
    (s.wrapRoot root).1.WellFormed ∧ (s.wrapRoot root).2.index < (s.wrapRoot root).1.size := by
  have hs := h.realizes
  have hroot := s.root_tree root
  obtain ⟨f', halters, hname, -, -, hlt', -⟩ := hs.wrapRoot (t := s.tree root)
    (hs.spans_tree (Nat.zero_le _) hlt) (Nat.zero_le _) (by rwa [hroot]) (by rwa [hroot])
  rw [hroot] at halters hname hlt'
  exact ⟨halters.realizes.wellFormed, hname ▸ hlt'⟩

/-- Every pass leaves all items in lists, and no item as the root if the root is looked after. -/
theorem WellFormed.exists_pass (h : s.WellFormed) (hlt : root.index < s.size)
    (hfree : fixup = true → s.link .parent root = none) (merge : Bool) :
    ∃ done : Pass, s.pass fixup merge root = some done ∧ done.store.Grouped done.root ∧
      (fixup = true → done.store.kind done.root ≠ .item) := by
  cases fixup with
  | false =>
    obtain ⟨s', made, hrun, hgrouped, -⟩ := h.grouped_wrapItems hlt merge
    exact ⟨⟨s', root, made⟩, by simp [pass, hrun], hgrouped, by simp⟩
  | true =>
    obtain ⟨hwellFormed, hlt'⟩ := h.wrapRoot hlt (hfree rfl)
    obtain ⟨s', made, hrun, hgrouped, hkind⟩ := hwellFormed.grouped_wrapItems hlt' merge
    exact ⟨⟨s', _, made⟩, by simp [pass, hrun], hgrouped, fun _ => hkind ▸ s.kind_wrapRoot root⟩

/-- A pass over what a pass has left changes nothing. -/
theorem Grouped.pass (h : s.Grouped root) (hroot : fixup = true → s.kind root ≠ .item)
    (merge : Bool) : s.pass fixup merge root = some ⟨s, root, 0⟩ := by
  have hkept : (if fixup then s.wrapRoot root else (s, root)) = (s, root) := by
    split
    · rename_i hfixup
      exact if_neg (hroot hfixup)
    · rfl
  simp [Store.pass, hkept, h.wrapItems merge]

theorem Grouped.passes (h : s.Grouped root) (hroot : fixup = true → s.kind root ≠ .item)
    (merges : List Bool) :
    s.passes fixup merges root = some (List.replicate merges.length ⟨s, root, 0⟩) := by
  induction merges with
  | nil => rfl
  | cons merge merges ih => simp [Store.passes, h.pass hroot merge, ih, List.replicate_succ]

/-- Only the first pass does anything, however the later ones treat runs of items. -/
theorem passes_stable (h : s.WellFormed) (hlt : root.index < s.size)
    (hfree : fixup = true → s.link .parent root = none) (merge : Bool) (merges : List Bool) :
    ∃ first : Pass, s.pass fixup merge root = some first ∧
      s.passes fixup (merge :: merges) root =
        some (first :: List.replicate merges.length { first with made := 0 }) := by
  obtain ⟨first, hfirst, hgrouped, hroot⟩ := h.exists_pass hlt hfree merge
  exact ⟨first, hfirst, by simp [passes, hfirst, hgrouped.passes hroot merges]⟩

end Passes

/-- A merging pass after one that has put each item into a list of its own. -/
theorem passes_twoItems : twoItems.WellFormed ∧ (⟨0⟩ : NodeId).index < twoItems.size ∧
    twoItems.link .parent ⟨0⟩ = none ∧
    ∃ first, twoItems.pass true false ⟨0⟩ = some first ∧
      twoItems.passes true [false, true] ⟨0⟩ = some [first, { first with made := 0 }] :=
  ⟨twoItems_wellFormed, by decide, rfl,
    passes_stable twoItems_wellFormed (by decide) (fun _ => rfl) false [true]⟩

end DocTree.Store
