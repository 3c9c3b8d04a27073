import DocTree.Proofs.ContentModel

/-!
Taking the lists out again. A marked node is spliced when its children come to stand in its place; with
all lists spliced, what building makes of a value is what conversion made of it, so that lists are the
only thing that building adds, and nothing is lost, doubled or moved.
-/
namespace DocTree

open OrderedTree

/-- The nodes that building adds. -/
def Label.isList (label : Label Value) : Bool := label.kind = .list

/-- The finished tree with its lists taken out is the tree of the value. -/
theorem splice_finished {digits : Option ℕ} {levels : ℕ} {v : Value}
    (h : v.fault? digits levels = none) (merge : Bool) :
    splice Label.isList (v.finished merge) = [v.outline] := by
  have hstay : splice Label.isList v.outline = [v.outline] := by
    refine splice_of_not fun u hu => ?_
    simpa [Label.isList] using ((Value.plain_outline h).plain u hu).ne_list
  have hlist : (Label.list : Label Value).isList = true := rfl
  rw [Value.finished, splice_normalize _ _ hlist, wrappedItem]
  split
  · rw [splice_node, if_pos hlist, List.flatMap_singleton, hstay]
  · exact hstay

/-- Building adds lists only: with its lists taken out the tree built from a value is the tree that
conversion gives, whichever state each of the two has started from, and a walk through the one meets the
labels that a walk through the other meets. -/
theorem build_adds_lists {digits : Option ℕ} {levels : ℕ} {source : Value} {w w₁ : Workspace}
    {converted : NodeId} (hconvert : convert digits levels source w = .ok converted w₁)
    (options : BuildOptions) (v : Workspace) :
    ∃ root v', build digits levels source options v = .ok root v' ∧
      splice Label.isList ((v'.store.tree root).map v'.store.label) =
        [(w₁.store.tree converted).map w₁.store.label] ∧
      ((v'.store.walk root).map v'.store.label).filter (fun label => !label.isList) =
        (w₁.store.walk converted).map w₁.store.label := by
  have haccepted := (convert_eq_ok_iff digits levels source w).mp ⟨converted, w₁, hconvert⟩
  obtain ⟨hsource, hnew⟩ := convert_represents hconvert
  obtain ⟨root, v', hbuild, hlt, hbuilt⟩ := builds_finished haccepted options v
  have hsplice := splice_finished haccepted options.mergeAdjacentItems
  have hconverted : converted.index < w₁.store.size :=
    (hnew converted (by simpa using (w₁.store.tree converted).root_mem_nodes)).2
  refine ⟨root, v', hbuild, by rw [hbuilt.map_label, hsource.map_label, hsplice], ?_⟩
  rw [hbuilt.map_label_walk hlt, hsource.map_label_walk hconverted, ← flatMap_nodes_splice, hsplice,
    List.flatMap_singleton]

theorem build_itemDocument_adds_lists : ∃ converted w₁ root v',
    convert (some 4300) 2 itemDocument .empty = .ok converted w₁ ∧
      build (some 4300) 2 itemDocument ⟨true, false⟩ .empty = .ok root v' ∧
      splice Label.isList ((v'.store.tree root).map v'.store.label) =
        [(w₁.store.tree converted).map w₁.store.label] ∧
      ((v'.store.walk root).map v'.store.label).filter (fun label => !label.isList) =
        (w₁.store.walk converted).map w₁.store.label := by
  obtain ⟨converted, w₁, hconvert⟩ := (convert_eq_ok_iff (some 4300) 2 itemDocument .empty).mpr rfl
  obtain ⟨root, v', hadds⟩ := build_adds_lists hconvert ⟨true, false⟩ .empty
  exact ⟨converted, w₁, root, v', hconvert, hadds⟩

end DocTree
