import DocTree.Proofs.Acceptance
import DocTree.Proofs.Build
import DocTree.Proofs.DocumentOrder

/-!
Finished trees. Which tree a build gives depends on the value and on the merging of runs, never on the
state in which the build starts, and a value that can be converted can be built from every state. A walk
through the finished tree meets its labels in document order.
-/
namespace DocTree

open OrderedTree

/-- A walk meets the labels of the tree in document order. -/
theorem Store.Represents.map_label_walk {s : Store} {root : NodeId} {t : OrderedTree (Label Value)}
    (h : s.Represents root t) (hroot : root.index < s.size) :
    (s.walk root).map s.label = t.nodes := by
  have hwalk := h.isTree.linked.walk_eq h.isTree.nodup (by rwa [Store.root_tree])
  rw [Store.root_tree] at hwalk
  rw [hwalk, ← nodes_map, h.map_label]

/-- From every state a build with these options and so many levels gives a tree with these labels. -/
def Builds (digits : Option ℕ) (levels : ℕ) (options : BuildOptions) (v : Value)
    (t : OrderedTree (Label Value)) : Prop :=
  ∀ w, ∃ root w', build digits levels v options w = .ok root w' ∧ root.index < w'.store.size ∧
    w'.store.Represents root t

section Outcome

variable {digits : Option ℕ} {levels : ℕ} {v : Value} {options : BuildOptions}

theorem builds_finished (h : v.fault? digits levels = none) (options : BuildOptions) :
    Builds digits levels options v (v.finished options.mergeAdjacentItems) := by
  intro w
  obtain ⟨n, w₁, hconvert⟩ := (convert_eq_ok_iff digits levels v w).mpr h
  obtain ⟨root, w', hbuild, hlt, hrepresents⟩ :=
    exists_build_of_convert hconvert options.mergeAdjacentItems
  exact ⟨root, w', hbuild options.checkInvariants, hlt, hrepresents⟩

theorem fault?_eq_none_of_build {w w' : Workspace} {root : NodeId}
    (h : build digits levels v options w = .ok root w') : v.fault? digits levels = none := by
  cases hconvert : convert digits levels v w with
  | ok n w₁ => exact (convert_eq_ok_iff digits levels v w).mp ⟨n, w₁, hconvert⟩
  | error e w₁ =>
    rw [build_of_error hconvert] at h
    exact absurd h (by simp)

theorem represents_of_build {w w' : Workspace} {root : NodeId}
    (h : build digits levels v options w = .ok root w') :
    w'.store.Represents root (v.finished options.mergeAdjacentItems) := by
  obtain ⟨n, w₁, hbuild, -, hrepresents⟩ := builds_finished (fault?_eq_none_of_build h) options w
  rw [h] at hbuild
  obtain ⟨rfl, rfl⟩ := EStateM.Result.ok.inj hbuild
  exact hrepresents

end Outcome

/-- The root is wrapped alike before and after the items below it. -/
theorem normalize_wrappedItem (merge : Bool) (t : OrderedTree (Label Value)) :
    normalize Label.kind .list merge (wrappedItem t) =
      wrappedItem (normalize Label.kind .list merge t) := by
  unfold wrappedItem
  rw [root_normalize]
  split
  · have hstay : regroup (wrappable Label.kind .list) (.list : Label Value) merge
        [normalize Label.kind .list merge t] = [normalize Label.kind .list merge t] :=
      regroup_of_not (by simp [wrappable, Label.kind])
    rw [normalize_node, List.map_singleton, hstay]
  · rfl

end DocTree
