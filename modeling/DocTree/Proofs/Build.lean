import DocTree.Build
import DocTree.Proofs.Conversion
import DocTree.Proofs.Normalization

/-!
Building never fails on its check. The tree that comes out of conversion is still a tree of its own when
its root and its items have been wrapped, so that the check at the end goes through, the links never run
in a circle, and asking for the check changes nothing.
-/
namespace DocTree

open OrderedTree Workspace

namespace Building

theorem get_apply (w : Workspace) : (get : Building Workspace) w = .ok w w := rfl

theorem onlyIf_record (condition : Bool) (event : Event) (w : Workspace) :
    (onlyIf condition (record event) : Building Unit) w =
      .ok () { w with trace := if condition then w.trace.push event else w.trace } := by
  cases condition <;> rfl

theorem ofConversion_apply {α : Type} (c : Conversion α) (w : Workspace) :
    ofConversion c w = match c w with
      | .ok a w' => .ok a w'
      | .error e w' => .error (.conversion e) w' := by
  rw [ofConversion, EStateM.adaptExcept]
  cases c w <;> rfl

/-- The trace after the root has been wrapped, which is recorded if there was something to do. -/
def rootTrace (root : NodeId) (w : Workspace) : Array Event :=
  if (w.store.wrapRoot root).2 ≠ root then w.trace.push .rootWrapped else w.trace

theorem wrapRoot_eq (root : NodeId) (w : Workspace) :
    wrapRoot root w =
      .ok (w.store.wrapRoot root).2 ⟨(w.store.wrapRoot root).1, rootTrace root w⟩ := by
  rw [wrapRoot, bind_eq, get_apply]
  simp only [bind_eq, onlyIf_record, edit, rootTrace, decide_eq_true_eq]
  rfl

theorem wrapRoot_apply (root : NodeId) (w : Workspace) :
    ∃ trace, wrapRoot root w =
      .ok (w.store.wrapRoot root).2 ⟨(w.store.wrapRoot root).1, trace⟩ := ⟨_, wrapRoot_eq root w⟩

theorem wrapItems_apply {root : NodeId} {merge : Bool} {w : Workspace} {s : Store} {made : ℕ}
    (h : w.store.wrapItems root merge = some (s, made)) :
    wrapItems root merge w = .ok made { w with store := s } := by
  rw [wrapItems, bind_eq, get_apply]
  simp only [h]
  rfl

theorem check_apply {root : NodeId} {w : Workspace} (h : w.store.check root = .ok ()) :
    check root w = .ok () w := by
  unfold check
  rw [bind_eq, get_apply]
  simp only [h]
  rfl

end Building

def wrappedItem (t : OrderedTree (Label Value)) : OrderedTree (Label Value) :=
  if t.root.kind = .item then .node .list [t] else t

def Value.finished (v : Value) (merge : Bool) : OrderedTree (Label Value) :=
  normalize Label.kind .list merge (wrappedItem v.outline)

theorem map_label_wrappedRoot {s : Store} {t : OrderedTree NodeId}
    (hlt : ∀ n ∈ t.nodes, n.index < s.size) :
    (s.wrappedRoot t).map (s.wrapRoot t.root).1.label = wrappedItem (t.map s.label) := by
  have hkind : (t.map s.label).root.kind = s.kind t.root := by
    rw [root_map]
    rfl
  unfold Store.wrappedRoot Store.wrapRoot wrappedItem
  rw [hkind]
  split
  · have hold : t.map ((s.push .list).append s.fresh t.root).label = t.map s.label :=
      map_congr fun n hn => by simp [Store.ne_fresh (hlt n hn)]
    rw [map_node, List.map_singleton, hold]
    simp
  · rfl

open Building

variable {digits : Option ℕ} {levels : ℕ} {source : Value} {w w₁ : Workspace}
  {converted : NodeId} {merge : Bool}

theorem build_of_error {e : ConversionError} (hconvert : convert digits levels source w = .error e w₁)
    (options : BuildOptions) : build digits levels source options w = .error (.conversion e) w₁ := by
  unfold build
  rw [bind_eq, ofConversion_apply, hconvert]

theorem build_of_check {s' : Store} {made : ℕ}
    (hconvert : convert digits levels source w = .ok converted w₁)
    (hitems : (w₁.store.wrapRoot converted).1.wrapItems (w₁.store.wrapRoot converted).2 merge =
      some (s', made))
    (hcheck : s'.check (w₁.store.wrapRoot converted).2 = .ok ()) (checked : Bool) :
    build digits levels source ⟨merge, checked⟩ w = .ok (w₁.store.wrapRoot converted).2
      ⟨s', ((rootTrace converted w₁).push (.listsCreated made)).push .buildCompleted⟩ := by
  have hroot := wrapRoot_eq converted w₁
  have hwrapped := wrapItems_apply
    (w := ⟨(w₁.store.wrapRoot converted).1, rootTrace converted w₁⟩) hitems
  have hchecked : onlyIf checked (check (w₁.store.wrapRoot converted).2)
      ⟨s', (rootTrace converted w₁).push (.listsCreated made)⟩ =
        .ok () ⟨s', (rootTrace converted w₁).push (.listsCreated made)⟩ := by
    cases checked with
    | false => rfl
    | true => exact check_apply hcheck
  unfold build
  rw [bind_eq, ofConversion_apply, hconvert]
  simp only [bind_eq, hroot, hwrapped, record, hchecked]
  rfl

/-- What conversion has given is wrapped without fail, and what comes out is the finished tree. Its lists
are those made, besides what was there when the root had been wrapped. -/
theorem exists_wrapped_of_convert (hconvert : convert digits levels source w = .ok converted w₁)
    (merge : Bool) :
    ∃ s' made, (w₁.store.wrapRoot converted).1.wrapItems (w₁.store.wrapRoot converted).2 merge =
        some (s', made) ∧
      (w₁.store.wrapRoot converted).2.index < s'.size ∧
      s'.Represents (w₁.store.wrapRoot converted).2 (source.finished merge) ∧
      (s'.tree (w₁.store.wrapRoot converted).2).nodes.countP (s'.kind · = .list) =
        made + (wrappedItem source.outline).nodes.countP (·.kind = .list) := by
  obtain ⟨f₁, u, hs₁, hu, rfl, hfree, hnew, hlabel⟩ := exists_spans_of_convert hconvert
  have hroot := hnew u.root u.root_mem_nodes
  obtain ⟨f₂, halters, hname, hspans, hfree₂, hlt, hbase⟩ :=
    hs₁.wrapRoot hu hroot.1 hroot.2 hfree
  obtain ⟨s', made, f', t', hrun, hrebuilds, hshape⟩ :=
    halters.realizes.wrapItems hspans hbase hlt merge
  have hsize := hrebuilds.alters.size_le
  have hs' := hrebuilds.alters.realizes
  have hfree' : f'.parent t'.root = none := by
    rw [hrebuilds.root_eq, hrebuilds.alters.parent_eq _ hlt, hfree₂]
    have hnodup := hspans.nodup
    rw [nodes_eq_cons, List.nodup_cons] at hnodup
    exact hnodup.1
  have hbase' : w.store.size ≤ t'.root.index := by rwa [hrebuilds.root_eq]
  have hlt' : t'.root.index < s'.size := by
    rw [hrebuilds.root_eq]
    omega
  have hin := hs'.nodes_lt hrebuilds.spans hlt'
  have hwrapped := map_label_wrappedRoot fun n hn => (hnew n hn).2
  rw [hlabel] at hwrapped
  have hfinished : t'.map s'.label = source.finished merge := by
    rw [hrebuilds.map_label hin hshape, hwrapped, Value.finished]
  have htree := hs'.tree_eq hrebuilds.spans hbase' hlt'
  rw [hname]
  refine ⟨s', made, hrun, ?_⟩
  rw [← hrebuilds.root_eq]
  refine ⟨hlt', ⟨?_, ?_⟩, ?_⟩
  · rw [htree]
    exact hs'.isTree hrebuilds.spans hbase' hfree'
  · rw [htree, hfinished]
  · rw [htree, hrebuilds.countP_list hin hshape, ← hwrapped, nodes_map, List.countP_map]
    rfl

/-- A build goes through whenever the conversion does, with the check or without it. -/
theorem exists_build_of_convert (hconvert : convert digits levels source w = .ok converted w₁)
    (merge : Bool) :
    ∃ root w', (∀ checked, build digits levels source ⟨merge, checked⟩ w = .ok root w') ∧
      root.index < w'.store.size ∧ w'.store.Represents root (source.finished merge) := by
  obtain ⟨s', made, hitems, hlt, hrepresents, -⟩ := exists_wrapped_of_convert hconvert merge
  have hcheck := hrepresents.isTree.check_eq_ok
  rw [Store.root_tree] at hcheck
  exact ⟨_, _, build_of_check hconvert hitems hcheck, hlt, hrepresents⟩

/-- With the check and without it the outcome is the same: either a tree of its own or the failure of
the conversion. -/
theorem build_consistent (digits : Option ℕ) (levels : ℕ) (source : Value) (merge : Bool)
    (w : Workspace) :
    build digits levels source ⟨merge, true⟩ w = build digits levels source ⟨merge, false⟩ w ∧
      match build digits levels source ⟨merge, true⟩ w with
      | .ok root w' => w'.store.IsTree (w'.store.tree root)
      | .error e w' => ∃ c, e = .conversion c ∧ convert digits levels source w = .error c w' := by
  cases hconvert : convert digits levels source w with
  | error e w₁ =>
    rw [build_of_error hconvert, build_of_error hconvert]
    exact ⟨rfl, e, rfl, rfl⟩
  | ok converted w₁ =>
    obtain ⟨root, w', hbuild, -, hrepresents⟩ := exists_build_of_convert hconvert merge
    rw [hbuild true, hbuild false]
    exact ⟨rfl, hrepresents.isTree⟩

end DocTree
