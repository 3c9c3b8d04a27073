import DocTree.Store.Traversal
import DocTree.Proofs.LinkedTree

/-!
Document order. A walk through a store that is not edited meanwhile yields the nodes of a linked tree in
document order, each parent in front of the trees of its children. What the walk has still to yield are
the trees below the nodes it has put aside.
-/
namespace DocTree

open OrderedTree

variable {s : Store}

/-- A walk yields the trees whose roots come next, one after the other. -/
theorem traverse_walk_eq {ts : List (OrderedTree NodeId)} (hts : ∀ t ∈ ts, s.Linked t) {w : Walk}
    (hw : (w.current.elim [] s.children) ++ w.pending = ts.map root) {limit : ℕ}
    (hlimit : (ts.flatMap nodes).length ≤ limit) :
    Id.run (traverse (pure s) Walk.advance (fun _ => pure ()) limit w) = ts.flatMap nodes := by
  induction limit generalizing ts w with
  | zero => exact (List.eq_nil_of_length_eq_zero (Nat.le_zero.mp hlimit)).symm
  | succ limit ih =>
    cases ts with
    | nil =>
      have hadvance : w.advance s = none := by
        unfold Walk.advance
        rw [hw]
        rfl
      simp [traverse, hadvance]
    | cons t ts =>
      have hadvance : w.advance s = some (t.root, ⟨some t.root, ts.map root⟩) := by
        unfold Walk.advance
        rw [hw]
        rfl
      have hlinked := hts t (List.mem_cons_self ..)
      -- the children of the node yielded go in front of the nodes put aside
      have hnext : s.children t.root ++ ts.map root = (t.children ++ ts).map root := by
        rw [hlinked.children_eq, List.map_append]
      have hbelow : ∀ u ∈ t.children ++ ts, s.Linked u := by
        intro u hu
        rcases List.mem_append.mp hu with hu | hu
        · exact hlinked.subtree (mem_subtrees_of_mem_children t.self_mem_subtrees hu)
        · exact hts u (List.mem_cons_of_mem t hu)
      rw [List.flatMap_cons, nodes_eq_cons t, List.cons_append, ← List.flatMap_append] at hlimit ⊢
      have hrest := ih hbelow (w := ⟨some t.root, ts.map root⟩) hnext (by simpa using hlimit)
      simpa [traverse, hadvance] using hrest

/-- A walk from the root of a linked tree yields its nodes in document order. -/
theorem Store.Linked.walk_eq {t : OrderedTree NodeId} (h : s.Linked t) (hnodup : t.nodes.Nodup)
    (hroot : t.root.index < s.size) : s.walk t.root = t.nodes := by
  have hlt : ∀ n ∈ t.nodes, n.index < s.size := by
    intro n hn
    rw [nodes_eq_cons t] at hn
    rcases List.mem_cons.mp hn with rfl | hn
    · exact hroot
    · exact h.index_lt n hn
  have hlength := Store.length_le_size hnodup hlt
  have hone : [t].flatMap nodes = t.nodes := List.flatMap_singleton ..
  rw [← hone] at hlength ⊢
  refine traverse_walk_eq (by simpa using h) ?_ hlength
  rfl

end DocTree
