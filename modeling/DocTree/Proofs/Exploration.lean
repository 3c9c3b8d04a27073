import DocTree.Proofs.OrderedTree

/-!
Exploring a tree from its root. Whatever has been met so far makes a tree itself, in which the nodes that
were put aside are still leaves. The latest node put aside is taken up first, so that the tree of a last
child comes before those of the children in front of it. When a node is taken up its children sprout
below it, and they come before all that was put aside before.
-/
namespace DocTree.OrderedTree

variable {α : Type}

/-- The values of a tree, parents before children and later children before earlier ones. -/
def backward : OrderedTree α → List α := fold fun a us => a :: us.reverse.flatten

@[simp] theorem backward_node (a : α) (ts : List (OrderedTree α)) :
    (node a ts).backward = a :: ts.reverse.flatMap backward := by
  rw [backward, fold_node, ← List.map_reverse, ← List.flatMap_def]

theorem backward_eq_cons (t : OrderedTree α) :
    t.backward = t.root :: t.children.reverse.flatMap backward := by
  cases t
  simp

theorem backward_perm (t : OrderedTree α) : t.backward.Perm t.nodes := by
  induction t using induction with
  | h a ts ih =>
    rw [backward_node, nodes_node]
    refine .cons a ?_
    exact ((List.reverse_perm ts).flatMap_right backward).trans (List.Perm.flatMap_left ts ih)

section Sprout

variable [DecidableEq α]

/-- The tree with `cs` as the children of every place with the value `a`. -/
def sprout (a : α) (cs : List α) : OrderedTree α → OrderedTree α :=
  fold fun b us => node b (if b = a then cs.map leaf else us)

variable {a : α} {cs : List α}

theorem sprout_node (b : α) (ts : List (OrderedTree α)) : sprout a cs (node b ts) =
    node b (if b = a then cs.map leaf else ts.map (sprout a cs)) := fold_node ..

@[simp] theorem root_sprout (t : OrderedTree α) : (sprout a cs t).root = t.root := by
  cases t
  simp [sprout_node]

theorem backward_sprout {t : OrderedTree α} (h : ∀ u ∈ t.subtrees, u.root = a → u.children = []) :
    (sprout a cs t).backward =
      t.backward.flatMap fun b => if b = a then a :: cs.reverse else [b] := by
  induction t using induction with
  | h b ts ih =>
    rw [forall_subtrees_node] at h
    rw [sprout_node, backward_node, backward_node, List.flatMap_cons]
    by_cases hb : b = a
    · obtain rfl : ts = [] := h.1 hb
      have hleaf : ∀ c : α, (leaf c).backward = [c] := fun c => by simp [leaf]
      rw [if_pos hb, if_pos hb, ← List.map_reverse, List.flatMap_map]
      simp [hb, hleaf]
    · have hts : (ts.map (sprout a cs)).reverse.flatMap backward =
          (ts.reverse.flatMap backward).flatMap fun b => if b = a then a :: cs.reverse else [b] := by
        rw [← List.map_reverse, List.flatMap_map, List.flatMap_assoc]
        refine List.flatMap_congr fun t ht => ?_
        exact ih t (List.mem_reverse.mp ht) (h.2 t (List.mem_reverse.mp ht))
      rw [if_neg hb, if_neg hb, hts, List.singleton_append]

theorem backward_sprout_of_eq {t : OrderedTree α} {taken aside : List α}
    (h : ∀ u ∈ t.subtrees, u.root = a → u.children = [])
    (ht : t.backward = taken ++ a :: aside) (hnodup : t.nodes.Nodup) :
    (sprout a cs t).backward = (taken ++ [a]) ++ (cs.reverse ++ aside) := by
  have hback := t.backward_perm.nodup_iff.mpr hnodup
  rw [ht] at hback
  have hkeep : ∀ ns : List α, a ∉ ns →
      (ns.flatMap fun b => if b = a then a :: cs.reverse else [b]) = ns := by
    intro ns hns
    have hne : ∀ b ∈ ns, (if b = a then a :: cs.reverse else [b]) = [b] := fun b hb =>
      if_neg fun he : b = a => hns (he ▸ hb)
    rw [List.flatMap_congr hne, List.flatMap_singleton']
  have htaken : a ∉ taken := fun hm =>
    (List.nodup_append.mp hback).2.2 a hm a (List.mem_cons_self ..) rfl
  have haside : a ∉ aside := (List.nodup_cons.mp (List.nodup_append.mp hback).2.1).1
  rw [backward_sprout h, ht, List.flatMap_append, List.flatMap_cons, hkeep taken htaken,
    hkeep aside haside, if_pos rfl]
  simp

theorem nodes_sprout_perm {t : OrderedTree α} {taken aside : List α}
    (h : ∀ u ∈ t.subtrees, u.root = a → u.children = [])
    (ht : t.backward = taken ++ a :: aside) (hnodup : t.nodes.Nodup) :
    (sprout a cs t).nodes.Perm (t.nodes ++ cs) := by
  have hnodes := t.backward_perm
  rw [ht] at hnodes
  have hperm := (sprout a cs t).backward_perm.symm
  rw [backward_sprout_of_eq h ht hnodup] at hperm
  have hswap : ((taken ++ [a]) ++ (cs.reverse ++ aside)).Perm ((taken ++ a :: aside) ++ cs) := by
    have hcs : (cs.reverse ++ aside).Perm (aside ++ cs) :=
      List.perm_append_comm.trans ((List.reverse_perm cs).append_left aside)
    simpa using hcs.append_left (taken ++ [a])
  exact hperm.trans (hswap.trans (hnodes.append_right cs))

/-- A place of the tree with new leaves is the one they have sprouted at, a new leaf, or as it was. -/
theorem subtree_sprout {t u : OrderedTree α} (hu : u ∈ (sprout a cs t).subtrees) :
    (u.root = a ∧ u.children.map root = cs) ∨ (u.root ∈ cs ∧ u.children = []) ∨
      ∃ v ∈ t.subtrees, v.root ≠ a ∧ u.root = v.root ∧
        u.children.map root = v.children.map root := by
  induction t using induction with
  | h b ts ih =>
    rw [sprout_node, subtrees_node, List.mem_cons, List.mem_flatMap] at hu
    by_cases hb : b = a
    · rw [if_pos hb] at hu
      rcases hu with rfl | ⟨c, hc, hu⟩
      · exact .inl ⟨hb, by simp [Function.comp_def, leaf]⟩
      · obtain ⟨d, hd, rfl⟩ := List.mem_map.mp hc
        obtain rfl : u = leaf d := by simpa [leaf, subtrees_node] using hu
        exact .inr (.inl ⟨hd, rfl⟩)
    · rw [if_neg hb] at hu
      have hself : node b ts ∈ (node b ts).subtrees := self_mem_subtrees _
      rcases hu with rfl | ⟨c, hc, hu⟩
      · exact .inr (.inr ⟨_, hself, hb, rfl, by simp⟩)
      · obtain ⟨v, hv, rfl⟩ := List.mem_map.mp hc
        rcases ih v hv hu with hat | hnew | ⟨x, hx, hold⟩
        · exact .inl hat
        · exact .inr (.inl hnew)
        · have hmem : x ∈ (node b ts).subtrees := by
            rw [subtrees_node]
            exact List.mem_cons_of_mem _ (List.mem_flatMap.mpr ⟨v, hv, hx⟩)
          exact .inr (.inr ⟨x, hmem, hold⟩)

end Sprout

end DocTree.OrderedTree
