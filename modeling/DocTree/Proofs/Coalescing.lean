import DocTree.Proofs.Grouping
import Mathlib.Algebra.BigOperators.Group.List.Basic

/-!
The two ways of grouping compared, on trees as values. If neighbouring new lists are merged after every
item has been put into a list of its own, the tree is the one in which runs of items share a list from
the start. As many lists are new as there are items, or runs of items, under nodes that are no lists.
-/
namespace DocTree

section Runs

variable {α β : Type} (q : α → Bool)

def runs : List α → List (List α)
  | [] => []
  | x :: xs => if q x then (x :: xs.takeWhile q) :: runs (xs.dropWhile q) else runs xs
termination_by xs => xs.length
decreasing_by
  · exact length_dropWhile_lt q x xs
  · simp

/-- The groups in which elements with the property are taken: one by one or run by run. -/
def groups (merge : Bool) (xs : List α) : List (List α) :=
  if merge then runs q xs else (xs.filter q).map fun x => [x]

variable {q}

theorem length_groups_false (xs : List α) : (groups q false xs).length = xs.countP q := by
  simp [groups, List.countP_eq_length_filter]

theorem length_groups_true (xs : List α) : (groups q true xs).length = (runs q xs).length := rfl

theorem groups_of_not {merge : Bool} {xs : List α} (h : ∀ x ∈ xs, q x = false) :
    groups q merge xs = [] := by
  cases merge with
  | false => simpa [groups] using h
  | true =>
    simp only [groups, if_true]
    induction xs with
    | nil => rw [runs]
    | cons x xs ih =>
      rw [runs, if_neg (by simp [h x]), ih fun y hy => h y (List.mem_cons_of_mem x hy)]

theorem groups_map {q' : β → Bool} {g : α → β} (hq : ∀ x, q' (g x) = q x) (merge : Bool)
    (xs : List α) : groups q' merge (xs.map g) = (groups q merge xs).map (List.map g) := by
  have hcomp : q' ∘ g = q := funext hq
  cases merge with
  | false => simp [groups, List.filter_map, hcomp]
  | true =>
    simp only [groups, if_true]
    fun_induction runs q xs with
    | case1 => rw [List.map_nil, runs, List.map_nil]
    | case2 x xs h ih =>
      rw [List.map_cons, runs, if_pos ((hq x).trans h), List.takeWhile_map, List.dropWhile_map,
        hcomp, ih, List.map_cons, List.map_cons]
    | case3 x xs h ih => rw [List.map_cons, runs, if_neg (by rwa [hq]), ih]

/-- There are no more runs than elements, and just as many if no two elements are neighbours. -/
theorem length_runs_le (xs : List α) : (runs q xs).length ≤ xs.countP q ∧
    ((runs q xs).length = xs.countP q ↔ xs.IsChain fun x y => ¬ (q x = true ∧ q y = true)) := by
  fun_induction runs q xs with
  | case1 => simp
  | case2 x xs h ih =>
    cases xs with
    | nil => simp [runs, h]
    | cons y ys =>
      rw [List.countP_cons_of_pos h, List.isChain_cons_cons, List.length_cons]
      by_cases hy : q y = true
      · -- the run has more than one element
        have hsplit : ys.countP q =
            (ys.takeWhile q).countP q + (ys.dropWhile q).countP q := by
          rw [← List.countP_append, List.takeWhile_append_dropWhile]
        rw [List.dropWhile_cons_of_pos hy] at ih ⊢
        rw [List.countP_cons_of_pos hy]
        exact ⟨by omega, iff_of_false (by omega) fun hchain => hchain.1 ⟨h, hy⟩⟩
      · rw [List.dropWhile_cons_of_neg hy] at ih ⊢
        refine ⟨by omega, ?_⟩
        simp only [hy, Bool.false_eq_true, and_false, not_false_eq_true, true_and,
          Nat.add_right_cancel_iff]
        exact ih.2
  | case3 x xs h ih =>
    rw [List.countP_cons_of_neg h, List.isChain_cons]
    simpa [h] using ih

/-- Where nowhere more is collected, less is collected in all unless it is as much everywhere. -/
theorem length_flatMap_le {F G : α → List β} {xs : List α}
    (h : ∀ x ∈ xs, (F x).length ≤ (G x).length) :
    (xs.flatMap F).length ≤ (xs.flatMap G).length ∧
      ((xs.flatMap F).length = (xs.flatMap G).length ↔ ∀ x ∈ xs, (F x).length = (G x).length) := by
  induction xs with
  | nil => simp
  | cons x xs ih =>
    have hx := h x (List.mem_cons_self ..)
    obtain ⟨hle, heq⟩ := ih fun y hy => h y (List.mem_cons_of_mem x hy)
    rw [List.flatMap_cons, List.length_append, List.flatMap_cons, List.length_append,
      List.forall_mem_cons, ← heq]
    omega

end Runs

namespace OrderedTree

variable {α : Type}

section Coalesce

variable (marked : α → Bool)

/-- Puts the children of neighbouring trees with marked roots under the root of the first of them. -/
def mergeMarked : List (OrderedTree α) → List (OrderedTree α)
  | [] => []
  | t :: ts =>
    if marked t.root then
      node t.root ((t :: ts.takeWhile fun u => marked u.root).flatMap children) ::
        mergeMarked (ts.dropWhile fun u => marked u.root)
    else t :: mergeMarked ts
termination_by ts => ts.length
decreasing_by
  · exact length_dropWhile_lt _ t ts
  · simp

def coalesce : OrderedTree α → OrderedTree α := fold fun a us => node a (mergeMarked marked us)

theorem coalesce_node (a : α) (ts : List (OrderedTree α)) :
    coalesce marked (node a ts) = node a (mergeMarked marked (ts.map (coalesce marked))) := by
  rw [coalesce, fold_node]

@[simp] theorem root_coalesce (t : OrderedTree α) : (coalesce marked t).root = t.root := by
  cases t
  rw [coalesce_node, root_node, root_node]

theorem mergeMarked_singleton (t : OrderedTree α) : mergeMarked marked [t] = [t] := by
  cases t
  rw [mergeMarked]
  split <;> simp [mergeMarked]

variable {marked} {item : OrderedTree α → Bool} {list : α} (hlist : marked list = true)

include hlist

variable (item) in
/-- Among lists of one item each the runs of lists are the runs of items. -/
theorem takeWhile_wrapEach {ts : List (OrderedTree α)} (h : ∀ t ∈ ts, marked t.root = false) :
    (wrapEach item list ts).takeWhile (fun u => marked u.root) =
        wrapEach item list (ts.takeWhile item) ∧
      (wrapEach item list ts).dropWhile (fun u => marked u.root) =
        wrapEach item list (ts.dropWhile item) := by
  induction ts with
  | nil => exact ⟨rfl, rfl⟩
  | cons t ts ih =>
    obtain ⟨htake, hdrop⟩ := ih fun u hu => h u (List.mem_cons_of_mem t hu)
    simp only [wrapEach] at htake hdrop ⊢
    by_cases ht : item t = true
    · simp [ht, hlist, htake, hdrop]
    · simp [ht, h t]

omit hlist in
theorem flatMap_children_wrapEach {ts : List (OrderedTree α)} (h : ∀ t ∈ ts, item t = true) :
    (wrapEach item list ts).flatMap children = ts := by
  induction ts with
  | nil => rfl
  | cons t ts ih =>
    have hts := ih fun u hu => h u (List.mem_cons_of_mem t hu)
    simp only [wrapEach] at hts
    simp [wrapEach, h t, hts]

/-- Merging lists of one item each gives the lists of runs. -/
theorem mergeMarked_wrapEach {ts : List (OrderedTree α)} (h : ∀ t ∈ ts, marked t.root = false) :
    mergeMarked marked (wrapEach item list ts) = wrapRuns item list ts := by
  fun_induction wrapRuns item list ts with
  | case1 => rw [wrapEach, List.map_nil, mergeMarked]
  | case2 t ts ht ih =>
    have hts : ∀ u ∈ ts, marked u.root = false := fun u hu => h u (List.mem_cons_of_mem t hu)
    obtain ⟨htake, hdrop⟩ := takeWhile_wrapEach item hlist hts
    have hrest := ih fun u hu => hts u ((List.dropWhile_sublist item).subset hu)
    have hrun : (wrapEach item list (ts.takeWhile item)).flatMap children = ts.takeWhile item :=
      flatMap_children_wrapEach fun u hu => List.mem_takeWhile_imp hu
    have hcons : wrapEach item list (t :: ts) = node list [t] :: wrapEach item list ts := by
      simp [wrapEach, ht]
    rw [hcons, mergeMarked, root_node, if_pos hlist, htake, hdrop, hrest, List.flatMap_cons, hrun]
    rfl
  | case3 t ts ht ih =>
    have hcons : wrapEach item list (t :: ts) = t :: wrapEach item list ts := by
      simp [wrapEach, ht]
    rw [hcons, mergeMarked, if_neg (by simp [h t]), ih fun u hu => h u (List.mem_cons_of_mem t hu)]

/-- With runs of new lists merged, a tree with each item in its own list is the one with a list for each
run. -/
theorem coalesce_normalize (kind : α → NodeKind) {t : OrderedTree α}
    (h : ∀ a ∈ t.nodes, marked a = false) :
    coalesce marked (normalize kind list false t) = normalize kind list true t := by
  induction t using induction with
  | h a ts ih =>
    have hbelow : ∀ t ∈ ts, ∀ b ∈ t.nodes, marked b = false := fun t ht b hb =>
      h b (by rw [nodes_node]; exact List.mem_cons_of_mem a (List.mem_flatMap.mpr ⟨t, ht, hb⟩))
    have hone : ∀ t, coalesce marked (node list [t]) = node list [coalesce marked t] := by
      intro t
      rw [coalesce_node, List.map_singleton, mergeMarked_singleton]
    have hwrap : ∀ us, (wrapEach (wrappable kind a) list us).map (coalesce marked) =
        wrapEach (wrappable kind a) list (us.map (coalesce marked)) := by
      intro us
      simp only [wrapEach, List.map_map]
      refine List.map_congr_left fun u _ => ?_
      have hroot : wrappable kind a (coalesce marked u) = wrappable kind a u := by simp [wrappable]
      by_cases hu : wrappable kind a u = true <;> simp [hu, hroot, hone]
    have hts : (ts.map (normalize kind list false)).map (coalesce marked) =
        ts.map (normalize kind list true) := by
      rw [List.map_map]
      exact List.map_congr_left fun t ht => ih t ht (hbelow t ht)
    rw [normalize_node, coalesce_node, normalize_node]
    simp only [regroup, Bool.false_eq_true, if_false, if_true]
    rw [hwrap, hts, mergeMarked_wrapEach hlist]
    refine List.forall_mem_map.mpr fun t ht => ?_
    rw [root_normalize]
    exact hbelow t ht _ t.root_mem_nodes

end Coalesce

section Count

variable {marked : α → Bool} {list : α} (hlist : marked list = true)

include hlist

theorem countP_regroup (item : OrderedTree α → Bool) (merge : Bool) (ts : List (OrderedTree α)) :
    ((regroup item list merge ts).flatMap nodes).countP marked =
      (groups item merge ts).length + (ts.flatMap nodes).countP marked := by
  cases merge with
  | false =>
    rw [length_groups_false]
    induction ts with
    | nil => rfl
    | cons t ts ih =>
      have hcons : regroup item list false (t :: ts) =
          (if item t then node list [t] else t) :: regroup item list false ts := rfl
      rw [hcons, List.flatMap_cons, List.countP_append, ih, List.flatMap_cons, List.countP_append,
        List.countP_cons]
      split
      · rw [nodes_node, List.countP_cons_of_pos hlist, List.flatMap_singleton]
        omega
      · omega
  | true =>
    simp only [regroup, groups, if_true]
    fun_induction wrapRuns item list ts with
    | case1 => simp [runs]
    | case2 t ts ht ih =>
      have hsplit : (ts.flatMap nodes).countP marked =
          ((ts.takeWhile item).flatMap nodes).countP marked +
            ((ts.dropWhile item).flatMap nodes).countP marked := by
        rw [← List.countP_append, ← List.flatMap_append, List.takeWhile_append_dropWhile]
      rw [runs, if_pos ht, List.length_cons, List.flatMap_cons, List.countP_append, ih, nodes_node,
        List.countP_cons_of_pos hlist, List.flatMap_cons, List.countP_append, List.flatMap_cons,
        List.countP_append, hsplit]
      omega
    | case3 t ts ht ih =>
      rw [runs, if_neg ht, List.flatMap_cons, List.countP_append, ih, List.flatMap_cons,
        List.countP_append]
      omega

/-- Besides the marked nodes that were there, a tree gets one for each group of items. -/
theorem countP_normalize (kind : α → NodeKind) (merge : Bool) (t : OrderedTree α) :
    (normalize kind list merge t).nodes.countP marked =
      (t.subtrees.flatMap fun u => groups (wrappable kind u.root) merge u.children).length +
        t.nodes.countP marked := by
  induction t using induction with
  | h a ts ih =>
    have hgroups : (groups (wrappable kind a) merge (ts.map (normalize kind list merge))).length =
        (groups (wrappable kind a) merge ts).length := by
      rw [groups_map (q := wrappable kind a) fun u => by simp [wrappable], List.length_map]
    have hbelow : ((ts.map (normalize kind list merge)).flatMap nodes).countP marked =
        (ts.flatMap fun t => t.subtrees.flatMap fun u =>
          groups (wrappable kind u.root) merge u.children).length +
          (ts.flatMap nodes).countP marked := by
      rw [List.flatMap_map, List.countP_flatMap, List.countP_flatMap, List.length_flatMap,
        ← List.sum_map_add]
      exact congrArg List.sum (List.map_congr_left ih)
    rw [normalize_node, nodes_node, List.countP_cons, countP_regroup hlist, hgroups, hbelow,
      subtrees_node, List.flatMap_cons, List.length_append, List.flatMap_assoc, nodes_node,
      List.countP_cons, root_node, children_node]
    omega

end Count

end OrderedTree

end DocTree
