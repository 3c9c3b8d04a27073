import DocTree.NodeKind
import DocTree.Proofs.OrderedTree
import Mathlib.Data.List.Chain
import Mathlib.Data.List.TakeWhile

/-!
Grouping of items, on trees as values. Among the children of a node either every item is put into a
list of its own, or every maximal run of neighbouring items is put into one. A tree is normalized from
the leaves upwards, and the children of a list stay as they are. While the children are gone through
one after the other a list may be open; then the items in front join it.
-/
namespace DocTree

theorem length_dropWhile_lt {α : Type} (q : α → Bool) (x : α) (xs : List α) :
    (xs.dropWhile q).length < (x :: xs).length := by
  have hle := (List.dropWhile_sublist q (l := xs)).length_le
  simp only [List.length_cons]
  omega

namespace OrderedTree

variable {α : Type}

section Regroup

variable (item : OrderedTree α → Bool) (list : α)

def wrapEach (ts : List (OrderedTree α)) : List (OrderedTree α) :=
  ts.map fun t => if item t then node list [t] else t

def wrapRuns : List (OrderedTree α) → List (OrderedTree α)
  | [] => []
  | t :: ts =>
    if item t then node list (t :: ts.takeWhile item) :: wrapRuns (ts.dropWhile item)
    else t :: wrapRuns ts
termination_by ts => ts.length
decreasing_by
  · exact length_dropWhile_lt item t ts
  · simp

def regroup (merge : Bool) (ts : List (OrderedTree α)) : List (OrderedTree α) :=
  if merge then wrapRuns item list ts else wrapEach item list ts

/-- What joins a list that is open in front of the trees. -/
def joined (opened : Bool) (ts : List (OrderedTree α)) : List (OrderedTree α) :=
  if opened then ts.takeWhile item else []

/-- What comes of the trees that do not join a list in front of them. -/
def remaining (merge opened : Bool) (ts : List (OrderedTree α)) : List (OrderedTree α) :=
  regroup item list merge (if opened then ts.dropWhile item else ts)

variable {item list}

theorem joined_cons_of_not {t : OrderedTree α} (h : item t = false) (opened : Bool)
    (ts : List (OrderedTree α)) : joined item opened (t :: ts) = [] := by
  cases opened <;> simp [joined, h]

theorem joined_cons {t : OrderedTree α} (h : item t = true) (ts : List (OrderedTree α)) :
    joined item true (t :: ts) = t :: joined item true ts := by
  simp [joined, h]

theorem remaining_nil (merge opened : Bool) : remaining item list merge opened [] = [] := by
  cases merge <;> cases opened <;> simp [remaining, regroup, wrapRuns, wrapEach]

theorem remaining_cons_of_not {t : OrderedTree α} (h : item t = false) (merge opened : Bool)
    (ts : List (OrderedTree α)) :
    remaining item list merge opened (t :: ts) = t :: remaining item list merge false ts := by
  cases merge <;> cases opened <;> simp [remaining, regroup, wrapRuns, wrapEach, h]

theorem remaining_cons_of_opened {t : OrderedTree α} (h : item t = true) (merge : Bool)
    (ts : List (OrderedTree α)) :
    remaining item list merge true (t :: ts) = remaining item list merge true ts := by
  simp [remaining, h]

/-- An item with no list open in front gets a new one, which stays open when runs are merged. -/
theorem remaining_cons {t : OrderedTree α} (h : item t = true) (merge : Bool)
    (ts : List (OrderedTree α)) :
    remaining item list merge false (t :: ts) =
      node list (t :: joined item merge ts) :: remaining item list merge merge ts := by
  cases merge <;> simp [remaining, regroup, joined, wrapRuns, wrapEach, h]

/-- A single tree is put into a list of its own if it is an item. -/
theorem regroup_singleton (merge : Bool) (t : OrderedTree α) :
    regroup item list merge [t] = [if item t then node list [t] else t] := by
  cases merge with
  | false => rfl
  | true => by_cases h : item t = true <;> simp [regroup, wrapRuns, h]

/-- Without items nothing is grouped. -/
theorem regroup_of_not {merge : Bool} {ts : List (OrderedTree α)} (h : ∀ t ∈ ts, item t = false) :
    regroup item list merge ts = ts := by
  induction ts with
  | nil => exact remaining_nil merge false
  | cons t ts ih =>
    have hcons : remaining item list merge false (t :: ts) = _ :=
      remaining_cons_of_not (h t (List.mem_cons_self ..)) merge false ts
    simp only [remaining, Bool.false_eq_true, if_false] at hcons
    rw [hcons, ih fun u hu => h u (List.mem_cons_of_mem t hu)]

/-- What a list over trees shows of itself is what they show, so that grouping changes nothing. -/
theorem flatMap_regroup {β : Type} {F : OrderedTree α → List β}
    (hF : ∀ us, F (node list us) = us.flatMap F) (merge : Bool) (ts : List (OrderedTree α)) :
    (regroup item list merge ts).flatMap F = ts.flatMap F := by
  cases merge with
  | false =>
    induction ts with
    | nil => rfl
    | cons t ts ih =>
      have hcons : regroup item list false (t :: ts) =
          (if item t then node list [t] else t) :: regroup item list false ts := rfl
      rw [hcons, List.flatMap_cons, ih, List.flatMap_cons]
      split
      · rw [hF, List.flatMap_singleton]
      · rfl
  | true =>
    simp only [regroup, if_true]
    fun_induction wrapRuns item list ts with
    | case1 => rfl
    | case2 t ts h ih =>
      have hsplit : ts.flatMap F =
          (ts.takeWhile item).flatMap F ++ (ts.dropWhile item).flatMap F := by
        rw [← List.flatMap_append, List.takeWhile_append_dropWhile]
      rw [List.flatMap_cons, ih, hF, List.flatMap_cons, List.flatMap_cons, hsplit,
        List.append_assoc]
    | case3 t ts h ih => rw [List.flatMap_cons, ih, List.flatMap_cons]

/-- When runs are merged no two lists come to stand side by side, if there were none before. -/
theorem isChain_regroup {q : OrderedTree α → Prop} {ts : List (OrderedTree α)}
    (h : ∀ t ∈ ts, item t = false → ¬ q t) :
    (regroup item list true ts).IsChain fun t u => ¬ (q t ∧ q u) := by
  simp only [regroup, if_true]
  fun_induction wrapRuns item list ts with
  | case1 => exact .nil
  | case2 t ts ht ih =>
    have hrest : ∀ u ∈ ts.dropWhile item, item u = false → ¬ q u := fun u hu =>
      h u (List.mem_cons_of_mem t ((List.dropWhile_sublist item).subset hu))
    refine (ih hrest).cons fun u hu hboth => ?_
    -- behind the run stands nothing or something that is no item
    cases hdrop : ts.dropWhile item with
    | nil =>
      rw [hdrop, wrapRuns] at hu
      exact absurd hu (by simp)
    | cons v vs =>
      have hv : item v = false := by
        have hnot := List.head?_dropWhile_not item ts
        rw [hdrop] at hnot
        simpa using hnot
      rw [hdrop, wrapRuns, if_neg (by simp [hv])] at hu
      obtain rfl := Option.some.inj hu
      exact hrest v (hdrop ▸ List.mem_cons_self ..) hv hboth.2
  | case3 t ts ht ih =>
    have hrest := ih fun u hu => h u (List.mem_cons_of_mem t hu)
    exact hrest.cons fun u _ hboth =>
      h t (List.mem_cons_self ..) (by simpa using ht) hboth.1

/-- What grouping makes is what it was given and no item, or a list over items, of which there is one
when runs are not merged. -/
theorem mem_regroup {merge : Bool} {ts : List (OrderedTree α)} {t : OrderedTree α}
    (ht : t ∈ regroup item list merge ts) :
    (t ∈ ts ∧ item t = false) ∨ ∃ run, t = node list run ∧ run ≠ [] ∧
      (∀ u ∈ run, u ∈ ts ∧ item u = true) ∧ (merge = false → run.length = 1) := by
  cases merge with
  | false =>
    obtain ⟨u, hu, rfl⟩ := List.mem_map.mp (show t ∈ wrapEach item list ts from ht)
    by_cases h : item u = true
    · exact Or.inr ⟨[u], if_pos h, by simp, by simpa using ⟨hu, h⟩, fun _ => rfl⟩
    · rw [if_neg h]
      exact Or.inl ⟨hu, by simpa using h⟩
  | true =>
    simp only [regroup, if_true] at ht
    fun_induction wrapRuns item list ts with
    | case1 => exact absurd ht (by simp)
    | case2 u ts h ih =>
      rcases List.mem_cons.mp ht with rfl | ht
      · refine Or.inr ⟨_, rfl, by simp, fun v hv => ?_, by simp⟩
        rcases List.mem_cons.mp hv with rfl | hv
        · exact ⟨List.mem_cons_self .., h⟩
        · exact ⟨List.mem_cons_of_mem u ((List.takeWhile_sublist item).subset hv),
            List.mem_takeWhile_imp hv⟩
      · have hsub : ∀ v, v ∈ ts.dropWhile item → v ∈ u :: ts := fun v hv =>
          List.mem_cons_of_mem u ((List.dropWhile_sublist item).subset hv)
        rcases ih ht with ⟨hmem, hnot⟩ | ⟨run, heq, hne, hrun, hlength⟩
        · exact Or.inl ⟨hsub t hmem, hnot⟩
        · exact Or.inr ⟨run, heq, hne, fun v hv => ⟨hsub v (hrun v hv).1, (hrun v hv).2⟩, hlength⟩
    | case3 u ts h ih =>
      rcases List.mem_cons.mp ht with rfl | ht
      · exact Or.inl ⟨List.mem_cons_self .., by simpa using h⟩
      rcases ih ht with ⟨hmem, hnot⟩ | ⟨run, heq, hne, hrun, hlength⟩
      · exact Or.inl ⟨List.mem_cons_of_mem u hmem, hnot⟩
      · exact Or.inr ⟨run, heq, hne,
          fun v hv => ⟨List.mem_cons_of_mem u (hrun v hv).1, (hrun v hv).2⟩, hlength⟩

/-- Trees are grouped alike if the same of them are items. -/
theorem regroup_congr {item' : OrderedTree α → Bool} {ts : List (OrderedTree α)}
    (h : ∀ t ∈ ts, item' t = item t) (merge : Bool) :
    regroup item' list merge ts = regroup item list merge ts := by
  have hopened : ∀ opened, joined item' opened ts = joined item opened ts ∧
      remaining item' list merge opened ts = remaining item list merge opened ts := by
    induction ts with
    | nil => exact fun opened => ⟨by cases opened <;> rfl, by rw [remaining_nil, remaining_nil]⟩
    | cons t ts ih =>
      have hts := ih fun u hu => h u (List.mem_cons_of_mem t hu)
      have ht := h t (List.mem_cons_self ..)
      intro opened
      cases hitem : item t with
      | false =>
        rw [joined_cons_of_not hitem, joined_cons_of_not (ht.trans hitem),
          remaining_cons_of_not hitem, remaining_cons_of_not (ht.trans hitem), (hts false).2]
        exact ⟨rfl, rfl⟩
      | true =>
        cases opened with
        | false =>
          rw [remaining_cons hitem, remaining_cons (ht.trans hitem), (hts merge).1, (hts merge).2]
          exact ⟨rfl, rfl⟩
        | true =>
          rw [joined_cons hitem, joined_cons (ht.trans hitem), remaining_cons_of_opened hitem,
            remaining_cons_of_opened (ht.trans hitem), (hts true).1, (hts true).2]
          exact ⟨rfl, rfl⟩
  exact (hopened false).2

/-- Items are grouped alike under other values. -/
theorem map_regroup {β : Type} {item' : OrderedTree β → Bool} {g : α → β}
    (hitem : ∀ t, item' (t.map g) = item t) (merge : Bool) (ts : List (OrderedTree α)) :
    (regroup item list merge ts).map (map g) = regroup item' (g list) merge (ts.map (map g)) := by
  cases merge with
  | false =>
    simp only [regroup, Bool.false_eq_true, if_false, wrapEach, List.map_map]
    apply List.map_congr_left
    intro t _
    simp only [Function.comp_apply, hitem]
    split <;> simp
  | true =>
    have hcomp : item' ∘ map g = item := funext hitem
    simp only [regroup, if_true]
    fun_induction wrapRuns item list ts with
    | case1 => simp [wrapRuns]
    | case2 t ts h ih =>
      rw [List.map_cons, ih, List.map_cons, wrapRuns, if_pos ((hitem t).trans h), map_node,
        List.map_cons, List.takeWhile_map, List.dropWhile_map, hcomp]
    | case3 t ts h ih =>
      rw [List.map_cons, ih, List.map_cons, wrapRuns, if_neg (by rwa [hitem])]

end Regroup

section Normalize

variable (kind : α → NodeKind) (list : α)

/-- Groups the items below a root, from the leaves upwards. The children of a list stay. -/
def normalize (merge : Bool) : OrderedTree α → OrderedTree α :=
  fold fun a us => node a
    (if kind a = .list then us else regroup (fun u => kind u.root = .item) list merge us)

/-- The children of `a` that are to be put into a list. -/
def wrappable (a : α) (t : OrderedTree α) : Bool := kind a ≠ .list ∧ kind t.root = .item

theorem normalize_node (merge : Bool) (a : α) (ts : List (OrderedTree α)) :
    normalize kind list merge (node a ts) =
      node a (regroup (wrappable kind a) list merge (ts.map (normalize kind list merge))) := by
  rw [normalize, fold_node, ← normalize]
  by_cases ha : kind a = .list
  · rw [if_pos ha, regroup_of_not]
    simp [wrappable, ha]
  · have hitem : (fun u : OrderedTree α => decide (kind u.root = .item)) = wrappable kind a := by
      funext u
      simp [wrappable, ha]
    rw [if_neg ha, hitem]

@[simp] theorem root_normalize (merge : Bool) (t : OrderedTree α) :
    (normalize kind list merge t).root = t.root := by
  cases t
  rw [normalize_node, root_node, root_node]

/-- Only the kinds of the nodes in a tree matter when it is normalized. -/
theorem normalize_congr {kind' : α → NodeKind} {t : OrderedTree α}
    (h : ∀ a ∈ t.nodes, kind' a = kind a) (merge : Bool) :
    normalize kind' list merge t = normalize kind list merge t := by
  induction t using induction with
  | h a ts ih =>
    rw [nodes_node, List.forall_mem_cons] at h
    have hbelow : ∀ t ∈ ts, ∀ b ∈ t.nodes, kind' b = kind b := fun t ht b hb =>
      h.2 b (List.mem_flatMap.mpr ⟨t, ht, hb⟩)
    have hts : ts.map (normalize kind' list merge) = ts.map (normalize kind list merge) :=
      List.map_congr_left fun t ht => ih t ht (hbelow t ht)
    rw [normalize_node, normalize_node, hts]
    refine congrArg (node a) (regroup_congr (List.forall_mem_map.mpr fun t ht => ?_) merge)
    simp [wrappable, h.1, hbelow t ht t.root t.root_mem_nodes]

/-- A tree is normalized alike under other values of the same kinds. -/
theorem map_normalize {β : Type} {kind' : β → NodeKind} {g : α → β}
    (hkind : ∀ a, kind' (g a) = kind a) (merge : Bool) (t : OrderedTree α) :
    (normalize kind list merge t).map g = normalize kind' (g list) merge (t.map g) := by
  induction t using induction with
  | h a ts ih =>
    have hts : (ts.map (normalize kind list merge)).map (map g) =
        (ts.map (map g)).map (normalize kind' (g list) merge) := by
      rw [List.map_map, List.map_map]
      exact List.map_congr_left ih
    have hitem : ∀ t : OrderedTree α, wrappable kind' (g a) (t.map g) = wrappable kind a t := by
      intro t
      simp [wrappable, hkind]
    rw [normalize_node, map_node, map_node, normalize_node, map_regroup hitem, hts]

/-- With the lists taken out again, a normalized tree is what it was. -/
theorem splice_normalize {marked : α → Bool} (hlist : marked list = true) (merge : Bool)
    (t : OrderedTree α) : splice marked (normalize kind list merge t) = splice marked t := by
  induction t using induction with
  | h a ts ih =>
    have hts : (regroup (wrappable kind a) list merge (ts.map (normalize kind list merge))).flatMap
        (splice marked) = ts.flatMap (splice marked) := by
      rw [flatMap_regroup fun us => by rw [splice_node, if_pos hlist], List.flatMap_map]
      exact List.flatMap_congr ih
    rw [normalize_node, splice_node, splice_node, hts]

/-- Normalizing adds lists only, and the others stay in document order. -/
theorem filter_nodes_normalize {q : α → Bool} (hq : q list = false) (merge : Bool)
    (t : OrderedTree α) : (normalize kind list merge t).nodes.filter q = t.nodes.filter q := by
  have hlist : !q list := by simp [hq]
  have hnodes : ∀ u : OrderedTree α,
      (splice (fun a => !q a) u).flatMap nodes = u.nodes.filter q := by
    intro u
    simp [flatMap_nodes_splice]
  rw [← hnodes, splice_normalize kind list hlist merge t, hnodes]

def ItemsInLists (t : OrderedTree α) : Prop :=
  ∀ u ∈ t.subtrees, ∀ v ∈ u.children, wrappable kind u.root v = false

variable {kind list}

theorem itemsInLists_node {a : α} {ts : List (OrderedTree α)} :
    ItemsInLists kind (node a ts) ↔
      (∀ t ∈ ts, wrappable kind a t = false) ∧ ∀ t ∈ ts, ItemsInLists kind t :=
  forall_subtrees_node a ts

theorem itemsInLists_map {β : Type} {kind' : β → NodeKind} {g : α → β}
    (hkind : ∀ a, kind' (g a) = kind a) {t : OrderedTree α} :
    ItemsInLists kind' (t.map g) ↔ ItemsInLists kind t := by
  simp [ItemsInLists, subtrees_map, wrappable, hkind]

theorem itemsInLists_normalize (hlist : kind list = .list) (merge : Bool) (t : OrderedTree α) :
    ItemsInLists kind (normalize kind list merge t) := by
  induction t using induction with
  | h a ts ih =>
    have hbelow : ∀ u ∈ ts.map (normalize kind list merge), ItemsInLists kind u :=
      List.forall_mem_map.mpr ih
    rw [normalize_node, itemsInLists_node]
    constructor
    · intro u hu
      rcases mem_regroup hu with ⟨-, hnot⟩ | ⟨run, rfl, -⟩
      · exact hnot
      · simp [wrappable, hlist]
    · intro u hu
      rcases mem_regroup hu with ⟨hmem, -⟩ | ⟨run, rfl, -, hrun, -⟩
      · exact hbelow u hmem
      · refine itemsInLists_node.mpr ⟨fun v _ => ?_, fun v hv => hbelow v (hrun v hv).1⟩
        simp [wrappable, hlist]

/-- A tree with its items in lists is normalized already. -/
theorem normalize_of_itemsInLists {t : OrderedTree α} (h : ItemsInLists kind t) (merge : Bool) :
    normalize kind list merge t = t := by
  induction t using induction with
  | h a ts ih =>
    obtain ⟨hroot, hts⟩ := itemsInLists_node.mp h
    have hsame : ts.map (normalize kind list merge) = ts :=
      (List.map_congr_left fun t ht => ih t ht (hts t ht)).trans (List.map_id ts)
    rw [normalize_node, hsame, regroup_of_not hroot]

end Normalize

end OrderedTree

end DocTree
