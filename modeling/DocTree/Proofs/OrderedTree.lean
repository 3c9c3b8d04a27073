import Mathlib.Data.List.Perm.Basic

/-!
Ordered trees as values. A tree is a root with a list of trees below it. What is computed from a tree is
a fold over it: the tree with other values at its places, its values in document order, and what is left
of it when some of its nodes give way to their children. The trees at its places are its subtrees.
-/
namespace DocTree

inductive OrderedTree (α : Type) where
  | node (root : α) (children : List (OrderedTree α))

namespace OrderedTree

variable {α β : Type}

def root : OrderedTree α → α
  | node a _ => a

def children : OrderedTree α → List (OrderedTree α)
  | node _ ts => ts

@[simp] theorem root_node (a : α) (ts : List (OrderedTree α)) : (node a ts).root = a := rfl

@[simp] theorem children_node (a : α) (ts : List (OrderedTree α)) : (node a ts).children = ts := rfl

def leaf (a : α) : OrderedTree α := node a []

mutual

def fold (g : α → List β → β) : OrderedTree α → β
  | node a ts => g a (foldAll g ts)

def foldAll (g : α → List β → β) : List (OrderedTree α) → List β
  | [] => []
  | t :: ts => fold g t :: foldAll g ts

end

theorem fold_node (g : α → List β → β) (a : α) (ts : List (OrderedTree α)) :
    fold g (node a ts) = g a (ts.map (fold g)) := by
  have hall : ∀ us, foldAll g us = us.map (fold g) := by
    intro us
    induction us with
    | nil => rfl
    | cons u us ih => rw [foldAll, ih, List.map_cons]
  rw [fold, hall]

/-- What holds of a tree when it holds of the trees below holds of every tree. -/
theorem induction {P : OrderedTree α → Prop} (h : ∀ a ts, (∀ t ∈ ts, P t) → P (node a ts)) :
    ∀ t, P t
  | node a ts => h a ts fun t _ => induction h t

def map (g : α → β) : OrderedTree α → OrderedTree β := fold fun a us => node (g a) us

/-- The values of a tree, parents before children. -/
def nodes : OrderedTree α → List α := fold fun a us => a :: us.flatten

@[simp] theorem map_node (g : α → β) (a : α) (ts : List (OrderedTree α)) :
    (node a ts).map g = node (g a) (ts.map (map g)) := fold_node ..

@[simp] theorem nodes_node (a : α) (ts : List (OrderedTree α)) :
    (node a ts).nodes = a :: ts.flatMap nodes := by
  rw [nodes, fold_node, List.flatMap_def]

theorem nodes_eq_cons (t : OrderedTree α) : t.nodes = t.root :: t.children.flatMap nodes := by
  cases t
  simp

@[simp] theorem root_map (g : α → β) (t : OrderedTree α) : (t.map g).root = g t.root := by
  cases t
  simp

@[simp] theorem children_map (g : α → β) (t : OrderedTree α) :
    (t.map g).children = t.children.map (map g) := by
  cases t
  simp

theorem root_mem_nodes (t : OrderedTree α) : t.root ∈ t.nodes := by
  cases t
  simp

theorem length_nodes_pos (t : OrderedTree α) : 0 < t.nodes.length :=
  List.length_pos_of_mem t.root_mem_nodes

/-- The nodes of a tree below are among those of the tree, in order. -/
theorem sublist_nodes_of_mem {t : OrderedTree α} {ts : List (OrderedTree α)} (h : t ∈ ts) :
    t.nodes.Sublist (ts.flatMap nodes) := by
  rw [List.flatMap_def]
  exact List.sublist_flatten_of_mem (List.mem_map_of_mem h)

theorem map_congr {g k : α → β} {t : OrderedTree α} (h : ∀ a ∈ t.nodes, g a = k a) :
    t.map g = t.map k := by
  induction t using induction with
  | h a ts ih =>
    have hts : ts.map (map g) = ts.map (map k) := List.map_congr_left fun t ht =>
      ih t ht fun b hb => h b (by simp only [nodes_node]; grind)
    rw [map_node, map_node, h a (by simp), hts]

theorem map_map {γ : Type} (k : β → γ) (g : α → β) (t : OrderedTree α) :
    (t.map g).map k = t.map (k ∘ g) := by
  induction t using induction with
  | h a ts ih =>
    have hts : (ts.map (map g)).map (map k) = ts.map (map (k ∘ g)) := by
      rw [List.map_map]
      exact List.map_congr_left ih
    rw [map_node, map_node, map_node, hts, Function.comp_apply]

theorem map_id (t : OrderedTree α) : t.map id = t := by
  induction t using induction with
  | h a ts ih =>
    have hts : ts.map (map id) = ts := (List.map_congr_left ih).trans (List.map_id ts)
    rw [map_node, hts, id]

theorem nodes_map (g : α → β) (t : OrderedTree α) : (t.map g).nodes = t.nodes.map g := by
  induction t using induction with
  | h a ts ih =>
    simp only [map_node, nodes_node, List.map_cons, List.flatMap_map, List.map_flatMap]
    rw [List.flatMap_congr ih]

mutual

def subtrees : OrderedTree α → List (OrderedTree α)
  | node a ts => node a ts :: subtreesAll ts

def subtreesAll : List (OrderedTree α) → List (OrderedTree α)
  | [] => []
  | t :: ts => subtrees t ++ subtreesAll ts

end

theorem subtrees_node (a : α) (ts : List (OrderedTree α)) :
    (node a ts).subtrees = node a ts :: ts.flatMap subtrees := by
  have hall : ∀ us : List (OrderedTree α), subtreesAll us = us.flatMap subtrees := by
    intro us
    induction us with
    | nil => rfl
    | cons u us ih => rw [subtreesAll, ih, List.flatMap_cons]
  rw [subtrees, hall]

theorem forall_subtrees_node {P : OrderedTree α → Prop} (a : α) (ts : List (OrderedTree α)) :
    (∀ u ∈ (node a ts).subtrees, P u) ↔ P (node a ts) ∧ ∀ t ∈ ts, ∀ u ∈ t.subtrees, P u := by
  simp only [subtrees_node, List.forall_mem_cons, List.mem_flatMap]
  exact and_congr_right fun _ =>
    ⟨fun h t ht u hu => h u ⟨t, ht, hu⟩, fun h u ⟨t, ht, hu⟩ => h t ht u hu⟩

theorem self_mem_subtrees (t : OrderedTree α) : t ∈ t.subtrees := by
  cases t
  rw [subtrees_node]
  exact List.mem_cons_self ..

/-- What holds of a tree and is handed on to the trees below holds at all places. -/
theorem forall_subtrees {P : OrderedTree α → Prop} (h : ∀ t, P t → ∀ u ∈ t.children, P u)
    {t : OrderedTree α} (ht : P t) : ∀ u ∈ t.subtrees, P u := by
  induction t using induction with
  | h a ts ih =>
    intro u hu
    rw [subtrees_node, List.mem_cons, List.mem_flatMap] at hu
    rcases hu with rfl | ⟨v, hv, hu⟩
    · exact ht
    · exact ih v hv (h _ ht v hv) u hu

/-- A child at a place stands at a place itself. -/
theorem mem_subtrees_of_mem_children {t u v : OrderedTree α} (hu : u ∈ t.subtrees)
    (hv : v ∈ u.children) : v ∈ t.subtrees := by
  induction t using induction with
  | h a ts ih =>
    rw [subtrees_node, List.mem_cons, List.mem_flatMap] at hu ⊢
    rcases hu with rfl | ⟨x, hx, hu⟩
    · exact Or.inr ⟨v, hv, self_mem_subtrees v⟩
    · exact Or.inr ⟨x, hx, ih x hx hu⟩

theorem mem_subtrees_trans {t u v : OrderedTree α} (hu : u ∈ t.subtrees) (hv : v ∈ u.subtrees) :
    v ∈ t.subtrees :=
  forall_subtrees (P := (· ∈ t.subtrees)) (fun _ hx _ hy => mem_subtrees_of_mem_children hx hy) hu v hv

/-- At each place below the root stands a child of another place. -/
theorem exists_mem_children_of_mem_subtrees {t u : OrderedTree α} (hu : u ∈ t.subtrees) :
    u = t ∨ ∃ v ∈ t.subtrees, u ∈ v.children := by
  induction t using induction with
  | h a ts ih =>
    rw [subtrees_node, List.mem_cons, List.mem_flatMap] at hu
    rcases hu with rfl | ⟨v, hv, hu⟩
    · exact Or.inl rfl
    rcases ih v hv hu with rfl | ⟨x, hx, hux⟩
    · exact Or.inr ⟨_, self_mem_subtrees _, hv⟩
    · have hmem : x ∈ ts.flatMap subtrees := List.mem_flatMap.mpr ⟨v, hv, hx⟩
      exact Or.inr ⟨x, subtrees_node a ts ▸ List.mem_cons_of_mem _ hmem, hux⟩

/-- The values of a tree are those at the roots of its places. -/
theorem map_root_subtrees (t : OrderedTree α) : t.subtrees.map root = t.nodes := by
  induction t using induction with
  | h a ts ih =>
    rw [subtrees_node, nodes_node, List.map_cons, root_node, List.map_flatMap,
      List.flatMap_congr ih]

/-- The values of neighbouring children stand next to each other among those of a tree. -/
theorem flatMap_nodes_infix {t : OrderedTree α} {us : List (OrderedTree α)} (h : us <:+: t.children) :
    us.flatMap nodes <:+: t.nodes := by
  obtain ⟨left, right, hsplit⟩ := h
  refine ⟨t.root :: left.flatMap nodes, right.flatMap nodes, ?_⟩
  rw [nodes_eq_cons, ← hsplit]
  simp

/-- The values at and below a place of a tree stand next to each other. -/
theorem nodes_infix_of_mem_subtrees {t u : OrderedTree α} (hu : u ∈ t.subtrees) :
    u.nodes <:+: t.nodes := by
  refine forall_subtrees (P := fun u => u.nodes <:+: t.nodes) (fun v hv u hu => ?_)
    (List.infix_rfl) u hu
  obtain ⟨left, right, hsplit⟩ := List.append_of_mem hu
  have hchild : [u] <:+: v.children := ⟨left, right, by simp [hsplit]⟩
  exact (by simpa using flatMap_nodes_infix hchild : u.nodes <:+: v.nodes).trans hv

/-- The values of trees are those at their roots and those below. -/
theorem flatMap_nodes_perm (ts : List (OrderedTree α)) :
    (ts.flatMap nodes).Perm (ts.map root ++ ts.flatMap fun t => t.children.flatMap nodes) := by
  have hnodes : ts.flatMap nodes = ts.flatMap fun t => t.root :: t.children.flatMap nodes :=
    List.flatMap_congr fun t _ => nodes_eq_cons t
  rw [hnodes]
  exact (List.map_append_flatMap_perm ts root fun t => t.children.flatMap nodes).symm

/-- The values of a tree are that at its root and those at the roots of all children. -/
theorem nodes_perm (t : OrderedTree α) :
    t.nodes.Perm (t.root :: t.subtrees.flatMap fun u => u.children.map root) := by
  induction t using induction with
  | h a ts ih =>
    rw [nodes_node, subtrees_node, List.flatMap_cons, children_node, root_node, List.flatMap_assoc]
    refine .cons a ?_
    exact (List.Perm.flatMap_left ts ih).trans (List.map_append_flatMap_perm ts root _).symm

theorem subtrees_map (g : α → β) (t : OrderedTree α) :
    (t.map g).subtrees = t.subtrees.map (map g) := by
  induction t using induction with
  | h a ts ih =>
    rw [map_node, subtrees_node, subtrees_node, List.map_cons, map_node, List.flatMap_map,
      List.map_flatMap, List.flatMap_congr ih]

section Splice

variable (marked : α → Bool)

/-- The trees that are left of a tree when the children of every marked node take its place. -/
def splice : OrderedTree α → List (OrderedTree α) :=
  fold fun a us => if marked a then us.flatten else [node a us.flatten]

theorem splice_node (a : α) (ts : List (OrderedTree α)) :
    splice marked (node a ts) =
      if marked a then ts.flatMap (splice marked) else [node a (ts.flatMap (splice marked))] := by
  rw [splice, fold_node, ← splice, ← List.flatMap_def]

/-- What is not marked stays, in document order. -/
theorem flatMap_nodes_splice (t : OrderedTree α) :
    (splice marked t).flatMap nodes = t.nodes.filter fun a => !marked a := by
  induction t using induction with
  | h a ts ih =>
    have hts : (ts.flatMap (splice marked)).flatMap nodes =
        (ts.flatMap nodes).filter fun a => !marked a := by
      rw [List.flatMap_assoc, List.flatMap_congr ih, List.filter_flatMap]
    rw [splice_node, nodes_node, List.filter_cons]
    split
    · rename_i ha
      simp [ha, hts]
    · rename_i ha
      simp [ha, hts]

variable {marked}

/-- Without marked nodes nothing changes. -/
theorem splice_of_not {t : OrderedTree α} (h : ∀ u ∈ t.subtrees, marked u.root = false) :
    splice marked t = [t] := by
  induction t using induction with
  | h a ts ih =>
    rw [forall_subtrees_node] at h
    have hts : ts.flatMap (splice marked) = ts := by
      rw [List.flatMap_congr fun t ht => ih t ht (h.2 t ht), List.flatMap_singleton']
    have ha : marked a = false := h.1
    rw [splice_node, hts, ha, if_neg Bool.false_ne_true]

end Splice

end OrderedTree

end DocTree
