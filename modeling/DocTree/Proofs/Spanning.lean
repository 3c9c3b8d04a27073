import DocTree.Proofs.OrderedTree
import DocTree.Proofs.Realization
import DocTree.Proofs.Forest.Surgery

/-!
The trees in a forest. Below every node of a forest stands a tree, in which no node stands twice; a
change elsewhere in the forest leaves it as it is. The tree below a node of a store is read off the
lists of children, and in a store that realizes a forest it is the tree of the forest.
-/
namespace DocTree

open OrderedTree

namespace Forest

/-- The tree has at each of its places the children that the forest says. -/
inductive Spans (f : Forest) : OrderedTree NodeId → Prop
  | node {n : NodeId} {ts : List (OrderedTree NodeId)} (hroots : f.children n = ts.map root)
      (hts : ∀ t ∈ ts, Spans f t) : Spans f (.node n ts)

variable {f : Forest}

theorem Spans.children_root {t : OrderedTree NodeId} (h : f.Spans t) :
    f.children t.root = t.children.map root := by
  cases h with
  | node hroots _ => exact hroots

theorem Spans.child {t u : OrderedTree NodeId} (h : f.Spans t) (hu : u ∈ t.children) :
    f.Spans u := by
  cases h with
  | node _ hts => exact hts u hu

/-- A tree says which children its nodes have. -/
theorem Spans.children_unique {g : Forest} {t : OrderedTree NodeId} (hf : f.Spans t)
    (hg : g.Spans t) : ∀ n ∈ t.nodes, f.children n = g.children n := by
  induction hf with
  | @node n ts hroots hts ih =>
    intro m hm
    rw [nodes_node, List.mem_cons, List.mem_flatMap] at hm
    rcases hm with rfl | ⟨t, ht, hm⟩
    · exact hroots.trans hg.children_root.symm
    · exact ih t ht (hg.child ht) m hm

/-- Below every node stands a tree. -/
theorem exists_spans (f : Forest) (n : NodeId) : ∃ t, t.root = n ∧ f.Spans t := by
  obtain ⟨rank, bound, hrank⟩ := f.ranked
  induction hk : rank n using Nat.strong_induction_on generalizing n with
  | h k ih =>
    have hbelow : ∀ c, ∃ t : OrderedTree NodeId, t.root = c ∧ (c ∈ f.children n → f.Spans t) := by
      intro c
      by_cases hc : c ∈ f.children n
      · have hlt := (hrank c n (f.parent_eq_some_iff.mpr hc)).1
        obtain ⟨t, ht, hspans⟩ := ih (rank c) (hk ▸ hlt) c rfl
        exact ⟨t, ht, fun _ => hspans⟩
      · exact ⟨.leaf c, rfl, fun h => absurd h hc⟩
    choose g hg hspans using hbelow
    refine ⟨.node n ((f.children n).map g), rfl, .node ?_ ?_⟩
    · rw [List.map_map]
      exact (List.map_id'' hg _).symm
    · intro t ht
      obtain ⟨c, hc, rfl⟩ := List.mem_map.mp ht
      exact hspans c hc

/-- The nodes of a tree are those that stand below its root. -/
theorem Spans.mem_nodes_iff {t : OrderedTree NodeId} (h : f.Spans t) (m : NodeId) :
    m ∈ t.nodes ↔ f.Above t.root m := by
  induction h generalizing m with
  | @node n ts hroots hts ih =>
    have hroot : ∀ {t}, t ∈ ts → f.Above n t.root := fun ht =>
      above_of_mem_children (hroots ▸ List.mem_map_of_mem ht)
    simp only [nodes_node, List.mem_cons, List.mem_flatMap, root_node]
    constructor
    · rintro (rfl | ⟨t, ht, hm⟩)
      · exact above_refl m
      · exact (hroot ht).trans ((ih t ht m).mp hm)
    · intro hm
      rcases Relation.ReflTransGen.cases_tail hm with he | ⟨c, hmc, hcn⟩
      · exact Or.inl he.symm
      · have hc : c ∈ ts.map root := hroots ▸ f.parent_eq_some_iff.mp hcn
        obtain ⟨t, ht, rfl⟩ := List.mem_map.mp hc
        exact Or.inr ⟨t, ht, (ih t ht m).mpr hmc⟩

/-- Trees below different children have no node in common. -/
theorem Spans.disjoint {p : NodeId} {t u : OrderedTree NodeId} (ht : f.Spans t) (hu : f.Spans u)
    (htp : t.root ∈ f.children p) (hup : u.root ∈ f.children p) (hne : t.root ≠ u.root) :
    t.nodes.Disjoint u.nodes := by
  have hapart : ∀ {a b : NodeId}, a ∈ f.children p → b ∈ f.children p → f.Above a b → a = b := by
    intro a b ha hb hab
    rcases above_iff.mp hab with rfl | ⟨q, hq, haq⟩
    · rfl
    · have hqp : q = p := parent_unique (f.parent_eq_some_iff.mp hq) hb
      exact absurd (hqp ▸ haq) (not_above_parent (f.parent_eq_some_iff.mpr ha))
  intro m hmt hmu
  rcases ((ht.mem_nodes_iff m).mp hmt).total ((hu.mem_nodes_iff m).mp hmu) with hab | hab
  · exact hne (hapart hup htp hab).symm
  · exact hne (hapart htp hup hab)

/-- The tree of a child does not meet the trees of the siblings after it. -/
theorem Spans.disjoint_rest {p : NodeId} {done : List NodeId} {t u : OrderedTree NodeId}
    {ts : List (OrderedTree NodeId)} (hp : f.children p = done ++ (t :: ts).map root)
    (hts : ∀ u ∈ t :: ts, f.Spans u) (hu : u ∈ ts) : t.nodes.Disjoint u.nodes := by
  have hnodup : ((t :: ts).map root).Nodup :=
    (List.nodup_append.mp (hp ▸ f.nodup_children p)).2.1
  have hmem : ∀ v ∈ t :: ts, v.root ∈ f.children p := fun v hv =>
    hp ▸ List.mem_append_right done (List.mem_map_of_mem hv)
  have hu' := List.mem_cons_of_mem t hu
  rw [List.map_cons, List.nodup_cons] at hnodup
  have hne : t.root ≠ u.root := fun he => hnodup.1 (he ▸ List.mem_map_of_mem hu)
  exact (hts t (List.mem_cons_self ..)).disjoint (hts u hu') (hmem t (List.mem_cons_self ..))
    (hmem u hu') hne

theorem Spans.nodup {t : OrderedTree NodeId} (h : f.Spans t) : t.nodes.Nodup := by
  induction h with
  | @node n ts hroots hts ih =>
    have hmem : ∀ {t}, t ∈ ts → t.root ∈ f.children n := fun ht =>
      hroots ▸ List.mem_map_of_mem ht
    rw [nodes_node, List.nodup_cons, List.nodup_flatMap]
    refine ⟨fun hn => ?_, fun t ht => ih t ht, ?_⟩
    · obtain ⟨t, ht, hnt⟩ := List.mem_flatMap.mp hn
      exact not_above_parent (f.parent_eq_some_iff.mpr (hmem ht))
        (((hts t ht).mem_nodes_iff n).mp hnt)
    · have hnodup : (ts.map root).Nodup := hroots ▸ f.nodup_children n
      refine (List.pairwise_map.mp hnodup).imp_of_mem fun ht hu hne => ?_
      exact (hts _ ht).disjoint (hts _ hu) (hmem ht) (hmem hu) hne

/-- The parent of a root is not in the tree. -/
theorem Spans.parent_notMem {p : NodeId} {t : OrderedTree NodeId} (ht : f.Spans t)
    (hp : t.root ∈ f.children p) : p ∉ t.nodes := fun h =>
  not_above_parent (f.parent_eq_some_iff.mpr hp) ((ht.mem_nodes_iff p).mp h)

/-- A sibling of a root is not in the tree. -/
theorem Spans.sibling_notMem {p w : NodeId} {t : OrderedTree NodeId} (ht : f.Spans t)
    (htp : t.root ∈ f.children p) (hwp : w ∈ f.children p) (hne : w ≠ t.root) : w ∉ t.nodes := by
  obtain ⟨u, rfl, hu⟩ := f.exists_spans w
  exact hu.disjoint ht hwp htp hne u.root_mem_nodes

/-- What stands among the children in front of some trees is neither their parent nor in them. -/
theorem Spans.notMem_of_mem_front {p w : NodeId} {done : List NodeId}
    {us : List (OrderedTree NodeId)} (hp : f.children p = done ++ us.map root)
    (hus : ∀ u ∈ us, f.Spans u) (hw : w ∈ done) : w ≠ p ∧ w ∉ us.flatMap nodes := by
  have hwp : w ∈ f.children p := hp ▸ List.mem_append_left _ hw
  have hnodup := List.nodup_append.mp (hp ▸ f.nodup_children p)
  refine ⟨fun he => not_mem_children_self p (he ▸ hwp), fun hm => ?_⟩
  obtain ⟨u, hu, hwu⟩ := List.mem_flatMap.mp hm
  have hroot : u.root ∈ us.map root := List.mem_map_of_mem hu
  exact (hus u hu).sibling_notMem (hp ▸ List.mem_append_right _ hroot) hwp
    (hnodup.2.2 w hw u.root hroot) hwu

/-- A tree stays when the children of its nodes do. -/
theorem Spans.congr {g : Forest} {t : OrderedTree NodeId} (h : f.Spans t)
    (hg : ∀ n ∈ t.nodes, g.children n = f.children n) : g.Spans t := by
  induction h with
  | @node n ts hroots hts ih =>
    refine .node ((hg n (by simp)).trans hroots) fun t ht => ih t ht fun m hm => hg m ?_
    simp only [nodes_node, List.mem_cons, List.mem_flatMap]
    exact Or.inr ⟨t, ht, hm⟩

end Forest

namespace Store

def treeWithin (s : Store) : ℕ → NodeId → OrderedTree NodeId
  | 0, n => .leaf n
  | k + 1, n => .node n ((s.children n).map (s.treeWithin k))

/-- The tree below a node. In a forest it has no more levels than there are cells. -/
def tree (s : Store) (n : NodeId) : OrderedTree NodeId := s.treeWithin s.size n

@[simp] theorem root_tree (s : Store) (n : NodeId) : (s.tree n).root = n := by
  unfold tree
  cases s.size <;> rfl

/-- A tree is read off if at each of its places the links spell the children, given levels enough. -/
theorem treeWithin_eq {s : Store} {t : OrderedTree NodeId}
    (h : ∀ u ∈ t.subtrees, s.children u.root = u.children.map root) {k : ℕ}
    (hk : t.nodes.length ≤ k + 1) : s.treeWithin k t.root = t := by
  induction t using OrderedTree.induction generalizing k with
  | h n ts ih =>
    rw [forall_subtrees_node] at h
    have hbelow : ∀ t ∈ ts, t.nodes.length ≤ k := by
      intro t ht
      have hle := (sublist_nodes_of_mem ht).length_le
      simp only [nodes_node, List.length_cons] at hk
      omega
    cases k with
    | zero =>
      have hnil : ts = [] := List.eq_nil_iff_forall_not_mem.mpr fun t ht => by
        have hpos := t.length_nodes_pos
        have hle := hbelow t ht
        omega
      subst hnil
      rfl
    | succ k =>
      rw [root_node, children_node] at h
      rw [root_node, treeWithin, h.1, List.map_map]
      apply congrArg (OrderedTree.node n)
      refine (List.map_congr_left fun t ht => ?_).trans (List.map_id ts)
      exact ih t ht (h.2 t ht) (hbelow t ht)

namespace Realizes

variable {s : Store} {base : ℕ} {f : Forest} (h : s.Realizes base f)

include h

theorem nodes_lt {t : OrderedTree NodeId} (ht : f.Spans t) (hroot : t.root.index < s.size) :
    ∀ n ∈ t.nodes, n.index < s.size := by
  intro n hn
  rcases Forest.above_iff.mp ((ht.mem_nodes_iff n).mp hn) with he | ⟨p, hp, -⟩
  · exact he ▸ hroot
  · exact (h.index_lt (f.parent_eq_some_iff.mp hp)).1

theorem length_nodes_le {t : OrderedTree NodeId} (ht : f.Spans t)
    (hroot : t.root.index < s.size) : t.nodes.length ≤ s.size :=
  length_le_size ht.nodup (h.nodes_lt ht hroot)

theorem tree_eq {t : OrderedTree NodeId} (ht : f.Spans t) (hbase : base ≤ t.root.index)
    (hroot : t.root.index < s.size) : s.tree t.root = t := by
  have hle := h.length_nodes_le ht hroot
  refine treeWithin_eq (fun u hu => ?_) (by omega)
  have hspans : f.Spans u ∧ base ≤ u.root.index := by
    refine forall_subtrees (P := fun u => f.Spans u ∧ base ≤ u.root.index) (fun t ht u hu => ?_)
      ⟨ht, hbase⟩ u hu
    have hmem : u.root ∈ f.children t.root := ht.1.children_root ▸ List.mem_map_of_mem hu
    exact ⟨ht.1.child hu, (h.base_le hmem).1⟩
  rw [h.children_eq hspans.2, hspans.1.children_root]

/-- The trees of children are within the store. -/
theorem nodes_lt_of_children {p : NodeId} {done : List NodeId} {us : List (OrderedTree NodeId)}
    (hp : f.children p = done ++ us.map root) (hus : ∀ u ∈ us, f.Spans u) :
    ∀ n ∈ us.flatMap nodes, n.index < s.size := by
  intro n hn
  obtain ⟨u, hu, hnu⟩ := List.mem_flatMap.mp hn
  have hmem : u.root ∈ f.children p := hp ▸ List.mem_append_right _ (List.mem_map_of_mem hu)
  exact h.nodes_lt (hus u hu) (h.index_lt hmem).1 n hnu

/-- The tree below a node of the store is a tree of the forest. -/
theorem spans_tree {n : NodeId} (hbase : base ≤ n.index) (hn : n.index < s.size) :
    f.Spans (s.tree n) := by
  obtain ⟨t, rfl, ht⟩ := f.exists_spans n
  rwa [h.tree_eq ht hbase hn]

/-- The tree below a node consists of the node and the trees below its children. -/
theorem tree_eq_node {n : NodeId} (hbase : base ≤ n.index) (hn : n.index < s.size) :
    s.tree n = .node n ((f.children n).map s.tree) := by
  obtain ⟨t, rfl, ht⟩ := f.exists_spans n
  rw [h.tree_eq ht hbase hn]
  have hbelow : ∀ u ∈ t.children, s.tree u.root = u := by
    intro u hu
    have hmem : u.root ∈ f.children t.root := ht.children_root ▸ List.mem_map_of_mem hu
    exact h.tree_eq (ht.child hu) (h.base_le hmem).1 (h.index_lt hmem).1
  rw [ht.children_root, List.map_map]
  cases t with
  | node m ts =>
    have hts : ts.map (s.tree ∘ root) = ts := (List.map_congr_left hbelow).trans (List.map_id ts)
    exact congrArg (OrderedTree.node m) hts.symm

theorem mem_nodes_tree {n m : NodeId} (hbase : base ≤ n.index) (hn : n.index < s.size) :
    m ∈ (s.tree n).nodes ↔ f.Above n m := by
  rw [(h.spans_tree hbase hn).mem_nodes_iff, root_tree]

theorem index_lt_of_mem_tree {n m : NodeId} (hbase : base ≤ n.index) (hn : n.index < s.size)
    (hm : m ∈ (s.tree n).nodes) : m.index < s.size :=
  h.nodes_lt (h.spans_tree hbase hn) (by rwa [root_tree]) m hm

/-- A child in a tree is its root, or its parent is in the tree. -/
theorem eq_or_parent_mem_tree {p c n : NodeId} (hbase : base ≤ n.index) (hn : n.index < s.size)
    (hc : c ∈ f.children p) (hmem : c ∈ (s.tree n).nodes) : c = n ∨ p ∈ (s.tree n).nodes := by
  rw [h.mem_nodes_tree hbase hn] at hmem ⊢
  rcases Forest.above_iff.mp hmem with he | ⟨q, hq, habove⟩
  · exact .inl he.symm
  · exact .inr (Forest.parent_unique (f.parent_eq_some_iff.mp hq) hc ▸ habove)

end Realizes

end Store

end DocTree
