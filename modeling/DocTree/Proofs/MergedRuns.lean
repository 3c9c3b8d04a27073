import DocTree.Proofs.Coalescing
import DocTree.Proofs.Normalization

/-!
The two ways of wrapping items compared, on a store. Starting from the same store, the pass that merges
leaves the tree that comes about when runs of new lists are merged in what the other pass leaves, and
everything else is alike. The pass that does not merge makes a list for each item that stands in none,
the other one a list for each run of such items.
-/
namespace DocTree.Store

open OrderedTree

/-- The items below `n` that stand in no list. -/
def looseItems (s : Store) (n : NodeId) : List NodeId :=
  (s.tree n).nodes.filter fun m =>
    m ≠ n ∧ s.kind m = .item ∧ (s.link .parent m).map s.kind ≠ some .list

def itemGroups (s : Store) (merge : Bool) (p : NodeId) : List (List NodeId) :=
  if s.kind p = .list then [] else groups (s.kind · = .item) merge (s.children p)

/-- The maximal runs of neighbouring items at `n` and below that stand in no list. -/
def looseRuns (s : Store) (n : NodeId) : List (List NodeId) :=
  (s.tree n).nodes.flatMap fun p =>
    if s.kind p = .list then [] else runs (s.kind · = .item) (s.children p)

/-- From `s` the stores `each` and `merged` have come about, with all items below `n` in lists. But for
the names of new nodes they differ in nothing than that in `merged` there is one list where in `each`
there are new lists side by side. -/
structure MergesTo (n : NodeId) (s each merged : Store) : Prop where
  wellFormed : each.WellFormed ∧ merged.WellFormed
  tree_eq : coalesce Option.isNone ((each.tree n).map (origin s.size)) =
    (merged.tree n).map (origin s.size)
  label_eq : ∀ m, m.index < s.size → merged.label m = each.label m
  label_new : ∀ m, s.size ≤ m.index → (m.index < each.size → each.label m = .list) ∧
    (m.index < merged.size → merged.label m = .list)
  mem_new : ∀ m, s.size ≤ m.index → (m.index < each.size → m ∈ (each.tree n).nodes) ∧
    (m.index < merged.size → m ∈ (merged.tree n).nodes)
  position_eq : merged.position n = each.position n
  link_eq : ∀ m, m.index < s.size → m ∉ (s.tree n).nodes → ∀ l, merged.link l m = each.link l m

variable {s s' : Store} {n : NodeId} {merge : Bool} {made : ℕ}

/-- If all nodes from some one on stand in one tree, there are as many of them as cells. -/
theorem WellFormed.countP_new (h : s'.WellFormed) (hn : n.index < s'.size) {size : ℕ}
    (hnew : ∀ m, size ≤ m.index → m.index < s'.size → m ∈ (s'.tree n).nodes) :
    (s'.tree n).nodes.countP (size ≤ ·.index) = s'.size - size :=
  countP_index_ge (h.realizes.spans_tree (Nat.zero_le _) hn).nodup
    (fun _ hm => h.realizes.index_lt_of_mem_tree (Nat.zero_le _) hn hm) hnew

/-- New nodes are those without an origin. -/
theorem isNone_origin (size : ℕ) :
    Option.isNone ∘ origin size = fun m : NodeId => decide (size ≤ m.index) := by
  funext m
  by_cases hm : m.index < size
  · simp [origin, hm]
  · simp [origin, hm, Nat.le_of_not_lt hm]

/-- New nodes are as many as the lists made, and all of them stand in the tree. -/
theorem Normalizes.countP_new (h : Normalizes merge n made s s') (hn : n.index < s.size) :
    ((s'.tree n).map (origin s.size)).nodes.countP Option.isNone = made := by
  have hsize := h.size_eq
  rw [nodes_map, List.countP_map, isNone_origin, h.wellFormed.countP_new (by omega) h.mem_new]
  omega

section Counts

variable {f : Forest} (hs : s.Realizes 0 f)

include hs

/-- The groups of items at a place of a tree are those of the store. -/
theorem Realizes.length_itemGroups {u : OrderedTree NodeId} (hu : f.Spans u) (merge : Bool) :
    (groups (wrappable s.kind u.root) merge u.children).length =
      (s.itemGroups merge u.root).length := by
  by_cases hlist : s.kind u.root = .list
  · rw [itemGroups, if_pos hlist, groups_of_not fun v _ => by simp [wrappable, hlist]]
    rfl
  · have hitem : ∀ v : OrderedTree NodeId,
        decide (s.kind v.root = .item) = wrappable s.kind u.root v := fun v => by
      simp [wrappable, hlist]
    rw [itemGroups, if_neg hlist, hs.children_eq (Nat.zero_le _), hu.children_root,
      groups_map hitem, List.length_map]

/-- There is a new list for each group of items. -/
theorem Normalizes.made_eq (h : Normalizes merge n made s s') (hn : n.index < s.size) :
    made = ((s.tree n).nodes.flatMap (s.itemGroups merge)).length := by
  have ht := hs.spans_tree (Nat.zero_le _) hn
  have hnone : Option.isNone (none : Option NodeId) = true := rfl
  have hold : ((s.tree n).map some).nodes.countP Option.isNone = 0 := by
    simp [nodes_map, List.countP_map]
  have hgroups : ∀ u ∈ (s.tree n).subtrees,
      (groups (wrappable (originKind s.kind) (u.map some).root) merge (u.map some).children).length =
        (s.itemGroups merge u.root).length := by
    intro u hu
    have hspans := forall_subtrees (fun t ht v hv => Forest.Spans.child ht hv) ht u hu
    rw [root_map, children_map, groups_map (q := wrappable s.kind u.root) fun v => by
      simp [wrappable, originKind], List.length_map, hs.length_itemGroups hspans]
  calc made = ((s'.tree n).map (origin s.size)).nodes.countP Option.isNone := (h.countP_new hn).symm
    _ = (normalized s.kind merge (s.tree n)).nodes.countP Option.isNone := by rw [h.tree_eq]
    _ = (((s.tree n).map some).subtrees.flatMap fun u =>
          groups (wrappable (originKind s.kind) u.root) merge u.children).length := by
      rw [normalized, countP_normalize hnone, hold, Nat.add_zero]
    _ = ((s.tree n).subtrees.flatMap fun u => s.itemGroups merge u.root).length := by
      rw [subtrees_map, List.flatMap_map, List.length_flatMap, List.length_flatMap]
      exact congrArg List.sum (List.map_congr_left hgroups)
    _ = ((s.tree n).nodes.flatMap (s.itemGroups merge)).length := by
      rw [← map_root_subtrees, List.flatMap_map]

/-- One by one the items that stand in no list are taken. -/
theorem Realizes.length_looseItems (hn : n.index < s.size) :
    (s.looseItems n).length = ((s.tree n).nodes.flatMap (s.itemGroups false)).length := by
  have ht := hs.spans_tree (Nat.zero_le _) hn
  have hroot := s.root_tree n
  let loose (m : NodeId) : Bool :=
    m ≠ n ∧ s.kind m = .item ∧ (s.link .parent m).map s.kind ≠ some .list
  have hat : ∀ u ∈ (s.tree n).subtrees,
      (u.children.map root).countP loose = (s.itemGroups false u.root).length := by
    intro u hu
    have hspans := forall_subtrees (fun t ht v hv => Forest.Spans.child ht hv) ht u hu
    rw [← hs.length_itemGroups hspans, length_groups_false, List.countP_map]
    refine List.countP_congr fun v hv => ?_
    have hparent : s.link .parent v.root = some u.root := by
      rw [hs.parent_eq (Nat.zero_le _), f.parent_eq_some_iff, hspans.children_root]
      exact List.mem_map_of_mem hv
    have habove : f.Above n u.root := by
      rw [← hs.mem_nodes_tree (Nat.zero_le _) hn, ← map_root_subtrees]
      exact List.mem_map_of_mem hu
    have hne : v.root ≠ n := by
      intro he
      rw [hs.parent_eq (Nat.zero_le _), he] at hparent
      exact Forest.not_above_parent hparent habove
    simp [loose, hparent, hne, wrappable, and_comm]
  calc (s.looseItems n).length = (s.tree n).nodes.countP loose := by
        rw [looseItems, List.countP_eq_length_filter]
    _ = ((s.tree n).subtrees.flatMap fun u => u.children.map root).countP loose := by
      rw [(s.tree n).nodes_perm.countP_eq, List.countP_cons_of_neg (by simp [loose])]
    _ = ((s.tree n).subtrees.flatMap fun u => s.itemGroups false u.root).length := by
      rw [List.countP_flatMap, List.length_flatMap]
      exact congrArg List.sum (List.map_congr_left hat)
    _ = ((s.tree n).nodes.flatMap (s.itemGroups false)).length := by
      rw [← map_root_subtrees, List.flatMap_map]

end Counts

/-- What the two passes leave is alike but for the merging of new lists. -/
theorem Normalizes.mergesTo {each merged : Store} {made₀ made₁ : ℕ}
    (h₀ : Normalizes false n made₀ s each) (h₁ : Normalizes true n made₁ s merged) :
    MergesTo n s each merged where
  wellFormed := ⟨h₀.wellFormed, h₁.wellFormed⟩
  tree_eq := by
    have hold : ∀ o ∈ ((s.tree n).map some).nodes, Option.isNone o = false := by
      simp [nodes_map]
    rw [h₀.tree_eq, h₁.tree_eq]
    exact coalesce_normalize rfl (originKind s.kind) hold
  label_eq m hm := (h₁.label_eq m hm).trans (h₀.label_eq m hm).symm
  label_new m hm := ⟨h₀.label_new m hm, h₁.label_new m hm⟩
  mem_new m hm := ⟨h₀.mem_new m hm, h₁.mem_new m hm⟩
  position_eq := h₁.position_eq.trans h₀.position_eq.symm
  link_eq m hm hout l := (h₁.link_eq m hm hout l).trans (h₀.link_eq m hm hout l).symm

/-- There are no more runs of items than items, and just as many if no two items stand side by side. -/
theorem length_itemGroups_true_le (nodes : List NodeId) :
    (nodes.flatMap (s.itemGroups true)).length ≤ (nodes.flatMap (s.itemGroups false)).length ∧
      ((nodes.flatMap (s.itemGroups true)).length = (nodes.flatMap (s.itemGroups false)).length ↔
        ∀ p ∈ nodes, s.kind p ≠ .list →
          (s.children p).IsChain fun c d => ¬ (s.kind c = .item ∧ s.kind d = .item)) := by
  have hat : ∀ p, (s.itemGroups true p).length ≤ (s.itemGroups false p).length ∧
      ((s.itemGroups true p).length = (s.itemGroups false p).length ↔ (s.kind p ≠ .list →
        (s.children p).IsChain fun c d => ¬ (s.kind c = .item ∧ s.kind d = .item))) := by
    intro p
    by_cases hp : s.kind p = .list
    · simp [itemGroups, hp]
    · have hruns := length_runs_le (q := fun c => s.kind c = .item) (s.children p)
      simpa [itemGroups, hp, length_groups_false, length_groups_true] using hruns
  obtain ⟨hle, heq⟩ := @length_flatMap_le _ _ (s.itemGroups true) (s.itemGroups false) nodes
    fun p _ => (hat p).1
  exact ⟨hle, heq.trans (forall₂_congr fun p _ => (hat p).2)⟩

/-- From one start the passes differ in the merging of new lists. They make a list for each item that
stands in none, or for each run of such items. -/
theorem wrapItems_mergesTo (h : s.WellFormed) (hn : n.index < s.size) :
    ∃ each made₀ merged made₁, s.wrapItems n false = some (each, made₀) ∧
      s.wrapItems n true = some (merged, made₁) ∧ MergesTo n s each merged ∧
      made₀ = (s.looseItems n).length ∧ made₁ = (s.looseRuns n).length ∧ made₁ ≤ made₀ ∧
      (made₁ = made₀ ↔ ∀ p ∈ (s.tree n).nodes, s.kind p ≠ .list →
        (s.children p).IsChain fun c d => ¬ (s.kind c = .item ∧ s.kind d = .item)) := by
  have hs := h.realizes
  obtain ⟨each, made₀, hrun₀, h₀⟩ := hs.normalizes hn false
  obtain ⟨merged, made₁, hrun₁, h₁⟩ := hs.normalizes hn true
  have hmade₀ := h₀.made_eq hs hn
  have hmade₁ := h₁.made_eq hs hn
  obtain ⟨hle, heq⟩ := s.length_itemGroups_true_le (s.tree n).nodes
  rw [← hmade₀, ← hmade₁] at hle heq
  exact ⟨each, made₀, merged, made₁, hrun₀, hrun₁, h₀.mergesTo h₁,
    hmade₀.trans (hs.length_looseItems hn).symm, hmade₁, hle, heq⟩

theorem twoItems_mergesTo : twoItems.WellFormed ∧ (⟨0⟩ : NodeId).index < twoItems.size ∧
    ∃ each merged, twoItems.wrapItems ⟨0⟩ false = some (each, 2) ∧
      twoItems.wrapItems ⟨0⟩ true = some (merged, 1) ∧ MergesTo ⟨0⟩ twoItems each merged := by
  obtain ⟨each, made₀, merged, made₁, hrun₀, hrun₁, hmerges, hmade₀, hmade₁, -⟩ :=
    wrapItems_mergesTo twoItems_wellFormed (n := ⟨0⟩) (by decide)
  have hitems : (twoItems.looseItems ⟨0⟩).length = 2 := by decide
  have hnodes : (twoItems.tree ⟨0⟩).nodes = [⟨0⟩, ⟨1⟩, ⟨2⟩] := by decide
  have hchildren : twoItems.children ⟨0⟩ = [⟨1⟩, ⟨2⟩] ∧ twoItems.children ⟨1⟩ = [] ∧
      twoItems.children ⟨2⟩ = [] := by decide
  have hkinds : twoItems.kind ⟨0⟩ = .document ∧ twoItems.kind ⟨1⟩ = .item ∧
      twoItems.kind ⟨2⟩ = .item := by decide
  have hruns : (twoItems.looseRuns ⟨0⟩).length = 1 := by
    simp [looseRuns, hnodes, hchildren, hkinds, runs]
  rw [hmade₀, hitems] at hrun₀
  rw [hmade₁, hruns] at hrun₁
  exact ⟨twoItems_wellFormed, by decide, each, merged, hrun₀, hrun₁, hmerges⟩

end DocTree.Store
