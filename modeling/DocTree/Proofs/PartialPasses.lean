import DocTree.Proofs.RepeatedPasses
import DocTree.Proofs.MergedRuns

/-!
Passes over parts of a tree. What a pass below some node has put into lists, a later pass from the root
leaves as it is, and it does the rest; so however many passes went before, over whichever parts, the tree
comes out as if the items had been wrapped from the root at once, and as many lists are made in all.
Wrapping the root may come first or last.
-/
namespace DocTree.Store

open OrderedTree

/-- Wraps the items below each of the nodes in turn and adds up the numbers of lists made. -/
def wrapInTurn (merge : Bool) : List NodeId → Store → Option (Store × Nat)
  | [], s => some (s, 0)
  | v :: vs, s => do
    let (s, made) ← s.wrapItems v merge
    let (s, later) ← wrapInTurn merge vs s
    return (s, made + later)

/-- Each of the nodes stands in the tree of the root when it has its turn. -/
def InTurn (merge : Bool) (root : NodeId) : List NodeId → Store → Prop
  | [], _ => True
  | v :: vs, s => v ∈ (s.tree root).nodes ∧
      ∀ s' made, s.wrapItems v merge = some (s', made) → InTurn merge root vs s'

/-- From `s` to `s'` the tree of `root` has gained lists, and `root'` is its root then. The nodes that
were there are in the old order, all new nodes are in the tree, and nothing outside has changed. -/
structure GainsLists (s : Store) (root : NodeId) (s' : Store) (root' : NodeId) : Prop where
  wellFormed : s'.WellFormed
  size_le : s.size ≤ s'.size
  root_lt : root'.index < s'.size
  filter_nodes : (s'.tree root').nodes.filter (·.index < s.size) = (s.tree root).nodes
  label_eq : ∀ m, m.index < s.size → s'.label m = s.label m
  label_new : ∀ m, s.size ≤ m.index → m.index < s'.size → s'.label m = .list
  mem_new : ∀ m, s.size ≤ m.index → m.index < s'.size → m ∈ (s'.tree root').nodes
  link_eq : ∀ m, m.index < s.size → m ∉ (s.tree root).nodes → ∀ l, s'.link l m = s.link l m

/-- From `s` to `s'` some of the items below `root` have been put into lists, and if the others are, the
tree is the normalized one. -/
structure PartlyNormalizes (merge : Bool) (root : NodeId) (s s' : Store) : Prop where
  gains : s.GainsLists root s' root
  normalize_eq : normalize (originKind s.kind) none merge ((s'.tree root).map (origin s.size)) =
    normalized s.kind merge (s.tree root)

variable {s s' s₁ s₂ : Store} {root root₁ root₂ v : NodeId} {merge : Bool} {made : ℕ}

/-- The names are lost that a store of this size does not know. -/
def forget (size : ℕ) (o : Option NodeId) : Option NodeId := o.bind (origin size)

theorem forget_comp_origin {size size₁ : ℕ} (h : size ≤ size₁) :
    forget size ∘ origin size₁ = origin size := by
  funext n
  by_cases hn : n.index < size₁
  · simp [forget, origin, hn]
  · have hn' : ¬ n.index < size := by omega
    simp [forget, origin, hn, hn']

/-- The nodes of a tree of the store are all known to it. -/
theorem WellFormed.map_origin_tree (h : s.WellFormed) (hlt : root.index < s.size) :
    (s.tree root).map (origin s.size) = (s.tree root).map some :=
  map_congr fun _ hn => if_pos (h.realizes.index_lt_of_mem_tree (Nat.zero_le _) hlt hn)

/-- The tree of a node in a tree is within that tree. -/
theorem WellFormed.mem_tree_trans (h : s.WellFormed) (hlt : root.index < s.size)
    (hv : v ∈ (s.tree root).nodes) {n : NodeId} (hn : n ∈ (s.tree v).nodes) :
    n ∈ (s.tree root).nodes := by
  have hvlt := h.realizes.index_lt_of_mem_tree (Nat.zero_le _) hlt hv
  rw [h.realizes.mem_nodes_tree (Nat.zero_le _) hlt] at hv ⊢
  rw [h.realizes.mem_nodes_tree (Nat.zero_le _) hvlt] at hn
  exact hv.trans hn

namespace GainsLists

theorem refl (h : s.WellFormed) (hlt : root.index < s.size) : s.GainsLists root s root where
  wellFormed := h
  size_le := Nat.le_refl _
  root_lt := hlt
  filter_nodes := List.filter_eq_self.mpr fun _ hn =>
    decide_eq_true (h.realizes.index_lt_of_mem_tree (Nat.zero_le _) hlt hn)
  label_eq _ _ := rfl
  label_new _ hle hm := absurd hm (Nat.not_lt_of_le hle)
  mem_new _ hle hm := absurd hm (Nat.not_lt_of_le hle)
  link_eq _ _ _ _ := rfl

section

variable (h : s.GainsLists root s₁ root₁)

include h

theorem mem_tree {n : NodeId} (hn : n ∈ (s.tree root).nodes) : n ∈ (s₁.tree root₁).nodes := by
  rw [← h.filter_nodes] at hn
  exact (List.mem_filter.mp hn).1

theorem mem_tree_of_lt {n : NodeId} (hn : n ∈ (s₁.tree root₁).nodes) (hlt : n.index < s.size) :
    n ∈ (s.tree root).nodes := by
  rw [← h.filter_nodes]
  exact List.mem_filter.mpr ⟨hn, decide_eq_true hlt⟩

theorem trans (h' : s₁.GainsLists root₁ s₂ root₂) : s.GainsLists root s₂ root₂ where
  wellFormed := h'.wellFormed
  size_le := Nat.le_trans h.size_le h'.size_le
  root_lt := h'.root_lt
  filter_nodes := by
    have hsize := h.size_le
    rw [← h.filter_nodes, ← h'.filter_nodes, List.filter_filter]
    refine List.filter_congr fun n _ => ?_
    by_cases hn : n.index < s.size
    · simp [hn, Nat.lt_of_lt_of_le hn hsize]
    · simp [hn]
  label_eq m hm := (h'.label_eq m (Nat.lt_of_lt_of_le hm h.size_le)).trans (h.label_eq m hm)
  label_new m hle hm := by
    by_cases hm₁ : m.index < s₁.size
    · rw [h'.label_eq m hm₁, h.label_new m hle hm₁]
    · exact h'.label_new m (Nat.le_of_not_lt hm₁) hm
  mem_new m hle hm := by
    by_cases hm₁ : m.index < s₁.size
    · exact h'.mem_tree (h.mem_new m hle hm₁)
    · exact h'.mem_new m (Nat.le_of_not_lt hm₁) hm
  link_eq m hm hout l := by
    have hout₁ : m ∉ (s₁.tree root₁).nodes := fun hmem => hout (h.mem_tree_of_lt hmem hm)
    rw [h'.link_eq m (Nat.lt_of_lt_of_le hm h.size_le) hout₁, h.link_eq m hm hout]

/-- A tree is normalized alike whether the new lists are known by their names or not. -/
theorem map_normalize_origin (t : OrderedTree NodeId) :
    (normalize (originKind s₁.kind) none merge (t.map (origin s₁.size))).map (forget s.size) =
      normalize (originKind s.kind) none merge (t.map (origin s.size)) := by
  have hkind : ∀ o ∈ (t.map (origin s₁.size)).nodes,
      originKind s.kind (forget s.size o) = originKind s₁.kind o := by
    intro o ho
    rw [nodes_map] at ho
    obtain ⟨n, -, rfl⟩ := List.mem_map.mp ho
    by_cases hn₁ : n.index < s₁.size
    · by_cases hn : n.index < s.size
      · simp [forget, origin, originKind, hn, hn₁, kind, h.label_eq n hn]
      · simp [forget, origin, originKind, hn, hn₁, kind, Label.kind,
          h.label_new n (Nat.le_of_not_lt hn) hn₁]
    · simp [forget, origin, originKind, hn₁]
  rw [← normalize_congr _ none hkind merge,
    map_normalize (fun o => originKind s.kind (forget s.size o)) none (fun _ => rfl) merge,
    OrderedTree.map_map, forget_comp_origin h.size_le]
  rfl

/-- A pass from the root over a store with more lists normalizes what there is. -/
theorem map_origin_of_normalizes (h' : Normalizes merge root₁ made s₁ s₂) :
    (s₂.tree root₁).map (origin s.size) =
      normalize (originKind s.kind) none merge ((s₁.tree root₁).map (origin s.size)) := by
  rw [← h.map_normalize_origin, ← forget_comp_origin h.size_le, ← OrderedTree.map_map, h'.tree_eq,
    h.wellFormed.map_origin_tree h.root_lt]
  rfl

omit h in
/-- Trees that differ in the names of new nodes only have been made with as many new nodes. -/
theorem size_eq {a b : Store} (ha : s.GainsLists root a root₁) (hb : s.GainsLists root b root₂)
    (htree : (a.tree root₁).map (origin s.size) = (b.tree root₂).map (origin s.size)) :
    a.size = b.size := by
  have hcount := congrArg (fun t => t.nodes.countP Option.isNone) htree
  simp only [nodes_map, List.countP_map, isNone_origin] at hcount
  rw [ha.wellFormed.countP_new ha.root_lt ha.mem_new,
    hb.wellFormed.countP_new hb.root_lt hb.mem_new] at hcount
  have hsize := ha.size_le
  have hsize' := hb.size_le
  omega

end

end GainsLists

namespace Normalizes

/-- The tree of a node in which the items have been wrapped has gained lists. -/
theorem gainsLists (h : Normalizes merge root made s s') (hlt : root.index < s.size) :
    s.GainsLists root s' root where
  wellFormed := h.wellFormed
  size_le := by
    rw [h.size_eq]
    omega
  root_lt := by
    rw [h.size_eq]
    omega
  filter_nodes := h.filter_nodes
  label_eq := h.label_eq
  label_new := h.label_new
  mem_new := h.mem_new
  link_eq := h.link_eq

section Part

variable (hs : s.WellFormed) (h : Normalizes merge v made s s₁) (hlt : v.index < s.size)

include hs h hlt

/-- Outside of the tree below `v` no node gets other children. -/
theorem children_eq {n : NodeId} (hn : n.index < s.size) (hout : n ∉ (s.tree v).nodes) :
    h.wellFormed.forest.children n = hs.forest.children n := by
  have hpath : s.Path .next _ _ := hs.realizes.path_next (List.nil_append (hs.forest.children n)).symm
  have hpath₁ : s₁.Path .next _ _ :=
    h.wellFormed.realizes.path_next (List.nil_append (h.wellFormed.forest.children n)).symm
  have hnext : ∀ c ∈ hs.forest.children n, s₁.link .next c = s.link .next c := by
    intro c hc
    by_cases hcv : c = v
    · have hposition := h.position_eq
      simp only [position, Position.mk.injEq] at hposition
      rw [hcv, hposition.2.2]
    · refine h.link_eq c (hs.realizes.index_lt hc).1 (fun hmem => ?_) .next
      exact (hs.realizes.eq_or_parent_mem_tree (Nat.zero_le _) hlt hc hmem).elim hcv hout
  have hstart : (h.wellFormed.forest.children n).head? = (hs.forest.children n).head? := by
    rw [← h.wellFormed.realizes.firstChild_eq (Nat.zero_le _),
      ← hs.realizes.firstChild_eq (Nat.zero_le _)]
    exact h.link_eq n hn hout .firstChild
  rw [hstart] at hpath₁
  exact hpath₁.unique (hpath.congr hnext)

/-- What a pass below `v` leaves of a tree is normalized to the same as the tree, unless the tree begins
inside of what has been wrapped. -/
theorem normalize_map_origin {t : OrderedTree NodeId} (ht : hs.forest.Spans t)
    (htlt : t.root.index < s.size) (hout : t.root ∈ (s.tree v).nodes → t.root = v) :
    normalize (originKind s.kind) none merge ((s₁.tree t.root).map (origin s.size)) =
      normalized s.kind merge t := by
  induction t using OrderedTree.induction with
  | h n ts ih =>
    rw [root_node] at htlt hout ⊢
    by_cases hnv : n = v
    · -- what has been wrapped stays
      subst hnv
      have htree : s.tree n = .node n ts := hs.realizes.tree_eq ht (Nat.zero_le _) htlt
      rw [h.tree_eq, htree]
      exact normalize_of_itemsInLists (itemsInLists_normalize rfl merge _) merge
    · have hroots : hs.forest.children n = ts.map root := ht.children_root
      have hlt₁ : n.index < s₁.size := by
        rw [h.size_eq]
        omega
      have htree : s₁.tree n = .node n (ts.map fun t => s₁.tree t.root) := by
        rw [h.wellFormed.realizes.tree_eq_node (Nat.zero_le _) hlt₁,
          children_eq hs h hlt htlt (mt hout hnv), hroots, List.map_map]
        rfl
      have hbelow : ((ts.map fun t => s₁.tree t.root).map (OrderedTree.map (origin s.size))).map
          (normalize (originKind s.kind) none merge) = ts.map (normalized s.kind merge) := by
        rw [List.map_map, List.map_map]
        refine List.map_congr_left fun t hmem => ?_
        have hchild : t.root ∈ hs.forest.children n := hroots ▸ List.mem_map_of_mem hmem
        refine ih t hmem (ht.child hmem) (hs.realizes.index_lt hchild).1 fun hin => ?_
        have hparent := hs.realizes.eq_or_parent_mem_tree (Nat.zero_le _) hlt hchild hin
        exact hparent.resolve_right (mt hout hnv)
      have horigin : origin s.size n = some n := if_pos htlt
      rw [htree, map_node, normalize_node, hbelow, normalized_node, horigin]

end Part

/-- A pass below a node of a tree normalizes a part of the tree. -/
theorem partlyNormalizes (hs : s.WellFormed) (hroot : root.index < s.size)
    (hv : v ∈ (s.tree root).nodes) (h : Normalizes merge v made s s₁) :
    PartlyNormalizes merge root s s₁ := by
  have hspans := hs.realizes.spans_tree (Nat.zero_le _) hroot
  have hlt := hs.realizes.index_lt_of_mem_tree (Nat.zero_le _) hroot hv
  have hsize := h.size_eq
  have hnormalize : normalize (originKind s.kind) none merge
      ((s₁.tree root).map (origin s.size)) = normalized s.kind merge (s.tree root) := by
    have hkey := normalize_map_origin hs h hlt hspans (by rwa [root_tree]) fun hmem => ?_
    · rwa [root_tree] at hkey
    · rw [root_tree, hs.realizes.mem_nodes_tree (Nat.zero_le _) hlt] at hmem
      rw [hs.realizes.mem_nodes_tree (Nat.zero_le _) hroot] at hv
      rw [root_tree]
      exact hv.antisymm hmem
  have hfilter : (s₁.tree root).nodes.filter (·.index < s.size) = (s.tree root).nodes := by
    refine filter_nodes_of_map_origin ?_
    rw [← filter_nodes_normalized s.kind merge, ← hnormalize, filter_nodes_normalize _ _ rfl]
  have hroot₁ : root.index < s₁.size := by omega
  have hv₁ : v ∈ (s₁.tree root).nodes := (List.mem_filter.mp (hfilter ▸ hv)).1
  exact ⟨⟨h.wellFormed, by omega, hroot₁, hfilter, h.label_eq, h.label_new,
    fun m hle hm => h.wellFormed.mem_tree_trans hroot₁ hv₁ (h.mem_new m hle hm),
    fun m hm hout => h.link_eq m hm (mt (hs.mem_tree_trans hroot hv) hout)⟩, hnormalize⟩

end Normalizes

namespace PartlyNormalizes

theorem refl (hs : s.WellFormed) (hlt : root.index < s.size) :
    PartlyNormalizes merge root s s where
  gains := .refl hs hlt
  normalize_eq := by
    rw [hs.map_origin_tree hlt]
    rfl

theorem trans (h : PartlyNormalizes merge root s s₁) (h' : PartlyNormalizes merge root s₁ s₂) :
    PartlyNormalizes merge root s s₂ where
  gains := h.gains.trans h'.gains
  normalize_eq := by
    have hknown := h.gains.wellFormed.map_origin_tree h.gains.root_lt
    rw [← h.gains.map_normalize_origin, h'.normalize_eq, normalized, ← hknown,
      h.gains.map_normalize_origin, h.normalize_eq]

/-- A pass from the root after others leaves the normalized tree. -/
theorem map_origin_of_normalizes (h : PartlyNormalizes merge root s s₁)
    (h' : Normalizes merge root made s₁ s₂) :
    (s₂.tree root).map (origin s.size) = normalized s.kind merge (s.tree root) :=
  (h.gains.map_origin_of_normalizes h').trans h.normalize_eq

end PartlyNormalizes

/-- Passes below nodes of a tree, one after the other, normalize a part of the tree. -/
theorem WellFormed.wrapInTurn (hs : s.WellFormed) (hlt : root.index < s.size) {vs : List NodeId}
    (hvs : InTurn merge root vs s) :
    ∃ s' made, s.wrapInTurn merge vs = some (s', made) ∧ s'.size = s.size + made ∧
      PartlyNormalizes merge root s s' := by
  induction vs generalizing s with
  | nil => exact ⟨s, 0, rfl, rfl, .refl hs hlt⟩
  | cons v vs ih =>
    obtain ⟨hv, hrest⟩ := hvs
    have hvlt := hs.realizes.index_lt_of_mem_tree (Nat.zero_le _) hlt hv
    obtain ⟨s₁, made, hrun, hpass⟩ := wrapItems_normalizes hs hvlt merge
    have hpart := hpass.partlyNormalizes hs hlt hv
    obtain ⟨s', later, hruns, hsize, hparts⟩ :=
      ih hpass.wellFormed hpart.gains.root_lt (hrest s₁ made hrun)
    refine ⟨s', made + later, by simp [Store.wrapInTurn, hrun, hruns], ?_, hpart.trans hparts⟩
    rw [hsize, hpass.size_eq, Nat.add_assoc]

section Root

variable (hs : s.WellFormed) (hlt : root.index < s.size) (hfree : s.link .parent root = none)

include hs hlt hfree

/-- Wrapping the root adds a list if the root is an item. -/
theorem WellFormed.gainsLists_wrapRoot :
    s.GainsLists root (s.wrapRoot root).1 (s.wrapRoot root).2 ∧
      (s.wrapRoot root).1.tree (s.wrapRoot root).2 = s.wrappedRoot (s.tree root) ∧
      (s.wrapRoot root).1.size = s.size + if s.kind root = .item then 1 else 0 := by
  have hspans := hs.realizes.spans_tree (Nat.zero_le _) hlt
  have hroot := s.root_tree root
  by_cases hitem : s.kind root = .item
  · have hrun : s.wrapRoot root = ((s.push .list).append s.fresh root, s.fresh) := if_pos hitem
    have hwrapped : s.wrappedRoot (s.tree root) = .node s.fresh [s.tree root] :=
      if_pos (by rwa [hroot])
    rw [hs.realizes.parent_eq (Nat.zero_le _)] at hfree
    obtain ⟨f', halters, hname, hspans', -, hlt', -⟩ := hs.realizes.wrapRoot hspans
      (Nat.zero_le _) (by rwa [hroot]) (by rwa [hroot])
    obtain ⟨-, -, hsize, -⟩ := hs.realizes.push_append (Nat.zero_le _) hlt hfree .list
    have hlabel : ((s.push .list).append s.fresh root).label s.fresh = .list := by simp
    rw [hroot, hrun] at halters hlt'
    rw [hwrapped] at hspans' hlt'
    rw [hrun, hwrapped, if_pos hitem]
    generalize (s.push .list).append s.fresh root = s' at *
    have htree : s'.tree s.fresh = .node s.fresh [s.tree root] :=
      halters.realizes.tree_eq hspans' (Nat.zero_le _) hlt'
    have hfresh : ∀ m : NodeId, s.size ≤ m.index → m.index < s'.size → m = s.fresh :=
      fun m hle hm => NodeId.ext (show m.index = s.size by omega)
    refine ⟨⟨halters.realizes.wellFormed, halters.size_le, hlt', ?_, halters.label_eq, ?_, ?_, ?_⟩,
      htree, hsize⟩
    · have hout : ¬ s.fresh.index < s.size := Nat.lt_irrefl s.size
      rw [htree, nodes_node, List.filter_cons_of_neg (by simpa using hout), List.flatMap_singleton]
      exact (GainsLists.refl hs hlt).filter_nodes
    · intro m hle hm
      rw [hfresh m hle hm, hlabel]
    · intro m hle hm
      rw [htree, hfresh m hle hm]
      exact root_mem_nodes (.node s.fresh [s.tree root])
    · intro m hm hout l
      have hne : m ≠ root := by
        rintro rfl
        exact hout (by simpa [hroot] using (s.tree m).root_mem_nodes)
      exact halters.link_eq hs.realizes (Nat.zero_le _) hm (by simpa using hne) (by simp) (by simp) l
  · have hrun : s.wrapRoot root = (s, root) := if_neg hitem
    have hwrapped : s.wrappedRoot (s.tree root) = s.tree root := if_neg (by rwa [hroot])
    rw [hrun, hwrapped, if_neg hitem]
    exact ⟨.refl hs hlt, rfl, rfl⟩

end Root

/-- Beyond what the store knows the root may be wrapped in a list without a name. -/
theorem map_origin_wrappedRoot {size : ℕ} (h : size ≤ s.size) (t : OrderedTree NodeId) :
    (s.wrappedRoot t).map (origin size) =
      if s.kind t.root = .item then .node none [t.map (origin size)] else t.map (origin size) := by
  have hfresh : origin size s.fresh = none := if_neg (Nat.not_lt_of_le h)
  unfold wrappedRoot
  split
  · rw [map_node, hfresh, List.map_singleton]
  · rfl

/-- Under a list nothing has to be put into a list. -/
theorem normalize_wrapped (kind : NodeId → NodeKind) (t : OrderedTree (Option NodeId)) :
    normalize (originKind kind) none merge (.node none [t]) =
      .node none [normalize (originKind kind) none merge t] := by
  rw [normalize_node, List.map_singleton, regroup_of_not]
  simp [wrappable, originKind]

/-- The root may be wrapped before the items below it or afterwards. -/
theorem WellFormed.wrapRoot_wrapItems {whole : Store} (hs : s.WellFormed) (hlt : root.index < s.size)
    (hfree : s.link .parent root = none) (hwhole : Normalizes merge root made s whole) :
    ∃ s', (s.wrapRoot root).1.wrapItems (s.wrapRoot root).2 merge = some (s', made) ∧
      s.GainsLists root s' (s.wrapRoot root).2 ∧
      s.GainsLists root (whole.wrapRoot root).1 (whole.wrapRoot root).2 ∧
      (s'.tree (s.wrapRoot root).2).map (origin s.size) =
        ((whole.wrapRoot root).1.tree (whole.wrapRoot root).2).map (origin s.size) := by
  have hgains := hwhole.gainsLists hlt
  have hkind : whole.kind root = s.kind root := by rw [kind, kind, hwhole.label_eq root hlt]
  have hposition := hwhole.position_eq
  simp only [position, Position.mk.injEq] at hposition
  obtain ⟨hfirst, htree, hsize⟩ := hs.gainsLists_wrapRoot hlt hfree
  obtain ⟨hlast, htree', hsize'⟩ :=
    hwhole.wellFormed.gainsLists_wrapRoot hgains.root_lt (hposition.1.trans hfree)
  obtain ⟨s', after, hrun, hafter⟩ := wrapItems_normalizes hfirst.wellFormed hfirst.root_lt merge
  have hall := hfirst.trans (hafter.gainsLists hfirst.root_lt)
  have hall' := hgains.trans hlast
  have hshape : (s'.tree (s.wrapRoot root).2).map (origin s.size) =
      ((whole.wrapRoot root).1.tree (whole.wrapRoot root).2).map (origin s.size) := by
    rw [hfirst.map_origin_of_normalizes hafter, htree, htree',
      map_origin_wrappedRoot (Nat.le_refl _), map_origin_wrappedRoot hgains.size_le,
      hs.map_origin_tree hlt, hwhole.tree_eq, root_tree, root_tree, hkind]
    split
    · rw [normalize_wrapped]
      rfl
    · rfl
  have hmade : after = made := by
    have hsizes := hall.size_eq hall' hshape
    rw [hafter.size_eq, hsize, hsize', hwhole.size_eq, hkind] at hsizes
    omega
  exact ⟨s', hmade ▸ hrun, hall, hall', hshape⟩

/-- Whatever parts of a tree have been gone through before, a pass from the root leaves the tree that it
leaves at once, but for the names of new lists, and as many lists have been made in all. The root may be
wrapped first or last. -/
theorem wrapInTurn_agrees (hs : s.WellFormed) (hlt : root.index < s.size)
    (hfree : s.link .parent root = none) (merge : Bool) :
    ∃ whole made, s.wrapItems root merge = some (whole, made) ∧ s.GainsLists root whole root ∧
      (∀ vs, InTurn merge root vs s → ∃ part before s' after,
        s.wrapInTurn merge vs = some (part, before) ∧
        part.wrapItems root merge = some (s', after) ∧ before + after = made ∧
        s.GainsLists root s' root ∧
        (s'.tree root).map (origin s.size) = (whole.tree root).map (origin s.size)) ∧
      ∃ s', (s.wrapRoot root).1.wrapItems (s.wrapRoot root).2 merge = some (s', made) ∧
        s.GainsLists root s' (s.wrapRoot root).2 ∧
        s.GainsLists root (whole.wrapRoot root).1 (whole.wrapRoot root).2 ∧
        (s'.tree (s.wrapRoot root).2).map (origin s.size) =
          ((whole.wrapRoot root).1.tree (whole.wrapRoot root).2).map (origin s.size) := by
  obtain ⟨whole, made, hrun, hwhole⟩ := wrapItems_normalizes hs hlt merge
  have hgains := hwhole.gainsLists hlt
  refine ⟨whole, made, hrun, hgains, fun vs hvs => ?_, hs.wrapRoot_wrapItems hlt hfree hwhole⟩
  obtain ⟨part, before, hparts, hsize, hpart⟩ := hs.wrapInTurn hlt hvs
  obtain ⟨s', after, hlast, hpass⟩ :=
    wrapItems_normalizes hpart.gains.wellFormed hpart.gains.root_lt merge
  have hall := hpart.gains.trans (hpass.gainsLists hpart.gains.root_lt)
  have hshape := (hpart.map_origin_of_normalizes hpass).trans hwhole.tree_eq.symm
  refine ⟨part, before, s', after, hparts, hlast, ?_, hall, hshape⟩
  have hsizes := hall.size_eq hgains hshape
  rw [hpass.size_eq, hsize, hwhole.size_eq] at hsizes
  omega

/-- A pass from the root and one below the list that it makes, before the last pass from the root. -/
theorem twoItems_wrapInTurn : twoItems.WellFormed ∧ InTurn true ⟨0⟩ [⟨0⟩, ⟨3⟩] twoItems ∧
    ∃ whole made, twoItems.wrapItems ⟨0⟩ true = some (whole, made) ∧
      ∃ part before s' after, twoItems.wrapInTurn true [⟨0⟩, ⟨3⟩] = some (part, before) ∧
        part.wrapItems ⟨0⟩ true = some (s', after) ∧ before + after = made ∧
        (s'.tree ⟨0⟩).map (origin twoItems.size) = (whole.tree ⟨0⟩).map (origin twoItems.size) := by
  have hturn : InTurn true ⟨0⟩ [⟨0⟩, ⟨3⟩] twoItems := by
    refine ⟨by decide, fun s' made hrun => ⟨?_, fun _ _ _ => trivial⟩⟩
    have hmem : ∀ p ∈ twoItems.wrapItems ⟨0⟩ true, (⟨3⟩ : NodeId) ∈ (p.1.tree ⟨0⟩).nodes := by
      decide
    exact hmem (s', made) hrun
  obtain ⟨whole, made, hrun, -, hparts, -⟩ :=
    @wrapInTurn_agrees twoItems ⟨0⟩ twoItems_wellFormed (by decide) rfl true
  obtain ⟨part, before, s', after, hbefore, hafter, hmade, -, hshape⟩ := hparts _ hturn
  exact ⟨twoItems_wellFormed, hturn, whole, made, hrun, part, before, s', after, hbefore, hafter,
    hmade, hshape⟩

end DocTree.Store
