import DocTree.Proofs.WellFormed
import DocTree.Proofs.Settling

/-!
Wrapping the items below a node of a store in order. The pass ends, the store stays in order, the tree
below the node becomes the normalized one, made of the old nodes and of new lists, and nothing else
changes.
-/
namespace DocTree.Store

open OrderedTree

/-- From `s` to `s'` the items below `n` have been wrapped, with so many new lists. -/
structure Normalizes (merge : Bool) (n : NodeId) (made : ℕ) (s s' : Store) : Prop where
  wellFormed : s'.WellFormed
  /-- Old nodes stand by their names and new lists without a name in the tree that grouping makes. -/
  tree_eq : (s'.tree n).map (origin s.size) = normalized s.kind merge (s.tree n)
  nodup : (s'.tree n).nodes.Nodup
  /-- The old nodes stand in the old order. -/
  filter_nodes : (s'.tree n).nodes.filter (·.index < s.size) = (s.tree n).nodes
  label_eq : ∀ m, m.index < s.size → s'.label m = s.label m
  size_eq : s'.size = s.size + made
  label_new : ∀ m, s.size ≤ m.index → m.index < s'.size → s'.label m = .list
  mem_new : ∀ m, s.size ≤ m.index → m.index < s'.size → m ∈ (s'.tree n).nodes
  position_eq : s'.position n = s.position n
  link_eq : ∀ m, m.index < s.size → m ∉ (s.tree n).nodes → ∀ l, s'.link l m = s.link l m

/-- What is left of a tree without the new nodes is a list of old ones if it is one of origins. -/
theorem filter_nodes_of_map_origin {size : ℕ} {t : OrderedTree NodeId} {ns : List NodeId}
    (h : (t.map (origin size)).nodes.filter Option.isSome = ns.map some) :
    t.nodes.filter (·.index < size) = ns := by
  have hcomp : Option.isSome ∘ origin size = fun n => decide (n.index < size) := by
    funext n
    by_cases hn : n.index < size <;> simp [origin, hn]
  have horigin : (t.map (origin size)).nodes.filter Option.isSome =
      (t.nodes.filter (·.index < size)).map some := by
    rw [nodes_map, List.filter_map, hcomp]
    apply List.map_congr_left
    intro n hn
    rw [origin, if_pos (by simpa using (List.mem_filter.mp hn).2)]
  exact List.map_injective_iff.mpr (Option.some_injective _) (horigin.symm.trans h)

theorem filter_nodes_normalized (kind : NodeId → NodeKind) (merge : Bool) (t : OrderedTree NodeId) :
    (normalized kind merge t).nodes.filter Option.isSome = t.nodes.map some := by
  rw [normalized, filter_nodes_normalize _ _ rfl, nodes_map]
  exact List.filter_eq_self.mpr (by simp)

/-- What is left of a normalized tree without the new lists are its old nodes. -/
theorem filter_nodes_of_normalized {kind : NodeId → NodeKind} {merge : Bool} {size : ℕ}
    {t t' : OrderedTree NodeId} (h : t'.map (origin size) = normalized kind merge t) :
    t'.nodes.filter (·.index < size) = t.nodes :=
  filter_nodes_of_map_origin (h ▸ filter_nodes_normalized kind merge t)

/-- If all names from some one on up to a bound are in a list without repetition, there are as many
of them in it as there are. -/
theorem countP_index_ge {ns : List NodeId} {size bound : ℕ} (hnodup : ns.Nodup)
    (hlt : ∀ n ∈ ns, n.index < bound)
    (hnew : ∀ n, size ≤ n.index → n.index < bound → n ∈ ns) :
    ns.countP (size ≤ ·.index) = bound - size := by
  have hperm : (ns.filter (size ≤ ·.index)).Perm
      ((List.range' size (bound - size)).map NodeId.mk) := by
    refine (List.perm_ext_iff_of_nodup (hnodup.filter _) ?_).mpr fun n => ?_
    · exact (List.nodup_range' ..).map fun i j hij => NodeId.mk.inj hij
    · simp only [List.mem_filter, decide_eq_true_eq, List.mem_map, List.mem_range'_1]
      constructor
      · rintro ⟨hn, hle⟩
        have hlt := hlt n hn
        exact ⟨n.index, by omega, rfl⟩
      · rintro ⟨i, hi, rfl⟩
        exact ⟨hnew ⟨i⟩ hi.1 (show i < bound by omega), hi.1⟩
  rw [List.countP_eq_length_filter, hperm.length_eq, List.length_map, List.length_range']

/-- In a rebuilt tree there are the lists that were there and the new ones. -/
theorem Rebuilds.countP_list {base made : ℕ} {merge : Bool} {t t' : OrderedTree NodeId}
    {s s' : Store} {f f' : Forest} (h : Rebuilds base t t' made s f s' f')
    (hlt : ∀ n ∈ t'.nodes, n.index < s'.size)
    (hshape : t'.map (origin s.size) = normalized s.kind merge t) :
    t'.nodes.countP (s'.kind · = .list) = made + t.nodes.countP (s.kind · = .list) := by
  have hsize := h.adds.size_eq
  -- new nodes are all lists, and old ones are those of the tree before
  have hnew : (t'.nodes.filter (s.size ≤ ·.index)).countP (s'.kind · = .list) = made := by
    have hall : ∀ n ∈ t'.nodes.filter (s.size ≤ ·.index), decide (s'.kind n = .list) = true := by
      intro n hn
      obtain ⟨hn, hle⟩ := List.mem_filter.mp hn
      have hlabel := h.adds.label_new n (of_decide_eq_true hle) (hlt n hn)
      simp [kind, hlabel, Label.kind]
    rw [List.countP_eq_length.mpr hall, ← List.countP_eq_length_filter,
      countP_index_ge h.spans.nodup hlt h.covers]
    omega
  have hold : (t'.nodes.filter fun n => !decide (s.size ≤ n.index)).countP (s'.kind · = .list) =
      t.nodes.countP (s.kind · = .list) := by
    have hfilter : (t'.nodes.filter fun n => !decide (s.size ≤ n.index)) = t.nodes := by
      rw [← filter_nodes_of_normalized hshape]
      exact List.filter_congr fun n _ => decide_not.symm.trans (decide_eq_decide.mpr Nat.not_le)
    rw [hfilter]
    refine List.countP_congr fun n hn => ?_
    have hlt : n.index < s.size := by
      rw [← filter_nodes_of_normalized hshape] at hn
      exact of_decide_eq_true (List.mem_filter.mp hn).2
    rw [kind, kind, h.adds.label_eq n hlt]
  rw [List.countP_eq_countP_filter_add _ _ (fun n : NodeId => decide (s.size ≤ n.index)), hnew, hold]

theorem Realizes.normalizes {s : Store} {f : Forest} (hs : s.Realizes 0 f) {n : NodeId}
    (hn : n.index < s.size) (merge : Bool) :
    ∃ s' made, s.wrapItems n merge = some (s', made) ∧ Normalizes merge n made s s' := by
  have ht := hs.spans_tree (Nat.zero_le _) hn
  have hroot : (s.tree n).root = n := s.root_tree n
  obtain ⟨s', made, f', t', hrun, hbelow, hshape⟩ :=
    hs.wrapItems ht (Nat.zero_le _) (by rwa [hroot]) merge
  have hs' := hbelow.alters.realizes
  have hsize := hbelow.alters.size_le
  have htree : s'.tree n = t' := by
    have heq := hs'.tree_eq hbelow.spans (Nat.zero_le _) (by rw [hbelow.root_eq, hroot]; omega)
    rwa [hbelow.root_eq, hroot] at heq
  have hbelow_root : ∀ m ∈ (s.tree n).children.flatMap nodes, m ≠ n := by
    intro m hm he
    subst he
    have hnodup := ht.nodup
    rw [nodes_eq_cons, hroot, List.nodup_cons] at hnodup
    exact hnodup.1 hm
  rw [hroot] at hrun
  refine ⟨s', made, hrun, {
    wellFormed := hs'.wellFormed
    tree_eq := by rw [htree, hshape]
    nodup := htree ▸ hbelow.spans.nodup
    filter_nodes := by rw [htree, filter_nodes_of_normalized hshape]
    label_eq := hbelow.alters.label_eq
    size_eq := hbelow.adds.size_eq
    label_new := hbelow.adds.label_new
    mem_new := htree ▸ hbelow.covers
    position_eq := ?_
    link_eq := ?_ }⟩
  · refine hbelow.alters.position_eq hs (Nat.zero_le _) hn (fun hm => hbelow_root n hm rfl)
      fun p hp hmem => ?_
    rw [ht.mem_nodes_iff, hroot] at hmem
    exact Forest.not_above_parent hp hmem
  · intro m hm hout l
    refine hbelow.alters.link_eq hs (Nat.zero_le _) hm (fun hmem => hout ?_) (fun p hp hmem => ?_)
      hout l
    · rw [nodes_eq_cons]
      exact List.mem_cons_of_mem _ hmem
    · refine hout ((ht.mem_nodes_iff m).mpr ?_)
      exact ((ht.mem_nodes_iff p).mp hmem).trans
        (Forest.above_of_mem_children (f.parent_eq_some_iff.mp hp))

theorem wrapItems_normalizes {s : Store} (h : s.WellFormed) {n : NodeId} (hn : n.index < s.size)
    (merge : Bool) :
    ∃ s' made, s.wrapItems n merge = some (s', made) ∧ Normalizes merge n made s s' :=
  h.realizes.normalizes hn merge

def twoItems : Store :=
  ((((Store.empty.push .document).push (.item (.int 1))).push (.item (.int 1))).append
    ⟨0⟩ ⟨1⟩).append ⟨0⟩ ⟨2⟩

theorem twoItems_wellFormed : twoItems.WellFormed := by
  have hnew := ((((Realizes.empty Store.empty).push .document).push (.item (.int 1))).push
    (.item (.int 1)))
  have hfirst := hnew.append (p := ⟨0⟩) (c := ⟨1⟩) (Nat.zero_le _) (Nat.zero_le _) rfl
    (Forest.not_above_of_free rfl (by decide))
  have hsecond := hfirst.append (p := ⟨0⟩) (c := ⟨2⟩) (Nat.zero_le _) (Nat.zero_le _)
    (by simp [Forest.parent_append, Forest.empty])
    (Forest.not_above_of_free (by simp [Forest.parent_append, Forest.empty]) (by decide))
  exact Realizes.wellFormed hsecond

/-- The two items come to stand in one new list. -/
theorem wrapItems_twoItems : twoItems.WellFormed ∧ (⟨0⟩ : NodeId).index < twoItems.size ∧
    ∃ s' made, twoItems.wrapItems ⟨0⟩ true = some (s', made) ∧
      Normalizes true ⟨0⟩ made twoItems s' :=
  ⟨twoItems_wellFormed, by decide, wrapItems_normalizes twoItems_wellFormed (by decide) true⟩

end DocTree.Store
