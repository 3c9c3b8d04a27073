import DocTree.Proofs.Alteration

/-!
The ways to put a node into a list. An item joins a list in front of it, a new list takes its place, or,
if it stands free, it is put into a new list that stands free in turn. In each case it is said which
nodes get other children or another parent, and that all new nodes are lists.
-/
namespace DocTree.Store

open OrderedTree

structure AddsLists (made : ℕ) (s s' : Store) : Prop where
  size_eq : s'.size = s.size + made
  label_eq : ∀ n, n.index < s.size → s'.label n = s.label n
  label_new : ∀ n, s.size ≤ n.index → n.index < s'.size → s'.label n = .list

variable {base made made' : ℕ} {p : NodeId} {done : List NodeId} {t : OrderedTree NodeId}
  {s s₁ s₂ : Store} {f : Forest}

theorem AddsLists.refl (s : Store) : AddsLists 0 s s :=
  ⟨rfl, fun _ _ => rfl, fun _ hle hlt => by omega⟩

theorem AddsLists.trans (h : AddsLists made s s₁) (h' : AddsLists made' s₁ s₂) :
    AddsLists (made + made') s s₂ where
  size_eq := by rw [h'.size_eq, h.size_eq, Nat.add_assoc]
  label_eq n hn := (h'.label_eq n (by rw [h.size_eq]; omega)).trans (h.label_eq n hn)
  label_new n hle hlt := by
    by_cases hn : n.index < s₁.size
    · rw [h'.label_eq n hn, h.label_new n hle hn]
    · exact h'.label_new n (Nat.le_of_not_lt hn) hlt

/-- An item leaves its place and joins the list in front of it. -/
theorem Realizes.join {c w : NodeId} {rest : List NodeId} (h : s.Realizes base f)
    (hp : f.children p = done ++ c :: rest) (hw : w ∈ done) :
    ∃ f', Alters base [p, w] [c] s f ((s.remove c).append w c) f' ∧
      AddsLists 0 s ((s.remove c).append w c) ∧
      f'.children p = done ++ rest ∧ f'.children w = f.children w ++ [c] := by
  have hcp : c ∈ f.children p := by simp [hp]
  have hwp : w ∈ f.children p := by simp [hp, hw]
  have hc := h.index_lt hcp
  have hcw := h.index_lt hwp
  have hcdone := (Forest.notMem_of_children_eq hp).1
  have hne : w ≠ c := fun he => hcdone (he ▸ hw)
  have hwp' : w ≠ p := fun he => Forest.not_mem_children_self p (he ▸ hwp)
  have hcw' : c ∉ f.children w := fun hm => hwp' (Forest.parent_unique hm hcp)
  have hfree : (f.cut c).parent c = none := by simp [Forest.parent_cut]
  have habove : ¬ (f.cut c).Above c w := by
    intro ha
    rcases Forest.above_iff.mp ha.of_cut with he | ⟨q, hq, hcq⟩
    · exact hne he.symm
    · rw [f.parent_eq_some_iff.mpr hwp, Option.some.injEq] at hq
      exact Forest.not_above_parent (f.parent_eq_some_iff.mpr hcp) (hq ▸ hcq)
  have hremoved := h.remove (h.base_le hcp).1
  have hsize := h.size_remove (h.base_le hcp).1 hc.1
  have hsize' : ((s.remove c).append w c).size = s.size := by
    rw [hremoved.size_append (h.base_le hwp).1 (by omega) (by omega), hsize]
  have hlabel : ∀ n, ((s.remove c).append w c).label n = s.label n := by simp
  refine ⟨_, ⟨hremoved.append (h.base_le hwp).1 (h.base_le hcp).1 hfree habove, by omega,
    fun n _ => hlabel n, ?_, ?_⟩, ⟨hsize', fun n _ => hlabel n, ?_⟩, ?_, ?_⟩
  · intro n hn hout
    simp only [List.mem_cons, List.not_mem_nil, or_false, not_or] at hout
    rw [Forest.children_append, if_neg hout.2, Forest.children_cut]
    apply List.erase_of_not_mem
    intro hm
    exact hout.1 (Forest.parent_unique hm hcp)
  · intro n hn hout
    rw [List.mem_singleton] at hout
    rw [Forest.parent_append, if_neg hout, Forest.parent_cut, if_neg hout]
  · intro n hle hlt
    omega
  · rw [Forest.children_append, if_neg (Ne.symm hwp'), Forest.children_cut, hp,
      List.erase_append_right _ hcdone, List.erase_cons_head]
  · rw [Forest.children_append, if_pos rfl, Forest.children_cut, List.erase_of_not_mem hcw']

/-- A new list takes the place of an item and the item as its only child. -/
theorem Realizes.wrap {c : NodeId} {rest : List NodeId} (h : s.Realizes base f)
    (hp : f.children p = done ++ c :: rest) :
    ∃ f', Alters base [p] [c] s f (s.wrap c) f' ∧ AddsLists 1 s (s.wrap c) ∧
      f'.children p = done ++ s.fresh :: rest ∧ f'.children s.fresh = [c] := by
  have hcp : c ∈ f.children p := by simp [hp]
  have hc := h.index_lt hcp
  have hbase := (h.base_le hcp).1
  obtain ⟨hcdone, hcrest⟩ := Forest.notMem_of_children_eq hp
  obtain ⟨hfree, hchildren⟩ := h.free_of_size_le (n := s.fresh) (Nat.le_refl _)
  have habove : ¬ f.Above s.fresh c := by
    intro ha
    rcases Relation.ReflTransGen.cases_tail ha with he | ⟨m, -, hm⟩
    · exact ne_fresh hc.1 he.symm
    · exact ne_fresh (h.index_lt (f.parent_eq_some_iff.mp hm)).2 rfl
  have hpush := h.push .list
  have hsize : (s.push .list).size = s.size + 1 := s.size_push .list
  have hfresh : s.fresh.index = s.size := rfl
  have happend := hpush.size_append (p := s.fresh) (c := c) (by omega) (by omega) (by omega)
  have hwrap : s.wrap c =
      ((s.push .list).append s.fresh c).replaceAt ((s.push .list).position c) s.fresh := by
    simp [Store.wrap, position]
  have hsize' : (s.wrap c).size = s.size + 1 := by
    rw [hwrap, hpush.size_replaceAt hbase (by omega) happend, hsize]
  have hlabel : ∀ n, n.index < s.size → (s.wrap c).label n = s.label n := by
    intro n hn
    simp [Store.wrap, ne_fresh hn]
  refine ⟨f.wrap c s.fresh hfree habove, ⟨?_, by omega, hlabel, ?_, ?_⟩, ⟨hsize', hlabel, ?_⟩,
    ?_, ?_⟩
  · rw [hwrap]
    exact hpush.append_replaceAt hbase (by omega) hfree habove
  · intro n hn hout
    rw [Forest.wrap, Forest.children_append, if_neg (ne_fresh hn), Forest.children_substitute]
    apply Forest.map_exchange_of_notMem
    intro hm
    exact hout (List.mem_singleton.mpr (Forest.parent_unique hm hcp))
  · intro n hn hout
    rw [List.mem_singleton] at hout
    rw [Forest.wrap, Forest.parent_append, if_neg hout, Forest.parent_substitute, if_neg hout,
      if_neg (ne_fresh hn)]
  · intro n hle hlt
    have heq : n = s.fresh := NodeId.ext (by omega)
    simp [Store.wrap, heq]
  · rw [Forest.wrap, Forest.children_append, if_neg (ne_fresh hc.2), Forest.children_substitute, hp,
      List.map_append, List.map_cons, Forest.map_exchange_of_notMem hcdone,
      Forest.map_exchange_of_notMem hcrest, Forest.exchange_old]
  · rw [Forest.wrap, Forest.children_append, if_pos rfl, Forest.children_substitute, hchildren]
    rfl

/-- A free node becomes the only child of a new node. -/
theorem Realizes.push_append (hs : s.Realizes base f) {n : NodeId} (hbase : base ≤ n.index)
    (hlt : n.index < s.size) (hfree : f.parent n = none) (label : Label Value) :
    ∃ habove : ¬ f.Above n s.fresh,
      ((s.push label).append s.fresh n).Realizes base (f.append s.fresh n hfree habove) ∧
      ((s.push label).append s.fresh n).size = s.size + 1 ∧
      f.parent s.fresh = none ∧ f.children s.fresh = [] := by
  have hfresh : s.fresh.index = s.size := rfl
  have hsize : (s.push label).size = s.size + 1 := s.size_push label
  obtain ⟨hfreeNew, hnone⟩ := hs.free_of_size_le (n := s.fresh) (Nat.le_refl _)
  have habove := Forest.not_above_of_free hfreeNew (ne_fresh hlt)
  have hpush := hs.push label
  have hsize' := hpush.size_append (p := s.fresh) (c := n) (by omega) (by omega) (by omega)
  exact ⟨habove, hpush.append (by omega) hbase hfree habove, by omega, hfreeNew, hnone⟩

/-- The tree of a root that is wrapped if it is an item. -/
def wrappedRoot (s : Store) (t : OrderedTree NodeId) : OrderedTree NodeId :=
  if s.kind t.root = .item then .node s.fresh [t] else t

/-- A free root that is an item becomes the only child of a new list; any other root stays. -/
theorem Realizes.wrapRoot (hs : s.Realizes base f) (ht : f.Spans t) (hbase : base ≤ t.root.index)
    (hlt : t.root.index < s.size) (hfree : f.parent t.root = none) :
    ∃ f', Alters base [] [t.root] s f (s.wrapRoot t.root).1 f' ∧
      (s.wrapRoot t.root).2 = (s.wrappedRoot t).root ∧ f'.Spans (s.wrappedRoot t) ∧
      f'.parent (s.wrappedRoot t).root = none ∧
      (s.wrappedRoot t).root.index < (s.wrapRoot t.root).1.size ∧
      base ≤ (s.wrappedRoot t).root.index := by
  by_cases hitem : s.kind t.root = .item
  · have hroot : s.wrapRoot t.root = ((s.push .list).append s.fresh t.root, s.fresh) := if_pos hitem
    have hstore : (s.wrapRoot t.root).1 = (s.push .list).append s.fresh t.root := by rw [hroot]
    have hname : (s.wrapRoot t.root).2 = s.fresh := by rw [hroot]
    have htree : s.wrappedRoot t = .node s.fresh [t] := if_pos hitem
    obtain ⟨habove, happend, hsize, hfreeNew, hnone⟩ := hs.push_append hbase hlt hfree .list
    have hfresh : s.fresh.index = s.size := rfl
    have hlabel : ∀ n, n.index < s.size →
        ((s.push .list).append s.fresh t.root).label n = s.label n := by
      intro n hn
      simp [ne_fresh hn]
    have hchildren : ∀ n, n.index < s.size →
        (f.append s.fresh t.root hfree habove).children n = f.children n := by
      intro n hn
      rw [Forest.children_append, if_neg (ne_fresh hn)]
    have hparent : ∀ n, n.index < s.size → n ∉ [t.root] →
        (f.append s.fresh t.root hfree habove).parent n = f.parent n := by
      intro n hn hout
      rw [Forest.parent_append, if_neg (by simpa using hout)]
    rw [hstore, hname, htree, root_node]
    refine ⟨f.append s.fresh t.root hfree habove,
      ⟨happend, by omega, hlabel, fun n hn _ => hchildren n hn, hparent⟩, rfl, .node ?_ ?_, ?_,
      by omega, by omega⟩
    · rw [Forest.children_append, if_pos rfl, hnone]
      rfl
    · simp only [List.mem_singleton, forall_eq]
      exact ht.congr fun n hn => hchildren n (hs.nodes_lt ht hlt n hn)
    · rw [Forest.parent_append, if_neg (Ne.symm (ne_fresh hlt)), hfreeNew]
  · have hroot : s.wrapRoot t.root = (s, t.root) := if_neg hitem
    have htree : s.wrappedRoot t = t := if_neg hitem
    rw [hroot, htree]
    exact ⟨f, (Alters.refl hs).mono (by simp) (by simp), rfl, ht, hfree, hlt, hbase⟩

end DocTree.Store
