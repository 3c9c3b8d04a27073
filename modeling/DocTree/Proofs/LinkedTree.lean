import DocTree.Store.Consistency
import DocTree.Proofs.WellFormed
import Mathlib.Data.List.Chain

/-!
Linked trees. The links at and below a root are those of an ordered tree: at each of its places the
children form a chain, linked in both directions, that ends at the last child, and each names its
parent. Such links pass the consistency check, and the check of a root in a forest never fails.
-/
namespace DocTree

open OrderedTree

namespace Store

/-- Below each place of the tree the links are those of its children. -/
inductive Linked (s : Store) : OrderedTree NodeId → Prop
  | node {n : NodeId} {ts : List (OrderedTree NodeId)}
      (hchain : s.Chain none (s.link .firstChild n) (ts.map root))
      (hlast : s.link .lastChild n = (ts.map root).getLast?)
      (hparent : ∀ t ∈ ts, s.link .parent t.root = some n)
      (hts : ∀ t ∈ ts, Linked s t) : Linked s (.node n ts)

/-- The links at the places of the tree make it a tree of its own: no node stands twice, the root has
neither parent nor siblings, and no link leads out. -/
structure IsTree (s : Store) (t : OrderedTree NodeId) : Prop where
  linked : s.Linked t
  nodup : t.nodes.Nodup
  parent_root : s.link .parent t.root = none
  previous_root : s.link .previous t.root = none
  next_root : s.link .next t.root = none
  closed : ∀ n ∈ t.nodes, ∀ l m, s.link l n = some m → m ∈ t.nodes

section Linked

variable {s : Store} {t : OrderedTree NodeId} (h : s.Linked t)

include h

theorem Linked.subtree {u : OrderedTree NodeId} (hu : u ∈ t.subtrees) : s.Linked u := by
  refine forall_subtrees (fun t ht u hu => ?_) h u hu
  cases ht with
  | node _ _ _ hts => exact hts u hu

theorem Linked.exists_subtree {n : NodeId} (hn : n ∈ t.nodes) :
    ∃ u ∈ t.subtrees, u.root = n ∧ s.Linked u := by
  rw [← map_root_subtrees] at hn
  obtain ⟨u, hu, rfl⟩ := List.mem_map.mp hn
  exact ⟨u, hu, rfl, h.subtree hu⟩

theorem Linked.parent_eq {u : OrderedTree NodeId} (hu : u ∈ t.children) :
    s.link .parent u.root = some t.root := by
  cases h with
  | node _ _ hparent _ => exact hparent u hu

theorem Linked.children_eq : s.children t.root = t.children.map root := by
  cases h with
  | node hchain _ hparent _ =>
    refine follow_size hchain.path fun c hc => ?_
    obtain ⟨u, hu, rfl⟩ := List.mem_map.mp hc
    exact index_lt_of_link (hparent u hu)

theorem Linked.tree_eq (hnodup : t.nodes.Nodup) (hlt : ∀ n ∈ t.nodes, n.index < s.size) :
    s.tree t.root = t := by
  have hle := length_le_size hnodup hlt
  exact treeWithin_eq (fun u hu => (h.subtree hu).children_eq) (by omega)

theorem Linked.congr {s' : Store} (hl : ∀ n ∈ t.nodes, ∀ l, s'.link l n = s.link l n) :
    s'.Linked t := by
  induction h with
  | @node n ts hchain hlast hparent _ ih =>
    rw [nodes_node, List.forall_mem_cons] at hl
    have hbelow : ∀ t ∈ ts, ∀ m ∈ t.nodes, ∀ l, s'.link l m = s.link l m := fun t ht m hm =>
      hl.2 m (List.mem_flatMap.mpr ⟨t, ht, hm⟩)
    refine .node ?_ ((hl.1 .lastChild).trans hlast) (fun t ht => ?_) fun t ht =>
      ih t ht (hbelow t ht)
    · rw [hl.1 .firstChild]
      refine hchain.congr fun m hm => ?_
      obtain ⟨t, ht, rfl⟩ := List.mem_map.mp hm
      exact hbelow t ht t.root t.root_mem_nodes
    · exact (hbelow t ht t.root t.root_mem_nodes .parent).trans (hparent t ht)

end Linked

theorem IsTree.congr {s s' : Store} {t : OrderedTree NodeId} (h : s.IsTree t)
    (hl : ∀ n ∈ t.nodes, ∀ l, s'.link l n = s.link l n) : s'.IsTree t where
  linked := h.linked.congr hl
  nodup := h.nodup
  parent_root := (hl t.root t.root_mem_nodes .parent).trans h.parent_root
  previous_root := (hl t.root t.root_mem_nodes .previous).trans h.previous_root
  next_root := (hl t.root t.root_mem_nodes .next).trans h.next_root
  closed n hn l m hm := h.closed n hn l m ((hl n hn l).symm.trans hm)

theorem Linked.rel_next {s : Store} {t : OrderedTree NodeId} (h : s.Linked t)
    {R : NodeId → NodeId → Prop} (hR : (t.children.map root).IsChain R) {n m : NodeId}
    (hn : n ∈ t.children.map root) (hm : s.link .next n = some m) : R n m := by
  cases h with
  | @node p ts hchain =>
    rw [children_node] at hn hR
    obtain ⟨left, right, hsplit⟩ := List.append_of_mem hn
    rw [hsplit] at hchain hR
    rw [hchain.next_eq] at hm
    cases right with
    | nil => exact absurd hm (by simp)
    | cons c cs =>
      obtain rfl := Option.some.inj hm
      exact (List.isChain_cons_cons.mp (List.isChain_split.mp hR).2).1

section Realizes

variable {s : Store} {base : ℕ} {f : Forest} (h : s.Realizes base f)

include h

theorem Realizes.linked {t : OrderedTree NodeId} (ht : f.Spans t) (hbase : base ≤ t.root.index) :
    s.Linked t := by
  induction ht with
  | @node n ts hroots hts ih =>
    rw [root_node] at hbase
    have hmem : ∀ t ∈ ts, t.root ∈ f.children n := fun t ht => hroots ▸ List.mem_map_of_mem ht
    refine .node ?_ ?_ (fun t ht => ?_) fun t ht => ih t ht (h.base_le (hmem t ht)).1
    · have hall : f.children n = [] ++ f.children n := rfl
      rw [h.firstChild_eq hbase, ← hroots]
      exact h.chain hall
    · rw [h.lastChild_eq hbase, hroots]
    · rw [h.parent_eq (h.base_le (hmem t ht)).1]
      exact f.parent_eq_some_iff.mpr (hmem t ht)

/-- Below a free node stands a tree of its own. -/
theorem Realizes.isTree {t : OrderedTree NodeId} (ht : f.Spans t) (hbase : base ≤ t.root.index)
    (hfree : f.parent t.root = none) : s.IsTree t where
  linked := h.linked ht hbase
  nodup := ht.nodup
  parent_root := (h.parent_eq hbase).trans hfree
  previous_root := (h.link_eq _ hbase .previous).trans (Forest.link_of_free hfree).1
  next_root := (h.link_eq _ hbase .next).trans (Forest.link_of_free hfree).2
  closed n hn l m hm := by
    rw [ht.mem_nodes_iff] at hn ⊢
    have hup : ∀ p, f.parent n = some p → f.Above t.root p := by
      intro p hp
      rcases Forest.above_iff.mp hn with he | ⟨q, hq, habove⟩
      · rw [← he, hfree] at hp
        exact absurd hp (by simp)
      · rwa [Option.some.inj (hp.symm.trans hq)]
    have hbelow : ∀ p c, f.Above t.root p → c ∈ f.children p → f.Above t.root c :=
      fun p c hp hc => hp.trans (Forest.above_of_mem_children hc)
    have hnbase : base ≤ n.index := by
      rcases Forest.above_iff.mp hn with he | ⟨q, hq, -⟩
      · exact he ▸ hbase
      · exact (h.inside n q hq).1
    rw [h.link_eq n hnbase] at hm
    cases l with
    | parent => exact hup m hm
    | firstChild => exact hbelow n m hn (List.mem_of_mem_head? hm)
    | lastChild => exact hbelow n m hn (List.mem_of_getLast? hm)
    | previous =>
      obtain ⟨p, hp, hbefore⟩ := Option.bind_eq_some_iff.mp hm
      have hafter := (Siblings.before?_eq_some_iff_after? (f.nodup_children p)).mp hbefore
      have hmp := (Forest.exists_parent_of_after? hafter).1
      exact hbelow p m (hup p hp) (f.parent_eq_some_iff.mp hmp)
    | next =>
      obtain ⟨p, hp, hafter⟩ := Option.bind_eq_some_iff.mp hm
      have hmp := (Forest.exists_parent_of_after? hafter).2
      exact hbelow p m (hup p hp) (f.parent_eq_some_iff.mp hmp)

end Realizes

/-! The check takes the trees of the children in front and those of the nodes put aside. -/

/-- What a check has still to meet: the trees of the children to come, and what is below the nodes put
aside. -/
def pending (cs us : List (OrderedTree NodeId)) : List NodeId :=
  cs.flatMap nodes ++ us.flatMap fun u => u.children.flatMap nodes

theorem pending_cons_perm (t : OrderedTree NodeId) (cs us : List (OrderedTree NodeId)) :
    (pending (t :: cs) us).Perm (t.root :: pending cs (t :: us)) := by
  have hswap : (t.children.flatMap nodes ++ cs.flatMap nodes).Perm
      (cs.flatMap nodes ++ t.children.flatMap nodes) := List.perm_append_comm
  simp only [pending, List.flatMap_cons, nodes_eq_cons t, List.cons_append]
  refine List.Perm.cons t.root ?_
  simpa using hswap.append_right (us.flatMap fun u => u.children.flatMap nodes)

variable {s : Store}

theorem Chain.exists_eq_cons {previous : Option NodeId} {c : NodeId}
    {cs : List (OrderedTree NodeId)} (h : s.Chain previous (some c) (cs.map root)) :
    ∃ t us, cs = t :: us ∧ c = t.root ∧ s.link .previous t.root = previous ∧
      s.Chain (some t.root) (s.link .next t.root) (us.map root) := by
  cases cs with
  | nil => cases h
  | cons t us =>
    cases h with
    | cons hprevious hrest => exact ⟨t, us, rfl, rfl, hprevious, hrest⟩

theorem Chain.eq_nil {previous : Option NodeId} {cs : List (OrderedTree NodeId)}
    (h : s.Chain previous none (cs.map root)) : cs = [] := by
  cases cs with
  | nil => rfl
  | cons t us => cases h

theorem Linked.endsAgree {t : OrderedTree NodeId} (h : s.Linked t) : s.endsAgree t.root = true := by
  cases h with
  | @node n ts hchain hlast _ _ =>
    unfold Store.endsAgree
    rw [root_node, hchain.start_eq, hlast]
    cases ts with
    | nil => rfl
    | cons t ts => simp [List.getLast?_cons]

theorem Linked.index_lt {t : OrderedTree NodeId} (h : s.Linked t) :
    ∀ n ∈ t.children.flatMap nodes, n.index < s.size := by
  induction h with
  | @node n ts _ _ hparent _ ih =>
    intro m hm
    obtain ⟨t, ht, hm⟩ := List.mem_flatMap.mp hm
    rw [nodes_eq_cons t] at hm
    rcases List.mem_cons.mp hm with rfl | hm
    · exact index_lt_of_link (hparent t ht)
    · exact ih t ht m hm

/-- The check goes through as long as everything still to be met stands at different places. -/
theorem checkFrom_eq_ok {owner : NodeId} {previous child : Option NodeId}
    {unexamined unmet : List NodeId} {cs us : List (OrderedTree NodeId)}
    (hunexamined : unexamined = us.map root)
    (hchain : s.Chain previous child (cs.map root))
    (hlast : s.link .lastChild owner = (cs.map root).getLast?.or previous)
    (hparent : ∀ t ∈ cs, s.link .parent t.root = some owner)
    (hcs : ∀ t ∈ cs, s.Linked t) (hus : ∀ t ∈ us, s.Linked t)
    (hnodup : (pending cs us).Nodup) (hunmet : ∀ n ∈ pending cs us, n ∈ unmet) :
    s.checkFrom owner previous child unexamined unmet = .ok () := by
  fun_induction s.checkFrom owner previous child unexamined unmet generalizing cs us with
  | case1 owner previous unexamined unmet c hmiss =>
    obtain ⟨t, cs, rfl, rfl, -⟩ := hchain.exists_eq_cons
    exact absurd (hunmet t.root (by simp [pending, root_mem_nodes])) hmiss
  | case2 owner previous unexamined unmet c _ hwrong =>
    obtain ⟨t, cs, rfl, rfl, -⟩ := hchain.exists_eq_cons
    exact absurd (hparent t (List.mem_cons_self ..)) hwrong
  | case3 owner previous unexamined unmet c _ _ hwrong =>
    obtain ⟨t, cs, rfl, rfl, hprevious, -⟩ := hchain.exists_eq_cons
    exact absurd hprevious hwrong
  | case4 owner previous unexamined unmet c _ _ _ ih =>
    obtain ⟨t, cs, rfl, rfl, -, hrest⟩ := hchain.exists_eq_cons
    -- the tree of the child moves from those to come to those put aside
    have hperm := pending_cons_perm t cs us
    have hnext := List.nodup_cons.mp (hperm.nodup_iff.mp hnodup)
    have hput : t.root :: unexamined = (t :: us).map root := by rw [hunexamined, List.map_cons]
    refine ih hput hrest ?_
      (fun u hu => hparent u (List.mem_cons_of_mem t hu))
      (fun u hu => hcs u (List.mem_cons_of_mem t hu)) ?_ hnext.2 fun n hn => ?_
    · rw [hlast, List.map_cons, List.getLast?_cons]
      cases (cs.map root).getLast? <;> rfl
    · intro u hu
      rcases List.mem_cons.mp hu with rfl | hu
      · exact hcs u (List.mem_cons_self ..)
      · exact hus u hu
    · have hne : n ≠ t.root := fun he => hnext.1 (he ▸ hn)
      exact (List.mem_erase_of_ne hne).mpr
        (hunmet n (hperm.mem_iff.mpr (List.mem_cons_of_mem _ hn)))
  | case5 owner previous unexamined unmet hwrong =>
    obtain rfl := hchain.eq_nil
    exact absurd hlast hwrong
  | case6 => rfl
  | case7 owner previous unmet _ n rest _ ih =>
    obtain rfl := hchain.eq_nil
    obtain ⟨u, us, rfl, rfl, rfl⟩ := List.map_eq_cons_iff.mp hunexamined.symm
    have hpending : pending [] (u :: us) = pending u.children us := by simp [pending]
    rw [hpending] at hnodup hunmet
    cases hus u (List.mem_cons_self ..) with
    | node huchain hulast huparent huts =>
      exact ih rfl huchain (by simpa using hulast) huparent huts
        (fun v hv => hus v (List.mem_cons_of_mem _ hv)) hnodup hunmet
  | case8 owner previous unmet _ n rest hwrong =>
    obtain ⟨u, us, rfl, rfl, rfl⟩ := List.map_eq_cons_iff.mp hunexamined.symm
    exact absurd (hus u (List.mem_cons_self ..)).endsAgree hwrong

/-- A linked tree passes the check. -/
theorem check_eq_ok {t : OrderedTree NodeId} (h : s.Linked t) (hnodup : t.nodes.Nodup)
    (hroot : s.link .parent t.root = none) : s.check t.root = .ok () := by
  have hends := h.endsAgree
  have hlt := h.index_lt
  cases h with
  | @node n ts hchain hlast hparent hts =>
    rw [nodes_node, List.nodup_cons] at hnodup
    rw [root_node] at hroot hends
    have hpending : pending ts [] = ts.flatMap nodes := by simp [pending]
    have hnone : [] = ([] : List (OrderedTree NodeId)).map root := rfl
    rw [check, root_node, hroot]
    simp only [hends, if_true]
    refine checkFrom_eq_ok hnone hchain (by rw [hlast]; simp) hparent hts (by simp)
      (hpending ▸ hnodup.2) fun m hm => ?_
    rw [hpending] at hm
    have hne : m ≠ n := fun he => hnodup.1 (he ▸ hm)
    exact (List.mem_erase_of_ne hne).mpr ((s.mem_names m).mpr (hlt m hm))

theorem IsTree.check_eq_ok {t : OrderedTree NodeId} (h : s.IsTree t) : s.check t.root = .ok () :=
  Store.check_eq_ok h.linked h.nodup h.parent_root

end Store

end DocTree
