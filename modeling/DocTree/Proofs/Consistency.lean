import DocTree.Proofs.LinkedTree

/-!
What the consistency check decides, on any links whatever. A check that goes through has met a finite
tree, node by node. The conditions it stands for are local: they speak of one node that the root reaches
and the chain below it at a time. That they make a tree rests on the parent links: they lead from every
node that is reached back up to the root, so that no node can stand below itself.
-/
namespace DocTree.Store

open OrderedTree

/-- From the first child of `p` the next links lead to `c`. -/
def OnChain (s : Store) (p c : NodeId) : Prop :=
  ∃ first, s.link .firstChild p = some first ∧
    Relation.ReflTransGen (fun a b => s.link .next a = some b) first c

/-- `n` is the root, or it stands on the chain below a node that is reached. What is next to the root
itself stands on no such chain. -/
def Reaches (s : Store) (root n : NodeId) : Prop := Relation.ReflTransGen s.OnChain root n

/-- A link to the first child or to the next sibling leads from `a` to `b`. -/
def Leads (s : Store) (a b : NodeId) : Prop :=
  s.link .firstChild a = some b ∨ s.link .next a = some b

/-- The links of every node that the root reaches are in order, as far as they lead downwards and along
its children. -/
structure Consistent (s : Store) (root : NodeId) : Prop where
  parent_root : s.link .parent root = none
  ends_agree : ∀ n, s.Reaches root n →
    (s.link .firstChild n = none ↔ s.link .lastChild n = none)
  exists_chain : ∀ n, s.Reaches root n → ∃ cs, s.Chain none (s.link .firstChild n) cs ∧
    s.link .lastChild n = cs.getLast? ∧ ∀ c ∈ cs, s.link .parent c = some n

/-- What the root reaches is the finite tree `t`, each node in one place of it, and the root is on no
chain below. -/
structure ReachesTree (s : Store) (root : NodeId) (t : OrderedTree NodeId) : Prop where
  root_eq : t.root = root
  linked : s.Linked t
  nodup : t.nodes.Nodup
  parent_root : s.link .parent root = none
  mem_nodes_iff : ∀ n, n ∈ t.nodes ↔ s.Reaches root n
  not_onChain_root : ∀ p, s.Reaches root p → ¬ s.OnChain p root

variable {s : Store} {root : NodeId}

/-- From a root without next sibling just those nodes are reached to which first-child and next links
lead. -/
theorem reaches_iff_of_next_eq_none (hnext : s.link .next root = none) (n : NodeId) :
    s.Reaches root n ↔ Relation.ReflTransGen s.Leads root n := by
  constructor
  · intro h
    induction h with
    | refl => exact .refl
    | tail _ hstep ih =>
      obtain ⟨first, hfirst, hnexts⟩ := hstep
      exact (ih.tail (Or.inl hfirst)).trans
        (Relation.ReflTransGen.mono (fun _ _ hab => Or.inr hab) _ _ hnexts)
  · intro h
    induction h with
    | refl => exact .refl
    | @tail m n _ hstep ih =>
      rcases hstep with hfirst | hmn
      · exact ih.tail ⟨n, hfirst, .refl⟩
      -- the node that is followed is on a chain, for the root has none next to it
      · rcases Relation.ReflTransGen.cases_tail ih with he | ⟨p, hp, first, hfirst, hnexts⟩
        · rw [he, hnext] at hmn
          exact absurd hmn (by simp)
        · exact hp.tail ⟨first, hfirst, hnexts.tail hmn⟩

theorem Chain.onChain_iff {p : NodeId} {cs : List NodeId}
    (h : s.Chain none (s.link .firstChild p) cs) (c : NodeId) : s.OnChain p c ↔ c ∈ cs :=
  (h.path.mem_iff c).symm

/-! The check meets a tree. -/

/-- When the check goes through it has met trees of the children to come and of the nodes put aside,
all at different places. -/
theorem exists_linked_of_checkFrom {owner : NodeId} {previous child : Option NodeId}
    {unexamined unmet : List NodeId} (hunmet : unmet.Nodup)
    (h : s.checkFrom owner previous child unexamined unmet = .ok ()) :
    ∃ cs us, unexamined = us.map OrderedTree.root ∧
      s.Chain previous child (cs.map OrderedTree.root) ∧
      s.link .lastChild owner = (cs.map OrderedTree.root).getLast?.or previous ∧
      (∀ t ∈ cs, s.link .parent t.root = some owner) ∧ (∀ t ∈ cs ++ us, s.Linked t) ∧
      (pending cs us).Nodup ∧ ∀ n ∈ pending cs us, n ∈ unmet := by
  fun_induction s.checkFrom owner previous child unexamined unmet with
  | case1 | case2 | case3 | case5 | case8 => exact absurd h (by simp)
  | case4 owner previous unexamined unmet c hmem hparent hprevious ih =>
    obtain ⟨cs, vs, hvs, hchain, hlast, hcs, hlinked, hnodup, hin⟩ := ih (hunmet.erase c) h
    obtain ⟨t, us, rfl, rfl, rfl⟩ := List.map_eq_cons_iff.mp hvs.symm
    have hperm := pending_cons_perm t cs us
    have hout : t.root ∉ pending cs (t :: us) := fun hm =>
      absurd (hin _ hm) hunmet.not_mem_erase
    refine ⟨t :: cs, us, rfl, .cons (Decidable.not_not.mp hprevious) hchain, ?_, ?_, ?_, ?_, ?_⟩
    · rw [hlast, List.map_cons, List.getLast?_cons]
      cases (cs.map OrderedTree.root).getLast? <;> rfl
    · intro u hu
      rcases List.mem_cons.mp hu with rfl | hu
      · exact Decidable.not_not.mp hparent
      · exact hcs u hu
    · intro u hu
      exact hlinked u (List.perm_middle.mem_iff.mpr hu)
    · exact hperm.nodup_iff.mpr (List.nodup_cons.mpr ⟨hout, hnodup⟩)
    · intro n hn
      rcases List.mem_cons.mp (hperm.mem_iff.mp hn) with rfl | hn
      · exact Decidable.not_not.mp hmem
      · exact List.mem_of_mem_erase (hin n hn)
  | case6 owner previous unmet hlast =>
    exact ⟨[], [], rfl, .nil _, Decidable.not_not.mp hlast, by simp, by simp, by simp [pending],
      by simp [pending]⟩
  | case7 owner previous unmet hlast n rest _ ih =>
    obtain ⟨cs, us, rfl, hchain, hlastChild, hcs, hlinked, hnodup, hin⟩ := ih hunmet h
    have hnode : s.Linked (.node n cs) := .node hchain (by simpa using hlastChild) hcs
      fun t ht => hlinked t (List.mem_append_left us ht)
    have hpending : pending [] (.node n cs :: us) = pending cs us := by simp [pending]
    refine ⟨[], .node n cs :: us, rfl, .nil _, Decidable.not_not.mp hlast, by simp, ?_,
      hpending ▸ hnodup, hpending ▸ hin⟩
    intro t ht
    rcases List.mem_cons.mp ht with rfl | ht
    · exact hnode
    · exact hlinked t (List.mem_append_right cs ht)

/-- The check goes through just when there is a tree below the root, linked as it should be. -/
theorem check_eq_ok_iff_linked (s : Store) (root : NodeId) :
    s.check root = .ok () ↔ ∃ t : OrderedTree NodeId,
      t.root = root ∧ s.Linked t ∧ t.nodes.Nodup ∧ s.link .parent root = none := by
  constructor
  · intro h
    unfold check at h
    cases hparent : s.link .parent root with
    | some p => simp [hparent] at h
    | none =>
      simp only [hparent] at h
      split at h
      · have hnames : s.names.Nodup :=
          List.nodup_range.map fun _ _ he => congrArg NodeId.index he
        obtain ⟨cs, us, hus, hchain, hlast, hcs, hlinked, hnodup, hin⟩ :=
          exists_linked_of_checkFrom (hnames.erase root) h
        obtain rfl := List.map_eq_nil_iff.mp hus.symm
        have hpending : pending cs [] = cs.flatMap nodes := by simp [pending]
        rw [hpending] at hnodup hin
        refine ⟨.node root cs, rfl, .node hchain (by simpa using hlast) hcs
          fun t ht => hlinked t (List.mem_append_left [] ht), ?_, rfl⟩
        rw [nodes_node, List.nodup_cons]
        exact ⟨fun hm => absurd (hin root hm) hnames.not_mem_erase, hnodup⟩
      · exact absurd h (by simp)
  · rintro ⟨t, rfl, hlinked, hnodup, hparent⟩
    exact check_eq_ok hlinked hnodup hparent

/-! A tree is consistent. -/

section Linked

variable {t : OrderedTree NodeId} (h : s.Linked t)

include h

theorem Linked.onChain_iff (c : NodeId) :
    s.OnChain t.root c ↔ c ∈ t.children.map OrderedTree.root := by
  cases h with
  | node hchain _ _ _ => exact hchain.onChain_iff c

theorem Linked.mem_nodes_iff (n : NodeId) : n ∈ t.nodes ↔ s.Reaches t.root n := by
  constructor
  · induction h with
    | @node m ts hchain _ _ _ ih =>
      intro hn
      rw [nodes_node, List.mem_cons, List.mem_flatMap] at hn
      rcases hn with rfl | ⟨u, hu, hn⟩
      · exact .refl
      · exact .head ((hchain.onChain_iff u.root).mpr (List.mem_map_of_mem hu)) (ih u hu hn)
  · intro hn
    induction hn with
    | refl => exact t.root_mem_nodes
    | @tail p c _ hc ih =>
      obtain ⟨u, hu, rfl, hlinked⟩ := h.exists_subtree ih
      obtain ⟨v, hv, rfl⟩ := List.mem_map.mp ((hlinked.onChain_iff c).mp hc)
      rw [← map_root_subtrees]
      exact List.mem_map_of_mem (mem_subtrees_of_mem_children hu hv)

theorem Linked.consistent (hparent : s.link .parent t.root = none) : s.Consistent t.root where
  parent_root := hparent
  ends_agree n hn := by
    obtain ⟨u, -, rfl, hlinked⟩ := h.exists_subtree ((h.mem_nodes_iff n).mpr hn)
    have hends := hlinked.endsAgree
    rw [Store.endsAgree, beq_iff_eq, Bool.eq_iff_iff] at hends
    simpa only [Option.isNone_iff_eq_none] using hends
  exists_chain n hn := by
    obtain ⟨u, -, rfl, hlinked⟩ := h.exists_subtree ((h.mem_nodes_iff n).mpr hn)
    cases hlinked with
    | @node m ts hchain hlast hparents _ =>
      refine ⟨ts.map OrderedTree.root, hchain, hlast, fun c hc => ?_⟩
      obtain ⟨v, hv, rfl⟩ := List.mem_map.mp hc
      exact hparents v hv

theorem Linked.reachesTree (hnodup : t.nodes.Nodup) (hparent : s.link .parent t.root = none) :
    s.ReachesTree t.root t where
  root_eq := rfl
  linked := h
  nodup := hnodup
  parent_root := hparent
  mem_nodes_iff := h.mem_nodes_iff
  not_onChain_root p hp hroot := by
    obtain ⟨cs, hchain, -, hparents⟩ := (h.consistent hparent).exists_chain p hp
    rw [hparents t.root ((hchain.onChain_iff t.root).mp hroot)] at hparent
    exact absurd hparent (by simp)

end Linked

/-! What is consistent is a tree. -/

namespace Consistent

variable (h : s.Consistent root)

include h

theorem parent_eq {p c : NodeId} (hp : s.Reaches root p) (hc : s.OnChain p c) :
    s.link .parent c = some p := by
  obtain ⟨cs, hchain, -, hparents⟩ := h.exists_chain p hp
  exact hparents c ((hchain.onChain_iff c).mp hc)

theorem chain_children {n : NodeId} (hn : s.Reaches root n) :
    s.Chain none (s.link .firstChild n) (s.children n) ∧
      s.link .lastChild n = (s.children n).getLast? := by
  obtain ⟨cs, hchain, hlast, hparents⟩ := h.exists_chain n hn
  have hchildren : s.children n = cs :=
    follow_size hchain.path fun c hc => index_lt_of_link (hparents c hc)
  rw [hchildren]
  exact ⟨hchain, hlast⟩

/-- The parent links lead from a node that is reached up to the root and end there. -/
theorem exists_path_up {n : NodeId} (hn : s.Reaches root n) :
    ∃ ns, s.Path .parent (some n) ns := by
  induction hn with
  | refl => exact ⟨[root], .cons (by rw [h.parent_root]; exact .nil)⟩
  | @tail p c hp hc ih =>
    obtain ⟨ns, hns⟩ := ih
    exact ⟨c :: ns, .cons (by rwa [h.parent_eq hp hc])⟩

omit h in
/-- What a chain below a node that is reached shows is reached as well. -/
theorem reaches_of_mem_children {n c : NodeId} (hn : s.Reaches root n)
    (hchain : s.Chain none (s.link .firstChild n) (s.children n)) (hc : c ∈ s.children n) :
    s.Reaches root c :=
  hn.tail ((hchain.onChain_iff c).mpr hc)

open Classical in
noncomputable def forest : Forest where
  children p := if s.Reaches root p then s.children p else []
  parent c := if s.Reaches root c then s.link .parent c else none
  parent_eq_some_iff := by
    intro c p
    constructor
    · intro hc
      obtain ⟨hreached, hparent⟩ := Option.ite_none_right_eq_some.mp hc
      rcases Relation.ReflTransGen.cases_tail hreached with rfl | ⟨q, hq, hqc⟩
      · rw [h.parent_root] at hparent
        exact absurd hparent (by simp)
      · obtain rfl := Option.some.inj ((h.parent_eq hq hqc).symm.trans hparent)
        rw [if_pos (show s.Reaches root q from hq)]
        exact ((h.chain_children hq).1.onChain_iff c).mp hqc
    · intro hc
      by_cases hp : s.Reaches root p
      · rw [if_pos hp] at hc
        have hchain := (h.chain_children hp).1
        rw [if_pos (reaches_of_mem_children hp hchain hc)]
        exact h.parent_eq hp ((hchain.onChain_iff c).mpr hc)
      · rw [if_neg hp] at hc
        exact absurd hc (by simp)
  nodup_children p := by
    by_cases hp : s.Reaches root p
    · rw [if_pos hp]
      exact (h.chain_children hp).1.path.nodup
    · rw [if_neg hp]
      exact List.nodup_nil
  ranked := by
    refine .of_acyclic
      (fun c p hcp => index_lt_of_link (Option.ite_none_right_eq_some.mp hcp).2) fun n hn => ?_
    obtain ⟨m, hm, -⟩ := Relation.TransGen.head'_iff.mp hn
    obtain ⟨ns, hns⟩ := h.exists_path_up (Option.ite_none_right_eq_some.mp hm).1
    exact hns.not_transGen (Relation.TransGen.mono
      (fun _ _ hab => (Option.ite_none_right_eq_some.mp hab).2) _ _ hn)

theorem children_forest {n : NodeId} (hn : s.Reaches root n) :
    h.forest.children n = s.children n := if_pos hn

theorem linked {t : OrderedTree NodeId} (ht : h.forest.Spans t) (hroot : s.Reaches root t.root) :
    s.Linked t := by
  induction ht with
  | @node n ts hroots _ ih =>
    rw [root_node] at hroot
    obtain ⟨hchain, hlast⟩ := h.chain_children hroot
    have hbelow : ∀ t ∈ ts, t.root ∈ s.children n := by
      intro t ht
      rw [← h.children_forest hroot, hroots]
      exact List.mem_map_of_mem ht
    rw [← h.children_forest hroot, hroots] at hchain hlast
    refine .node hchain hlast (fun t ht => ?_) fun t ht => ih t ht ?_
    · exact h.parent_eq hroot ((hchain.onChain_iff _).mpr (List.mem_map_of_mem ht))
    · exact hroot.tail ((hchain.onChain_iff _).mpr (List.mem_map_of_mem ht))

theorem exists_linked : ∃ t : OrderedTree NodeId,
    t.root = root ∧ s.Linked t ∧ t.nodes.Nodup ∧ s.link .parent root = none := by
  obtain ⟨t, rfl, ht⟩ := h.forest.exists_spans root
  exact ⟨t, rfl, h.linked ht .refl, ht.nodup, h.parent_root⟩

end Consistent

/-- On any links the check goes through just when the links of all nodes that the root reaches are
consistent, and then these nodes are a finite tree. -/
theorem check_eq_ok_iff_consistent (s : Store) (root : NodeId) :
    (s.check root = .ok () ↔ s.Consistent root) ∧
      (s.check root = .ok () ↔ ∃ t, s.ReachesTree root t) := by
  rw [check_eq_ok_iff_linked]
  refine ⟨⟨?_, fun h => h.exists_linked⟩, ?_, ?_⟩
  · rintro ⟨t, rfl, hlinked, -, hparent⟩
    exact hlinked.consistent hparent
  · rintro ⟨t, rfl, hlinked, hnodup, hparent⟩
    exact ⟨t, hlinked.reachesTree hnodup hparent⟩
  · rintro ⟨t, h⟩
    exact ⟨t, h.root_eq, h.linked, h.nodup, h.parent_root⟩

/-- If the root has no next sibling, these nodes are all to which first-child and next links lead. -/
theorem exists_tree_of_check (hnext : s.link .next root = none) (h : s.check root = .ok ()) :
    ∃ t, s.ReachesTree root t ∧ ∀ n, n ∈ t.nodes ↔ Relation.ReflTransGen s.Leads root n := by
  obtain ⟨t, rfl, hlinked, hnodup, hparent⟩ := (s.check_eq_ok_iff_linked root).mp h
  have htree := hlinked.reachesTree hnodup hparent
  exact ⟨t, htree, fun n => (htree.mem_nodes_iff n).trans (reaches_iff_of_next_eq_none hnext n)⟩

end DocTree.Store
