import DocTree.Store.Surgery
import DocTree.Proofs.Consistency
import DocTree.Proofs.Exploration

/-!
What the consistency check reports. It explores the tree below the root backwards: a node first, then the
tree of its last child before those of the children in front of it. Everything it has met up to a report
is in order and makes a tree; what it reports is the first thing on its way that is not. The links may
be any whatever, as long as they lead to cells of the store.
-/
namespace DocTree.Store

open OrderedTree Siblings

/-- All links lead to cells of the store. -/
def Closed (s : Store) : Prop := ∀ l n m, s.link l n = some m → m.index < s.size

/-- The links of `n` and those of its children `cs` among each other are in order. -/
structure Owns (s : Store) (n : NodeId) (cs : List NodeId) : Prop where
  ends_agree : s.link .firstChild n = none ↔ s.link .lastChild n = none
  chain : s.Chain none (s.link .firstChild n) cs
  last : s.link .lastChild n = cs.getLast?
  parent : ∀ c ∈ cs, s.link .parent c = some n

/-- The next links lead from `start` along `ns` to `rest`. Every node on the way names `owner` as its
parent, and it names the node before it, the first one `before`. -/
inductive Stretch (s : Store) (owner : NodeId) :
    (before start : Option NodeId) → List NodeId → (rest : Option NodeId) → Prop
  | nil (before start : Option NodeId) : Stretch s owner before start [] start
  | cons {before rest : Option NodeId} {n : NodeId} {ns : List NodeId}
      (hparent : s.link .parent n = some owner) (hprevious : s.link .previous n = before)
      (h : Stretch s owner (some n) (s.link .next n) ns rest) :
      Stretch s owner before (some n) (n :: ns) rest

/-- A search from the root that has found everything in order so far. What it has met is the tree `t`; the
nodes `taken` were taken up, in this order, and those `aside` will be taken up next. -/
structure Explored (s : Store) (root : NodeId) (t : OrderedTree NodeId)
    (taken aside : List NodeId) : Prop where
  root_eq : t.root = root
  nodup : t.nodes.Nodup
  reaches : ∀ n ∈ t.nodes, s.Reaches root n
  backward_eq : t.backward = taken ++ aside
  owns : ∀ u ∈ t.subtrees, u.root ∈ taken → s.Owns u.root (u.children.map OrderedTree.root)
  leaf : ∀ u ∈ t.subtrees, u.root ∉ taken → u.children = []

/-- Along the children of `owner` the nodes `left` are in order and were not met before; `rest` is what
comes next. -/
structure Passed (s : Store) (met : List NodeId) (owner : NodeId) (left : List NodeId)
    (rest : Option NodeId) : Prop where
  ends_agree : s.link .firstChild owner = none ↔ s.link .lastChild owner = none
  stretch : s.Stretch owner none (s.link .firstChild owner) left rest
  nodup : (met ++ left).Nodup

/-- The first thing that is out of order at `owner` and along its children, after the nodes `met`. -/
inductive Fails (s : Store) (met : List NodeId) (owner : NodeId) : Violation → Prop
  | halfOpenEnds (h : ¬ (s.link .firstChild owner = none ↔ s.link .lastChild owner = none)) :
      Fails s met owner (.halfOpenEnds owner)
  | reachedTwice {left : List NodeId} {c : NodeId} (h : s.Passed met owner left (some c))
      (hmet : c ∈ met ++ left) : Fails s met owner (.reachedTwice c owner)
  | wrongParent {left : List NodeId} {c : NodeId} (h : s.Passed met owner left (some c))
      (hnew : c ∉ met ++ left) (hparent : s.link .parent c ≠ some owner) :
      Fails s met owner (.wrongParent c owner)
  | wrongPrevious {left : List NodeId} {c : NodeId} (h : s.Passed met owner left (some c))
      (hnew : c ∉ met ++ left) (hparent : s.link .parent c = some owner)
      (hprevious : s.link .previous c ≠ left.getLast?) :
      Fails s met owner (.wrongPrevious c left.getLast?)
  | wrongLast {cs : List NodeId} (h : s.Passed met owner cs none)
      (hlast : s.link .lastChild owner ≠ cs.getLast?) :
      Fails s met owner (.wrongLast owner cs.getLast?)

/-- What is out of order first: the root has a parent, or the search from the root fails at the node that
it takes up next. -/
inductive FirstViolation (s : Store) (root : NodeId) : Violation → Prop
  | rootHasParent {p : NodeId} (h : s.link .parent root = some p) :
      FirstViolation s root (.rootHasParent root p)
  | below {t : OrderedTree NodeId} {taken aside : List NodeId} {owner : NodeId} {v : Violation}
      (hroot : s.link .parent root = none) (h : s.Explored root t taken (owner :: aside))
      (hv : s.Fails t.nodes owner v) : FirstViolation s root v

/-- What the number of a violation says of the node at which it was found. -/
def Diagnosis (s : Store) (root : NodeId) : (number : ℕ) → (n : NodeId) → Prop
  | 1, n => s.Reaches root n ∧ ¬ (s.link .firstChild n = none ↔ s.link .lastChild n = none)
  | 2, n => (∃ p left, s.Reaches root p ∧ s.Stretch p none (s.link .firstChild p) left (some n) ∧
      (n = root ∨ ∃ q front, s.Reaches root q ∧
        s.Stretch q none (s.link .firstChild q) front (some n) ∧ (q, front) ≠ (p, left))) ∨
    s.Reaches root n ∧ ∃ cs, s.Stretch n none (s.link .firstChild n) cs none ∧
      s.link .lastChild n ≠ cs.getLast?
  | 3, n => ∃ p, s.Reaches root p ∧ s.OnChain p n ∧ s.link .parent n ≠ some p
  | 4, n => ∃ p left, s.Reaches root p ∧ s.Stretch p none (s.link .firstChild p) left (some n) ∧
      s.link .parent n = some p ∧ s.link .previous n ≠ left.getLast?
  | 5, n => n = root ∧ s.link .parent root ≠ none
  | _, _ => False

variable {s : Store} {root owner : NodeId} {before start rest : Option NodeId}

theorem endsAgree_iff (s : Store) (n : NodeId) : s.endsAgree n = true ↔
    (s.link .firstChild n = none ↔ s.link .lastChild n = none) := by
  rw [endsAgree, beq_iff_eq, Bool.eq_iff_iff, Option.isNone_iff_eq_none, Option.isNone_iff_eq_none]

namespace Stretch

theorem snoc {ns : List NodeId} {c : NodeId} (h : s.Stretch owner before start ns (some c))
    (hparent : s.link .parent c = some owner)
    (hprevious : s.link .previous c = ns.getLast?.or before) :
    s.Stretch owner before start (ns ++ [c]) (s.link .next c) := by
  induction ns generalizing before start with
  | nil =>
    cases h
    exact .cons hparent hprevious (.nil _ _)
  | cons n ns ih =>
    cases h with
    | cons hparent' hprevious' hrest =>
      exact .cons hparent' hprevious' (ih hrest (hprevious.trans (getLast?_cons_or n ns before)))

/-- What leads along some nodes leads to each of them. -/
theorem front {left right : List NodeId} {c : NodeId}
    (h : s.Stretch owner before start (left ++ c :: right) rest) :
    s.Stretch owner before start left (some c) := by
  induction left generalizing before start with
  | nil =>
    cases h
    exact .nil _ _
  | cons n ns ih =>
    cases h with
    | cons hparent hprevious hrest => exact .cons hparent hprevious (ih hrest)

theorem parent_eq {ns : List NodeId} (h : s.Stretch owner before start ns rest) :
    ∀ c ∈ ns, s.link .parent c = some owner := by
  induction h with
  | nil => simp
  | cons hparent _ _ ih => exact List.forall_mem_cons.mpr ⟨hparent, ih⟩

theorem chain {ns : List NodeId} (h : s.Stretch owner before start ns none) :
    s.Chain before start ns := by
  generalize hrest : none = rest at h
  induction h with
  | nil => exact hrest ▸ .nil _
  | cons _ hprevious _ ih => exact .cons hprevious (ih hrest)

theorem of_chain {ns : List NodeId} (h : s.Chain before start ns)
    (hparent : ∀ c ∈ ns, s.link .parent c = some owner) :
    s.Stretch owner before start ns none := by
  induction h with
  | nil => exact .nil _ _
  | cons hprevious _ ih =>
    rw [List.forall_mem_cons] at hparent
    exact .cons hparent.1 hprevious (ih hparent.2)

/-- What a stretch leads to is a cell of the store. -/
theorem index_lt (hclosed : s.Closed) {ns : List NodeId} {c : NodeId}
    (h : s.Stretch owner before start ns (some c)) (hstart : ∀ n ∈ start, n.index < s.size) :
    c.index < s.size := by
  generalize hrest : some c = rest at h
  induction h with
  | nil => exact hstart c hrest.symm
  | cons _ _ _ ih => exact ih (fun m hm => hclosed _ _ m hm) hrest

theorem onChain {ns : List NodeId} {c : NodeId}
    (h : s.Stretch owner before (s.link .firstChild owner) ns (some c)) : s.OnChain owner c := by
  have hlead : ∀ {before start rest : Option NodeId} {ns : List NodeId},
      s.Stretch owner before start ns rest → ∀ c, rest = some c → ∃ a, start = some a ∧
        Relation.ReflTransGen (fun x y => s.link .next x = some y) a c := by
    intro before start rest ns h
    induction h with
    | nil => exact fun c hc => ⟨c, hc, .refl⟩
    | cons _ _ _ ih =>
      intro c hc
      obtain ⟨a, ha, hlink⟩ := ih c hc
      exact ⟨_, rfl, .head ha hlink⟩
  exact hlead h c rfl

end Stretch

/-! What the check does from node to node. -/

def checkNext (s : Store) (unexamined unmet : List NodeId) : Except Violation Unit :=
  match unexamined with
  | [] => .ok ()
  | n :: rest =>
    if s.endsAgree n then s.checkFrom n none (s.link .firstChild n) rest unmet
    else .error (.halfOpenEnds n)

theorem check_eq_checkNext (h : s.link .parent root = none) :
    s.check root = s.checkNext [root] (s.names.erase root) := by
  simp only [check, h, checkNext]

theorem checkFrom_none (s : Store) (owner : NodeId) (previous : Option NodeId)
    (unexamined unmet : List NodeId) : s.checkFrom owner previous none unexamined unmet =
      if s.link .lastChild owner ≠ previous then .error (.wrongLast owner previous)
      else s.checkNext unexamined unmet := by
  cases unexamined <;> rw [checkFrom] <;> rfl

/-- The check goes along nodes that are in order and puts them aside. -/
theorem Stretch.checkFrom_eq {ns aside unmet : List NodeId}
    (h : s.Stretch owner before start ns rest) (hnodup : ns.Nodup) (hin : ∀ c ∈ ns, c ∈ unmet) :
    s.checkFrom owner before start aside unmet =
      s.checkFrom owner (ns.getLast?.or before) rest (ns.reverse ++ aside) (unmet.diff ns) := by
  induction h generalizing aside unmet with
  | nil => rfl
  | @cons before rest n ns hparent hprevious _ ih =>
    rw [List.forall_mem_cons] at hin
    rw [List.nodup_cons] at hnodup
    have hrest : ∀ c ∈ ns, c ∈ unmet.erase n := by
      intro c hc
      have hne : c ≠ n := fun he => hnodup.1 (he ▸ hc)
      exact (List.mem_erase_of_ne hne).mpr (hin.2 c hc)
    rw [checkFrom, if_neg (not_not.mpr hin.1), if_neg (not_not.mpr hparent),
      if_neg (not_not.mpr hprevious), ih hnodup.2 hrest, getLast?_cons_or, List.diff_cons]
    simp

/-! The search goes on as long as nothing is out of order. -/

theorem Owns.stretch {n : NodeId} {cs : List NodeId} (h : s.Owns n cs) :
    s.Stretch n none (s.link .firstChild n) cs none := .of_chain h.chain h.parent

theorem Passed.owns {met cs : List NodeId} (h : s.Passed met owner cs none)
    (hlast : s.link .lastChild owner = cs.getLast?) : s.Owns owner cs :=
  ⟨h.ends_agree, h.stretch.chain, hlast, h.stretch.parent_eq⟩

namespace Explored

variable {t : OrderedTree NodeId} {taken aside : List NodeId}

theorem initial (s : Store) (root : NodeId) : s.Explored root (.leaf root) [] [root] where
  root_eq := rfl
  nodup := by simp [OrderedTree.leaf]
  reaches n hn := by
    obtain rfl : n = root := by simpa [OrderedTree.leaf] using hn
    exact .refl
  backward_eq := by simp [OrderedTree.leaf]
  owns u hu hmem := absurd hmem (by simp)
  leaf u hu _ := by
    obtain rfl : u = .leaf root := by simpa [OrderedTree.leaf, subtrees_node] using hu
    rfl

theorem mem_nodes_iff (h : s.Explored root t taken aside) (n : NodeId) :
    n ∈ t.nodes ↔ n ∈ taken ∨ n ∈ aside := by
  rw [← t.backward_perm.mem_iff, h.backward_eq, List.mem_append]

theorem notMem_taken (h : s.Explored root t taken (owner :: aside)) : owner ∉ taken := by
  have hnodup := t.backward_perm.nodup_iff.mpr h.nodup
  rw [h.backward_eq] at hnodup
  exact fun hm => (List.nodup_append.mp hnodup).2.2 owner hm owner (List.mem_cons_self ..) rfl

/-- What was met is the root or a child of a node that was taken up. -/
theorem root_or_mem_children (h : s.Explored root t taken aside) {c : NodeId} (hc : c ∈ t.nodes) :
    c = root ∨ ∃ v ∈ t.subtrees, v.root ∈ taken ∧ c ∈ v.children.map OrderedTree.root := by
  rw [← map_root_subtrees] at hc
  obtain ⟨u, hu, rfl⟩ := List.mem_map.mp hc
  rcases exists_mem_children_of_mem_subtrees hu with rfl | ⟨v, hv, huv⟩
  · exact .inl h.root_eq
  refine .inr ⟨v, hv, ?_, List.mem_map_of_mem huv⟩
  by_contra hout
  rw [h.leaf v hv hout] at huv
  exact absurd huv (by simp)

/-- The node that is taken up next sprouts its children. -/
theorem grow {cs : List NodeId} (h : s.Explored root t taken (owner :: aside))
    (howns : s.Owns owner cs) (hnodup : (t.nodes ++ cs).Nodup) :
    s.Explored root (t.sprout owner cs) (taken ++ [owner]) (cs.reverse ++ aside) := by
  have hleaf : ∀ u ∈ t.subtrees, u.root = owner → u.children = [] := fun u hu he =>
    h.leaf u hu (he ▸ h.notMem_taken)
  have hperm : (t.sprout owner cs).nodes.Perm (t.nodes ++ cs) :=
    nodes_sprout_perm hleaf h.backward_eq h.nodup
  have howner : owner ∈ t.nodes := (h.mem_nodes_iff owner).mpr (.inr (List.mem_cons_self ..))
  have hnew : ∀ c ∈ cs, c ∉ taken ++ [owner] := by
    intro c hc hm
    have hold : c ∈ t.nodes := by
      rcases List.mem_append.mp hm with hm | hm
      · exact (h.mem_nodes_iff c).mpr (.inl hm)
      · exact List.mem_singleton.mp hm ▸ howner
    exact (List.nodup_append.mp hnodup).2.2 c hold c hc rfl
  refine ⟨(root_sprout t).trans h.root_eq, hperm.nodup_iff.mpr hnodup, fun n hn => ?_,
    backward_sprout_of_eq hleaf h.backward_eq h.nodup, fun u hu htaken => ?_, fun u hu htaken => ?_⟩
  · rcases List.mem_append.mp (hperm.mem_iff.mp hn) with hold | hc
    · exact h.reaches n hold
    · exact (h.reaches owner howner).tail ((howns.chain.onChain_iff n).mpr hc)
  · rcases subtree_sprout hu with ⟨hat, hcs⟩ | ⟨hc, -⟩ | ⟨v, hv, hne, hroot, hchildren⟩
    · rwa [hat, hcs]
    · exact absurd htaken (hnew _ hc)
    · rw [hroot, hchildren]
      refine h.owns v hv ?_
      simpa [hroot, hne] using htaken
  · rcases subtree_sprout hu with ⟨hat, -⟩ | ⟨-, hnone⟩ | ⟨v, hv, -, hroot, hchildren⟩
    · exact absurd (hat ▸ List.mem_append_right taken (List.mem_singleton.mpr rfl)) htaken
    · exact hnone
    · have hnone := h.leaf v hv fun hm => htaken (hroot ▸ List.mem_append_left _ hm)
      rw [hnone] at hchildren
      exact List.map_eq_nil_iff.mp hchildren

end Explored

/-- A check under way: of the children of `owner` it has gone along `left`, and `unmet` is all that is
left to meet. -/
structure UnderWay (s : Store) (root : NodeId) (t : OrderedTree NodeId)
    (taken : List NodeId) (owner : NodeId) (left aside : List NodeId)
    (previous child : Option NodeId) (unexamined unmet : List NodeId) : Prop where
  explored : s.Explored root t taken (owner :: aside)
  passed : s.Passed t.nodes owner left child
  previous_eq : previous = left.getLast?
  unexamined_eq : unexamined = left.reverse ++ aside
  nodup : unmet.Nodup
  mem_unmet_iff : ∀ n, n ∈ unmet ↔ n.index < s.size ∧ n ∉ t.nodes ++ left

theorem UnderWay.initial {t : OrderedTree NodeId} {taken aside unmet : List NodeId}
    (h : s.Explored root t taken (owner :: aside)) (hends : s.endsAgree owner = true)
    (hnodup : unmet.Nodup) (hunmet : ∀ n, n ∈ unmet ↔ n.index < s.size ∧ n ∉ t.nodes) :
    s.UnderWay root t taken owner [] aside none (s.link .firstChild owner) aside unmet :=
  ⟨h, ⟨(s.endsAgree_iff owner).mp hends, .nil _ _, by simpa using h.nodup⟩, rfl, rfl, hnodup,
    by simpa using hunmet⟩

/-- What a check under way reports is the first violation. -/
theorem UnderWay.firstViolation (hclosed : s.Closed) (hroot : s.link .parent root = none)
    {t : OrderedTree NodeId} {taken left aside unexamined unmet : List NodeId}
    {previous child : Option NodeId} {v : Violation}
    (h : s.UnderWay root t taken owner left aside previous child unexamined unmet)
    (hv : s.checkFrom owner previous child unexamined unmet = .error v) :
    s.FirstViolation root v := by
  have hlt : ∀ {owner : NodeId} {left : List NodeId} {t : OrderedTree NodeId} {c : NodeId},
      s.Passed t.nodes owner left (some c) → c.index < s.size := fun hpassed =>
    hpassed.stretch.index_lt hclosed fun n hn => hclosed _ _ n hn
  fun_induction s.checkFrom owner previous child unexamined unmet generalizing t taken left aside with
  | case1 owner previous unexamined unmet c hmiss =>
    obtain rfl := Except.error.inj hv
    have hmet : c ∈ t.nodes ++ left := by
      by_contra hnew
      exact hmiss ((h.mem_unmet_iff c).mpr ⟨hlt h.passed, hnew⟩)
    exact .below hroot h.explored (.reachedTwice h.passed hmet)
  | case2 owner previous unexamined unmet c hmem hparent =>
    obtain rfl := Except.error.inj hv
    have hnew := ((h.mem_unmet_iff c).mp (not_not.mp hmem)).2
    exact .below hroot h.explored (.wrongParent h.passed hnew hparent)
  | case3 owner previous unexamined unmet c hmem hparent hprevious =>
    obtain rfl := Except.error.inj hv
    have hnew := ((h.mem_unmet_iff c).mp (not_not.mp hmem)).2
    obtain rfl := h.previous_eq
    exact .below hroot h.explored (.wrongPrevious h.passed hnew (not_not.mp hparent) hprevious)
  | case4 owner previous unexamined unmet c hmem hparent hprevious ih =>
    have hnew := ((h.mem_unmet_iff c).mp (not_not.mp hmem)).2
    obtain rfl := h.previous_eq
    obtain rfl := h.unexamined_eq
    have hnodup : (t.nodes ++ (left ++ [c])).Nodup := by
      rw [← List.append_assoc]
      refine List.nodup_append.mpr ⟨h.passed.nodup, List.nodup_singleton c, fun a ha b hb he => ?_⟩
      exact hnew (List.mem_singleton.mp hb ▸ he ▸ ha)
    have hstretch := h.passed.stretch.snoc (not_not.mp hparent) (by simpa using not_not.mp hprevious)
    refine ih ⟨h.explored, ⟨h.passed.ends_agree, hstretch, hnodup⟩, by simp, by simp,
      h.nodup.erase c, fun n => ?_⟩ hv
    rw [h.nodup.mem_erase_iff, h.mem_unmet_iff n]
    simp only [List.mem_append, List.mem_singleton]
    tauto
  | case5 owner previous unexamined unmet hlast =>
    obtain rfl := Except.error.inj hv
    obtain rfl := h.previous_eq
    exact .below hroot h.explored (.wrongLast h.passed hlast)
  | case6 => exact absurd hv (by simp)
  | case7 owner previous unmet hlast n rest hends ih =>
    have howns := h.passed.owns ((not_not.mp hlast).trans h.previous_eq)
    have hgrown := h.explored.grow howns h.passed.nodup
    have hunmet : ∀ m, m ∈ unmet ↔ m.index < s.size ∧ m ∉ (t.sprout owner left).nodes := by
      intro m
      rw [h.mem_unmet_iff m, hgrown.mem_nodes_iff, List.mem_append, h.explored.mem_nodes_iff]
      simp only [List.mem_append, List.mem_cons, List.mem_reverse, List.not_mem_nil]
      tauto
    rw [← h.unexamined_eq] at hgrown
    exact ih (.initial hgrown hends h.nodup hunmet) hv
  | case8 owner previous unmet hlast n rest hends =>
    obtain rfl := Except.error.inj hv
    have howns := h.passed.owns ((not_not.mp hlast).trans h.previous_eq)
    have hgrown := h.explored.grow howns h.passed.nodup
    rw [← h.unexamined_eq] at hgrown
    exact .below hroot hgrown (.halfOpenEnds fun hagree => hends ((s.endsAgree_iff n).mpr hagree))

/-! The check gets as far as everything is in order. -/

theorem Owns.checkNext_eq {n : NodeId} {cs aside unmet : List NodeId} (h : s.Owns n cs)
    (hnodup : cs.Nodup) (hin : ∀ c ∈ cs, c ∈ unmet) :
    s.checkNext (n :: aside) unmet = s.checkNext (cs.reverse ++ aside) (unmet.diff cs) := by
  rw [checkNext, if_pos ((s.endsAgree_iff n).mpr h.ends_agree), h.stretch.checkFrom_eq hnodup hin,
    checkFrom_none, Option.or_none, if_neg (not_not.mpr h.last)]

/-- When a node is taken up its children are met, and what is below them is still to be met. -/
theorem pending_cons_nil_perm (u : OrderedTree NodeId) (us : List (OrderedTree NodeId)) :
    (pending [] (u :: us)).Perm
      (u.children.map OrderedTree.root ++ pending [] (u.children.reverse ++ us)) := by
  let below (t : OrderedTree NodeId) : List NodeId := t.children.flatMap nodes
  have hreverse : (u.children.flatMap below).Perm (u.children.reverse.flatMap below) :=
    ((List.reverse_perm u.children).flatMap_right below).symm
  have hchildren : (u.children.flatMap nodes).Perm
      (u.children.map OrderedTree.root ++ u.children.reverse.flatMap below) :=
    (flatMap_nodes_perm u.children).trans (hreverse.append_left _)
  simpa [pending] using hchildren.append_right (us.flatMap below)

/-- When a node is taken up, its children backwards take its place in front of the others. -/
theorem nodes_next_perm (u : OrderedTree NodeId) (us : List (OrderedTree NodeId)) :
    ((u :: us).flatMap nodes).Perm (u.root :: (u.children.reverse ++ us).flatMap nodes) := by
  rw [List.flatMap_cons, nodes_eq_cons, List.cons_append, List.flatMap_append]
  exact .cons _ (((List.reverse_perm u.children).symm.flatMap_right nodes).append_right _)

/-- The places that are left when a node is taken up are places from before, other than that of the node. -/
theorem mem_subtrees_of_next {u x : OrderedTree NodeId} {us : List (OrderedTree NodeId)}
    (hnodup : ((u :: us).flatMap nodes).Nodup)
    (hx : x ∈ (u.children.reverse ++ us).flatMap subtrees) :
    x ∈ (u :: us).flatMap subtrees ∧ x.root ≠ u.root := by
  obtain ⟨w, hw, hxw⟩ := List.mem_flatMap.mp hx
  have hroot : x.root ∈ w.nodes := map_root_subtrees w ▸ List.mem_map_of_mem hxw
  rw [(nodes_next_perm u us).nodup_iff, List.nodup_cons] at hnodup
  refine ⟨?_, fun he => hnodup.1 (List.mem_flatMap.mpr ⟨w, hw, he ▸ hroot⟩)⟩
  rw [List.flatMap_cons, List.mem_append]
  rcases List.mem_append.mp hw with hw | hw
  · have hchild := mem_subtrees_of_mem_children u.self_mem_subtrees (List.mem_reverse.mp hw)
    exact .inl (mem_subtrees_trans hchild hxw)
  · exact .inr (List.mem_flatMap.mpr ⟨w, hw, hxw⟩)

/-- The check takes up the nodes of trees that are in order, and then those that are still leaves. -/
theorem exists_checkNext_eq {us : List (OrderedTree NodeId)} {taken aside unmet : List NodeId}
    (horder : us.flatMap backward = taken ++ aside)
    (howns : ∀ u ∈ us.flatMap subtrees, u.root ∈ taken →
      s.Owns u.root (u.children.map OrderedTree.root))
    (hleaf : ∀ u ∈ us.flatMap subtrees, u.root ∉ taken → u.children = [])
    (hnodup : (us.flatMap nodes).Nodup) (hunmet : unmet.Nodup)
    (hin : ∀ n ∈ pending [] us, n ∈ unmet) :
    ∃ unmet', s.checkNext (us.map OrderedTree.root) unmet = s.checkNext aside unmet' ∧
      unmet'.Nodup ∧ ∀ n, n ∈ unmet' ↔ n ∈ unmet ∧ n ∉ pending [] us := by
  induction taken generalizing us unmet with
  | nil =>
    have hchildren : ∀ u ∈ us, u.children = [] := fun u hu =>
      hleaf u (List.mem_flatMap.mpr ⟨u, hu, u.self_mem_subtrees⟩) (by simp)
    have hback : us.flatMap backward = us.map OrderedTree.root := by
      rw [List.map_eq_flatMap]
      refine List.flatMap_congr fun u hu => ?_
      rw [backward_eq_cons, hchildren u hu]
      rfl
    have hpending : pending [] us = [] := by
      simp only [pending, List.flatMap_nil, List.nil_append, List.flatMap_eq_nil_iff]
      intro u hu n hn
      simp [hchildren u hu] at hn
    rw [← hback, horder, List.nil_append]
    exact ⟨unmet, rfl, hunmet, by simp [hpending]⟩
  | cons n taken ih =>
    cases us with
    | nil => simp at horder
    | cons u us =>
      rw [List.flatMap_cons, backward_eq_cons, List.cons_append, List.cons_append,
        List.cons.injEq] at horder
      obtain ⟨rfl, horder⟩ := horder
      let roots := u.children.map OrderedTree.root
      let vs := u.children.reverse ++ us
      have hperm : (pending [] (u :: us)).Perm (roots ++ pending [] vs) := pending_cons_nil_perm u us
      have hpending : (roots ++ pending [] vs).Nodup := by
        have hall := (flatMap_nodes_perm (u :: us)).nodup_iff.mp hnodup
        exact hperm.nodup_iff.mp (List.nodup_append.mp hall).2.1
      obtain ⟨hroots, -, hdisjoint⟩ := List.nodup_append.mp hpending
      have hplace : ∀ x ∈ vs.flatMap subtrees,
          x ∈ (u :: us).flatMap subtrees ∧ x.root ≠ u.root := fun x hx =>
        mem_subtrees_of_next hnodup hx
      have hvs : (vs.flatMap nodes).Nodup :=
        (List.nodup_cons.mp ((nodes_next_perm u us).nodup_iff.mp hnodup)).2
      have hin' : ∀ c ∈ roots, c ∈ unmet := fun c hc =>
        hin c (hperm.mem_iff.mpr (List.mem_append_left _ hc))
      have hself : u ∈ (u :: us).flatMap subtrees :=
        List.mem_flatMap.mpr ⟨u, List.mem_cons_self .., u.self_mem_subtrees⟩
      have hstep : s.checkNext (u.root :: us.map OrderedTree.root) unmet =
          s.checkNext (roots.reverse ++ us.map OrderedTree.root) (unmet.diff roots) :=
        (howns u hself (List.mem_cons_self ..)).checkNext_eq hroots hin'
      have hdiff : ∀ n, n ∈ unmet.diff roots ↔ n ∈ unmet ∧ n ∉ roots := fun n =>
        hunmet.mem_sdiff_iff
      have horder' : vs.flatMap backward = taken ++ aside := by rwa [List.flatMap_append]
      obtain ⟨unmet', hrun, hnodup', hmem⟩ := ih horder'
        (fun x hx hm => howns x (hplace x hx).1 (List.mem_cons_of_mem _ hm))
        (fun x hx hm => hleaf x (hplace x hx).1 fun hc =>
          hm ((List.mem_cons.mp hc).resolve_left (hplace x hx).2))
        hvs hunmet.diff
        fun n hn => (hdiff n).mpr ⟨hin n (hperm.mem_iff.mpr (List.mem_append_right _ hn)),
          fun hc => hdisjoint n hc n hn rfl⟩
      refine ⟨unmet', ?_, hnodup', fun n => ?_⟩
      · rw [List.map_cons, hstep, ← hrun, List.map_append, List.map_reverse]
      · rw [hmem n, hdiff n, hperm.mem_iff, List.mem_append]
        tauto

/-- The check of the root gets to the nodes that are still put aside. -/
theorem Explored.exists_check_eq {t : OrderedTree NodeId} {taken aside : List NodeId}
    (h : s.Explored root t taken aside) (hroot : s.link .parent root = none) :
    ∃ unmet, s.check root = s.checkNext aside unmet ∧ unmet.Nodup ∧
      ∀ n, n ∈ unmet ↔ n.index < s.size ∧ n ∉ t.nodes := by
  obtain rfl := h.root_eq
  have hone : [t].flatMap subtrees = t.subtrees := List.flatMap_singleton ..
  have hpending : pending [] [t] = t.children.flatMap nodes := by simp [pending]
  have hnames : s.names.Nodup := List.nodup_range.map fun _ _ he => congrArg NodeId.index he
  have hnodup := h.nodup
  rw [nodes_eq_cons, List.nodup_cons] at hnodup
  have hin : ∀ n ∈ t.children.flatMap nodes, n ∈ s.names.erase t.root := by
    intro n hn
    have hne : n ≠ t.root := fun he => hnodup.1 (he ▸ hn)
    have hmem : n ∈ t.nodes := nodes_eq_cons t ▸ List.mem_cons_of_mem _ hn
    obtain ⟨v, hv, htaken, hchild⟩ := (h.root_or_mem_children hmem).resolve_left hne
    have hparent := (h.owns v hv htaken).parent n hchild
    exact (List.mem_erase_of_ne hne).mpr ((s.mem_names _).mpr (index_lt_of_link hparent))
  have horder : [t].flatMap backward = taken ++ aside := by simpa using h.backward_eq
  obtain ⟨unmet, hrun, hunmet, hmem⟩ := exists_checkNext_eq horder (hone ▸ h.owns) (hone ▸ h.leaf)
    (by simpa using h.nodup) (hnames.erase t.root) (hpending ▸ hin)
  refine ⟨unmet, (check_eq_checkNext hroot).trans hrun, hunmet, fun n => ?_⟩
  rw [hmem n, hpending, hnames.mem_erase_iff, mem_names, nodes_eq_cons t, List.mem_cons]
  tauto

theorem Passed.checkNext_eq {met left aside unmet : List NodeId}
    (h : s.Passed met owner left rest) (hunmet : ∀ n, n ∈ unmet ↔ n.index < s.size ∧ n ∉ met) :
    s.checkNext (owner :: aside) unmet =
      s.checkFrom owner left.getLast? rest (left.reverse ++ aside) (unmet.diff left) := by
  obtain ⟨-, hleft, hdisjoint⟩ := List.nodup_append.mp h.nodup
  have hin : ∀ c ∈ left, c ∈ unmet := fun c hc =>
    (hunmet c).mpr ⟨index_lt_of_link (h.stretch.parent_eq c hc), fun hm => hdisjoint c hm c hc rfl⟩
  rw [checkNext, if_pos ((s.endsAgree_iff owner).mpr h.ends_agree),
    h.stretch.checkFrom_eq hleft hin, Option.or_none]

/-- The check reports what is out of order first at the node that it takes up next. -/
theorem Fails.checkNext_eq (hclosed : s.Closed) {met aside unmet : List NodeId} {v : Violation}
    (h : s.Fails met owner v) (hnodup : unmet.Nodup)
    (hunmet : ∀ n, n ∈ unmet ↔ n.index < s.size ∧ n ∉ met) :
    s.checkNext (owner :: aside) unmet = .error v := by
  have hrest : ∀ {left : List NodeId} {c : NodeId}, s.Passed met owner left (some c) →
      (c ∈ unmet.diff left ↔ c ∉ met ++ left) := by
    intro left c hpassed
    have hlt := hpassed.stretch.index_lt hclosed fun n hn => hclosed _ _ n hn
    rw [hnodup.mem_sdiff_iff, hunmet c, List.mem_append]
    tauto
  cases h with
  | halfOpenEnds hends =>
    rw [checkNext, if_neg (mt (s.endsAgree_iff owner).mp hends)]
  | reachedTwice hpassed hmet =>
    rw [hpassed.checkNext_eq hunmet, checkFrom, if_pos (mt (hrest hpassed).mp (not_not.mpr hmet))]
  | wrongParent hpassed hnew hparent =>
    rw [hpassed.checkNext_eq hunmet, checkFrom, if_neg (not_not.mpr ((hrest hpassed).mpr hnew)),
      if_pos hparent]
  | wrongPrevious hpassed hnew hparent hprevious =>
    rw [hpassed.checkNext_eq hunmet, checkFrom, if_neg (not_not.mpr ((hrest hpassed).mpr hnew)),
      if_neg (not_not.mpr hparent), if_pos hprevious]
  | wrongLast hpassed hlast =>
    rw [hpassed.checkNext_eq hunmet, checkFrom_none, if_pos hlast]

theorem check_eq_error_iff_firstViolation (hclosed : s.Closed) (root : NodeId) (v : Violation) :
    s.check root = .error v ↔ s.FirstViolation root v := by
  constructor
  · intro h
    cases hroot : s.link .parent root with
    | some p =>
      simp only [check, hroot] at h
      exact Except.error.inj h ▸ .rootHasParent hroot
    | none =>
      have hstart := Explored.initial s root
      obtain ⟨unmet, hrun, hnodup, hunmet⟩ := hstart.exists_check_eq hroot
      rw [hrun, checkNext] at h
      split at h
      · rename_i hends
        exact (UnderWay.initial hstart hends hnodup hunmet).firstViolation hclosed hroot h
      · rename_i hends
        obtain rfl := Except.error.inj h
        exact .below hroot hstart (.halfOpenEnds (mt (s.endsAgree_iff root).mpr hends))
  · intro h
    cases h with
    | rootHasParent hparent => simp only [check, hparent]
    | below hroot hexplored hv =>
      obtain ⟨unmet, hrun, hnodup, hunmet⟩ := hexplored.exists_check_eq hroot
      rw [hrun, hv.checkNext_eq hclosed hnodup hunmet]

/-- A node that was met before was met in another way. -/
theorem Explored.root_or_onChain {t : OrderedTree NodeId} {taken aside : List NodeId}
    (h : s.Explored root t taken aside) {c : NodeId} (hc : c ∈ t.nodes) :
    c = root ∨ ∃ p left, p ∈ taken ∧ s.Reaches root p ∧
      s.Stretch p none (s.link .firstChild p) left (some c) := by
  refine (h.root_or_mem_children hc).imp_right fun ⟨v, hv, htaken, hchild⟩ => ?_
  obtain ⟨left, right, hsplit⟩ := List.append_of_mem hchild
  have hstretch := (h.owns v hv htaken).stretch
  rw [hsplit] at hstretch
  exact ⟨v.root, left, htaken, h.reaches _ (map_root_subtrees t ▸ List.mem_map_of_mem hv),
    hstretch.front⟩

/-- What is out of order first is as its number says. -/
theorem FirstViolation.diagnosis {v : Violation} (h : s.FirstViolation root v) :
    s.Diagnosis root v.number v.node := by
  cases h with
  | rootHasParent hparent => exact ⟨rfl, by simp [hparent]⟩
  | below hroot hexplored hv =>
    have hreached := hexplored.reaches _ ((hexplored.mem_nodes_iff _).mpr (.inr (List.mem_cons_self ..)))
    cases hv with
    | halfOpenEnds hends => exact ⟨hreached, hends⟩
    | @reachedTwice left c hpassed hmet =>
      refine .inl ⟨_, left, hreached, hpassed.stretch, ?_⟩
      rcases List.mem_append.mp hmet with hold | hleft
      · rcases hexplored.root_or_onChain hold with hroot | ⟨p, front, htaken, hp, hstretch⟩
        · exact .inl hroot
        · refine .inr ⟨p, front, hp, hstretch, fun he => ?_⟩
          exact hexplored.notMem_taken ((Prod.mk.inj he).1 ▸ htaken)
      · obtain ⟨front, right, rfl⟩ := List.append_of_mem hleft
        exact .inr ⟨_, front, hreached, hpassed.stretch.front, by simp⟩
    | wrongParent hpassed _ hparent => exact ⟨_, hreached, hpassed.stretch.onChain, hparent⟩
    | wrongPrevious hpassed _ hparent hprevious =>
      exact ⟨_, _, hreached, hpassed.stretch, hparent, hprevious⟩
    | wrongLast hpassed hlast => exact .inr ⟨hreached, _, hpassed.stretch, hlast⟩

/-- The check reports just what is out of order first, and what it reports is true: its number says what
is wrong at its node. The root is reported for its parent whenever it has one. -/
theorem check_eq_error_iff (hclosed : s.Closed) (root : NodeId) (v : Violation) :
    s.check root = .error v ↔ s.FirstViolation root v ∧ s.Diagnosis root v.number v.node ∧
      (v.number = 5 ↔ s.link .parent root ≠ none) := by
  rw [check_eq_error_iff_firstViolation hclosed]
  refine ⟨fun h => ⟨h, h.diagnosis, ?_⟩, fun h => h.1⟩
  cases h with
  | rootHasParent hparent => simp [hparent, Violation.number]
  | below hroot _ hv => cases hv <;> simp [hroot, Violation.number]

/-- A node over two others. The second one names the first as its parent and leads back to it. -/
def crossed : Store :=
  ((((((Store.empty.push .node).push .node).push .node).append ⟨0⟩ ⟨1⟩).append ⟨0⟩ ⟨2⟩).setLink
    .parent ⟨2⟩ (some ⟨1⟩)).setLink .next ⟨2⟩ (some ⟨1⟩)

theorem crossed_closed : crossed.Closed := by
  have hcells : ∀ l ∈ Link.all, ∀ i < 3, ∀ m ∈ crossed.link l ⟨i⟩, m.index < 3 := by decide
  intro l n m hm
  exact hcells l l.mem_all n.index (index_lt_of_link hm) m hm

/-- The parent is looked at first. -/
theorem crossed_check : crossed.Closed ∧ crossed.check ⟨0⟩ = .error (.wrongParent ⟨2⟩ ⟨0⟩) ∧
    crossed.FirstViolation ⟨0⟩ (.wrongParent ⟨2⟩ ⟨0⟩) ∧ crossed.Diagnosis ⟨0⟩ 3 ⟨2⟩ := by
  have hcheck : crossed.check ⟨0⟩ = .error (.wrongParent ⟨2⟩ ⟨0⟩) := by
    decide +kernel
  obtain ⟨hfirst, hdiagnosis, -⟩ := (check_eq_error_iff crossed_closed _ _).mp hcheck
  exact ⟨crossed_closed, hcheck, hfirst, hdiagnosis⟩

end DocTree.Store
