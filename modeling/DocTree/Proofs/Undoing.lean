import DocTree.Proofs.Surgery
import DocTree.Proofs.WellFormed

/-!
Taking surgery back. What takes a move back is known before the move is made: a child that was appended
is removed, a replaced node replaces its replacement, and a removed node is spliced into the place that
it had. The latest move is taken back first; then every undo meets the links that its move has left,
and the whole store comes out as it was before the run.
-/
namespace DocTree

open Siblings

inductive Move where
  | append (parent child : NodeId)
  | replace (old new : NodeId)
  | remove (n : NodeId)

inductive Undo where
  | remove (n : NodeId)
  | replace (old new : NodeId)
  | replaceAt (place : Position) (n : NodeId)

def Undo.apply (s : Store) : Undo → Except OwnAncestor Store
  | remove n => .ok (s.remove n)
  | replace old new => s.replace old new
  | replaceAt place n => .ok (s.replaceAt place n)

namespace Move

def apply (s : Store) : Move → Except OwnAncestor Store
  | append parent child => .ok (s.append parent child)
  | replace old new => s.replace old new
  | remove n => .ok (s.remove n)

/-- What takes the move back; the place of a node that is removed is captured before. -/
def undo (s : Store) : Move → Undo
  | append _ child => .remove child
  | replace old new => .replace new old
  | remove n => .replaceAt (s.position n) n

/-- The moves that make sense: nodes exist, and a node that is put somewhere is free. An appended tree
does not hold its new parent. -/
def Allowed (s : Store) : Move → Prop
  | append parent child => parent.index < s.size ∧ child.index < s.size ∧
      s.link .parent child = none ∧ parent ∉ (s.tree child).nodes
  | replace old new => old.index < s.size ∧ new.index < s.size ∧ s.link .parent new = none
  | remove n => n.index < s.size

/-- Moves lead from the first store to the second; what takes them back is logged, the latest first. -/
inductive Run : Store → Store → List Undo → Prop
  | nil (s : Store) : Run s s []
  | snoc {s s' s'' : Store} {log : List Undo} {m : Move} (h : Run s s' log)
      (hallowed : m.Allowed s') (hm : m.apply s' = .ok s'') : Run s s'' (m.undo s' :: log)

end Move

def Undo.applyAll (s : Store) (log : List Undo) : Except OwnAncestor Store := log.foldlM apply s

/-- Splicing a node back gives the table that splicing it in without taking it out would give. -/
theorem Links.replaceAt_remove (g : Links) (v : NodeId) :
    (g.remove v).replaceAt ⟨g .parent v, g .previous v, g .next v⟩ v =
      g.replaceAt ⟨g .parent v, g .previous v, g .next v⟩ v := by
  funext l n
  cases l <;> simp only [replaceAt, remove] <;> grind

namespace Forest

variable {f : Forest}

/-- A node spliced into the place where it stands changes nothing. -/
theorem link_replaceAt_self (f : Forest) (v : NodeId) :
    Links.replaceAt f.link ⟨f.link .parent v, f.link .previous v, f.link .next v⟩ v = f.link := by
  have hfirst : ∀ {p}, f.link .previous v = none → f.link .parent v = some p →
      f.link .firstChild p = some v := by
    intro p hprevious hp
    have hmem := f.parent_eq_some_iff.mp hp
    rw [link_previous hmem, before?_eq_none_iff hmem (f.nodup_children p)] at hprevious
    exact hprevious
  have hlast : ∀ {p}, f.link .next v = none → f.link .parent v = some p →
      f.link .lastChild p = some v := by
    intro p hnext hp
    have hmem := f.parent_eq_some_iff.mp hp
    rw [link_next hmem, after?_eq_none_iff hmem (f.nodup_children p)] at hnext
    exact hnext
  have hback : ∀ {n}, f.link .next v = some n → f.link .previous n = some v :=
    link_previous_eq_some_iff.mpr
  have hforth : ∀ {n}, f.link .previous v = some n → f.link .next n = some v :=
    link_previous_eq_some_iff.mp
  funext l n
  cases l <;> simp only [Links.replaceAt] <;> grind

theorem cut_append {p c : NodeId} (hfree : f.parent c = none) (habove : ¬ f.Above c p) :
    (f.append p c hfree habove).cut c = f := by
  refine ext_children fun n => ?_
  have hc := not_mem_children_of_free hfree
  rw [children_cut, children_append]
  split
  · rename_i hn
    rw [hn, List.erase_append_right _ (hc p), List.erase_cons_head, List.append_nil]
  · exact List.erase_of_not_mem (hc n)

theorem exchange_exchange {old new n : NodeId} (hn : n ≠ new) :
    exchange new old (exchange old new n) = n := by
  by_cases ho : n = old
  · rw [ho, exchange_old, exchange_old]
  · rw [exchange_of_ne ho, exchange_of_ne hn]

theorem substitute_substitute {old new : NodeId} (hfree : f.parent new = none)
    (habove : ¬ f.Above new old) :
    (f.substitute old new hfree habove).substitute new old
      (parent_substitute_self f old new hfree habove)
      (not_above_substitute f old new hfree habove) = f := by
  refine ext_children fun n => ?_
  have hnew := not_mem_children_of_free hfree n
  rw [children_substitute, children_substitute, List.map_map]
  refine (List.map_congr_left fun c hc => ?_).trans (List.map_id _)
  exact exchange_exchange fun he => hnew (he ▸ hc)

end Forest

namespace Store.Realizes

variable {s : Store} {f : Forest} (h : s.Realizes 0 f)

include h

theorem remove_append {p c : NodeId} (hp : p.index < s.size) (hc : c.index < s.size)
    (hfree : f.parent c = none) (habove : ¬ f.Above c p) : (s.append p c).remove c = s := by
  have happend := h.append (Nat.zero_le _) (Nat.zero_le _) hfree habove
  have hsize := h.size_append (Nat.zero_le _) hp hc
  have hremove := happend.remove (v := c) (Nat.zero_le _)
  rw [Forest.cut_append] at hremove
  refine hremove.eq h ?_ fun n _ => by simp
  rw [happend.size_remove (Nat.zero_le _) (by omega), hsize]

/-- A replacement that is not refused does nothing or exchanges the nodes. -/
theorem replace_cases {old new : NodeId} (hfree : f.parent new = none) {s' : Store}
    (hs' : s.replace old new = .ok s') : (old = new ∧ s' = s) ∨
      ∃ habove : ¬ f.Above new old, s'.Realizes 0 (f.substitute old new hfree habove) := by
  by_cases hne : old = new
  · rw [Store.replace, if_pos hne] at hs'
    exact .inl ⟨hne, (Except.ok.inj hs').symm⟩
  have habove : ¬ f.Above new old := by
    intro ha
    have hmem := (h.mem_ancestors_iff_above (Nat.zero_le _) hne).mpr ha
    rw [Store.replace, if_neg hne, if_pos hmem] at hs'
    exact absurd hs' (by simp)
  obtain ⟨t, ht, hrealizes⟩ := h.replace (Nat.zero_le _) (Nat.zero_le _) hfree habove
  obtain rfl := Except.ok.inj (hs'.symm.trans ht)
  exact .inr ⟨habove, hrealizes⟩

theorem replace_replace {old new : NodeId} (hold : old.index < s.size) (hnew : new.index < s.size)
    (hfree : f.parent new = none) {s' : Store} (hs' : s.replace old new = .ok s') :
    s'.replace new old = .ok s := by
  rcases h.replace_cases hfree hs' with ⟨rfl, rfl⟩ | ⟨habove, hrealizes⟩
  · exact hs'
  have hsize := h.size_replace (Nat.zero_le _) hold hnew hs'
  obtain ⟨t, ht, hback⟩ := hrealizes.replace (Nat.zero_le _) (Nat.zero_le _)
    (Forest.parent_substitute_self f old new hfree habove)
    (Forest.not_above_substitute f old new hfree habove)
  have hsize' := hrealizes.size_replace (Nat.zero_le _) (by omega) (by omega) ht
  rw [Forest.substitute_substitute] at hback
  have heq : t = s := hback.eq h (hsize'.trans hsize) fun n _ => by
    rw [label_replace ht, label_replace hs']
  rw [ht, heq]

theorem replaceAt_remove {v : NodeId} (hv : v.index < s.size) :
    (s.remove v).replaceAt (s.position v) v = s := by
  have hlink : s.link = f.link := by
    funext l n
    exact h.link_eq n (Nat.zero_le _) l
  have hself : Links.replaceAt s.link (s.position v) v = s.link := by
    rw [position, hlink]
    exact f.link_replaceAt_self v
  have hback : ((s.remove v).replaceAt (s.position v) v).link = s.link := by
    rw [link_replaceAt]
    by_cases hp : s.link .parent v = none
    · have hremove : s.remove v = s := by simp [Store.remove, position, hp]
      rw [hremove, hself]
    · rw [link_remove s hp]
      exact (Links.replaceAt_remove s.link v).trans hself
  have hsize := h.size_remove (Nat.zero_le _) hv
  exact ext_links (h.size_replaceAt (Nat.zero_le _) hv hsize) (by simp) fun l n _ => by rw [hback]

end Store.Realizes

namespace Move

variable {s s' : Store} {m : Move}

theorem wellFormed_apply (h : s.WellFormed) (hallowed : m.Allowed s) (hm : m.apply s = .ok s') :
    s'.WellFormed := by
  have hs := h.realizes
  cases m with
  | append p c =>
    obtain ⟨-, hc, hfree, hout⟩ := hallowed
    rw [hs.parent_eq (Nat.zero_le _)] at hfree
    rw [hs.mem_nodes_tree (Nat.zero_le _) hc] at hout
    obtain rfl := Except.ok.inj hm
    exact (hs.append (Nat.zero_le _) (Nat.zero_le _) hfree hout).wellFormed
  | replace old new =>
    obtain ⟨-, -, hfree⟩ := hallowed
    rw [hs.parent_eq (Nat.zero_le _)] at hfree
    rcases hs.replace_cases hfree hm with ⟨-, rfl⟩ | ⟨_, hrealizes⟩
    · exact h
    · exact hrealizes.wellFormed
  | remove v =>
    obtain rfl := Except.ok.inj hm
    exact (hs.remove (Nat.zero_le _)).wellFormed

/-- What takes a move back gives the store before the move. -/
theorem undo_apply (h : s.WellFormed) (hallowed : m.Allowed s) (hm : m.apply s = .ok s') :
    (m.undo s).apply s' = .ok s := by
  have hs := h.realizes
  cases m with
  | append p c =>
    obtain ⟨hp, hc, hfree, hout⟩ := hallowed
    rw [hs.parent_eq (Nat.zero_le _)] at hfree
    rw [hs.mem_nodes_tree (Nat.zero_le _) hc] at hout
    obtain rfl := Except.ok.inj hm
    exact congrArg Except.ok (hs.remove_append hp hc hfree hout)
  | replace old new =>
    obtain ⟨hold, hnew, hfree⟩ := hallowed
    rw [hs.parent_eq (Nat.zero_le _)] at hfree
    exact hs.replace_replace hold hnew hfree hm
  | remove v =>
    obtain rfl := Except.ok.inj hm
    exact congrArg Except.ok (hs.replaceAt_remove hallowed)

namespace Run

variable {log : List Undo}

theorem wellFormed (hrun : Run s s' log) (h : s.WellFormed) : s'.WellFormed := by
  induction hrun with
  | nil => exact h
  | snoc _ hallowed hm ih => exact wellFormed_apply ih hallowed hm

/-- After a run of moves the log takes the store back to what it was before. -/
theorem applyAll_log (h : s.WellFormed) (hrun : Run s s' log) : Undo.applyAll s' log = .ok s := by
  induction hrun with
  | nil => rfl
  | snoc hrun hallowed hm ih =>
    have hundo := undo_apply (hrun.wellFormed h) hallowed hm
    rw [Undo.applyAll, List.foldlM_cons, hundo]
    exact ih

end Run

def threeNodes : Store := ((Store.empty.push .node).push .node).push .node

theorem threeNodes_wellFormed : threeNodes.WellFormed :=
  ((((Store.Realizes.empty .empty).push .node).push .node).push .node).wellFormed

theorem threeNodes_applyAll_log : threeNodes.WellFormed ∧
    ∃ s' log, Run threeNodes s' log ∧
      log = [.replace ⟨1⟩ ⟨2⟩, .replaceAt ⟨some ⟨0⟩, none, some ⟨2⟩⟩ ⟨1⟩, .remove ⟨2⟩, .remove ⟨1⟩] ∧
      Undo.applyAll s' log = .ok threeNodes := by
  have hrun : Run threeNodes _ _ :=
    ((((Run.nil threeNodes).snoc (m := .append ⟨0⟩ ⟨1⟩) ⟨by decide, by decide, rfl, by decide⟩
      rfl).snoc (m := .append ⟨0⟩ ⟨2⟩) ⟨by decide, by decide, rfl, by decide⟩
      rfl).snoc (m := .remove ⟨1⟩) (by decide : 1 < 3)
      rfl).snoc (m := .replace ⟨2⟩ ⟨1⟩) ⟨by decide, by decide, rfl⟩ rfl
  exact ⟨threeNodes_wellFormed, _, _, hrun, rfl, Run.applyAll_log threeNodes_wellFormed hrun⟩

end Move

end DocTree
