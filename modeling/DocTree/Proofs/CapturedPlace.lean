import DocTree.Proofs.Edits
import DocTree.Proofs.IndependentMoves

/-!
Wrapping a node. Either the node goes under the wrapper first, and the wrapper is spliced into the place
captured before, or the wrapper replaces the node and gets it as a child afterwards. The first way leads
through a store that is out of order: the old parent and the old neighbours still name the node that has
left them. The table of links comes out the same all the same. To append first and to replace then is
refused, because by then the wrapper is the parent of the node.
-/
namespace DocTree

namespace Forest

variable (f : Forest) (v w : NodeId) (hfree : f.parent w = none) (habove : ¬ f.Above w v)

theorem children_wrap (n : NodeId) : (f.wrap v w hfree habove).children n =
    if n = w then f.children w ++ [v] else (f.children n).map (exchange v w) := by
  have hout : v ∉ f.children w := fun hm => habove (above_of_mem_children hm)
  rw [wrap, children_append, children_substitute, children_substitute, map_exchange_of_notMem hout]

end Forest

namespace Store

/-- From `s` to `s'` the node `w` has taken the place of `v`, and `v` has become its last child. -/
structure Wraps (v w : NodeId) (s s' : Store) : Prop where
  wellFormed : s'.WellFormed
  size_eq : s'.size = s.size
  label_eq : ∀ n, s'.label n = s.label n
  position_eq : s'.position w = s.position v
  siblings_eq : ∀ p left right, s.children p = left ++ v :: right →
    s'.children p = left ++ w :: right
  children_wrapper : s'.children w = s.children w ++ [v]
  children_eq : ∀ n, n ≠ w → s.link .parent v ≠ some n → s'.children n = s.children n
  tree_eq : s'.tree v = s.tree v

/-- What the links say of the place captured before is what they say of the wrapper afterwards. -/
theorem position_replaceAt {s : Store} {place : Position} {w : NodeId}
    (hprevious : place.previous ≠ some w) (hnext : place.next ≠ some w) :
    (s.replaceAt place w).position w = place := by
  simp [position, link_replaceAt, Links.replaceAt, hprevious, hnext]

namespace Realizes

variable {s : Store} {f : Forest} {v w : NodeId} (h : s.Realizes 0 f)

include h

/-- No node stands next to a free one. -/
theorem siblings_ne_of_free (hfree : f.parent w = none) :
    s.link .previous v ≠ some w ∧ s.link .next v ≠ some w := by
  rw [h.link_eq v (Nat.zero_le _), h.link_eq v (Nat.zero_le _)]
  constructor
  · rw [Ne, Forest.link_previous_eq_some_iff, (Forest.link_of_free hfree).2]
    simp
  · rw [Ne, ← Forest.link_previous_eq_some_iff, (Forest.link_of_free hfree).1]
    simp

theorem wraps (hv : v.index < s.size) (hw : w.index < s.size) (hfree : f.parent w = none)
    (habove : ¬ f.Above w v) : Wraps v w s ((s.append w v).replaceAt (s.position v) w) := by
  have hwrap := h.append_replaceAt (v := v) (Nat.zero_le _) (Nat.zero_le _) hfree habove
  have hsize := h.size_replaceAt (n := v) (Nat.zero_le _) hw (h.size_append (Nat.zero_le _) hw hv)
  obtain ⟨hprevious, hnext⟩ := h.siblings_ne_of_free (v := v) hfree
  have hne : v ≠ w := fun he => habove (he ▸ Forest.above_refl v)
  have hkeep : ∀ n, n ≠ w → f.parent v ≠ some n →
      (f.wrap v w hfree habove).children n = f.children n := by
    intro n hn hparent
    rw [Forest.children_wrap, if_neg hn]
    exact Forest.map_exchange_of_notMem fun hm => hparent (f.parent_eq_some_iff.mpr hm)
  refine ⟨hwrap.wellFormed, hsize, by simp, position_replaceAt hprevious hnext, ?_, ?_, ?_, ?_⟩
  · intro p left right hp
    rw [h.children_eq_zero] at hp
    have hpw : p ≠ w := fun he => habove (Forest.above_of_mem_children (he ▸ by simp [hp]))
    obtain ⟨hleft, hright⟩ := Forest.notMem_of_children_eq hp
    rw [hwrap.children_eq_zero, Forest.children_wrap, if_neg hpw, hp, List.map_append, List.map_cons,
      Forest.exchange_old, Forest.map_exchange_of_notMem hleft, Forest.map_exchange_of_notMem hright]
  · rw [hwrap.children_eq_zero, h.children_eq_zero, Forest.children_wrap, if_pos rfl]
  · intro n hn hparent
    rw [h.parent_eq (Nat.zero_le _)] at hparent
    rw [hwrap.children_eq_zero, h.children_eq_zero, hkeep n hn hparent]
  · have hspans := h.spans_tree (Nat.zero_le v.index) hv
    have hbelow : (f.wrap v w hfree habove).Spans (s.tree v) := by
      refine hspans.congr fun n hn => ?_
      rw [h.mem_nodes_tree (Nat.zero_le _) hv] at hn
      refine hkeep n (fun he => ?_) fun hp => Forest.not_above_parent hp hn
      exact Forest.not_above_of_free hfree hne (he ▸ hn)
    have htree := hwrap.tree_eq hbelow (Nat.zero_le _) (by rw [root_tree]; omega)
    rwa [root_tree] at htree

/-- Replacing the node first and appending it then ends with the same store. -/
theorem append_replaceAt_eq (hv : v.index < s.size) (hw : w.index < s.size)
    (hfree : f.parent w = none) (habove : ¬ f.Above w v) :
    ∃ t, s.replace v w = .ok t ∧
      t.append w v = (s.append w v).replaceAt (s.position v) w := by
  have hwrap := h.append_replaceAt (v := v) (Nat.zero_le _) (Nat.zero_le _) hfree habove
  have hsize := h.size_replaceAt (n := v) (Nat.zero_le _) hw (h.size_append (Nat.zero_le _) hw hv)
  obtain ⟨t, ht, hreplaced⟩ := h.replace (Nat.zero_le _) (Nat.zero_le _) hfree habove
  have hsize' := h.size_replace (Nat.zero_le _) hv hw ht
  have happended := hreplaced.append (Nat.zero_le _) (Nat.zero_le _)
    (Forest.parent_substitute_self f v w hfree habove)
    (Forest.not_above_substitute f v w hfree habove)
  have hsize'' := hreplaced.size_append (p := w) (c := v) (Nat.zero_le _) (by omega) (by omega)
  refine ⟨t, ht, happended.eq hwrap (by omega) fun n _ => ?_⟩
  simp [label_replace ht]

end Realizes

theorem mem_ancestors_append (s : Store) (p c : NodeId) :
    p ∈ (s.append p c).ancestors c := by
  have hparent : (s.append p c).link .parent c = some p := by
    rw [link_append]
    exact if_pos rfl
  have hlt := index_lt_of_link hparent
  obtain ⟨k, hk⟩ := Nat.exists_eq_succ_of_ne_zero (Nat.ne_zero_of_lt hlt)
  rw [ancestors, hparent, hk]
  exact List.mem_cons_self ..

end Store

namespace Request

def wrapAtPlace (v w : NodeId) : Request Unit := do
  let place ← position (some v)
  append (some w) (some v)
  replaceAt place (some w)

def wrapByReplacing (v w : NodeId) : Request Unit := do
  replace (some v) (some w)
  append (some w) (some v)

def wrapTooLate (v w : NodeId) : Request Unit := do
  append (some w) (some v)
  replace (some v) (some w)

theorem replaceAt_apply (place : Position) (w : NodeId) (a : Workspace) :
    replaceAt place (some w) a = .ok () { a with store := a.store.replaceAt place w } := rfl

theorem append_apply (p c : NodeId) (a : Workspace) :
    append (some p) (some c) a = .ok () { a with store := a.store.append p c } := rfl

theorem wrapAtPlace_apply (v w : NodeId) (a : Workspace) : wrapAtPlace v w a =
    .ok () { a with store := (a.store.append w v).replaceAt (a.store.position v) w } := by
  have hplace : position (some v) a = .ok (a.store.position v) a := rfl
  rw [wrapAtPlace, Workspace.bind_eq, hplace]
  simp only
  rw [Workspace.bind_eq, append_apply]
  simp only
  rw [replaceAt_apply]

/-- Wrapping at the captured place and wrapping by replacement end with the same store, in which the
wrapper stands where the node stood. Replacing after the node was moved is refused. -/
theorem wrapAtPlace_agrees {a : Workspace} (h : a.store.WellFormed) {v w : NodeId}
    (hv : v.index < a.store.size) (hw : w.index < a.store.size)
    (hfree : a.store.link .parent w = none) (hout : v ∉ (a.store.tree w).nodes) :
    ∃ s', wrapAtPlace v w a = .ok () { a with store := s' } ∧
      wrapByReplacing v w a = .ok () { a with store := s' } ∧ a.store.Wraps v w s' ∧
      wrapTooLate v w a =
        .error (.ownAncestor ⟨v, w⟩) { a with store := a.store.append w v } := by
  have hs := h.realizes
  rw [hs.parent_eq (Nat.zero_le _)] at hfree
  rw [hs.mem_nodes_tree (Nat.zero_le _) hw] at hout
  have hne : v ≠ w := fun he => hout (he ▸ Forest.above_refl v)
  obtain ⟨t, ht, hsame⟩ := hs.append_replaceAt_eq hv hw hfree hout
  refine ⟨_, wrapAtPlace_apply v w a, ?_, hs.wraps hv hw hfree hout, ?_⟩
  · rw [wrapByReplacing, Workspace.bind_eq, replace_apply hne, ht, ← hsame]
    simp only
    rw [append_apply]
  · have hrefused : (a.store.append w v).replace v w = .error ⟨v, w⟩ := by
      rw [Store.replace, if_neg hne, if_pos (Store.mem_ancestors_append ..)]
    rw [wrapTooLate, Workspace.bind_eq, append_apply]
    simp only
    rw [replace_apply hne, hrefused]

/-- A node over two others, and a free wrapper that has a child already. -/
def heldWrapper : Store := (Move.twoChildren.push .node).append ⟨3⟩ ⟨4⟩

theorem heldWrapper_wellFormed : heldWrapper.WellFormed :=
  Move.wellFormed_apply (m := .append ⟨3⟩ ⟨4⟩)
    (Move.twoChildren_wellFormed.realizes.push .node).wellFormed
    ⟨by decide, by decide, rfl, by decide⟩ rfl

/-- The first of two children is wrapped. -/
theorem heldWrapper_wrapAtPlace : heldWrapper.WellFormed ∧
    heldWrapper.link .parent ⟨3⟩ = none ∧ ⟨1⟩ ∉ (heldWrapper.tree ⟨3⟩).nodes ∧
    ∃ s', wrapAtPlace ⟨1⟩ ⟨3⟩ ⟨heldWrapper, #[]⟩ = .ok () ⟨s', #[]⟩ ∧
      wrapByReplacing ⟨1⟩ ⟨3⟩ ⟨heldWrapper, #[]⟩ = .ok () ⟨s', #[]⟩ ∧
      heldWrapper.Wraps ⟨1⟩ ⟨3⟩ s' ∧ s'.children ⟨0⟩ = [⟨3⟩, ⟨2⟩] ∧ s'.children ⟨3⟩ = [⟨4⟩, ⟨1⟩] ∧
      ∃ t, wrapTooLate ⟨1⟩ ⟨3⟩ ⟨heldWrapper, #[]⟩ = .error (.ownAncestor ⟨⟨1⟩, ⟨3⟩⟩) t := by
  have hout : ⟨1⟩ ∉ (heldWrapper.tree ⟨3⟩).nodes := by decide
  obtain ⟨s', hplace, hreplacing, hwraps, hrefused⟩ := wrapAtPlace_agrees (v := ⟨1⟩) (w := ⟨3⟩)
    (a := ⟨heldWrapper, #[]⟩) heldWrapper_wellFormed (by decide) (by decide) rfl hout
  exact ⟨heldWrapper_wellFormed, rfl, hout, s', hplace, hreplacing, hwraps,
    hwraps.siblings_eq ⟨0⟩ [] [⟨2⟩] (by decide), hwraps.children_wrapper, _, hrefused⟩

end Request

end DocTree
