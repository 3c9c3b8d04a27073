import DocTree.Proofs.Edits
import DocTree.Proofs.Undoing

/-!
How far surgery is safe. Appending and replacing do not look whether the node that is moved is free. If
it is, and would not come to stand below itself, the store stays in order. In all other cases it does
not: the place that the node has left behind still names it, so that the chain of children there is out
of order, or the node stands above itself. Only replacing a node by one of its ancestors is refused, and
then nothing is written.
-/
namespace DocTree.Store

/-- The children of some node form no chain, or some node stands above itself. -/
def Broken (s : Store) : Prop :=
  (∃ p, ∀ ns, ¬ s.ChildChain p ns) ∨
    ∃ n, Relation.TransGen (fun c p => s.link .parent c = some p) n n

/-- Nothing, or a free node whose tree does not hold the parent, may be appended. -/
def Appendable (s : Store) (parent : NodeId) : Option NodeId → Prop
  | none => True
  | some child => s.link .parent child = none ∧ parent ∉ (s.tree child).nodes

theorem WellFormed.not_broken {s : Store} (h : s.WellFormed) : ¬ s.Broken := by
  rintro (⟨p, hp⟩ | ⟨n, hn⟩)
  · exact hp _ (h.childChain p)
  · exact h.acyclic n hn

/-- What is in order where it is safe and broken elsewhere is so just there. -/
theorem wellFormed_iff_and_broken_iff {s : Store} {safe : Prop} (hsafe : safe → s.WellFormed)
    (hwrong : ¬ safe → s.Broken) : (s.WellFormed ↔ safe) ∧ (s.Broken ↔ ¬ safe) := by
  have hnot : safe → ¬ s.Broken := fun h => (hsafe h).not_broken
  refine ⟨⟨fun h => ?_, hsafe⟩, fun hb h => hnot h hb, hwrong⟩
  by_contra hn
  exact h.not_broken (hwrong hn)

namespace ChildChain

variable {s : Store} {p x y : NodeId} {ns : List NodeId} (h : s.ChildChain p ns)

include h

theorem exists_split (hx : s.link .parent x = some p) :
    ∃ left right, ns = left ++ x :: right ∧ s.link .previous x = left.getLast? ∧
      s.link .next x = right.head? := by
  obtain ⟨left, right, rfl, -, -⟩ := Siblings.exists_split ((h.owned x).mpr hx) h.nodup
  exact ⟨left, right, rfl, by simpa using h.chain.previous_eq, h.chain.next_eq⟩

theorem of_firstChild (hx : s.link .firstChild p = some x) :
    s.link .parent x = some p ∧ s.link .previous x = none ∧ s.link .lastChild p ≠ none := by
  rw [h.chain.start_eq] at hx
  obtain ⟨right, rfl⟩ := List.head?_eq_some_iff.mp hx
  refine ⟨(h.owned x).mp (List.mem_cons_self ..), ?_, by simp [h.last]⟩
  simpa using @Chain.previous_eq s none _ [] right x h.chain

theorem of_next (hx : s.link .parent x = some p) (hy : s.link .next x = some y) :
    s.link .parent y = some p ∧ s.link .previous y = some x ∧ y ≠ x := by
  obtain ⟨left, right, rfl, -, hnext⟩ := h.exists_split hx
  obtain ⟨right, rfl⟩ := List.head?_eq_some_iff.mp (hnext.symm.trans hy)
  have hcut : left ++ x :: y :: right = (left ++ [x]) ++ y :: right := by simp
  have hprevious := (hcut ▸ h.chain).previous_eq
  have hnodup := h.nodup
  refine ⟨(h.owned y).mp (by simp), by simpa using hprevious, ?_⟩
  rintro rfl
  simp [List.nodup_append] at hnodup

theorem next_of_lastChild (hx : s.link .lastChild p = some x) : s.link .next x = none := by
  rw [h.last] at hx
  obtain ⟨left, rfl⟩ := List.getLast?_eq_some_iff.mp hx
  simpa using h.chain.next_eq

/-- A child is the first one, or another child in front of it leads to it. -/
theorem first_or_behind (hx : s.link .parent x = some p) :
    s.link .firstChild p = some x ∧ s.link .previous x = none ∨
      ∃ y, s.link .parent y = some p ∧ s.link .next y = some x ∧ s.link .previous x = some y := by
  obtain ⟨left, right, rfl, hprevious, -⟩ := h.exists_split hx
  rcases List.eq_nil_or_concat left with rfl | ⟨left, y, rfl⟩
  · exact .inl ⟨h.chain.start_eq, hprevious⟩
  · have hcut : left.concat y ++ x :: right = left ++ y :: x :: right := by simp
    refine .inr ⟨y, (h.owned y).mp (by simp), (hcut ▸ h.chain).next_eq, by simpa using hprevious⟩

omit h in
/-- Children with the same node in front of them are the same. -/
theorem eq_of_previous_eq (h : s.ChildChain p ns) (hx : s.link .parent x = some p)
    (hy : s.link .parent y = some p) (hxy : s.link .previous x = s.link .previous y) : x = y := by
  rcases h.first_or_behind hx with ⟨hx, hnone⟩ | ⟨z, -, hzx, hz⟩
  · rcases h.first_or_behind hy with ⟨hy, -⟩ | ⟨w, -, -, hw⟩
    · exact Option.some.inj (hx.symm.trans hy)
    · simp [hxy, hw] at hnone
  · rcases h.first_or_behind hy with ⟨-, hnone⟩ | ⟨w, -, hwy, hw⟩
    · simp [hxy, hnone] at hz
    · rw [hxy, hw, Option.some.injEq] at hz
      exact Option.some.inj (hzx.symm.trans (hz ▸ hwy))

/-- A child to which its old place still leads in another store stands there as before. -/
theorem same_place {s' : Store} {ns' : List NodeId} (h' : s'.ChildChain p ns')
    (hx : s.link .parent x = some p)
    (hfirst : s.link .firstChild p = some x → s'.link .firstChild p = some x)
    (hnext : ∀ y, s.link .parent y = some p → s.link .next y = some x →
      s'.link .parent y = some p ∧ s'.link .next y = some x) :
    s'.link .parent x = some p ∧ s'.link .previous x = s.link .previous x := by
  rcases h.first_or_behind hx with ⟨hx, hnone⟩ | ⟨y, hy, hyx, hback⟩
  · obtain ⟨hx', hnone', -⟩ := h'.of_firstChild (hfirst hx)
    exact ⟨hx', hnone'.trans hnone.symm⟩
  · obtain ⟨hy', hyx'⟩ := hnext y hy hyx
    obtain ⟨hx', hback', -⟩ := h'.of_next hy' hyx'
    exact ⟨hx', hback'.trans hback.symm⟩

end ChildChain

section Append

variable {s : Store} {p c : NodeId} (h : s.WellFormed)

include h

/-- The place of a node that was not free still leads to it. -/
theorem not_childChain_append {q : NodeId} (hq : s.link .parent c = some q) :
    ∃ r, ∀ ns, ¬ (s.append p c).ChildChain r ns := by
  refine ⟨q, fun ns hns => ?_⟩
  have hlink := link_append s p c
  have hold := h.childChain q
  have hplace := hold.same_place hns hq (fun hfirst => ?_) fun y hy hyc => ?_
  · simp only [hlink, Links.append, if_true, Option.some.injEq] at hplace
    obtain ⟨rfl, hlast⟩ := hplace
    -- the node in front would be the last child
    rcases hold.first_or_behind hq with ⟨hfirst, hnone⟩ | ⟨y, -, hyc, hback⟩
    · exact (hold.of_firstChild hfirst).2.2 (hlast.trans hnone)
    · rw [hold.next_of_lastChild (hlast.trans hback)] at hyc
      exact absurd hyc (by simp)
  · simp only [hlink, Links.append, hfirst, ite_self]
  · have hne := (hold.of_next hy hyc).2.2
    simp only [hlink, Links.append, hne, hy, hyc, if_false, ite_self, and_self]

omit h in
/-- A free node appended within its own tree stands above itself. -/
theorem transGen_append (hfree : s.link .parent c = none)
    (hpc : Relation.ReflTransGen (fun x y => s.link .parent x = some y) p c) :
    Relation.TransGen (fun x y => (s.append p c).link .parent x = some y) c c := by
  have hlink := link_append s p c
  have hfirst : (s.append p c).link .parent c = some p := by
    rw [hlink]
    exact if_pos rfl
  refine .head' hfirst (Relation.ReflTransGen.mono (fun x y hxy => ?_) _ _ hpc)
  have hne : c ≠ x := by
    rintro rfl
    rw [hfree] at hxy
    exact absurd hxy (by simp)
  rw [hlink]
  exact (if_neg hne).trans hxy

theorem append_boundary (hc : c.index < s.size) :
    ((s.append p c).WellFormed ↔ s.Appendable p (some c)) ∧
      ((s.append p c).Broken ↔ ¬ s.Appendable p (some c)) := by
  have hs := h.realizes
  have htree := hs.mem_nodes_tree (m := p) (Nat.zero_le _) hc
  refine wellFormed_iff_and_broken_iff (fun ⟨hfree, hout⟩ => ?_) fun hwrong => ?_
  · rw [hs.parent_eq (Nat.zero_le _)] at hfree
    rw [htree] at hout
    exact (hs.append (Nat.zero_le _) (Nat.zero_le _) hfree hout).wellFormed
  · cases hparent : s.link .parent c with
    | some q => exact .inl (not_childChain_append h hparent)
    | none =>
      have hin : p ∈ (s.tree c).nodes := by
        by_contra hout
        exact hwrong ⟨hparent, hout⟩
      exact .inr ⟨c, transGen_append hparent (htree.mp hin)⟩

theorem appendChild_boundary {child : Option NodeId} (hc : ∀ c ∈ child, c.index < s.size) :
    ((s.appendChild p child).WellFormed ↔ s.Appendable p child) ∧
      ((s.appendChild p child).Broken ↔ ¬ s.Appendable p child) := by
  cases child with
  | none =>
    have hsafe : s.Appendable p none := trivial
    exact wellFormed_iff_and_broken_iff (fun _ => h) (absurd hsafe)
  | some c =>
    rw [appendChild]
    exact append_boundary h (hc c rfl)

end Append

section Replace

variable {s : Store} {old new : NodeId} (h : s.WellFormed)

include h

/-- The place of a replacement that was not free still leads to it. -/
theorem not_childChain_replace (hne : old ≠ new) {q : NodeId} (hq : s.link .parent new = some q)
    {s' : Store} (hlink : s'.link = Links.replace s.link old new) :
    ∃ r, ∀ ns, ¬ s'.ChildChain r ns := by
  refine ⟨q, fun ns hns => ?_⟩
  have hold := h.childChain q
  have hparent : s'.link .parent new = s.link .parent old := by
    rw [hlink]
    simp [Links.replace, Links.detach, Links.replaceAt, hne]
  by_cases hbehind : s.link .next old = some new
  · -- a replacement that stood behind the node is its own successor
    have hnext : s'.link .next new = some new := by
      rw [hlink]
      simp [Links.replace, Links.detach, Links.replaceAt, hne, hbehind]
    have hsame : s.link .parent old = s.link .parent new :=
      h.forest.parent_eq_of_next ((h.realizes.link_eq old (Nat.zero_le _) .next).symm.trans hbehind)
    exact (hns.of_next (hparent.trans (hsame.trans hq)) hnext).2.2 rfl
  have hplace := hold.same_place hns hq (fun hfirst => ?_) fun y hy hyn => ?_
  · rw [hparent, hlink] at hplace
    simp only [Links.replace, Links.detach, Links.replaceAt, hne, hbehind, if_false, if_true]
      at hplace
    exact hne (hold.eq_of_previous_eq hplace.1 hq hplace.2)
  · simp only [hlink, Links.replace, Links.detach, Links.replaceAt, hfirst, ite_self]
  · have hyn' := (hold.of_next hy hyn).2.2
    have hyo : old ≠ y := fun he => hbehind (he ▸ hyn)
    simp [hlink, Links.replace, Links.detach, Links.replaceAt, hyn', hyo, hy, hyn]

/-- A node stands above another when it is met on the way up from it. -/
theorem mem_ancestors_iff_transGen :
    new ∈ s.ancestors old ↔
      Relation.TransGen (fun c p => s.link .parent c = some p) old new := by
  rw [h.realizes.mem_ancestors (Nat.zero_le _), Relation.TransGen.head'_iff]
  rfl

theorem replace_boundary {s' : Store} (hs' : s.replace old new = .ok s') :
    (s'.WellFormed ↔ old = new ∨ s.link .parent new = none) ∧
      (s'.Broken ↔ ¬ (old = new ∨ s.link .parent new = none)) := by
  have hs := h.realizes
  refine wellFormed_iff_and_broken_iff (fun hsafe => ?_) fun hwrong => ?_
  · rcases hsafe with rfl | hfree
    · rw [Store.replace, if_pos rfl] at hs'
      exact Except.ok.inj hs' ▸ h
    · rw [hs.parent_eq (Nat.zero_le _)] at hfree
      rcases hs.replace_cases hfree hs' with ⟨-, rfl⟩ | ⟨_, hrealizes⟩
      · exact h
      · exact hrealizes.wellFormed
  · obtain ⟨hne, hheld⟩ := not_or.mp hwrong
    obtain ⟨q, hq⟩ := Option.ne_none_iff_exists'.mp hheld
    have habove : new ∉ s.ancestors old := by
      intro hmem
      rw [Store.replace, if_neg hne, if_pos hmem] at hs'
      exact absurd hs' (by simp)
    obtain ⟨t, ht, hlink⟩ := link_replace s hne habove
    obtain rfl := Except.ok.inj (hs'.symm.trans ht)
    exact .inl (not_childChain_replace h hne hq hlink)

end Replace

end DocTree.Store

namespace DocTree

variable {w : Workspace}

/-- Appending keeps a store in order just when the child may be appended, and replacing, which is refused
for ancestors alone, just when the replacement is free or the node itself. Otherwise the store is
broken. -/
theorem Request.surgery_boundary (h : w.store.WellFormed) :
    (∀ (parent : NodeId) (child : Option NodeId), parent.index < w.store.size →
      (∀ c ∈ child, c.index < w.store.size) →
      ∃ w', append (some parent) child w = .ok () w' ∧
        (w'.store.WellFormed ↔ w.store.Appendable parent child) ∧
        (w'.store.Broken ↔ ¬ w.store.Appendable parent child)) ∧
    ∀ old new : NodeId, old.index < w.store.size → new.index < w.store.size →
      match replace (some old) (some new) w with
      | .ok _ w' =>
        ¬ Relation.TransGen (fun c p => w.store.link .parent c = some p) old new ∧
        (w'.store.WellFormed ↔ old = new ∨ w.store.link .parent new = none) ∧
        (w'.store.Broken ↔ ¬ (old = new ∨ w.store.link .parent new = none))
      | .error e w' =>
        Relation.TransGen (fun c p => w.store.link .parent c = some p) old new ∧
        e = .ownAncestor ⟨old, new⟩ ∧ w' = w := by
  refine ⟨fun parent child _ hchild => ?_, fun old new _ _ => ?_⟩
  · have hrun : append (some parent) child w =
        .ok () { w with store := w.store.appendChild parent child } := by
      cases child <;> rfl
    exact ⟨_, hrun, Store.appendChild_boundary h hchild⟩
  · by_cases hne : old = new
    · subst hne
      have hrun : replace (some old) (some old) w = .ok () w := by
        simp only [replace, if_true]
        rfl
      rw [hrun]
      exact ⟨h.acyclic old, Store.wellFormed_iff_and_broken_iff (fun _ => h) (absurd (.inl rfl))⟩
    · have habove : new ∈ w.store.ancestors old ↔ _ := Store.mem_ancestors_iff_transGen h
      rw [replace_apply hne]
      by_cases hmem : new ∈ w.store.ancestors old
      · have hrefused : w.store.replace old new = .error ⟨old, new⟩ := by
          rw [Store.replace, if_neg hne, if_pos hmem]
        rw [hrefused]
        exact ⟨habove.mp hmem, rfl, rfl⟩
      · obtain ⟨s', hs', -⟩ := Store.link_replace w.store hne hmem
        rw [hs']
        exact ⟨mt habove.mpr hmem, Store.replace_boundary h hs'⟩

/-- Appending an item a second time to the document that holds it breaks the store. -/
theorem Request.twoItems_surgery_boundary : Store.twoItems.WellFormed ∧
    ∃ w', append (some ⟨0⟩) (some ⟨1⟩) ⟨Store.twoItems, #[]⟩ = .ok () w' ∧ w'.store.Broken := by
  have h := Store.twoItems_wellFormed
  obtain ⟨w', hrun, -, hbroken⟩ := (surgery_boundary (w := ⟨Store.twoItems, #[]⟩) h).1 ⟨0⟩ (some ⟨1⟩)
    (by decide) (by decide)
  have hheld : Store.twoItems.link .parent ⟨1⟩ = some ⟨0⟩ := rfl
  refine ⟨h, w', hrun, hbroken.mpr fun hsafe => ?_⟩
  exact absurd (hheld.symm.trans hsafe.1) (by decide)

end DocTree
