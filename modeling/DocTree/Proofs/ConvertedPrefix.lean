import DocTree.Proofs.Acceptance
import DocTree.Proofs.Edits

/-!
Converting the elements of a sequence into further children of a node. The elements are converted in
order until one of them is refused; the trees of those in front of it have become children then, and
nothing else that was there has changed, whatever the refused element has left behind. So converting two
sequences one after the other is converting the joined one.
-/
namespace DocTree

open OrderedTree Workspace

variable {digits : Option ℕ} {levels : ℕ}

/-- The contents are a list or a tuple of these values. -/
def Markup.HoldsSequence (m : Markup Value) (vs : List Value) : Prop :=
  m.contents = .list vs ∨ m.contents = .tuple vs

namespace Value

section Convert

variable (digits : Option ℕ) (levels : ℕ)

/-- From every state the value is converted into a tree with these labels. -/
def ConvertsTo (v : Value) (t : OrderedTree (Label Value)) : Prop :=
  ∀ w, ∃ root w', convert digits levels v w = .ok root w' ∧ w'.store.Represents root t

/-- From every state the conversion of the value fails in this way. -/
def FailsWith (v : Value) (e : ConversionError) : Prop :=
  ∀ w, ∃ w', convert digits levels v w = .error e w'

end Convert

variable {v : Value}

theorem convertsTo_outline (h : v.fault? digits levels = none) :
    v.ConvertsTo digits levels v.outline := by
  intro w
  obtain ⟨root, w', hconvert⟩ := (convert_eq_ok_iff digits levels v w).mpr h
  exact ⟨root, w', hconvert, (convert_represents hconvert).1⟩

theorem failsWith_of_fault? {e : ConversionError} (h : v.fault? digits levels = some e) :
    v.FailsWith digits levels e :=
  fun w => (convert_eq_error_iff digits levels v w e).mpr h

end Value

/-- The nodes `ns`, each with a new tree below it, have become further children of `target`. Of what was
there nothing has changed but the links of the target to its first and to its last child and the link
from the old last child on. -/
structure Store.GainsChildren (s : Store) (target : NodeId) (ns : List NodeId) (s' : Store) : Prop where
  wellFormed : s'.WellFormed
  children_eq : s'.children target = s.children target ++ ns
  isNew : ∀ n ∈ ns.flatMap fun n => (s'.tree n).nodes, s.size ≤ n.index ∧ n.index < s'.size
  label_eq : ∀ n, n.index < s.size → s'.label n = s.label n
  link_eq : ∀ l n, n.index < s.size → ¬ (n = target ∧ (l = .firstChild ∨ l = .lastChild)) →
    ¬ (s.link .lastChild target = some n ∧ l = .next) → s'.link l n = s.link l n

namespace Conversion

section Gains

variable {target : NodeId} {us : List (OrderedTree NodeId)} {s s' : Store} {f f' : Forest}
  (hs : s.Realizes 0 f) (h : Gains 0 target us s f s' f') {l : Link} {n : NodeId}

include hs h

/-- The children that there were keep their links, but for the last one's link to the next sibling. -/
theorem Gains.link_eq_of_child (hn : n.index < s.size) (hp : f.parent n = some target)
    (hlast : ¬ (s.link .lastChild target = some n ∧ l = .next)) : s'.link l n = s.link l n := by
  have hzero := Nat.zero_le n.index
  have hs' := h.alters.realizes
  have hmem := f.parent_eq_some_iff.mp hp
  have hne : n ≠ target := fun he => Forest.not_mem_children_self target (he ▸ hmem)
  have hchildren := h.alters.children_eq n hn (by simpa using hne)
  obtain ⟨left, right, hsplit, -, -⟩ := Siblings.exists_split hmem (f.nodup_children target)
  have hsplit' : f'.children target = left ++ n :: (right ++ us.map root) := by
    simp [h.children_eq, hsplit]
  obtain ⟨hprevious, hnext⟩ := hs.siblings_eq hsplit
  obtain ⟨hprevious', hnext'⟩ := hs'.siblings_eq hsplit'
  cases l with
  | parent => rw [hs'.parent_eq hzero, hs.parent_eq hzero, h.alters.parent_eq n hn (by simp)]
  | firstChild => rw [hs'.firstChild_eq hzero, hs.firstChild_eq hzero, hchildren]
  | lastChild => rw [hs'.lastChild_eq hzero, hs.lastChild_eq hzero, hchildren]
  | previous => rw [hprevious', hprevious]
  | next =>
    rw [hnext', hnext]
    cases right with
    | nil =>
      have hlink : s.link .lastChild target = some n := by
        rw [hs.lastChild_eq (Nat.zero_le _), hsplit]
        simp
      exact absurd ⟨hlink, rfl⟩ hlast
    | cons m ms => rfl

/-- Of the nodes that there were only the target and its last child get another link. -/
theorem Gains.link_eq (hn : n.index < s.size)
    (hends : ¬ (n = target ∧ (l = .firstChild ∨ l = .lastChild)))
    (hlast : ¬ (s.link .lastChild target = some n ∧ l = .next)) : s'.link l n = s.link l n := by
  by_cases hp : f.parent n = some target
  · exact h.link_eq_of_child hs hn hp hlast
  have hzero := Nat.zero_le n.index
  have hparent : ∀ p, f.parent n = some p → p ∉ [target] := fun p hnp hmem =>
    hp (List.mem_singleton.mp hmem ▸ hnp)
  by_cases hne : n = target
  · have hposition := h.alters.position_eq hs hzero hn (by simp) hparent
    simp only [Store.position, Position.mk.injEq] at hposition
    cases l with
    | parent => exact hposition.1
    | firstChild => exact absurd ⟨hne, .inl rfl⟩ hends
    | lastChild => exact absurd ⟨hne, .inr rfl⟩ hends
    | previous => exact hposition.2.1
    | next => exact hposition.2.2
  · exact h.alters.link_eq hs hzero hn (by simp) hparent (by simpa using hne) l

theorem Gains.gainsChildren (htarget : target.index < s.size) :
    s.GainsChildren target (us.map root) s' where
  wellFormed := h.alters.realizes.wellFormed
  children_eq := by simpa using (Edit.lists_of_gains (w := ⟨s, #[]⟩) hs h).1 target htarget
  isNew := (Edit.lists_of_gains (w := ⟨s, #[]⟩) hs h).2.1
  label_eq := h.alters.label_eq
  link_eq _ _ hn hends hlast := h.link_eq hs hn hends hlast

end Gains

/-- Appending the trees of joined lists is appending those of the one and then those of the other. -/
theorem appendEach_append (make : Value → Conversion NodeId) (target : NodeId) (xs ys : List Value) :
    appendEach make target (xs ++ ys) =
      (do appendEach make target xs; appendEach make target ys) := by
  induction xs with
  | nil => rw [List.nil_append, appendEach, pure_bind]
  | cons x xs ih => simp only [List.cons_append, appendEach, ih, bind_assoc]

section AppendEach

variable {target : NodeId} {w : Workspace} {f : Forest} (hs : w.store.Realizes 0 f)
  (htarget : target.index < w.store.size)

include hs htarget

/-- The trees of accepted values are appended. -/
theorem appendEach_of_accepted {xs : List Value} (hxs : ∀ x ∈ xs, x.fault? digits levels = none) :
    ∃ w' f' us, appendEach (convert digits levels) target xs w = .ok () w' ∧
      Gains 0 target us w.store f w'.store f' ∧
      us.map (OrderedTree.map w'.store.label) = xs.map Value.outline := by
  have hends : Ends (appendEach (convert digits levels) target xs)
      (xs.findSome? (Value.fault? digits levels)) fun _ => True :=
    ends_appendEach (ends_convert digits levels) target xs
  have happends : Appends (appendEach (convert digits levels) target xs) target
      (xs.map Value.outline) :=
    appends_appendEach (makes_convert digits levels) target xs
  have hfault := List.findSome?_eq_none_iff.mpr hxs
  have hw := hends w
  have hgains := happends w 0 f hs (Nat.zero_le _) htarget
  cases hrun : appendEach (convert digits levels) target xs w with
  | ok a w' =>
    rw [hrun] at hgains
    obtain ⟨f', us, hgains, hlabels⟩ := hgains
    exact ⟨w', f', us, rfl, hgains, hlabels⟩
  | error e w' =>
    rw [hrun, hfault] at hw
    exact absurd hw (by simp)

/-- At a refused value nothing is appended any more. -/
theorem appendEach_of_refused {v : Value} (vs : List Value) {e : ConversionError}
    (hv : v.fault? digits levels = some e) :
    ∃ w' f', appendEach (convert digits levels) target (v :: vs) w = .error e w' ∧
      Gains 0 target [] w.store f w'.store f' := by
  obtain ⟨w', hconvert⟩ := (convert_eq_error_iff digits levels v w e).mpr hv
  have hmakes : Makes (convert digits levels v) v.outline := makes_convert digits levels v
  have hw := hmakes w 0 f hs (Nat.zero_le _)
  rw [hconvert] at hw
  obtain ⟨f', halters⟩ := hw
  refine ⟨w', f', ?_, .of_alters halters htarget⟩
  rw [appendEach, bind_eq, hconvert]

/-- The trees in front of the first refused value are appended, and then its error is raised. -/
theorem appendEach_until_refused (vs : List Value) :
    ∃ xs rest w' f' us, vs = xs ++ rest ∧ (∀ x ∈ xs, x.fault? digits levels = none) ∧
      Gains 0 target us w.store f w'.store f' ∧
      us.map (OrderedTree.map w'.store.label) = xs.map Value.outline ∧
      (rest = [] ∧ appendEach (convert digits levels) target vs w = .ok () w' ∨
        ∃ v rest' e, rest = v :: rest' ∧ v.fault? digits levels = some e ∧
          appendEach (convert digits levels) target vs w = .error e w') := by
  cases hfind : vs.findSome? (Value.fault? digits levels) with
  | none =>
    have haccepted := List.findSome?_eq_none_iff.mp hfind
    obtain ⟨w', f', us, hrun, hgains, hlabels⟩ := appendEach_of_accepted hs htarget haccepted
    exact ⟨vs, [], w', f', us, by simp, haccepted, hgains, hlabels, .inl ⟨rfl, hrun⟩⟩
  | some e =>
    obtain ⟨xs, v, rest, rfl, hv, hxs⟩ := List.findSome?_eq_some_iff.mp hfind
    obtain ⟨w₁, f₁, us, hrun, hgains, hlabels⟩ := appendEach_of_accepted hs htarget hxs
    have htarget₁ := Nat.lt_of_lt_of_le htarget hgains.alters.size_le
    obtain ⟨w', f', hrefused, hnothing⟩ :=
      appendEach_of_refused hgains.alters.realizes htarget₁ rest hv
    have hall := hgains.trans htarget hnothing
    rw [List.append_nil] at hall
    refine ⟨xs, v :: rest, w', f', us, rfl, hxs, hall, ?_, .inr ⟨v, rest, e, rfl, hv, ?_⟩⟩
    · rw [hgains.map_label hnothing.alters.label_eq, hlabels]
    · rw [appendEach_append, bind_eq, hrun]
      exact hrefused

end AppendEach

theorem convertChildren_of_holdsSequence {m : Markup Value} {vs : List Value}
    (h : m.HoldsSequence vs) (target : NodeId) :
    convertChildren digits levels target (.markup m) =
      appendEach (convert digits levels) target vs := by
  have helements : elements m.contents = pure vs := by
    rcases h with h | h <;> rw [h] <;> rfl
  rw [convertChildren, contentsOf, pure_bind, helements, pure_bind]

end Conversion

namespace Request

variable {w : Workspace} {target : NodeId} {m : Markup Value} {vs : List Value}

/-- Converting joined sequences is converting the one and then the other. -/
theorem convertChildren_append {m₁ m₂ : Markup Value} {xs ys : List Value}
    (h : m.HoldsSequence (xs ++ ys)) (h₁ : m₁.HoldsSequence xs) (h₂ : m₂.HoldsSequence ys) :
    convertChildren digits levels (some target) (.markup m) w =
      (do let _ ← convertChildren digits levels (some target) (.markup m₁)
          convertChildren digits levels (some target) (.markup m₂)) w := by
  rw [bind_eq, convertChildren_apply, convertChildren_apply,
    Conversion.convertChildren_of_holdsSequence h, Conversion.convertChildren_of_holdsSequence h₁,
    Conversion.appendEach_append, bind_eq]
  cases Conversion.appendEach (convert digits levels) target xs w with
  | error e w' => rfl
  | ok a w' =>
    simp only
    rw [convertChildren_apply, Conversion.convertChildren_of_holdsSequence h₂]

/-- The accepted elements in front become further children, in order; then either nothing is left, and
the request gives the target, or the first element left fails, and the request with it. So joined
contents may be converted one after the other. -/
theorem convertChildren_until_refused (h : w.store.WellFormed) (htarget : target.index < w.store.size)
    (hvs : m.HoldsSequence vs) :
    (∃ xs rest ns w', vs = xs ++ rest ∧ w.store.GainsChildren target ns w'.store ∧
      List.Forall₂ (Value.ConvertsTo digits levels) xs
        (ns.map fun n => (w'.store.tree n).map w'.store.label) ∧
      (rest = [] ∧ convertChildren digits levels (some target) (.markup m) w = .ok (some target) w' ∨
        ∃ v rest' e, rest = v :: rest' ∧ v.FailsWith digits levels e ∧
          convertChildren digits levels (some target) (.markup m) w =
            .error (.build (.conversion e)) w')) ∧
    ∀ xs ys m₁ m₂, vs = xs ++ ys → m₁.HoldsSequence xs → m₂.HoldsSequence ys →
      convertChildren digits levels (some target) (.markup m) w =
        (do let _ ← convertChildren digits levels (some target) (.markup m₁)
            convertChildren digits levels (some target) (.markup m₂)) w := by
  refine ⟨?_, fun xs ys m₁ m₂ he h₁ h₂ => convertChildren_append (he ▸ hvs) h₁ h₂⟩
  have hs := h.realizes
  obtain ⟨xs, rest, w', f', us, he, hxs, hgains, hlabels, hrun⟩ :=
    Conversion.appendEach_until_refused hs htarget vs
  have htrees := (Edit.lists_of_gains hs hgains).2.2
  refine ⟨xs, rest, us.map root, w', he, hgains.gainsChildren hs htarget, ?_, ?_⟩
  · rw [htrees, hlabels, List.forall₂_map_right_iff, List.forall₂_same]
    exact fun x hx => Value.convertsTo_outline (hxs x hx)
  · rw [convertChildren_apply, Conversion.convertChildren_of_holdsSequence hvs]
    rcases hrun with ⟨hrest, hrun⟩ | ⟨v, rest', e, hrest, hv, hrun⟩
    · exact .inl ⟨hrest, by rw [hrun]⟩
    · exact .inr ⟨v, rest', e, hrest, Value.failsWith_of_fault? hv, by rw [hrun]⟩

/-- A paragraph with a text in front of something that cannot be converted. -/
def halfAccepted : Markup Value := .para (.list [.str "first", .null]) .null

theorem halfAccepted_until_refused : Store.twoItems.WellFormed ∧
    halfAccepted.HoldsSequence [.str "first", .null] ∧
    ∃ xs rest ns w', [.str "first", .null] = xs ++ rest ∧
      Store.twoItems.GainsChildren ⟨1⟩ ns w'.store ∧
      List.Forall₂ (Value.ConvertsTo (some 4300) 1) xs
        (ns.map fun n => (w'.store.tree n).map w'.store.label) ∧
      (rest = [] ∧ convertChildren (some 4300) 1 (some ⟨1⟩) (.markup halfAccepted)
          ⟨Store.twoItems, #[]⟩ = .ok (some ⟨1⟩) w' ∨
        ∃ v rest' e, rest = v :: rest' ∧ v.FailsWith (some 4300) 1 e ∧
          convertChildren (some 4300) 1 (some ⟨1⟩) (.markup halfAccepted) ⟨Store.twoItems, #[]⟩ =
            .error (.build (.conversion e)) w') := by
  have hholds : halfAccepted.HoldsSequence [.str "first", .null] := .inl rfl
  have hall := @convertChildren_until_refused (some 4300) 1 ⟨Store.twoItems, #[]⟩ ⟨1⟩ _ _
    Store.twoItems_wellFormed (by decide) hholds
  exact ⟨Store.twoItems_wellFormed, hholds, hall.1⟩

end Request

end DocTree
