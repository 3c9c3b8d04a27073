import DocTree.Store.Surgery

/-!
Tables of links. The links of all nodes form a table, and each operation of surgery rewrites it by a
rule that depends on the table alone: every entry afterwards is given in terms of the entries before.
-/
namespace DocTree

abbrev Links := Link → NodeId → Option NodeId

namespace Links

variable (g : Links)

def append (p c : NodeId) : Links
  | .parent, n => if c = n then some p else g .parent n
  | .firstChild, n => if g .lastChild p = none ∧ p = n then some c else g .firstChild n
  | .lastChild, n => if p = n then some c else g .lastChild n
  | .previous, n => if c = n then g .lastChild p else g .previous n
  | .next, n =>
    if g .lastChild p = some n then some c else if c = n then none else g .next n

def replaceAt (place : Position) (new : NodeId) : Links
  | .parent, n => if new = n then place.parent else g .parent n
  | .firstChild, n =>
    if place.previous = none ∧ place.parent = some n then some new else g .firstChild n
  | .lastChild, n =>
    if place.next = none ∧ place.parent = some n then some new else g .lastChild n
  | .previous, n =>
    if place.next = some n then some new else if new = n then place.previous else g .previous n
  | .next, n =>
    if place.previous = some n then some new else if new = n then place.next else g .next n

def detach (v : NodeId) : Links
  | .parent, n => if v = n then none else g .parent n
  | .firstChild, n => g .firstChild n
  | .lastChild, n => g .lastChild n
  | .previous, n => if v = n then none else g .previous n
  | .next, n => if v = n then none else g .next n

def remove (v : NodeId) : Links
  | .parent, n => if v = n then none else g .parent n
  | .firstChild, n =>
    if g .previous v = none ∧ g .parent v = some n then g .next v else g .firstChild n
  | .lastChild, n =>
    if g .next v = none ∧ g .parent v = some n then g .previous v else g .lastChild n
  | .previous, n =>
    if v = n then none else if g .next v = some n then g .previous v else g .previous n
  | .next, n =>
    if v = n then none else if g .previous v = some n then g .next v else g .next n

def replace (old new : NodeId) : Links :=
  detach (g.replaceAt ⟨g .parent old, g .previous old, g .next old⟩ new) old

end Links

namespace Store

theorem link_append (s : Store) (p c : NodeId) : (s.append p c).link = Links.append s.link p c := by
  funext l n
  cases hlast : s.link .lastChild p <;> cases l <;> simp [append, Links.append, hlast]

theorem link_replaceAt (s : Store) (place : Position) (new : NodeId) :
    (s.replaceAt place new).link = Links.replaceAt s.link place new := by
  funext l n
  obtain ⟨parent, previous, next⟩ := place
  cases parent <;> cases previous <;> cases next <;> cases l <;>
    simp [replaceAt, Links.replaceAt, setPosition, linkForward, linkBackward]

theorem link_detach (s : Store) (v : NodeId) : (s.detach v).link = Links.detach s.link v := by
  funext l n
  cases l <;> simp [detach, Links.detach, setPosition]

theorem link_remove (s : Store) {v : NodeId} (hv : s.link .parent v ≠ none) :
    (s.remove v).link = Links.remove s.link v := by
  funext l n
  cases hparent : s.link .parent v <;> cases hprev : s.link .previous v <;>
    cases hnext : s.link .next v <;> cases l <;>
    simp_all [remove, position, link_detach, Links.remove, Links.detach, linkForward, linkBackward]

/-- Splicing in a node leaves the node in its place with its parent, so that it is detached. -/
theorem link_replace (s : Store) {old new : NodeId} (hne : old ≠ new)
    (habove : new ∉ s.ancestors old) :
    ∃ s', s.replace old new = .ok s' ∧ s'.link = Links.replace s.link old new := by
  have hparent : (s.replaceAt (s.position old) new).link .parent old = (s.position old).parent := by
    rw [link_replaceAt]
    simp [Links.replaceAt, Ne.symm hne, position]
  refine ⟨(s.replaceAt (s.position old) new).detach old, ?_, ?_⟩
  · simp [replace, hne, habove, hparent]
  · rw [link_detach, link_replaceAt]
    rfl

end Store

end DocTree
