import DocTree.Store
import DocTree.Value.Literal

/-!
The consistency of the links under a root. Five conditions make the links a tree: a node has both a
first and a last child or neither; the chain of children ends at the last child and meets no node
twice; every child names its owner as parent; neighbours name each other; only the root is without a
parent. The check looks at each node once, the subtree of a last child before those of the children
in front of it, and reports the first condition that fails. It ends on any links whatever, because
every step takes a node off the list of those not yet met or off the list of those not yet examined.
-/
namespace DocTree

inductive Violation where
  | rootHasParent (root parent : NodeId)
  | halfOpenEnds (owner : NodeId)
  | reachedTwice (child owner : NodeId)
  | wrongParent (child owner : NodeId)
  | wrongPrevious (child : NodeId) (expected : Option NodeId)
  | wrongLast (owner : NodeId) (found : Option NodeId)
  deriving DecidableEq, Repr

namespace Violation

def number : Violation → Nat
  | halfOpenEnds _ => 1
  | reachedTwice .. | wrongLast .. => 2
  | wrongParent .. => 3
  | wrongPrevious .. => 4
  | rootHasParent .. => 5

def node : Violation → NodeId
  | rootHasParent n _ | halfOpenEnds n | reachedTwice n _ | wrongParent n _ | wrongPrevious n _
  | wrongLast n _ => n

def message (v : Violation) (s : Store) : String :=
  let shown (n : NodeId) : String := (s.label n).literal
  let shown? (n : Option NodeId) : String := n.elim Value.null.literal shown
  match v with
  | rootHasParent root parent => "Root " ++ shown root ++ " has a parent " ++ shown parent
  | halfOpenEnds owner => shown owner ++ " has only one of first_child/last_child set"
  | reachedTwice child owner => shown child ++ " is reachable twice under " ++ shown owner
  | wrongParent child owner =>
    shown child ++ " is a child of " ++ shown owner ++ " but its parent is "
      ++ shown? (s.link .parent child)
  | wrongPrevious child expected =>
    shown child ++ " previous_sibling is " ++ shown? (s.link .previous child) ++ ", expected "
      ++ shown? expected
  | wrongLast owner found =>
    "Child chain of " ++ shown owner ++ " ends at " ++ shown? found ++ ", last_child is "
      ++ shown? (s.link .lastChild owner)

end Violation

namespace Store

def names (s : Store) : List NodeId := (List.range s.size).map .mk

theorem mem_names (s : Store) (n : NodeId) : n ∈ s.names ↔ n.index < s.size := by
  simp only [names, List.mem_map, List.mem_range]
  constructor
  · rintro ⟨i, hi, rfl⟩
    exact hi
  · intro h
    exact ⟨n.index, h, rfl⟩

def endsAgree (s : Store) (n : NodeId) : Bool :=
  (s.link .firstChild n).isNone == (s.link .lastChild n).isNone

/-- Goes along the children of `owner` from `child` on, `previous` being the one in front, and then
to the nodes still to be examined. -/
def checkFrom (s : Store) (owner : NodeId) (previous child : Option NodeId)
    (unexamined unmet : List NodeId) : Except Violation Unit :=
  match child with
  | some c =>
    if c ∉ unmet then .error (.reachedTwice c owner)
    else if s.link .parent c ≠ some owner then .error (.wrongParent c owner)
    else if s.link .previous c ≠ previous then .error (.wrongPrevious c previous)
    else s.checkFrom owner (some c) (s.link .next c) (c :: unexamined) (unmet.erase c)
  | none =>
    if s.link .lastChild owner ≠ previous then .error (.wrongLast owner previous)
    else
      match unexamined with
      | [] => .ok ()
      | n :: rest =>
        if s.endsAgree n then s.checkFrom n none (s.link .firstChild n) rest unmet
        else .error (.halfOpenEnds n)
termination_by 2 * unmet.length + unexamined.length
decreasing_by
  · rename_i h _ _
    have hmem : c ∈ unmet := Decidable.not_not.mp h
    have hlength := List.length_erase_of_mem hmem
    have hpos := List.length_pos_of_mem hmem
    simp only [List.length_cons]
    omega
  · simp

def check (s : Store) (root : NodeId) : Except Violation Unit :=
  match s.link .parent root with
  | some parent => .error (.rootHasParent root parent)
  | none =>
    if s.endsAgree root then
      s.checkFrom root none (s.link .firstChild root) [] (s.names.erase root)
    else .error (.halfOpenEnds root)

end Store

end DocTree
