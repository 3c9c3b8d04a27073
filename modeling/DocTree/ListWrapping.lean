import DocTree.Workspace

/-!
Wrapping items into lists. Markup gives list entries one by one; these passes put every item below a
root into a list node, so that a renderer can tell a list entry by its parent alone. Either every
item gets a list of its own, or each run of neighbouring items shares one. Items already under a
list stay where they are, and so does everything that is no item.
-/
namespace DocTree

/-- What has become of one child: the store, the list that further items may join, and the number of
lists made. -/
structure Settled where
  store : Store
  joinable : Option NodeId
  made : Nat

namespace Store

/-- Puts a new list in the place of a node and the node into the list. The place is captured before
the node is moved. -/
def wrap (s : Store) (n : NodeId) : Store :=
  ((s.push .list).append s.fresh n).replaceAt (s.position n) s.fresh

/-- Settles one child, everything below it being done: an item joins the list that is open or gets a
new one, anything else closes the list. -/
def settle (s : Store) (merge : Bool) (owner child : NodeId) (joinable : Option NodeId) : Settled :=
  if s.kind child ≠ .item ∨ s.kind owner = .list then ⟨s, none, 0⟩
  else
    match joinable with
    | some list => ⟨(s.remove child).append list child, some list, 0⟩
    | none => ⟨s.wrap child, if merge then some s.fresh else none, 1⟩

/-- Settles `child` and the siblings after it, each after everything below it. The next sibling is
read before the child is touched. At most `bound` links are followed one after the other. -/
def wrapFrom (merge : Bool) : (bound : Nat) → (s : Store) → (owner : NodeId) →
    (child joinable : Option NodeId) → Option (Store × Nat)
  | _, s, _, none, _ => some (s, 0)
  | 0, _, _, some _, _ => none
  | bound + 1, s, owner, some child, joinable => do
    let following := s.link .next child
    let (s, below) ← wrapFrom merge bound s child (s.link .firstChild child) none
    let settled := s.settle merge owner child joinable
    let (s, after) ← wrapFrom merge bound settled.store owner following settled.joinable
    return (s, below + settled.made + after)

/-- Wraps every item below a root and counts the lists made. In a tree no more links can follow one
another than there are nodes; the bound leaves room for links in disorder, and there is no result
when they run in a circle. -/
def wrapItems (s : Store) (root : NodeId) (merge : Bool) : Option (Store × Nat) :=
  wrapFrom merge (4 * (s.size + 1)) s root (s.link .firstChild root) none

def wrapRoot (s : Store) (root : NodeId) : Store × NodeId :=
  if s.kind root = .item then ((s.push .list).append s.fresh root, s.fresh) else (s, root)

end Store

end DocTree
