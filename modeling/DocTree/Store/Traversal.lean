import DocTree.Store

/-!
Step-by-step traversal. A traversal stops at each node it yields, and the tree may be edited before
it goes on: the children of a node are read when the walk resumes after yielding it, all at once,
while the next sibling is read before a child is yielded.
-/
namespace DocTree

structure Walk where
  /-- The node yielded last, whose children are still to be read. -/
  current : Option NodeId
  /-- The nodes to yield afterwards, first one first. -/
  pending : List NodeId
  deriving DecidableEq, Repr

namespace Walk

def start (n : NodeId) : Walk := ⟨none, [n]⟩

def advance (s : Store) (w : Walk) : Option (NodeId × Walk) :=
  match (w.current.elim [] s.children) ++ w.pending with
  | [] => none
  | n :: rest => some (n, ⟨some n, rest⟩)

end Walk

structure ChildPass where
  upcoming : Option NodeId
  deriving DecidableEq, Repr

namespace ChildPass

def start (s : Store) (parent : NodeId) : ChildPass := ⟨s.link .firstChild parent⟩

def advance (s : Store) (pass : ChildPass) : Option (NodeId × ChildPass) :=
  pass.upcoming.map fun n => (n, ⟨s.link .next n⟩)

end ChildPass

/-- Runs a traversal for at most `limit` nodes. The visitor may change the store, and every step of
the traversal reads the store as it then is. -/
def traverse {σ : Type} {m : Type → Type} [Monad m] (store : m Store)
    (advance : Store → σ → Option (NodeId × σ)) (visit : NodeId → m Unit) :
    (limit : Nat) → σ → m (List NodeId)
  | 0, _ => pure []
  | limit + 1, t => do
    match advance (← store) t with
    | none => return []
    | some (n, t) =>
      visit n
      return n :: (← traverse store advance visit limit t)

def Store.walk (s : Store) (root : NodeId) : List NodeId :=
  Id.run (traverse (pure s) Walk.advance (fun _ => pure ()) s.size (Walk.start root))

end DocTree
