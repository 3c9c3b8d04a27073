import DocTree.Store
import DocTree.Value.Literal

/-!
Surgery on linked trees: appending a child, splicing a node into a place, replacing and removing a
node. Each operation writes only the links that name the nodes it moves and their neighbours. The
operations do not check that a moved node was free before; replacing a node by one of its own
ancestors is refused, because no tree could result.
-/
namespace DocTree

/-- A place among siblings: the parent and the neighbours on both sides. -/
structure Position where
  parent : Option NodeId
  previous : Option NodeId
  next : Option NodeId
  deriving DecidableEq, Repr

structure OwnAncestor where
  old : NodeId
  new : NodeId
  deriving DecidableEq, Repr

namespace Store

def position (s : Store) (n : NodeId) : Position :=
  ⟨s.link .parent n, s.link .previous n, s.link .next n⟩

/-- Makes a node the last child of a parent, keeping the node's own children. -/
def append (s : Store) (parent child : NodeId) : Store :=
  let s := (s.setLink .parent child (some parent)).setLink .next child none
  match s.link .lastChild parent with
  | some tail =>
    ((s.setLink .next tail (some child)).setLink .previous child (some tail)).setLink
      .lastChild parent (some child)
  | none =>
    ((s.setLink .previous child none).setLink .firstChild parent (some child)).setLink
      .lastChild parent (some child)

def appendChild (s : Store) (parent : NodeId) : Option NodeId → Store
  | none => s
  | some child => s.append parent child

/-- Writes the link that leads forward into a place, from the left neighbour or else the parent. -/
def linkForward (s : Store) (place : Position) (target : Option NodeId) : Store :=
  match place.previous, place.parent with
  | some left, _ => s.setLink .next left target
  | none, some parent => s.setLink .firstChild parent target
  | none, none => s

/-- Writes the link that leads back into a place, from the right neighbour or else the parent. -/
def linkBackward (s : Store) (place : Position) (target : Option NodeId) : Store :=
  match place.next, place.parent with
  | some right, _ => s.setLink .previous right target
  | none, some parent => s.setLink .lastChild parent target
  | none, none => s

def setPosition (s : Store) (n : NodeId) (place : Position) : Store :=
  ((s.setLink .parent n place.parent).setLink .previous n place.previous).setLink
    .next n place.next

def detach (s : Store) (n : NodeId) : Store := s.setPosition n ⟨none, none, none⟩

/-- Splices a node into a place that was captured before. -/
def replaceAt (s : Store) (place : Position) (new : NodeId) : Store :=
  ((s.setPosition new place).linkForward place (some new)).linkBackward place (some new)

/-- Puts `new` where `old` stands. The node replaced is left without a place, unless the splice has
given it another parent. -/
def replace (s : Store) (old new : NodeId) : Except OwnAncestor Store :=
  if old = new then .ok s
  else if new ∈ s.ancestors old then .error ⟨old, new⟩
  else
    let place := s.position old
    let s := s.replaceAt place new
    .ok (if s.link .parent old = place.parent then s.detach old else s)

/-- Takes a node out of its parent's children, with everything below it. A node without a parent
stays as it is. -/
def remove (s : Store) (n : NodeId) : Store :=
  let place := s.position n
  if place.parent.isNone then s
  else ((s.linkForward place place.next).linkBackward place place.previous).detach n

/-! No operation changes a label. -/

@[simp] theorem label_append (s : Store) (parent child n : NodeId) :
    (s.append parent child).label n = s.label n := by
  unfold append
  simp only []
  split <;> simp

@[simp] theorem label_linkForward (s : Store) (place : Position) (target : Option NodeId)
    (n : NodeId) : (s.linkForward place target).label n = s.label n := by
  unfold linkForward
  split <;> simp

@[simp] theorem label_linkBackward (s : Store) (place : Position) (target : Option NodeId)
    (n : NodeId) : (s.linkBackward place target).label n = s.label n := by
  unfold linkBackward
  split <;> simp

@[simp] theorem label_setPosition (s : Store) (n : NodeId) (place : Position) (m : NodeId) :
    (s.setPosition n place).label m = s.label m := by
  simp [setPosition]

@[simp] theorem label_detach (s : Store) (n m : NodeId) : (s.detach n).label m = s.label m := by
  simp [detach]

@[simp] theorem label_replaceAt (s : Store) (place : Position) (new n : NodeId) :
    (s.replaceAt place new).label n = s.label n := by
  simp [replaceAt]

theorem label_replace {s s' : Store} {old new : NodeId} (hs' : s.replace old new = .ok s')
    (n : NodeId) : s'.label n = s.label n := by
  unfold replace at hs'
  split at hs'
  · rw [Except.ok.inj hs']
  split at hs'
  · exact absurd hs' (by simp)
  rw [← Except.ok.inj hs']
  split <;> simp

@[simp] theorem label_remove (s : Store) (n m : NodeId) : (s.remove n).label m = s.label m := by
  unfold remove
  simp only []
  split <;> simp

end Store

def OwnAncestor.message (e : OwnAncestor) (s : Store) : String :=
  "Cannot replace " ++ (s.label e.old).literal ++ " with its own ancestor "
    ++ (s.label e.new).literal

end DocTree
