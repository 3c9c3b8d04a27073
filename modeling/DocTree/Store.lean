import DocTree.Value

/-!
Linked trees in a store of cells. A cell holds the label of a node and its five links; a node's name
is the number of its cell. A cell that was never written reads as blank, and writing beyond the last
cell adds blank cells up to it, so that the law of reading back what was written has no side
condition: links may point anywhere, and no operation can fail on them.
-/
namespace DocTree

inductive Link where
  | parent
  | firstChild
  | lastChild
  | previous
  | next
  deriving DecidableEq, Repr, Inhabited

namespace Link

def name : Link → String
  | parent => "parent"
  | firstChild => "first_child"
  | lastChild => "last_child"
  | previous => "previous_sibling"
  | next => "next_sibling"

def all : List Link := [parent, firstChild, lastChild, previous, next]

theorem mem_all (l : Link) : l ∈ all := by
  cases l <;> decide

def ofName? (name : String) : Option Link := all.find? (·.name = name)

end Link

structure Cell where
  label : Label Value
  parent : Option NodeId
  firstChild : Option NodeId
  lastChild : Option NodeId
  previous : Option NodeId
  next : Option NodeId

namespace Cell

def detached (label : Label Value) : Cell := ⟨label, none, none, none, none, none⟩

instance : Inhabited Cell := ⟨detached .node⟩

def get (cell : Cell) : Link → Option NodeId
  | .parent => cell.parent
  | .firstChild => cell.firstChild
  | .lastChild => cell.lastChild
  | .previous => cell.previous
  | .next => cell.next

def set (cell : Cell) (link : Link) (target : Option NodeId) : Cell :=
  match link with
  | .parent => { cell with parent := target }
  | .firstChild => { cell with firstChild := target }
  | .lastChild => { cell with lastChild := target }
  | .previous => { cell with previous := target }
  | .next => { cell with next := target }

theorem get_set (cell : Cell) (written read : Link) (target : Option NodeId) :
    (cell.set written target).get read = if written = read then target else cell.get read := by
  cases written <;> cases read <;> rfl

@[simp] theorem label_set (cell : Cell) (link : Link) (target : Option NodeId) :
    (cell.set link target).label = cell.label := by
  cases link <;> rfl

@[simp] theorem get_detached (label : Label Value) (link : Link) :
    (detached label).get link = none := by
  cases link <;> rfl

end Cell

structure Store where
  cells : Array Cell
  deriving Inhabited

namespace Store

def empty : Store := ⟨#[]⟩

def size (s : Store) : Nat := s.cells.size

def cell (s : Store) (n : NodeId) : Cell := s.cells.getD n.index default

def link (s : Store) (l : Link) (n : NodeId) : Option NodeId := (s.cell n).get l

def label (s : Store) (n : NodeId) : Label Value := (s.cell n).label

def kind (s : Store) (n : NodeId) : NodeKind := (s.label n).kind

def padded (s : Store) (n : Nat) : Store := ⟨s.cells ++ Array.replicate (n - s.size) default⟩

def setLink (s : Store) (l : Link) (n : NodeId) (target : Option NodeId) : Store :=
  ⟨(s.padded (n.index + 1)).cells.modify n.index (·.set l target)⟩

def fresh (s : Store) : NodeId := ⟨s.size⟩

def push (s : Store) (label : Label Value) : Store := ⟨s.cells.push (.detached label)⟩

@[simp] theorem size_padded (s : Store) (n : Nat) : (s.padded n).size = max s.size n := by
  simp only [padded, size, Array.size_append, Array.size_replicate]
  omega

@[simp] theorem cell_padded (s : Store) (n : Nat) (i : NodeId) :
    (s.padded n).cell i = s.cell i := by
  simp only [padded, cell, size, Array.getD_eq_getD_getElem?, Array.getElem?_append,
    Array.getElem?_replicate]
  by_cases h : i.index < s.cells.size
  · rw [if_pos h]
  · have hnone : s.cells[i.index]? = none := Array.getElem?_eq_none (by omega)
    rw [if_neg h, hnone]
    split <;> rfl

theorem cell_setLink (s : Store) (l : Link) (n : NodeId) (target : Option NodeId) (i : NodeId) :
    (s.setLink l n target).cell i = if n = i then (s.cell i).set l target else s.cell i := by
  rw [← cell_padded s (n.index + 1) i]
  have hsize := size_padded s (n.index + 1)
  simp only [setLink, cell, size, Array.getD_eq_getD_getElem?, Array.getElem?_modify] at hsize ⊢
  by_cases h : n = i
  · subst h
    have hn : n.index < (s.padded (n.index + 1)).cells.size := by omega
    simp [Array.getElem?_eq_getElem hn]
  · have hindex : n.index ≠ i.index := fun he => h (by cases n; cases i; simp_all)
    simp [h, hindex]

/-- What is read after one link was written. -/
@[simp] theorem link_setLink (s : Store) (l : Link) (n : NodeId) (target : Option NodeId)
    (m : Link) (i : NodeId) :
    (s.setLink l n target).link m i = if l = m ∧ n = i then target else s.link m i := by
  by_cases h : n = i <;> simp [link, cell_setLink, Cell.get_set, h]

@[simp] theorem label_setLink (s : Store) (l : Link) (n : NodeId) (target : Option NodeId)
    (i : NodeId) : (s.setLink l n target).label i = s.label i := by
  by_cases h : n = i <;> simp [label, cell_setLink, h]

@[simp] theorem size_setLink (s : Store) (l : Link) (n : NodeId) (target : Option NodeId) :
    (s.setLink l n target).size = max s.size (n.index + 1) := by
  rw [← size_padded]
  simp [setLink, size]

@[simp] theorem size_push (s : Store) (label : Label Value) :
    (s.push label).size = s.size + 1 := by
  simp [push, size]

@[simp] theorem link_push (s : Store) (label : Label Value) (l : Link) (i : NodeId) :
    (s.push label).link l i = s.link l i := by
  simp only [push, link, cell, Array.getD_eq_getD_getElem?, Array.getElem?_push]
  split
  · rename_i h
    rw [h]
    simp [default]
  · rfl

@[simp] theorem label_push (s : Store) (label : Label Value) (i : NodeId) :
    (s.push label).label i = if i = s.fresh then label else s.label i := by
  cases i
  simp only [push, Store.label, cell, size, fresh, Array.getD_eq_getD_getElem?,
    Array.getElem?_push, NodeId.mk.injEq]
  split <;> rfl

def follow (s : Store) (l : Link) : Nat → Option NodeId → List NodeId
  | 0, _ => []
  | _, none => []
  | n + 1, some i => i :: s.follow l n (s.link l i)

/-- The children of a node, in order. A chain that does not run in a circle is never cut short. -/
def children (s : Store) (n : NodeId) : List NodeId :=
  s.follow .next s.size (s.link .firstChild n)

/-- The nodes above a node, nearest first. -/
def ancestors (s : Store) (n : NodeId) : List NodeId :=
  s.follow .parent s.size (s.link .parent n)

def isLeaf (s : Store) (n : NodeId) : Bool := (s.link .firstChild n).isNone

end Store

end DocTree
