import DocTree.NodeKind

/-!
Labels of tree nodes: the kind of a node together with the payload of that kind. A label never
changes; all that changes in a tree are the links between its nodes.
-/
namespace DocTree

/-- The name of a node. Nodes are told apart by name, never by label. -/
@[ext] structure NodeId where
  index : Nat
  deriving DecidableEq, Repr, Inhabited

inductive Label (α : Type) where
  | node
  | document
  | namedSection (title : α)
  | paragraph
  | heading (level : α)
  | item (level : α)
  | list
  | table
  | tableHeader
  | tableBody
  | tableBodyRow
  | tableData
  | bold
  | code
  | comment
  | entity (contents : α)
  | link (url : α)
  | reference
  | text (value : α)
  deriving Inhabited

namespace Label

variable {α : Type}

def kind : Label α → NodeKind
  | node => .node
  | document => .document
  | namedSection _ => .namedSection
  | paragraph => .paragraph
  | heading _ => .heading
  | item _ => .item
  | list => .list
  | table => .table
  | tableHeader => .tableHeader
  | tableBody => .tableBody
  | tableBodyRow => .tableBodyRow
  | tableData => .tableData
  | bold => .bold
  | code => .code
  | comment => .comment
  | entity _ => .entity
  | link _ => .link
  | reference => .reference
  | text _ => .text

def payload? : Label α → Option α
  | namedSection v | heading v | item v | entity v | link v | text v => some v
  | _ => none

end Label

end DocTree
