/-!
The kinds of node a document tree is made of. Each kind has a tag, by which a renderer selects its
rule, and a class name, by which messages speak of it; the two differ only for the parts of a table.
-/
namespace DocTree

inductive NodeKind where
  | node
  | document
  | namedSection
  | paragraph
  | heading
  | item
  | list
  | table
  | tableHeader
  | tableBody
  | tableBodyRow
  | tableData
  | bold
  | code
  | comment
  | entity
  | link
  | reference
  | text
  deriving DecidableEq, Repr, Inhabited

namespace NodeKind

def tag : NodeKind → String
  | node => "Node"
  | document => "Document"
  | namedSection => "Section"
  | paragraph => "Paragraph"
  | heading => "Heading"
  | item => "Item"
  | list => "List"
  | table => "Table"
  | tableHeader => "Table.Header"
  | tableBody => "Table.Body"
  | tableBodyRow => "Table.Body.Row"
  | tableData => "Table.Data"
  | bold => "Bold"
  | code => "Code"
  | comment => "Comment"
  | entity => "Entity"
  | link => "Link"
  | reference => "Reference"
  | text => "Text"

def className : NodeKind → String
  | tableHeader => "TableHeader"
  | tableBody => "TableBody"
  | tableBodyRow => "TableBodyRow"
  | tableData => "TableData"
  | kind => kind.tag

def concrete : List NodeKind :=
  [document, namedSection, paragraph, heading, item, list, table, tableHeader, tableBody,
    tableBodyRow, tableData, bold, code, comment, entity, link, reference, text]

theorem mem_concrete (kind : NodeKind) : kind ∈ concrete ↔ kind ≠ node := by
  cases kind <;> decide

/-- The kind with the given tag. The bare node has one too. -/
def ofTag? (tag : String) : Option NodeKind :=
  (node :: concrete).find? (·.tag = tag)

theorem ofTag?_tag (kind : NodeKind) : ofTag? kind.tag = some kind := by
  cases kind <;> decide

end NodeKind

end DocTree
