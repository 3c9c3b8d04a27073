import DocTree.Markup
import DocTree.NodeKind

/-!
The trace of a build. Events are recorded in the order in which they happen, and what was recorded
before a failure stays.
-/
namespace DocTree

inductive Event where
  | converted (source : MarkupClass) (kind : NodeKind)
  | tableConverted (headerCells bodyRows : Nat)
  /-- A formatting code without a rule of its own. -/
  | unmappedCode (code : String)
  | rootWrapped
  | listsCreated (count : Nat)
  | buildCompleted

namespace Event

def logger : Event → String
  | converted .. | tableConverted .. | unmappedCode _ => "podtree.converter"
  | rootWrapped => "podtree.lists"
  | listsCreated _ | buildCompleted => "podtree.api"

/-- The logged line. The time that a build took is known to the caller only. -/
def message (elapsed : String) : Event → String
  | converted source kind => "Converted " ++ source.name ++ " to " ++ kind.tag
  | tableConverted headerCells bodyRows =>
    "Converted table with " ++ toString headerCells ++ " header cells and " ++ toString bodyRows
      ++ " body rows"
  | unmappedCode code =>
    "No inline mapping for formatting code '" ++ code ++ "', converting as Section"
  | rootWrapped => "Wrapped root item in a List"
  | listsCreated count => "List normalization created " ++ toString count ++ " List nodes"
  | buildCompleted => "Building tree completed in " ++ elapsed

end Event

end DocTree
