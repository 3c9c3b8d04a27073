import DocTree.Conversion.Error
import DocTree.Signature

/-!
Error reports as values that a caller can make and inspect. There is a general report and there are
two special ones: for a value without a conversion rule, whose message is made from the value unless
one is given, and for links that violate a condition.
-/
namespace DocTree

inductive ReportClass where
  | general
  | unrecognized
  | inconsistency
  deriving DecidableEq, Repr

namespace ReportClass

def name : ReportClass → String
  | general => "PodTreeError"
  | unrecognized => "UnrecognizedNodeKindError"
  | inconsistency => "TreeInvariantError"

def all : List ReportClass := [general, unrecognized, inconsistency]

def ofName? (name : String) : Option ReportClass := all.find? (·.name = name)

def lineage : ReportClass → List String
  | general => [general.name, "Exception"]
  | c => [c.name, general.name, "Exception"]

def signature (c : ReportClass) : Signature :=
  match c with
  | general => ⟨c.name, ["message"], [("original_error", .null)]⟩
  | unrecognized => ⟨c.name, ["node"], [("message", .null)]⟩
  | inconsistency => ⟨c.name, ["message", "invariant"], [("node", .null)]⟩

end ReportClass

inductive Report where
  | general (message cause : Value)
  | unrecognized (message node : Value)
  | inconsistency (message condition node : Value)

namespace Report

def reportClass : Report → ReportClass
  | general .. => .general
  | unrecognized .. => .unrecognized
  | inconsistency .. => .inconsistency

def message : Report → Value
  | general message _ | unrecognized message _ | inconsistency message _ _ => message

/-- The attributes with their names. Only a general report can name a cause. -/
def attributes : Report → List (String × Value)
  | general message cause => [("message", message), ("original_error", cause)]
  | unrecognized message node =>
    [("message", message), ("original_error", .null), ("node", node)]
  | inconsistency message condition node =>
    [("message", message), ("original_error", .null), ("invariant", condition), ("node", node)]

end Report

def ReportClass.construct (c : ReportClass) (args : List (String × Value)) :
    Except ConstructionError Report := do
  let field ← c.signature.bind args
  return match c with
    | general => .general (field "message") (field "original_error")
    | unrecognized =>
      let node := field "node"
      let message := match field "message" with
        | .null => .str (ConversionError.unrecognized node).message
        | given => given
      .unrecognized message node
    | inconsistency => .inconsistency (field "message") (field "invariant") (field "node")

end DocTree
