import DocTree.Value.Literal

/-!
Construction from named fields. A signature lists the fields that must be given and those with a
default. The fields given are looked at in order: the first one that the signature does not know, or
that has the name of the object under construction, is reported, and only then one that is missing.
-/
namespace DocTree

inductive ConstructionError where
  | unexpected (callee name : String)
  /-- The name belongs to an argument that has been given already. -/
  | repeated (callee name : String)
  | missing (callee : String) (names : List String)
  | unknownKind (tag : String)
  deriving DecidableEq, Repr

def enumerated : List String → String
  | [] => ""
  | [a] => a
  | [a, b] => a ++ " and " ++ b
  | names => ", ".intercalate names.dropLast ++ ", and " ++ names.getLastD ""

def ConstructionError.message : ConstructionError → String
  | unexpected callee name =>
    callee ++ "() got an unexpected keyword argument '" ++ name ++ "'"
  | repeated callee name => callee ++ "() got multiple values for argument '" ++ name ++ "'"
  | missing callee names =>
    callee ++ "() missing " ++ toString names.length ++ " required positional argument"
      ++ (if names.length = 1 then "" else "s") ++ ": "
      ++ enumerated (names.map fun name => "'" ++ name ++ "'")
  | unknownKind tag => Text.quote tag

structure Signature where
  owner : String
  required : List String
  defaults : List (String × Value)

namespace Signature

/-- The name by which the object under construction goes. -/
def receiver : String := "self"

def constructor (sig : Signature) : String := sig.owner ++ ".__init__"

def knows (sig : Signature) (field : String) : Bool :=
  sig.required.contains field || sig.defaults.any (·.1 = field)

def refusal? (sig : Signature) (field : String) : Option ConstructionError :=
  if field = receiver then some (.repeated sig.constructor field)
  else if sig.knows field then none
  else some (.unexpected sig.constructor field)

def bind (sig : Signature) (args : List (String × Value)) :
    Except ConstructionError (String → Value) :=
  match args.findSome? fun arg => sig.refusal? arg.1 with
  | some e => .error e
  | none =>
    match sig.required.filter fun field => (args.lookup field).isNone with
    | [] => .ok fun field => (args.lookup field <|> sig.defaults.lookup field).getD .null
    | missing => .error (.missing sig.constructor missing)

end Signature

namespace MarkupClass

def signature (c : MarkupClass) : Signature :=
  let shared : List (String × Value) := [("contents", .list []), ("config", .dict [])]
  match c with
  | block | para | code | comment => ⟨c.name, [], shared⟩
  | named => ⟨c.name, [], shared ++ [("name", .str Markup.documentName)]⟩
  | heading | item => ⟨c.name, [], shared ++ [("level", .int 1)]⟩
  | table => ⟨c.name, [], shared ++ [("headers", .list []), ("caption", .str "")]⟩
  | formatting => ⟨c.name, ["type"], [("contents", .list []), ("meta", .list [])]⟩

def construct (c : MarkupClass) (args : List (String × Value)) :
    Except ConstructionError (Markup Value) := do
  let field ← c.signature.bind args
  let contents := field "contents"
  let config := field "config"
  return match c with
    | block => .block contents config
    | named => .named contents config (field "name")
    | para => .para contents config
    | code => .code contents config
    | comment => .comment contents config
    | heading => .heading contents config (field "level")
    | item => .item contents config (field "level")
    | table => .table contents config (field "headers") (field "caption")
    | formatting => .formatting (field "type") contents (field "meta")

def withName (name : String) : Except ConstructionError MarkupClass :=
  match ofName? name with
  | some c => .ok c
  | none => .error (.unknownKind name)

end MarkupClass

namespace NodeKind

def signature (kind : NodeKind) : Signature :=
  let fields : List (String × Value) := match kind with
    | namedSection => [("title", .str "")]
    | heading | item => [("level", .int 1)]
    | entity => [("contents", .null)]
    | link => [("url", .str "")]
    | text => [("value", .str "")]
    | _ => []
  ⟨kind.className, [], fields⟩

def construct (kind : NodeKind) (args : List (String × Value)) :
    Except ConstructionError (Label Value) := do
  let field ← kind.signature.bind args
  return match kind with
    | node => .node
    | document => .document
    | namedSection => .namedSection (field "title")
    | paragraph => .paragraph
    | heading => .heading (field "level")
    | item => .item (field "level")
    | list => .list
    | table => .table
    | tableHeader => .tableHeader
    | tableBody => .tableBody
    | tableBodyRow => .tableBodyRow
    | tableData => .tableData
    | bold => .bold
    | code => .code
    | comment => .comment
    | entity => .entity (field "contents")
    | link => .link (field "url")
    | reference => .reference
    | text => .text (field "value")

def withTag (tag : String) : Except ConstructionError NodeKind :=
  match ofTag? tag with
  | some kind => .ok kind
  | none => .error (.unknownKind tag)

end NodeKind

end DocTree
