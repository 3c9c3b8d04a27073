import DocTree.Conversion.Error
import DocTree.Value.Dictionary
import DocTree.Value.Nesting
import DocTree.Workspace

/-!
Conversion of markup into a tree. Every class of markup has one rule; text becomes a leaf, a block
or a formatting code becomes a node over its converted contents, and a table gets a header and a
body. The elements of a sequence are converted and appended one by one, so that a failure keeps what
was appended before it. Conversion goes down one level of markup at a time, and what is nested too
deeply is refused. Values in messages and in titles are written out, and there may be a bound on the
digits of the integers in them.
-/
namespace DocTree

abbrev Conversion := EStateM ConversionError Workspace

namespace Conversion

open Workspace

def elements (v : Value) : Conversion (List Value) :=
  match v.elements? with
  | some xs => pure xs
  | none => throw (.notIterable v)

def length (v : Value) : Conversion Nat :=
  match v.length? with
  | some n => pure n
  | none => throw (.noLength v)

/-- The contents of markup. A held entity node has contents as well. -/
def contentsOf : Value → Conversion Value
  | .markup m => pure m.contents
  | .node _ (.entity contents) => pure contents
  | v => throw (.noContents v)

section Written

variable (digits : Option Nat) (levels : Nat)

def writingFault? (v : Value) : Option ConversionError :=
  if v.nesting ≤ levels then v.digitsFault? digits else some .nestingTooDeep

def display (v : Value) : Conversion String :=
  match writingFault? digits levels v with
  | none => pure v.display
  | some e => throw e

/-- Refuses a value for which there is no rule. The report shows the value, so that one which cannot be
written out cannot be reported. -/
def refuse {α : Type} (v : Value) : Conversion α :=
  throw ((writingFault? digits levels v).getD (.unrecognized v))

end Written

def appendTo (parent child : NodeId) : Conversion Unit := edit (·.append parent child)

def appendEach (make : Value → Conversion NodeId) (parent : NodeId) :
    List Value → Conversion Unit
  | [] => pure ()
  | v :: rest => do
    let child ← make v
    appendTo parent child
    appendEach make parent rest

/-- A node over the converted contents. -/
def branch (inner : Value → Conversion NodeId) (label : Label Value) (contents : Value) :
    Conversion NodeId := do
  let target ← newNode label
  let parts ← elements contents
  appendEach inner target parts
  return target

def sectionLabel (name : Value) : Label Value :=
  match name with
  | .str s => if s = Markup.documentName then .document else .namedSection name
  | _ => .namedSection name

/-- The target of a link: the first of the extra data, if there are any, else the direct text of the
contents. -/
def linkTarget (digits : Option Nat) (levels : Nat) (contents extra : Value) : Conversion String :=
  if extra.isTruthy then
    match extra.atZero with
    | .found v => display digits levels v
    | .missing => throw .missingKey
    | .unindexable => throw (.notIndexable extra)
  else do
    let parts ← elements contents
    return String.join ((parts.filter Value.isStr).map Value.display)

def cell (inner : Value → Conversion NodeId) (v : Value) : Conversion NodeId := do
  let data ← newNode .tableData
  let child ← inner v
  appendTo data child
  return data

def row (inner : Value → Conversion NodeId) (label : Label Value) (v : Value) :
    Conversion NodeId := branch (cell inner) label v

def table (inner : Value → Conversion NodeId) (headers rows : Value) : Conversion NodeId := do
  let target ← newNode .table
  onlyIf headers.isTruthy (row inner .tableHeader headers >>= appendTo target)
  onlyIf rows.isTruthy (branch (row inner .tableBodyRow) .tableBody rows >>= appendTo target)
  let headerCells ← length headers
  let bodyRows ← length rows
  record (.tableConverted headerCells bodyRows)
  return target

/-- The rules for formatting codes. The contents of an entity are kept as they are; those of a link
without extra data have been iterated for its target when they are converted; an unknown code is
treated like the name of a block. -/
def formatting (digits : Option Nat) (levels : Nat) (inner : Value → Conversion NodeId)
    (code contents extra : Value) : Conversion NodeId :=
  match code with
  | .str "B" => branch inner .bold contents
  | .str "C" => branch inner .code contents
  | .str "E" => newNode (.entity contents)
  | .str "L" => do
    let url ← linkTarget digits levels contents extra
    branch inner (.link (.str url)) (if extra.isTruthy then contents else contents.spent)
  | .str "X" => branch inner .reference contents
  | _ => do
    let shown ← display digits levels code
    record (.unmappedCode shown)
    branch inner (sectionLabel code) contents

def rule (digits : Option Nat) (levels : Nat) (inner : Value → Conversion NodeId)
    (m : Markup Value) : Conversion NodeId :=
  match m with
  | .block .. => refuse digits levels (.markup m)
  | .named contents _ name => branch inner (sectionLabel name) contents
  | .para contents _ => branch inner .paragraph contents
  | .code contents _ => branch inner .code contents
  | .comment contents _ => branch inner .comment contents
  | .heading contents _ level => branch inner (.heading level) contents
  | .item contents _ level => branch inner (.item level) contents
  | .table contents _ headers _ => table inner headers contents
  | .formatting code contents extra => formatting digits levels inner code contents extra

/-- Records that a block became a node. Formatting codes are not recorded. -/
def recordConverted (c : MarkupClass) (n : NodeId) : Conversion Unit :=
  onlyIf (c ≠ .formatting) do
    let w ← get
    record (.converted c (w.store.kind n))

end Conversion

open Conversion

/-- Converts a value into a tree and gives its root. No integer of more digits is written out, and so
many levels of markup are left. -/
def convert (digits : Option Nat) : (levels : Nat) → Value → Conversion NodeId
  | _, .str s => Workspace.newNode (.text (.str s))
  | 0, .markup _ => throw .nestingTooDeep
  | levels + 1, .markup m => do
    let target ← rule digits (levels + 1) (convert digits levels) m
    recordConverted m.markupClass target
    return target
  | levels, v => refuse digits levels v

def convertChildren (digits : Option Nat) (levels : Nat) (target : NodeId) (source : Value) :
    Conversion Unit := do
  let contents ← contentsOf source
  let parts ← elements contents
  appendEach (convert digits levels) target parts

end DocTree
