import DocTree.Build

/-!
Operations as a client asks for them, with nodes that may be absent. An absent node has no
attributes, so a request fails at the first of them that it has to read or write, and keeps what it
wrote before. Appending nothing, replacing nothing by nothing and wrapping nothing are no faults.
-/
namespace DocTree

inductive RequestError where
  /-- An attribute of an absent node is needed. -/
  | absent (name : String)
  | ownAncestor (e : OwnAncestor)
  | build (e : BuildError)

abbrev Request := EStateM RequestError Workspace

namespace Request

open Workspace

def absentMessage (name : String) : String :=
  "'" ++ Value.null.typeName ++ "' object has no attribute '" ++ name ++ "'"

def ofBuilding {α : Type} (step : Building α) : Request α :=
  EStateM.adaptExcept RequestError.build step

def given (name : String) : Option NodeId → Request NodeId
  | some n => pure n
  | none => throw (.absent name)

/-- Appends a child. Under an absent parent the child is left without parent and next sibling. -/
def append (parent child : Option NodeId) : Request Unit :=
  match parent, child with
  | some p, _ => edit (·.appendChild p child)
  | none, none => pure ()
  | none, some c => do
    edit fun s => (s.setLink .parent c none).setLink .next c none
    throw (.absent Link.lastChild.name)

def replace (old new : Option NodeId) : Request Unit :=
  if old = new then pure ()
  else do
    let o ← given Link.parent.name old
    let n ← given Link.parent.name new
    let w ← get
    match w.store.replace o n with
    | .ok s => edit fun _ => s
    | .error e => throw (.ownAncestor e)

def remove (n : Option NodeId) : Request Unit := do
  let n ← given Link.parent.name n
  edit (·.remove n)

def position (n : Option NodeId) : Request Position := do
  let n ← given Link.parent.name n
  let w ← get
  return w.store.position n

def replaceAt (place : Position) (new : Option NodeId) : Request Unit := do
  let n ← given Link.parent.name new
  edit (·.replaceAt place n)

def setLink (l : Link) (n target : Option NodeId) : Request Unit := do
  let n ← given l.name n
  edit (·.setLink l n target)

def check (n : Option NodeId) : Request Unit := do
  let n ← given Link.parent.name n
  ofBuilding (Building.check n)

def wrapRoot : Option NodeId → Request (Option NodeId)
  | none => pure none
  | some n => some <$> ofBuilding (Building.wrapRoot n)

def wrapItems (n : Option NodeId) (merge : Bool) : Request Nat := do
  let n ← given Link.firstChild.name n
  ofBuilding (Building.wrapItems n merge)

/-- Converts further children of a node and gives the node. An absent one fails when the first child is
appended. -/
def convertChildren (digits : Option Nat) (levels : Nat) (target : Option NodeId) (source : Value) :
    Request (Option NodeId) :=
  match target with
  | some n => do
    ofBuilding (Building.ofConversion (DocTree.convertChildren digits levels n source))
    return some n
  | none => do
    let contents ← ofBuilding (Building.ofConversion (Conversion.contentsOf source))
    let parts ← ofBuilding (Building.ofConversion (Conversion.elements contents))
    match parts with
    | [] => return none
    | v :: _ => do
      let child ← ofBuilding (Building.ofConversion (convert digits levels v))
      append none (some child)
      return none

end Request

end DocTree
