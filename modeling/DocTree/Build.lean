import DocTree.Conversion
import DocTree.ListWrapping
import DocTree.Signature
import DocTree.Store.Consistency

/-!
Building a finished tree: conversion, wrapping of the root and of all items below it, and on demand
a check of the result.
-/
namespace DocTree

structure BuildOptions where
  /-- A run of neighbouring items shares one list. -/
  mergeAdjacentItems : Bool
  /-- The finished tree is checked. -/
  checkInvariants : Bool
  deriving DecidableEq, Repr

inductive OptionError where
  | construction (e : ConstructionError)
  | notBool (field : String) (v : Value)
  /-- Options never change in place. -/
  | frozen (field : String)

def OptionError.message : OptionError → String
  | construction e => e.message
  | notBool field v => field ++ " must be a bool, got " ++ v.typeName
  | frozen field => "cannot assign to field " ++ Text.quote field

namespace BuildOptions

instance : Inhabited BuildOptions := ⟨⟨false, false⟩⟩

def signature (o : BuildOptions) : Signature :=
  ⟨"BuildOptions", [],
    [("merge_adjacent_items", .bool o.mergeAdjacentItems),
      ("check_invariants", .bool o.checkInvariants)]⟩

def flag (field : String) : Value → Except OptionError Bool
  | .bool b => .ok b
  | v => .error (.notBool field v)

/-- The options given by name, the others as in `o`. All names are looked at before any value is. -/
def ofArgs (o : BuildOptions) (args : List (String × Value)) :
    Except OptionError BuildOptions := do
  let field ← (o.signature.bind args).mapError .construction
  let merge ← flag "merge_adjacent_items" (field "merge_adjacent_items")
  let check ← flag "check_invariants" (field "check_invariants")
  return ⟨merge, check⟩

/-- Refuses names that are taken by arguments of `callee` given already. -/
def free (callee : String) (taken : List String) (args : List (String × Value)) :
    Except OptionError Unit :=
  match args.find? fun arg => taken.contains arg.1 with
  | some (name, _) => .error (.construction (.repeated callee name))
  | none => .ok ()

def update (o : BuildOptions) (args : List (String × Value)) :
    Except OptionError BuildOptions := do
  free "CloneFrozenMixin.create_updated" [Signature.receiver] args
  o.ofArgs args

def override (o : BuildOptions) (args : List (String × Value)) :
    Except OptionError BuildOptions := do
  free "build_tree" ["source", "options"] args
  o.update args

def literal (o : BuildOptions) : String :=
  enclosed (o.signature.owner ++ "(") ")"
    (o.signature.defaults.map fun field => field.1 ++ "=" ++ field.2.literal)

end BuildOptions

inductive BuildError where
  | conversion (e : ConversionError)
  | inconsistent (v : Violation)
  /-- The links run in a circle. -/
  | circular

abbrev Building := EStateM BuildError Workspace

namespace Building

open Workspace

def ofConversion {α : Type} (c : Conversion α) : Building α :=
  EStateM.adaptExcept BuildError.conversion c

def wrapRoot (root : NodeId) : Building NodeId := do
  let w ← get
  let (store, wrapped) := w.store.wrapRoot root
  edit fun _ => store
  onlyIf (wrapped ≠ root) (record .rootWrapped)
  return wrapped

/-- Wraps the items below a root and gives the number of lists made. -/
def wrapItems (root : NodeId) (merge : Bool) : Building Nat := do
  let w ← get
  match w.store.wrapItems root merge with
  | some (store, made) =>
    edit fun _ => store
    return made
  | none => throw .circular

def check (root : NodeId) : Building Unit := do
  let w ← get
  match w.store.check root with
  | .ok _ => return ()
  | .error v => throw (.inconsistent v)

end Building

def build (digits : Option Nat) (levels : Nat) (source : Value) (options : BuildOptions) :
    Building NodeId := do
  let converted ← Building.ofConversion (convert digits levels source)
  let root ← Building.wrapRoot converted
  let made ← Building.wrapItems root options.mergeAdjacentItems
  Workspace.record (.listsCreated made)
  Workspace.onlyIf options.checkInvariants (Building.check root)
  Workspace.record .buildCompleted
  return root

end DocTree
