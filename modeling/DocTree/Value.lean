import DocTree.Label
import DocTree.Markup

/-!
Values as a markup parser delivers them. A value may be text, a number, a container, a piece of
markup, a tree node held as a payload or an object of any other class, which is known by its answers
alone; which of them a field should hold is not fixed, and the operations in the modules below say for
each value whether it can be iterated, indexed or measured.
-/
namespace DocTree

inductive Iteration (α : Type) where
  | refused
  /-- The same elements each time, and the object tells their number. -/
  | sized (xs : List α)
  /-- The same elements each time, and no length. -/
  | unsized (xs : List α)
  /-- Elements that are gone when the object has been iterated once. It stands in one place only. -/
  | once (xs : List α)

namespace Iteration

variable {α : Type}

def elements? : Iteration α → Option (List α)
  | refused => none
  | sized xs | unsized xs | once xs => some xs

def length? : Iteration α → Option Nat
  | sized xs => some xs.length
  | _ => none

def spent : Iteration α → Iteration α
  | once _ => once []
  | again => again

end Iteration

/-- The answer when a value is indexed by 0. -/
inductive Indexed (α : Type) where
  | found (a : α)
  /-- A container with nothing at that index or under that key. -/
  | missing
  /-- A value that cannot be indexed at all. -/
  | unindexable

/-- An object by its answers. -/
structure Object (α : Type) where
  /-- Tells the object from all others. -/
  identity : Nat
  className : String
  /-- The object written out among others. -/
  literal : String
  /-- The object as a text. -/
  text : String
  iteration : Iteration α
  /-- The answer of an object without a length when it is asked whether it is filled in. -/
  filled : Bool
  atZero : Indexed α

/-- An object with a length is filled in when it has elements. -/
def Object.isTruthy {α : Type} (o : Object α) : Bool :=
  match o.iteration with
  | .sized xs => !xs.isEmpty
  | _ => o.filled

inductive Value where
  | null
  | bool (b : Bool)
  | int (n : Int)
  | float (x : Float)
  | str (s : String)
  | bytes (bs : List UInt8)
  | list (xs : List Value)
  | tuple (xs : List Value)
  /-- Entries in the order of insertion. -/
  | dict (entries : List (Value × Value))
  | markup (m : Markup Value)
  /-- A tree node held as a value: its name and its label, without its links. -/
  | node (id : NodeId) (label : Label Value)
  | object (o : Object Value)
  deriving Inhabited

namespace Value

def typeName : Value → String
  | null => "NoneType"
  | bool _ => "bool"
  | int _ => "int"
  | float _ => "float"
  | str _ => "str"
  | bytes _ => "bytes"
  | list _ => "list"
  | tuple _ => "tuple"
  | dict _ => "dict"
  | markup m => m.markupClass.name
  | node _ label => label.kind.className
  | object o => o.className

def isStr : Value → Bool
  | str _ => true
  | _ => false

/-- The value counts as filled in: it is no zero, no empty text and no empty container. -/
def isTruthy : Value → Bool
  | null => false
  | bool b => b
  | int n => n != 0
  | float x => x != 0.0
  | str s => s != ""
  | bytes bs => !bs.isEmpty
  | list xs | tuple xs => !xs.isEmpty
  | dict entries => !entries.isEmpty
  | markup _ | node .. => true
  | object o => o.isTruthy

/-- The elements met when the value is iterated: the characters of a text, the numbers of a byte
sequence, the keys of a dictionary. -/
def elements? : Value → Option (List Value)
  | list xs | tuple xs => some xs
  | str s => some (s.toList.map fun c => str (String.ofList [c]))
  | bytes bs => some (bs.map fun b => int b.toNat)
  | dict entries => some (entries.map Prod.fst)
  | object o => o.iteration.elements?
  | _ => none

def length? : Value → Option Nat
  | list xs | tuple xs => some xs.length
  | str s => some s.toList.length
  | bytes bs => some bs.length
  | dict entries => some entries.length
  | object o => o.iteration.length?
  | _ => none

/-- What has a length can be iterated; its length is the number of its elements, and it is filled in
when it has some. -/
theorem exists_elements_of_length? {v : Value} {n : Nat} (h : v.length? = some n) :
    ∃ xs, v.elements? = some xs ∧ n = xs.length ∧ (v.isTruthy = true ↔ xs ≠ []) := by
  cases v with
  | list _ | tuple _ | str _ | bytes _ | dict _ =>
    obtain rfl := Option.some.inj h
    simp [elements?, isTruthy]
  | object o =>
    obtain ⟨_, _, _, _, iteration, _, _⟩ := o
    cases iteration with
    | sized xs =>
      obtain rfl := Option.some.inj h
      exact ⟨xs, rfl, rfl, by simp [isTruthy, Object.isTruthy]⟩
    | _ => exact absurd h (by simp [length?, Iteration.length?])
  | _ => exact absurd h (by simp [length?])

/-- A value after it has been iterated. An iterator has no elements then; any other value is as
before. -/
def spent : Value → Value
  | object o => object { o with iteration := o.iteration.spent }
  | v => v

end Value

/-- The payload as a value; null for the kinds without one. -/
def Label.payload (label : Label Value) : Value := label.payload?.getD .null

end DocTree
