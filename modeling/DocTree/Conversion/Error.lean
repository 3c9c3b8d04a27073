import DocTree.Value.Literal

/-!
Failures of conversion. Each names the value at fault, and its message speaks of that value.
-/
namespace DocTree

inductive ConversionError where
  /-- There is no rule for the value. -/
  | unrecognized (v : Value)
  | notIterable (v : Value)
  | notIndexable (v : Value)
  /-- The extra data of a link is a dictionary without the key 0. -/
  | missingKey
  | noLength (v : Value)
  | noContents (v : Value)
  | nestingTooDeep
  /-- An integer to be written out has more digits than that. -/
  | tooManyDigits (bound : Nat)

def ConversionError.message : ConversionError → String
  | unrecognized v =>
    "Unrecognized markup node of type '" ++ v.typeName ++ "': " ++ v.literal
  | notIterable v => "'" ++ v.typeName ++ "' object is not iterable"
  | notIndexable v => "'" ++ v.typeName ++ "' object is not subscriptable"
  | missingKey => (Value.int 0).literal
  | noLength v => "object of type '" ++ v.typeName ++ "' has no len()"
  | noContents v => "'" ++ v.typeName ++ "' object has no attribute 'contents'"
  | nestingTooDeep => "nesting too deep"
  | tooManyDigits bound =>
    "Exceeds the limit (" ++ toString bound ++ " digits) for integer string conversion"

/-- What keeps a value from being written out when there may be a bound on the digits of an integer. -/
def Value.digitsFault? (digits : Option Nat) (v : Value) : Option ConversionError :=
  match digits with
  | none => none
  | some bound =>
    if v.integers.all fun n => (Nat.toDigits 10 n.natAbs).length ≤ bound then none
    else some (.tooManyDigits bound)

/-- A text is not written out, it is shown as it is. -/
@[simp] theorem Value.digitsFault?_str (digits : Option Nat) (s : String) :
    (Value.str s).digitsFault? digits = none := by
  cases digits <;> rfl

end DocTree
