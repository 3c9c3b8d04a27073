import DocTree.Value

/-!
How deeply markup is nested in a value. Only pieces of markup count; lists, dictionaries, held nodes and
objects pass on the nesting of what they hold.
-/
namespace DocTree.Value

mutual

/-- The greatest number of pieces of markup nested inside each other. -/
def nesting : Value → Nat
  | list xs | tuple xs => nestingAll xs
  | dict entries => nestingEntries entries
  | markup (.block c g) | markup (.para c g) | markup (.code c g) | markup (.comment c g) =>
    max (nesting c) (nesting g) + 1
  | markup (.named c g a) | markup (.heading c g a) | markup (.item c g a)
  | markup (.formatting a c g) => max (max (nesting c) (nesting g)) (nesting a) + 1
  | markup (.table c g h t) =>
    max (max (nesting c) (nesting g)) (max (nesting h) (nesting t)) + 1
  | node _ label => nestingLabel label
  | object ⟨_, _, _, _, iteration, _, first⟩ =>
    max (nestingIteration iteration) (nestingIndexed first)
  | _ => 0

def nestingAll : List Value → Nat
  | [] => 0
  | x :: xs => max (nesting x) (nestingAll xs)

def nestingEntries : List (Value × Value) → Nat
  | [] => 0
  | (k, v) :: entries => max (max (nesting k) (nesting v)) (nestingEntries entries)

def nestingLabel : Label Value → Nat
  | .namedSection v | .heading v | .item v | .entity v | .link v | .text v => nesting v
  | _ => 0

def nestingIteration : Iteration Value → Nat
  | .refused => 0
  | .sized xs | .unsized xs | .once xs => nestingAll xs

def nestingIndexed : Indexed Value → Nat
  | .found v => nesting v
  | _ => 0

end

end DocTree.Value
