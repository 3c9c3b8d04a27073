import DocTree.Decimal.Binary
import DocTree.Value

/-!
When two values are equal. Truth values, integers and floating-point numbers are compared as exact
numbers, so that a number that is not a number equals nothing. Lists, tuples and markup are equal
member by member and only to their own class, dictionaries regardless of the order of their entries,
and a tree node or an object only to itself. Members are compared in order up to the first difference,
one level of markup at a time, and the comparison has no answer when that goes too deep.
-/
namespace DocTree.Value

/-- A number, with the truth values as 0 and 1. -/
inductive Numeric where
  | int (n : Int)
  | float (x : Float)

def numeric? : Value → Option Numeric
  | bool b => some (.int (if b then 1 else 0))
  | int n => some (.int n)
  | float x => some (.float x)
  | _ => none

def Numeric.equal : Numeric → Numeric → Bool
  | .int m, .int n => m == n
  | .int n, .float x | .float x, .int n => (Decimal.Parts.ofFloat x).isInt n
  | .float x, .float y => x == y

/-- Equality of the values that hold no others. -/
def scalarEqual (a b : Value) : Bool :=
  match a, b with
  | null, null => true
  | str s, str t => s == t
  | bytes bs, bytes cs => bs == cs
  | node i _, node j _ => i == j
  | object o, object p => o.identity == p.identity
  | _, _ =>
    match a.numeric?, b.numeric? with
    | some m, some n => m.equal n
    | _, _ => false

/-- Two comparisons in turn. The second counts only if the first has found no difference. -/
def andThen (first rest : Option Bool) : Option Bool :=
  match first with
  | some true => rest
  | answer => answer

mutual

/-- Equality with so many levels of markup left. Lists of different length differ at once. -/
def equalWithin : (levels : Nat) → Value → Value → Option Bool
  | levels, list xs, list ys =>
    if xs.length = ys.length then allEqual levels xs ys else some false
  | levels, tuple xs, tuple ys => allEqual levels xs ys
  | levels, dict xs, dict ys =>
    if xs.length = ys.length then covered levels xs ys else some false
  | 0, markup m, markup m' => if m.markupClass = m'.markupClass then none else some false
  | levels + 1, markup (.block c g), markup (.block c' g')
  | levels + 1, markup (.para c g), markup (.para c' g')
  | levels + 1, markup (.code c g), markup (.code c' g')
  | levels + 1, markup (.comment c g), markup (.comment c' g') =>
    andThen (equalWithin levels c c') (equalWithin levels g g')
  | levels + 1, markup (.named c g a), markup (.named c' g' a')
  | levels + 1, markup (.heading c g a), markup (.heading c' g' a')
  | levels + 1, markup (.item c g a), markup (.item c' g' a')
  | levels + 1, markup (.formatting c g a), markup (.formatting c' g' a') =>
    andThen (equalWithin levels c c')
      (andThen (equalWithin levels g g') (equalWithin levels a a'))
  | levels + 1, markup (.table c g h t), markup (.table c' g' h' t') =>
    andThen (equalWithin levels c c')
      (andThen (equalWithin levels g g')
        (andThen (equalWithin levels h h') (equalWithin levels t t')))
  | _, a, b => some (scalarEqual a b)

def allEqual (levels : Nat) : List Value → List Value → Option Bool
  | [], [] => some true
  | x :: xs, y :: ys => andThen (equalWithin levels x y) (allEqual levels xs ys)
  | _, _ => some false

/-- Every entry on the left has an entry with equal key and equal value on the right. -/
def covered (levels : Nat) : List (Value × Value) → List (Value × Value) → Option Bool
  | [], _ => some true
  | (k, v) :: entries, others =>
    let found := others.foldr (fun other rest =>
      match equalWithin levels k other.1 with
      | some false => rest
      | some true => equalWithin levels v other.2
      | none => none) (some false)
    andThen found (covered levels entries others)

end

end DocTree.Value
