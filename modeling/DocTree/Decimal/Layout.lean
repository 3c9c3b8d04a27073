import DocTree.Decimal.Shortest

/-!
Numbers as text: how the digits of a decimal are laid out, and how such a text is read. Which
exponents are written positionally is the choice of a `Layout`; a value always shows a point or an
exponent, so that it cannot be taken for an integer.
-/
namespace DocTree.Decimal

structure Layout where
  /-- The least exponent of the leading digit that is written positionally. -/
  plainFrom : Int
  /-- The least exponent above that range. -/
  plainBelow : Int
  /-- The fewest digits of a written exponent. -/
  exponentWidth : Nat
  deriving Repr, DecidableEq

def digitsOf (n : Nat) : List Char := Nat.toDigits 10 n

def padded (width n : Nat) : List Char :=
  let digits := digitsOf n
  List.replicate (width - digits.length) '0' ++ digits

namespace Layout

def positional (digits : List Char) (scale : Int) : List Char :=
  if 0 ≤ scale then digits ++ List.replicate scale.toNat '0' ++ ['.', '0']
  else
    let places := (-scale).toNat
    if places < digits.length then
      digits.take (digits.length - places) ++ '.' :: digits.drop (digits.length - places)
    else '0' :: '.' :: List.replicate (places - digits.length) '0' ++ digits

def scientific (width : Nat) (digits : List Char) (exponent : Int) : List Char :=
  let mantissa := match digits with
    | [] => []
    | [d] => [d]
    | d :: rest => d :: '.' :: rest
  mantissa ++ 'e' :: (if exponent < 0 then '-' else '+') :: padded width exponent.natAbs

def writeScaled (layout : Layout) (d : Scaled) : List Char :=
  let digits := digitsOf d.digits
  let exponent := d.scale + digits.length - 1
  if layout.plainFrom ≤ exponent ∧ exponent < layout.plainBelow then positional digits d.scale
  else scientific layout.exponentWidth digits exponent

/-- The text of a number. The sign of zero is kept. -/
def write (layout : Layout) (x : Float) : String :=
  match Parts.ofFloat x with
  | .nan => "nan"
  | .infinite negative => if negative then "-inf" else "inf"
  | .finite negative m =>
    let body := layout.writeScaled m.shortest
    String.ofList (if negative then '-' :: body else body)

end Layout

def spanDigits (cs : List Char) : List Char × List Char :=
  (cs.takeWhile Char.isDigit, cs.dropWhile Char.isDigit)

def natOfDigits (ds : List Char) : Nat :=
  ds.foldl (fun n d => 10 * n + (d.toNat - 48)) 0

def readDigits (ds : List Char) : Option Nat :=
  if ds ≠ [] ∧ ds.all Char.isDigit then some (natOfDigits ds) else none

def readExponent : List Char → Option Int
  | [] => some 0
  | 'e' :: '-' :: ds => (readDigits ds).map fun n => -n
  | 'e' :: '+' :: ds => (readDigits ds).map fun n => n
  | _ => none

def readUnsigned (cs : List Char) : Option Float := do
  if cs = ['n', 'a', 'n'] then return 0.0 / 0.0
  if cs = ['i', 'n', 'f'] then return 1.0 / 0.0
  let (whole, rest) := spanDigits cs
  if whole = [] then none
  let (fraction, rest) := match rest with
    | '.' :: tail => spanDigits tail
    | _ => ([], rest)
  let exponent := (← readExponent rest) - fraction.length
  return Float.ofScientific (natOfDigits (whole ++ fraction)) (exponent < 0) exponent.natAbs

def read? (s : String) : Option Float :=
  match s.toList with
  | '-' :: cs => (readUnsigned cs).map Float.neg
  | cs => readUnsigned cs

end DocTree.Decimal
