import DocTree.Decimal.Binary

/-!
The shortest decimal that reads back to a given number. The decimals that round to m * 2^q form an
interval reaching half way to each neighbour, with its ends exactly when m is even. For one digit,
two digits and so on the number has two neighbours on the decimal grid of that width; the first
grid on which one of them lies in the interval wins, and of two that do the nearer, a tie going to
the even one.
-/
namespace DocTree.Decimal

/-- The decimal `digits * 10 ^ scale`. -/
structure Scaled where
  digits : Nat
  scale : Int
  deriving Repr, DecidableEq

/-- Compares `a * 10 ^ i` with `n * 2 ^ j`. -/
def compareScaled (a : Nat) (i : Int) (n : Nat) (j : Int) : Ordering :=
  compare (a * Nat.pow 10 i.toNat * Nat.pow 2 (-j).toNat)
    (n * Nat.pow 2 j.toNat * Nat.pow 10 (-i).toNat)

namespace Magnitude

def readsBack (x : Magnitude) (d : Scaled) : Bool :=
  let below := if x.narrowBelow then 4 * x.mantissa - 1 else 4 * x.mantissa - 2
  let above := 4 * x.mantissa + 2
  let closed := x.mantissa % 2 == 0
  let low := compareScaled d.digits d.scale below (x.exponent - 2)
  let high := compareScaled d.digits d.scale above (x.exponent - 2)
  (low == .gt || closed && low == .eq) && (high == .lt || closed && high == .eq)

def isBelow (x : Magnitude) (k : Int) : Bool :=
  compareScaled 1 k x.mantissa x.exponent == .gt

/-- The least power of ten above a positive magnitude. The logarithm estimate is at most one off,
and the comparison settles it. -/
def decade (x : Magnitude) : Int :=
  let estimate := ((x.mantissa.log2 : Int) + x.exponent) * 30103 / 100000
  if x.isBelow (estimate - 1) then estimate - 1
  else if x.isBelow estimate then estimate
  else if x.isBelow (estimate + 1) then estimate + 1
  else estimate + 2

/-- The nearest decimal of the given width that reads back, if one of the two neighbours does. -/
def onGrid (x : Magnitude) (width : Nat) : Option Scaled :=
  let scale := x.decade - width
  let dividend := x.mantissa * Nat.pow 2 x.exponent.toNat * Nat.pow 10 (-scale).toNat
  let divisor := Nat.pow 2 (-x.exponent).toNat * Nat.pow 10 scale.toNat
  let low : Scaled := ⟨dividend / divisor, scale⟩
  let high : Scaled := ⟨dividend / divisor + 1, scale⟩
  match x.readsBack low, x.readsBack high with
  | true, false => some low
  | false, true => some high
  | true, true =>
    match compare (2 * dividend) ((2 * low.digits + 1) * divisor) with
    | .lt => some low
    | .gt => some high
    | .eq => if low.digits % 2 = 0 then some low else some high
  | false, false => none

def exact (x : Magnitude) : Scaled :=
  if 0 ≤ x.exponent then ⟨x.mantissa * Nat.pow 2 x.exponent.toNat, 0⟩
  else ⟨x.mantissa * Nat.pow 5 (-x.exponent).toNat, x.exponent⟩

end Magnitude

def Scaled.strip : Nat → Scaled → Scaled
  | 0, d => d
  | n + 1, d =>
    if d.digits ≠ 0 ∧ d.digits % 10 = 0 then strip n ⟨d.digits / 10, d.scale + 1⟩ else d

/-- The shortest decimal that reads back. Seventeen digits are always enough. -/
def Magnitude.shortest (x : Magnitude) : Scaled :=
  if x.mantissa = 0 then ⟨0, 0⟩
  else
    let found := ((List.range 17).findSome? fun n => x.onGrid (n + 1)).getD x.exact
    found.strip 17

end DocTree.Decimal
