/-!
Binary floating-point numbers taken apart into exact integers. A finite number is a sign and a
magnitude m * 2^q with natural m, so that comparing it with an integer or with a decimal is a
comparison of naturals and never a second rounding. Powers are those of the naturals, by name.
-/
namespace DocTree.Decimal

/-- The magnitude `mantissa * 2 ^ exponent`. -/
structure Magnitude where
  mantissa : Nat
  exponent : Int
  /-- The neighbour below is only half as far away as the neighbour above. -/
  narrowBelow : Bool
  deriving Repr, DecidableEq

inductive Parts where
  | nan
  | infinite (negative : Bool)
  | finite (negative : Bool) (magnitude : Magnitude)
  deriving Repr, DecidableEq

def Parts.ofBits (bits : Nat) : Parts :=
  let negative : Bool := bits / Nat.pow 2 63 % 2 = 1
  let scale : Nat := bits / Nat.pow 2 52 % Nat.pow 2 11
  let fraction : Nat := bits % Nat.pow 2 52
  if scale = Nat.pow 2 11 - 1 then
    if fraction = 0 then .infinite negative else .nan
  else if scale = 0 then .finite negative ⟨fraction, -1074, false⟩
  else .finite negative ⟨Nat.pow 2 52 + fraction, (scale : Int) - 1075, fraction = 0 ∧ 1 < scale⟩

def Parts.ofFloat (x : Float) : Parts := .ofBits x.toBits.toNat

def Magnitude.IsNat (x : Magnitude) (n : Nat) : Prop :=
  x.mantissa * Nat.pow 2 x.exponent.toNat = n * Nat.pow 2 (-x.exponent).toNat

instance (x : Magnitude) (n : Nat) : Decidable (x.IsNat n) :=
  inferInstanceAs (Decidable (_ = _))

/-- The number is exactly the integer `n`. Both zeros are 0. -/
def Parts.isInt (p : Parts) (n : Int) : Bool :=
  match p with
  | .nan | .infinite _ => false
  | .finite negative x =>
    x.IsNat n.natAbs ∧ (n = 0 ∨ (negative ↔ n < 0))

example : (Parts.ofBits 0x4340000000000000).isInt (2 ^ 53) = true := by decide +kernel
example : (Parts.ofBits 0x44B52D02C7E14AF6).isInt (10 ^ 23) = false := by decide +kernel
example : (Parts.ofBits 0x8000000000000000).isInt 0 = true := by decide +kernel
example : (Parts.ofBits 0x3FE0000000000000).isInt 0 = false := by decide +kernel

end DocTree.Decimal
