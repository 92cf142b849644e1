/-!
# Doubles as sign, significand and power of two

A finite double is `± m * 2 ^ e` with a natural `m` and an integer `e`. `parts` takes a double
apart and `ofDyadic` puts one together, rounding to nearest with ties to even; whole numbers and
decimals are rounded the same way. What the language needs beyond the operations of `Float` is
computed exactly on the parts: whether a double is whole, its whole part, and the remainder of a
division. -/

namespace CommandChain.Double

open Float.Model (UnpackedFloat Format)

/-- A double taken apart. Zeros are finite. -/
inductive Parts where
  | nan
  | infinite (negative : Bool)
  | finite (negative : Bool) (m : Nat) (e : Int)
deriving Repr, DecidableEq

/-- A sign bit is the sign of a negative number. -/
def isNegative : UnpackedFloat.Sign → Bool
  | .negative => true
  | .positive => false

/-- The sign of a number that is negative or not. -/
def signOf (negative : Bool) : UnpackedFloat.Sign := if negative then .negative else .positive

/-- Take a double apart. -/
def parts (x : Float) : Parts :=
  match x.toModel.unpack with
  | .notANumber => .nan
  | .infinity s => .infinite (isNegative s)
  | .zero s => .finite (isNegative s) 0 0
  | .finite s m e _ => .finite (isNegative s) m e

/-- The double nearest to `± m * 2 ^ e`. -/
def ofDyadic (negative : Bool) (m : Nat) (e : Int) : Float :=
  .ofModel (.pack (UnpackedFloat.round .binary64 (signOf negative) m e))

/-- The double nearest to a whole number. -/
def ofInt (i : Int) : Float := .ofModel (.ofInt i)

/-- The double nearest to `m * 10 ^ e`. -/
def ofDecimal (m : Nat) (e : Int) : Float := .ofModel (.ofScientific m e)

/-- Not a number. -/
def nan : Float := 0.0 / 0.0

/-- Positive infinity. -/
def infinity : Float := 1.0 / 0.0

/-- The double is a whole number. -/
def isWhole (x : Float) : Bool :=
  match parts x with
  | .finite _ m e => 0 ≤ e || m % Nat.pow 2 (-e).toNat == 0
  | _ => false

/-- The natural number `m * 2 ^ e`, without its fraction. -/
def wholePart (m : Nat) (e : Int) : Nat :=
  if 0 ≤ e then m * Nat.pow 2 e.toNat else m / Nat.pow 2 (-e).toNat

/-- The double without its fraction; 0 for one that is not finite. -/
def toInt (x : Float) : Int :=
  match parts x with
  | .finite negative m e => if negative then -(wholePart m e : Int) else wholePart m e
  | _ => 0

/-- The double is neither infinite nor NaN. -/
def isFinite (x : Float) : Bool :=
  match parts x with
  | .finite .. => true
  | _ => false

/-- What is left of `x` after as many whole `y` as fit, with the sign of `x`. -/
def remainder (x y : Float) : Float :=
  match parts x, parts y with
  | .finite negative m₁ e₁, .finite _ m₂ e₂ =>
    if m₂ = 0 then nan
    else
      let e := min e₁ e₂
      ofDyadic negative
        (m₁ * Nat.pow 2 (e₁ - e).toNat % (m₂ * Nat.pow 2 (e₂ - e).toNat)) e
  | .finite .., .infinite _ => x
  | _, _ => nan

end CommandChain.Double
