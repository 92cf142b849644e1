import CommandChain.Members
import CommandChain.Number.Decimal
import CommandChain.Number.Word

/-!
# JSON values

A JSON number is a whole number of 64 bits or a double; the two kinds are kept apart, so `5` and
`5.0` are different values. The members of an object stand in the order of their names. -/

namespace CommandChain

/-- A JSON number: a whole number from `-2 ^ 63` to `2 ^ 64 - 1`, or a finite double. -/
inductive Number where
  | int (i : Int)
  | float (x : Float)
deriving Repr, DecidableEq

/-- A JSON value. -/
inductive Json where
  | null
  | bool (b : Bool)
  | num (n : Number)
  | str (s : String)
  | arr (items : List Json)
  | obj (members : List (String × Json))
deriving Repr, Inhabited

namespace Number

/-- The nearest double. -/
def toDouble : Number → Float
  | .int i => Double.ofInt i
  | .float x => x

/-- The number as a signed whole number of 64 bits. -/
def toInt64? : Number → Option Int
  | .int i => if i < integerLimit then some i else none
  | .float _ => none

/-- The largest natural number below which every whole number is a double. -/
def maxSafe : Nat := Nat.pow 2 53 - 1

/-- The JSON number of a double: whole doubles up to `maxSafe` become whole numbers. There is none
for an infinity or NaN. -/
def ofDouble? (x : Float) : Option Number :=
  if Double.isWhole x && (Double.toInt x).natAbs ≤ maxSafe then some (.int (Double.toInt x))
  else if Double.isFinite x then some (.float x)
  else none

end Number

namespace Json

/-- The whole number 0, which stands for a missing value. -/
def zero : Json := .num (.int 0)

/-- The JSON number of a double, or null. -/
def ofDouble (x : Float) : Json := ((Number.ofDouble? x).map .num).getD .null

/-- The members of an object; none for any other value. -/
def members : Json → Members Json
  | .obj ms => ms
  | _ => []

/-- The kind of a value, with its article. -/
def kind : Json → String
  | .null => "null"
  | .bool _ => "a boolean"
  | .num _ => "a number"
  | .str _ => "a string"
  | .arr _ => "an array"
  | .obj _ => "an object"

/-- A value as a list: an array is its items, null is empty, anything else is one item. -/
def toList : Json → List Json
  | .arr items => items
  | .null => []
  | v => [v]

/-- A value counts as true unless it is null, false, a zero or an empty string. -/
def isTruthy : Json → Bool
  | .null => false
  | .bool b => b
  | .num n => n.toDouble != 0.0 && !n.toDouble.isNaN
  | .str s => !s.isEmpty
  | .arr _ | .obj _ => true

end Json

end CommandChain
