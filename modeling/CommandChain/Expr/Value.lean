import CommandChain.Expr.Basic
import CommandChain.Json.Printer
import CommandChain.Text.Blank

/-!
# Values of expressions

Values are like JSON values with one kind of number and with functions. A function made by an arrow
is a `closure`: it keeps the variables it was made among, and the `Address` of its making, by which
it is told apart from every other function. `ofJson` and `toJson` lead from JSON values and back. -/

namespace CommandChain

/-- The functions that every expression knows. -/
inductive Builtin where
  | string | number | boolean | jsonStringify | jsonParse
deriving Repr, DecidableEq

/-- A place in an evaluation: the way to it from the whole expression, last step first. Each part of
an evaluation has an address of its own. -/
abbrev Address := List Nat

/-- A value of an expression. The members of an object stand in the order of their names. -/
inductive Value where
  | null
  | bool (b : Bool)
  | num (x : Float)
  | str (s : String)
  | list (items : List Value)
  | obj (members : List (String × Value))
  | closure (origin : Address) (params : List String) (rest : Option String) (body : Expr)
      (captured : List (String × Value))
  | builtin (f : Builtin)
deriving Inhabited

/-- The variables of an expression, the innermost first. -/
abbrev Scope := List (String × Value)

namespace Value

/-- A value counts as true unless it is null, false, a zero, NaN or an empty string. -/
def isTruthy : Value → Bool
  | .null => false
  | .bool b => b
  | .num x => x != 0.0 && !x.isNaN
  | .str s => !s.isEmpty
  | _ => true

/-- The value is a function. -/
def isCallable : Value → Bool
  | .closure .. | .builtin _ => true
  | _ => false

/-- The name of a value's kind. -/
def typeName : Value → String
  | .null => "null"
  | .bool _ => "boolean"
  | .num _ => "number"
  | .str _ => "string"
  | .list _ => "array"
  | .obj _ => "object"
  | .closure .. | .builtin _ => "function"

/-! ### Numbers and texts -/

/-- A number as a text: all digits of a whole number below `10 ^ 21`, and otherwise the fewest
digits that read back, never with an exponent. Of two decimals equally near the greater magnitude is
written. Both zeros are `0`. -/
def numberText (x : Float) : String :=
  match Double.parts x with
  | .nan => "NaN"
  | .infinite negative => if negative then "-Infinity" else "Infinity"
  | .finite negative m e =>
    let magnitude :=
      if Double.isWhole x && Double.wholePart m e < Nat.pow 10 21 then
        Decimal.digits (Double.wholePart m e)
      else (Decimal.shortest .up (Double.ofDyadic false m e) m e).plain
    String.ofList (if negative && m != 0 then '-' :: magnitude else magnitude)

/-- The number that a text writes: 0 for a blank text, NaN for one that writes no number. -/
def numberOfText (s : String) : Float :=
  let t := Text.trim s.toList
  if t.isEmpty then 0.0 else (Decimal.readDouble? t).getD Double.nan

/-- A value as a number; an array of one item counts as that item. -/
def toNumber : Value → Float
  | .null => 0.0
  | .bool b => if b then 1.0 else 0.0
  | .num x => x
  | .str s => numberOfText s
  | .list [] => 0.0
  | .list [v] => v.toNumber
  | _ => Double.nan

mutual

/-- A value as a text. -/
def toText : Value → String
  | .null => "null"
  | .bool b => if b then "true" else "false"
  | .num x => numberText x
  | .str s => s
  | .list items => String.intercalate "," (itemTexts items)
  | .obj _ => "[object Object]"
  | .closure .. | .builtin _ => "function"

/-- The items of an array as texts, null as nothing. -/
def itemTexts : List Value → List String
  | [] => []
  | .null :: vs => "" :: itemTexts vs
  | v :: vs => v.toText :: itemTexts vs

end

/-! ### JSON values -/

mutual

/-- The value of a JSON value. -/
def ofJson : Json → Value
  | .null => .null
  | .bool b => .bool b
  | .num n => .num n.toDouble
  | .str s => .str s
  | .arr items => .list (ofItems items)
  | .obj ms => .obj (ofMembers ms)

/-- The values of JSON items. -/
def ofItems : List Json → List Value
  | [] => []
  | v :: vs => ofJson v :: ofItems vs

/-- The values of JSON members. -/
def ofMembers : List (String × Json) → List (String × Value)
  | [] => []
  | (k, v) :: ms => (k, ofJson v) :: ofMembers ms

end

mutual

/-- The JSON value of a value. Whole numbers of at most 53 bits become whole numbers; functions,
infinities and NaN become null. -/
def toJson : Value → Json
  | .null => .null
  | .bool b => .bool b
  | .num x => Json.ofDouble x
  | .str s => .str s
  | .list items => .arr (toItems items)
  | .obj ms => .obj (toMembers ms)
  | .closure .. | .builtin _ => .null

/-- The JSON values of items. -/
def toItems : List Value → List Json
  | [] => []
  | v :: vs => toJson v :: toItems vs

/-- The JSON values of members. -/
def toMembers : List (String × Value) → List (String × Json)
  | [] => []
  | (k, v) :: ms => (k, toJson v) :: toMembers ms

end

/-! ### Comparison -/

mutual

/-- Strict equality: of the same kind and equal part by part; functions are equal only to
themselves. -/
def strictEq : Value → Value → Bool
  | .null, .null => true
  | .bool a, .bool b => a == b
  | .num x, .num y => x == y
  | .str s, .str t => s == t
  | .list as, .list bs => strictEqItems as bs
  | .obj as, .obj bs => as.length == bs.length && strictEqMembers as bs
  | .closure a .., .closure b .. => a == b
  | .builtin f, .builtin g => f == g
  | _, _ => false

/-- Strict equality of lists. -/
def strictEqItems : List Value → List Value → Bool
  | [], [] => true
  | a :: as, b :: bs => strictEq a b && strictEqItems as bs
  | _, _ => false

/-- Every member on the left is strictly equal to one of the same name on the right. -/
def strictEqMembers : List (String × Value) → List (String × Value) → Bool
  | [], _ => true
  | (k, a) :: as, bs =>
    (match Members.get? k bs with
      | some b => strictEq a b
      | none => false) && strictEqMembers as bs

end

/-- Equality of two values of which at least one is a number and neither is a structure. -/
def numberEq (a b : Value) : Bool := a.toNumber == b.toNumber

/-- Loose equality. Null equals only itself; booleans are compared as numbers, a number and a string
as numbers, and a structure with a number or a string by its text. -/
def looseEq : Value → Value → Bool
  | .null, .null => true
  | .null, _ => false
  | _, .null => false
  | .bool a, b => numberEq (.bool a) b
  | a, .bool b => numberEq a (.bool b)
  | .num x, .str t => numberEq (.num x) (.str t)
  | .str s, .num y => numberEq (.str s) (.num y)
  | .list as, .num y => numberEq (.str (Value.list as).toText) (.num y)
  | .obj as, .num y => numberEq (.str (Value.obj as).toText) (.num y)
  | .list as, .str t => (Value.list as).toText == t
  | .obj as, .str t => (Value.obj as).toText == t
  | .num x, .list bs => numberEq (.num x) (.str (Value.list bs).toText)
  | .num x, .obj bs => numberEq (.num x) (.str (Value.obj bs).toText)
  | .str s, .list bs => s == (Value.list bs).toText
  | .str s, .obj bs => s == (Value.obj bs).toText
  | a, b => strictEq a b

/-- The order of two numbers; none if one is NaN. -/
def numberOrder (x y : Float) : Option Ordering :=
  if x < y then some .lt else if x == y then some .eq else if y < x then some .gt else none

/-- The order of two values: of strings by their characters, of anything else as numbers. -/
def order : Value → Value → Option Ordering
  | .str s, .str t => some (if s < t then .lt else if s == t then .eq else .gt)
  | a, b => numberOrder a.toNumber b.toNumber

/-- The sum of two values: of numbers, booleans and null as numbers, of anything else as texts. -/
def sum (a b : Value) : Value :=
  if isNumeric a && isNumeric b then .num (a.toNumber + b.toNumber)
  else .str (a.toText ++ b.toText)
where
  /-- The value is added as a number. -/
  isNumeric : Value → Bool
    | .null | .bool _ | .num _ => true
    | _ => false

end Value

end CommandChain
