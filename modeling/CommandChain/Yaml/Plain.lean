import CommandChain.Json.Reader
import CommandChain.Yaml.Tag

/-!
# What a scalar means

A plain scalar, which is one without quotation marks, may stand for null, a truth value or a number;
any other stands for its own text. A tag says what it has to be, also if it is no plain one. Whole
numbers are written in decimal or, after `0x`, `0o` and `0b`, in another base; decimal digits after
a leading zero are a text. `resolve?` has no answer for a whole number that is too big for JSON and
fits in 128 bits. -/

namespace CommandChain.Yaml

/-- The number that digits of a base write. -/
def inBase? (base : Nat) (ds : List Char) : Option Nat :=
  if ds.isEmpty then none
  else ds.foldlM (fun n c => do
    let d ← Text.hexValue? c
    if d < base then some (n * base + d) else none) 0

/-- Several decimal digits of which the first is a zero. -/
def hasLeadingZero (ds : List Char) : Bool :=
  ds.head? == some '0' && 1 < ds.length && ds.all Char.isDigit

/-- A whole number without a sign. -/
def natural? : List Char → Option Nat
  | '0' :: 'x' :: ds => inBase? 16 ds
  | '0' :: 'o' :: ds => inBase? 8 ds
  | '0' :: 'b' :: ds => inBase? 2 ds
  | ds => if hasLeadingZero ds then none else inBase? 10 ds

/-- A whole number, with a sign or none. -/
def integer? (cs : List Char) : Option Int :=
  let (negative, ds) := Decimal.readSign cs
  (natural? ds).map fun n => if negative then -(n : Int) else n

/-- A double: a finite decimal, or a word for an infinity or NaN after a point. -/
def double? (cs : List Char) : Option Float :=
  match String.ofList cs with
  | ".inf" | ".Inf" | ".INF" | "+.inf" | "+.Inf" | "+.INF" => some Double.infinity
  | "-.inf" | "-.Inf" | "-.INF" => some (-Double.infinity)
  | ".nan" | ".NaN" | ".NAN" => some Double.nan
  | _ => (Decimal.readDouble? cs).filter Double.isFinite

/-- The JSON value of a double. JSON has no infinity and no NaN, so that these become null. -/
def ofDouble (x : Float) : Json := if Double.isFinite x then .num (.float x) else .null

/-- The words for null. -/
def isNull (t : String) : Bool := ["~", "null", "Null", "NULL"].contains t

/-- A truth value. -/
def truth? (t : String) : Option Bool :=
  if ["true", "True", "TRUE"].contains t then some true
  else if ["false", "False", "FALSE"].contains t then some false
  else none

/-- A whole number that JSON can hold. -/
def fitsWord (i : Int) : Bool := -Number.integerLimit ≤ i ∧ i < Number.wordLimit

/-- A double or a text. -/
def doubleOrText (cs : List Char) : Json :=
  let asText := Json.str (String.ofList cs)
  if hasLeadingZero (Decimal.readSign cs).2 then asText else (double? cs).elim asText ofDouble

/-- The value of a plain scalar. -/
def resolve? (t : String) : Option Json :=
  if t.isEmpty || isNull t then some .null
  else
    match truth? t, integer? t.toList with
    | some b, _ => some (.bool b)
    | none, none => some (doubleOrText t.toList)
    | none, some i =>
      if fitsWord i then some (.num (.int i))
      else if -(Nat.pow 2 127 : Nat) ≤ i ∧ i < (Nat.pow 2 128 : Nat) then none
      else some (doubleOrText t.toList)

/-- The value of a scalar, with a tag or none. There is none if the text does not write a value of
the kind that the tag names, or if the kind is not known. -/
def scalarValue? (tag : Option Tag) (isPlain : Bool) (t : String) : Option Json :=
  match tag with
  | some .bool => (truth? t).map .bool
  | some .int => ((integer? t.toList).filter fitsWord).map (.num <| .int ·)
  | some .float => (double? t.toList).map ofDouble
  | some .null => if isNull t then some .null else none
  | some .text => some (.str t)
  | some .own => none
  | some .broken | none => if isPlain then resolve? t else some (.str t)

end CommandChain.Yaml
