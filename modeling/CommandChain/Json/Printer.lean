import CommandChain.Json.Basic

/-!
# JSON text

`compact` writes a value without blanks, `pretty` over several lines. A double is written with the
fewest digits that read back and an even last digit where two such decimals are equally near,
positionally from `0.00001` to below `10 ^ 16` and with an exponent otherwise, and never without a
point or an exponent. -/

namespace CommandChain

/-- The hexadecimal digit of a number below 16, in small letters. -/
def hexDigit (n : Nat) : Char := Nat.digitChar n

/-- A character as it stands in a JSON string. -/
def Json.escapeChar (c : Char) : List Char :=
  if c == '"' then ['\\', '"']
  else if c == '\\' then ['\\', '\\']
  else if c == '\n' then ['\\', 'n']
  else if c == '\r' then ['\\', 'r']
  else if c == '\t' then ['\\', 't']
  else if c.toNat == 8 then ['\\', 'b']
  else if c.toNat == 12 then ['\\', 'f']
  else if c.toNat < 32 then
    ['\\', 'u', '0', '0', hexDigit (c.toNat / 16), hexDigit (c.toNat % 16)]
  else [c]

/-- A text as a JSON string. -/
def Json.quoted (s : List Char) : List Char := '"' :: (s.flatMap Json.escapeChar ++ ['"'])

/-- A whole number in decimal digits. -/
def Number.intText (i : Int) : List Char :=
  if i < 0 then '-' :: Decimal.digits i.natAbs else Decimal.digits i.natAbs

/-- A positive decimal: positional when its first digit stands from `10 ^ (-5)` to `10 ^ 15`. -/
def Number.decimalText (d : Decimal) : List Char :=
  if -5 ≤ d.firstPower ∧ d.firstPower ≤ 15 then
    if 0 ≤ d.exponent then d.plain ++ ['.', '0'] else d.plain
  else d.scientific

/-- A double in decimal digits; null if it is not finite. -/
def Number.floatText (x : Float) : List Char :=
  match Double.parts x with
  | .finite negative m e =>
    let magnitude :=
      if m = 0 then ['0', '.', '0']
      else Number.decimalText (Decimal.shortest .toEven (Double.ofDyadic false m e) m e)
    if negative then '-' :: magnitude else magnitude
  | _ => ['n', 'u', 'l', 'l']

/-- A number in decimal digits. -/
def Number.chars : Number → List Char
  | .int i => intText i
  | .float x => floatText x

namespace Json

mutual

/-- A value as JSON text without blanks. -/
def compact : Json → List Char
  | .null => ['n', 'u', 'l', 'l']
  | .bool true => ['t', 'r', 'u', 'e']
  | .bool false => ['f', 'a', 'l', 's', 'e']
  | .num n => n.chars
  | .str s => quoted s.toList
  | .arr items => '[' :: (compactItems items ++ [']'])
  | .obj ms => '{' :: (compactMembers ms ++ ['}'])

/-- Items with commas between them. -/
def compactItems : List Json → List Char
  | [] => []
  | v :: vs => compact v ++ compactMore vs

/-- Items with a comma before each. -/
def compactMore : List Json → List Char
  | [] => []
  | v :: vs => ',' :: (compact v ++ compactMore vs)

/-- Members with commas between them. -/
def compactMembers : List (String × Json) → List Char
  | [] => []
  | (k, v) :: ms => quoted k.toList ++ ':' :: (compact v ++ compactMoreMembers ms)

/-- Members with a comma before each. -/
def compactMoreMembers : List (String × Json) → List Char
  | [] => []
  | (k, v) :: ms => ',' :: (quoted k.toList ++ ':' :: (compact v ++ compactMoreMembers ms))

end


/-- A value as JSON text without blanks. -/
def text (v : Json) : String := String.ofList v.compact

/-- Strings as they are, anything else as JSON text. -/
def display : Json → String
  | .str s => s
  | v => v.text

/-- Strings as they are, null as nothing, anything else as JSON text. -/
def plainText : Json → String
  | .str s => s
  | .null => ""
  | v => v.text

/-- A new line with `indent` steps of two blanks. -/
def newLine (indent : Nat) : List Char := '\n' :: List.replicate (2 * indent) ' '

mutual

/-- A value over several lines; what stands inside a value is one step deeper than `indent`. -/
def prettyAt (indent : Nat) : Json → List Char
  | .arr [] => ['[', ']']
  | .arr (v :: vs) =>
    '[' :: (newLine (indent + 1) ++ prettyAt (indent + 1) v ++ prettyMore (indent + 1) vs ++
      newLine indent ++ [']'])
  | .obj [] => ['{', '}']
  | .obj ((k, v) :: ms) =>
    '{' :: (newLine (indent + 1) ++ quoted k.toList ++ ':' :: ' ' :: prettyAt (indent + 1) v ++
      prettyMoreMembers (indent + 1) ms ++ newLine indent ++ ['}'])
  | .null => ['n', 'u', 'l', 'l']
  | .bool b => compact (.bool b)
  | .num n => n.chars
  | .str s => quoted s.toList

/-- Items on lines of their own, with a comma before each. -/
def prettyMore (indent : Nat) : List Json → List Char
  | [] => []
  | v :: vs => ',' :: (newLine indent ++ prettyAt indent v ++ prettyMore indent vs)

/-- Members on lines of their own, with a comma before each. -/
def prettyMoreMembers (indent : Nat) : List (String × Json) → List Char
  | [] => []
  | (k, v) :: ms =>
    ',' :: (newLine indent ++ quoted k.toList ++ ':' :: ' ' :: prettyAt indent v ++
      prettyMoreMembers indent ms)

end


/-- A value as JSON text over several lines. -/
def pretty (v : Json) : String := String.ofList (prettyAt 0 v)

end Json

end CommandChain
