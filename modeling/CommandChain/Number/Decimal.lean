import CommandChain.Number.Double

/-!
# Decimals

A decimal is `significand * 10 ^ exponent`. `shortest` finds the decimal with the fewest digits that
reads back as a given double, and of those the nearest; where two are equally near, each kind of
text has its own `Tie`. `plain` and `scientific` are the two written forms of a decimal, and
`readDouble?` reads the first form and more. -/

namespace CommandChain

/-- The number `significand * 10 ^ exponent`. -/
structure Decimal where
  significand : Nat
  exponent : Int
deriving Repr, DecidableEq

namespace Decimal

/-- The digits of a natural number. -/
def digits (n : Nat) : List Char := Nat.toDigits 10 n

/-- The number that some digits write. -/
def ofDigits (ds : List Char) : Nat := Nat.ofDigitChars 10 ds 0

/-- The double nearest to the decimal. -/
def toDouble (d : Decimal) : Float := Double.ofDecimal d.significand d.exponent

/-! ### Rounding -/

/-- Which of two neighbours is taken for a number that lies in the middle between them. -/
inductive Tie where
  /-- The greater one. -/
  | up
  /-- The even one. -/
  | toEven
deriving Repr, DecidableEq

/-- The whole number nearest to `num / den`. -/
def Tie.roundDiv (tie : Tie) (num den : Nat) : Nat :=
  let n := num / den
  if 2 * (num % den) < den then n
  else if den < 2 * (num % den) then n + 1
  else
    match tie with
    | .up => n + 1
    | .toEven => n + n % 2

/-! ### The shortest decimal of a double -/

/-- `m * 2 ^ e / 10 ^ k` as a fraction. -/
def fraction (m : Nat) (e k : Int) : Nat × Nat :=
  (m * Nat.pow 2 e.toNat * Nat.pow 10 (-k).toNat, Nat.pow 2 (-e).toNat * Nat.pow 10 k.toNat)

/-- The power of ten at the first digit of `m * 2 ^ e`, for a positive double. No double is smaller
than `10 ^ (-400)`. -/
def leadingPower (m : Nat) (e : Int) : Int :=
  let (num, den) := fraction m e (-400)
  (digits (num / den)).length - 401

/-- A decimal of at most `n` digits beside `m * 2 ^ e` that reads back as `x`, the nearer one if
both neighbours do. -/
def neighbour? (tie : Tie) (x : Float) (m : Nat) (e : Int) (n : Nat) : Option Decimal :=
  let k := leadingPower m e + 1 - n
  let (num, den) := fraction m e k
  let below : Decimal := ⟨num / den, k⟩
  let above : Decimal := ⟨num / den + 1, k⟩
  match below.toDouble == x, above.toDouble == x with
  | true, true => some ⟨tie.roundDiv num den, k⟩
  | true, false => some below
  | false, true => some above
  | false, false => none

/-- The decimal that is exactly `m * 2 ^ e`. -/
def exact (m : Nat) (e : Int) : Decimal :=
  if 0 ≤ e then ⟨m * Nat.pow 2 e.toNat, 0⟩ else ⟨m * Nat.pow 5 (-e).toNat, e⟩

/-- The same decimal without zeros at the end of its significand; `fuel` bounds their number. -/
def dropZeros : Nat → Decimal → Decimal
  | 0, d => d
  | fuel + 1, d =>
    if d.significand ≠ 0 ∧ d.significand % 10 = 0 then
      dropZeros fuel ⟨d.significand / 10, d.exponent + 1⟩
    else d

/-- The decimal with the fewest digits that reads back as `x = m * 2 ^ e`, and of those the nearest.
Seventeen digits are always enough. -/
def shortest (tie : Tie) (x : Float) (m : Nat) (e : Int) : Decimal :=
  dropZeros 20 (((List.range 17).findSome? fun i => neighbour? tie x m e (i + 1)).getD (exact m e))

/-! ### Written forms -/

/-- The power of ten at the first digit. -/
def firstPower (d : Decimal) : Int := (digits d.significand).length - 1 + d.exponent

/-- All digits, with a point where the decimal is not whole. -/
def plain (d : Decimal) : List Char :=
  let ds := digits d.significand
  if 0 ≤ d.exponent then ds ++ List.replicate d.exponent.toNat '0'
  else
    let fractional := (-d.exponent).toNat
    if fractional < ds.length then
      ds.take (ds.length - fractional) ++ '.' :: ds.drop (ds.length - fractional)
    else '0' :: '.' :: (List.replicate (fractional - ds.length) '0' ++ ds)

/-- One digit before the point, and the power of ten with its sign. -/
def scientific (d : Decimal) : List Char :=
  let mantissa :=
    match digits d.significand with
    | [] => []
    | [c] => [c]
    | c :: cs => c :: '.' :: cs
  let p := d.firstPower
  mantissa ++ 'e' :: (if p < 0 then '-' else '+') :: digits p.natAbs

/-! ### Reading -/

/-- A sign at the front, and the rest. -/
def readSign : List Char → Bool × List Char
  | '-' :: cs => (true, cs)
  | '+' :: cs => (false, cs)
  | cs => (false, cs)

/-- An exponent: `e` or `E`, a sign or none, digits. Nothing at all is the exponent 0. -/
def readExponent? : List Char → Option Int
  | [] => some 0
  | c :: cs =>
    if c == 'e' || c == 'E' then
      let (negative, ds) := readSign cs
      if !ds.isEmpty && ds.all Char.isDigit then
        some (if negative then -(ofDigits ds : Int) else ofDigits ds)
      else none
    else none

/-- The digits after a point, if there is a point, and the rest. -/
def readFraction : List Char → List Char × List Char
  | '.' :: cs => (cs.takeWhile Char.isDigit, cs.dropWhile Char.isDigit)
  | cs => ([], cs)

/-- An unsigned decimal: digits on at least one side of an optional point, and an exponent. -/
def read? (cs : List Char) : Option Decimal :=
  let whole := cs.takeWhile Char.isDigit
  let (frac, rest) := readFraction (cs.dropWhile Char.isDigit)
  if whole.isEmpty && frac.isEmpty then none
  else (readExponent? rest).map fun e => ⟨ofDigits (whole ++ frac), e - frac.length⟩

/-- A double written as a decimal, an infinity or NaN, with a sign or none; the words in any
case. -/
def readDouble? (cs : List Char) : Option Float :=
  let (negative, rest) := readSign cs
  let magnitude :=
    match String.ofList (rest.map Char.toLower) with
    | "inf" | "infinity" => some Double.infinity
    | "nan" => some Double.nan
    | _ => (read? rest).map toDouble
  magnitude.map fun x => if negative then -x else x

end Decimal

end CommandChain
