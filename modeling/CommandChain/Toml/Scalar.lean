import CommandChain.Number.Decimal
import CommandChain.Number.Word
import CommandChain.Text.Blank
import CommandChain.Text.Hex

/-!
# The scalars of TOML

A string stands between single or double marks, on one line or, between three marks, on several;
only between double marks does a backslash begin an escape. Numbers, truth values and dates are
words: a word is read as a whole and then told by its form. -/

namespace CommandChain

/-- A TOML value. Dates and times are kept as texts. -/
inductive Toml where
  | text (t : String)
  | integer (i : Int)
  | float (x : Float)
  | boolean (b : Bool)
  | moment (t : String)
  | array (items : List Toml)
  | table (members : List (String × Toml))
deriving Repr, Inhabited

namespace Toml

/-- White space inside a line. -/
def isBlank (c : Char) : Bool := c == ' ' || c == '\t'

/-- The characters that comments and strings may hold: all but the control characters. -/
def isPrintable (c : Char) : Bool := c == '\t' || (32 ≤ c.toNat && c.toNat != 127)

/-- The text behind a line break at its front. -/
def lineBreak? : List Char → Option (List Char)
  | '\n' :: cs => some cs
  | '\r' :: '\n' :: cs => some cs
  | _ => none

/-- The text from its first character on that is neither blank nor part of a line break. -/
def skipBreaks : List Char → List Char
  | [] => []
  | '\r' :: '\n' :: cs => skipBreaks cs
  | c :: cs => if isBlank c || c == '\n' then skipBreaks cs else c :: cs

/-! ### Strings -/

/-- The characters that an escape of one letter stands for. -/
def letterEscapes : List (Char × Nat) :=
  [('b', 8), ('t', 9), ('n', 10), ('f', 12), ('r', 13), ('"', 34), ('\\', 92)]

/-- The character of an escape after its backslash, and how many characters it takes. -/
def escape? : List Char → Option (Char × Nat)
  | [] => none
  | 'u' :: cs => (Text.hexCharacter? 4 cs).map (·, 5)
  | 'U' :: cs => (Text.hexCharacter? 8 cs).map (·, 9)
  | c :: _ => (letterEscapes.lookup c).map fun n => (Char.ofNat n, 1)

/-- Read a string on one line up to its closing mark, where `skip` more characters belong to an
escape: its text and the rest. -/
def lineFrom (mark : Char) : Nat → List Char → Option (List Char × List Char)
  | _, [] => none
  | skip + 1, _ :: cs => lineFrom mark skip cs
  | 0, c :: cs =>
    if c == mark then some ([], cs)
    else if mark == '"' && c == '\\' then
      (escape? cs).bind fun (e, n) => (lineFrom mark n cs).map fun (t, rest) => (e :: t, rest)
    else if isPrintable c then (lineFrom mark 0 cs).map fun (t, rest) => (c :: t, rest)
    else none

/-- How many characters a backslash at the end of a line passes over; none elsewhere. -/
def joinedLines? (cs : List Char) : Option Nat :=
  (lineBreak? (cs.dropWhile isBlank)).map fun rest => cs.length - (skipBreaks rest).length

/-- Read a string on several lines up to its three closing marks, where `skip` more characters were
read already: its text and the rest. Up to two more marks before the closing ones are text. -/
def linesFrom (mark : Char) : Nat → List Char → Option (List Char × List Char)
  | _, [] => none
  | skip + 1, _ :: cs => linesFrom mark skip cs
  | 0, c :: cs =>
    let marks := ((c :: cs).takeWhile (· == mark)).length
    if 3 ≤ marks then
      let extra := min (marks - 3) 2
      some (List.replicate extra mark, (c :: cs).drop (extra + 3))
    else if mark == '"' && c == '\\' then
      match joinedLines? cs with
      | some n => linesFrom mark n cs
      | none =>
        (escape? cs).bind fun (e, n) => (linesFrom mark n cs).map fun (t, rest) => (e :: t, rest)
    else if c == '\n' || isPrintable c then
      (linesFrom mark 0 cs).map fun (t, rest) => (c :: t, rest)
    else if c == '\r' && cs.head? == some '\n' then linesFrom mark 0 cs
    else none

/-- Read a string after its first mark. A line break right behind three opening marks is no text. -/
def readString (mark : Char) (cs : List Char) : Option (List Char × List Char) :=
  match cs with
  | a :: b :: rest =>
    if a == mark && b == mark then linesFrom mark 0 ((lineBreak? rest).getD rest)
    else lineFrom mark 0 cs
  | _ => lineFrom mark 0 cs

/-! ### Numbers -/

/-- The digits of a word in which single underscores may stand between digits. -/
def digits? (isDigit : Char → Bool) : List Char → Option (List Char)
  | [] => none
  | [c] => if isDigit c then some [c] else none
  | c :: '_' :: cs => if isDigit c then (digits? isDigit cs).map (c :: ·) else none
  | c :: cs => if isDigit c then (digits? isDigit cs).map (c :: ·) else none

/-- Decimal digits that do not begin with a zero, unless it is the only one. -/
def wholeDigits? (cs : List Char) : Option (List Char) :=
  (digits? Char.isDigit cs).filter fun ds => ds.length == 1 || ds.head? != some '0'

/-- A number in a base, which has no sign. -/
def based? (base : Nat) (cs : List Char) : Option Int :=
  let value (c : Char) := (Text.hexValue? c).filter (· < base)
  (digits? (fun c => (value c).isSome) cs).map fun ds =>
    (ds.foldl (fun n c => n * base + (value c).getD 0) 0 : Nat)

/-- A whole number of 64 bits with its sign. -/
def integer? (cs : List Char) : Option Int :=
  let i :=
    match cs with
    | '0' :: 'x' :: ds => based? 16 ds
    | '0' :: 'o' :: ds => based? 8 ds
    | '0' :: 'b' :: ds => based? 2 ds
    | _ =>
      let (negative, ds) := Decimal.readSign cs
      (wholeDigits? ds).map fun ds =>
        if negative then -(Decimal.ofDigits ds : Int) else Decimal.ofDigits ds
  i.filter fun i => -Number.integerLimit ≤ i && i < Number.integerLimit

/-- A part of a number behind a character, if that character stands in it. -/
def behind (isMark : Char → Bool) (cs : List Char) : List Char × Option (List Char) :=
  match cs.dropWhile (!isMark ·) with
  | [] => (cs, none)
  | _ :: rest => (cs.takeWhile (!isMark ·), some rest)

/-- An exponent: a sign or none, and digits. -/
def exponent? (cs : List Char) : Option (List Char) :=
  let (negative, ds) := Decimal.readSign cs
  (digits? Char.isDigit ds).map fun ds => if negative then '-' :: ds else ds

/-- A double: an infinity, NaN, or a decimal with a fraction or an exponent. A positive decimal must
not be too large for a finite double. -/
def float? (cs : List Char) : Option Float := do
  let (negative, word) := Decimal.readSign cs
  let magnitude ←
    if word == ['i', 'n', 'f'] then some Double.infinity
    else if word == ['n', 'a', 'n'] then some Double.nan
    else do
      let (mantissa, exponent) := behind (fun c => c == 'e' || c == 'E') word
      let (whole, fraction) := behind (· == '.') mantissa
      if exponent.isNone && fraction.isNone then none
      let whole ← wholeDigits? whole
      let fraction ← (fraction.map (digits? Char.isDigit)).getD (some [])
      let exponent ← (exponent.map exponent?).getD (some ['0'])
      let point := if fraction.isEmpty then [] else '.' :: fraction
      (Decimal.readDouble? (whole ++ point ++ 'e' :: exponent)).filter fun x =>
        negative || Double.isFinite x
  return if negative then -magnitude else magnitude

/-! ### Dates and times -/

/-- The number that some digits write, if it lies between two others. -/
def within (least most : Nat) (ds : List Char) : Bool :=
  ds.all Char.isDigit && least ≤ Decimal.ofDigits ds && Decimal.ofDigits ds ≤ most

/-- The number of days of a month. -/
def daysOf (year month : Nat) : Nat :=
  if month = 2 then
    if year % 4 = 0 ∧ (year % 100 ≠ 0 ∨ year % 400 = 0) then 29 else 28
  else if month = 4 ∨ month = 6 ∨ month = 9 ∨ month = 11 then 30
  else 31

/-- A date in digits. -/
def isDate : List Char → Bool
  | [a, b, c, d, '-', e, f, '-', g, h] =>
    within 0 9999 [a, b, c, d] && within 1 12 [e, f] &&
      within 1 (daysOf (Decimal.ofDigits [a, b, c, d]) (Decimal.ofDigits [e, f])) [g, h]
  | _ => false

/-- Hours, minutes and seconds in digits. -/
def isClock : List Char → Bool
  | [a, b, ':', c, d, ':', e, f] => within 0 23 [a, b] && within 0 59 [c, d] && within 0 60 [e, f]
  | _ => false

/-- The fraction of a second without zeros at its end, and the rest. There are at most
nine digits. -/
def readFraction? : List Char → Option (List Char × List Char)
  | '.' :: cs =>
    let ds := cs.takeWhile Char.isDigit
    let shown := ((ds.take 9).reverse.dropWhile (· == '0')).reverse
    if ds.isEmpty then none
    else some (if shown.isEmpty then [] else '.' :: shown, cs.dropWhile Char.isDigit)
  | cs => some ([], cs)

/-- The distance from the universal time, if one is told. -/
def offset? : List Char → Option (List Char)
  | [] => some []
  | [z] => if z == 'Z' || z == 'z' then some ['Z'] else none
  | [sign, a, b, ':', c, d] =>
    if (sign == '+' || sign == '-') && within 0 23 [a, b] && within 0 59 [c, d] then
      some ((if [a, b, c, d].all (· == '0') then '+' else sign) :: [a, b, ':', c, d])
    else none
  | _ => none

/-- A date, a time or both, as it is written in full. -/
def moment? (cs : List Char) : Option (List Char) :=
  if isDate (cs.take 10) then
    match cs.drop 10 with
    | [] => some cs
    | mark :: time =>
      if (mark == 'T' || mark == 't' || mark == ' ') && isClock (time.take 8) then do
        let (fraction, rest) ← readFraction? (time.drop 8)
        let offset ← offset? rest
        return cs.take 10 ++ 'T' :: time.take 8 ++ fraction ++ offset
      else none
  else if isClock (cs.take 8) then
    match readFraction? (cs.drop 8) with
    | some (fraction, []) => some (cs.take 8 ++ fraction)
    | _ => none
  else none

/-! ### Words -/

/-- The characters of words. -/
def isWordChar (c : Char) : Bool :=
  c.isAlphanum || c == '_' || c == '+' || c == '-' || c == '.' || c == ':'

/-- A word at the front, and the rest. Behind a date one blank and a digit continue the word. -/
def splitWord (cs : List Char) : List Char × List Char :=
  let word := cs.takeWhile isWordChar
  let rest := cs.dropWhile isWordChar
  match rest with
  | ' ' :: c :: more =>
    if isDate word && c.isDigit then
      (word ++ ' ' :: (c :: more).takeWhile isWordChar, (c :: more).dropWhile isWordChar)
    else (word, rest)
  | _ => (word, rest)

/-- The value of a word. -/
def ofWord? (word : List Char) : Option Toml :=
  if word == ['t', 'r', 'u', 'e'] then some (.boolean true)
  else if word == ['f', 'a', 'l', 's', 'e'] then some (.boolean false)
  else
    ((moment? word).map fun t => .moment (String.ofList t)) <|>
      (integer? word).map .integer <|> (float? word).map .float

/-- Read a word. -/
def readWord? (cs : List Char) : Option (Toml × List Char) :=
  let (word, rest) := splitWord cs
  (ofWord? word).map (·, rest)

end Toml

end CommandChain
