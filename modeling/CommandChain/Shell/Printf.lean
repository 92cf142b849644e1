import CommandChain.Number.Decimal
import CommandChain.Shell.Arithmetic

/-!
# Formatted output

A format is text with escapes and conversions in it. It is used again as long as arguments are left,
and where they run out a conversion takes an empty text or a zero. An argument that is no number is
complained about, and printed as far as it is one. -/

namespace CommandChain.Shell

/-! ### Escapes -/

/-- The characters that a backslash and a letter stand for. -/
def letterEscapes : List (Char × Nat) :=
  [('a', 7), ('b', 8), ('e', 27), ('f', 12), ('n', 10), ('r', 13), ('t', 9), ('v', 11), ('\\', 92)]

/-- A digit of base 8. -/
def isOctal (c : Char) : Bool := '0' ≤ c && c ≤ '7'

/-- The byte that octal digits write. -/
def octal (ds : List Char) : Char := Char.ofNat (Nat.ofDigitChars 8 ds 0 % 256)

/-- The byte of an escape after its backslash, and how many characters it takes. -/
def escape? (cs : List Char) : Option (Char × Nat) :=
  match cs with
  | [] => none
  | c :: _ =>
    if isOctal c then
      let ds := (cs.take 3).takeWhile isOctal
      some (octal ds, ds.length)
    else (letterEscapes.lookup c).map fun n => (Char.ofNat n, 1)

/-- The escape of a text that is printed as a whole: octal digits may follow a zero. -/
def longEscape? (cs : List Char) : Option (Char × Nat) :=
  match cs with
  | '0' :: d :: rest =>
    if isOctal d then (escape? (d :: rest)).map fun (c, n) => (c, n + 1) else escape? cs
  | _ => escape? cs

/-- A text with its escapes replaced, where `skip` more characters belong to the last one; an
escaped `c` ends all output, which the flag says. -/
def unescape : Nat → List Char → List Char × Bool
  | _, [] => ([], false)
  | skip + 1, _ :: cs => unescape skip cs
  | 0, c :: cs =>
    if c == '\\' then
      if cs.head? == some 'c' then ([], true)
      else
        match longEscape? cs with
        | some (e, n) => let (t, stop) := unescape n cs; (e :: t, stop)
        | none => let (t, stop) := unescape 0 cs; (c :: t, stop)
    else let (t, stop) := unescape 0 cs; (c :: t, stop)

/-! ### Conversions -/

/-- How a value is written: its flags, least width and precision. -/
structure Layout where
  flags : List Char
  width : Nat
  precision : Option Nat

namespace Layout

/-- A text filled up to the least width. -/
def pad (v : Layout) (t : List Char) : List Char :=
  let missing := List.replicate (v.width - t.length) ' '
  if v.flags.contains '-' then t ++ missing else missing ++ t

/-- A text of at most so many characters as the precision says, filled up to the least width. -/
def text (v : Layout) (t : List Char) : List Char :=
  v.pad (match v.precision with
    | some n => t.take n
    | none => t)

/-- The sign of a number. -/
def sign (v : Layout) (negative : Bool) : List Char :=
  if negative then ['-']
  else if v.flags.contains '+' then ['+']
  else if v.flags.contains ' ' then [' ']
  else []

/-- A number, filled up with zeros behind what stands in front of it. -/
def number (v : Layout) (before ds : List Char) : List Char :=
  if v.flags.contains '0' && !v.flags.contains '-' then
    before ++ List.replicate (v.width - before.length - ds.length) '0' ++ ds
  else v.pad (before ++ ds)

/-- A whole number with its least count of digits; with a precision it is not filled up with
zeros. -/
def whole (v : Layout) (before ds : List Char) : List Char :=
  match v.precision with
  | none => v.number before ds
  | some n => v.pad (before ++ List.replicate (n - ds.length) '0' ++ ds)

/-- A whole number with a sign. -/
def integer (v : Layout) (n : Int) : List Char :=
  let ds := if v.precision = some 0 && n == 0 then [] else digits n.natAbs
  v.whole (v.sign (n < 0)) ds

/-- A whole number without a sign, in a base. -/
def natural (v : Layout) (base : Nat) (isUpper : Bool) (n : Nat) : List Char :=
  let ds := if v.precision = some 0 && n = 0 then [] else Nat.toDigits base n
  let ds := if isUpper then ds.map Char.toUpper else ds
  let marked := v.flags.contains '#'
  if marked && base = 8 then
    if ds.head? == some '0' || v.precision.getD 0 > ds.length then v.whole [] ds
    else v.whole [] ('0' :: ds)
  else if marked && base = 16 && n ≠ 0 then v.whole ['0', if isUpper then 'X' else 'x'] ds
  else v.whole [] ds

end Layout

/-! ### Doubles -/

/-- `m * 2 ^ e` with so many places behind the point. A half goes to the even neighbour. -/
def fixed (places m : Nat) (e : Int) : Decimal :=
  let (num, den) := Decimal.fraction m e (-(places : Int))
  ⟨Decimal.Tie.toEven.roundDiv num den, -(places : Int)⟩

/-- `m * 2 ^ e` with so many digits behind the first one. -/
def rounded (places m : Nat) (e : Int) : Decimal :=
  if m = 0 then ⟨0, -(places : Int)⟩
  else
    let k := Decimal.leadingPower m e - places
    let (num, den) := Decimal.fraction m e k
    let n := Decimal.Tie.toEven.roundDiv num den
    if (digits n).length = places + 2 then ⟨n / 10, k + 1⟩ else ⟨n, k⟩

/-- The power of ten at the first digit of a rounded number. -/
def power (d : Decimal) : Int := if d.significand = 0 then 0 else d.firstPower

/-- Digits with a point behind the first one, and a power of ten of two digits at least. -/
def withPower (ds : List Char) (p : Int) (isMarked : Bool) : List Char :=
  let exponent := digits p.natAbs
  let ds :=
    match ds with
    | [c] => if isMarked then [c, '.'] else [c]
    | c :: cs => c :: '.' :: cs
    | [] => []
  ds ++ 'e' :: (if p < 0 then '-' else '+') ::
    (List.replicate (2 - exponent.length) '0' ++ exponent)

/-- The digits of a rounded number, the zero with all its places. -/
def digitsOf (places : Nat) (d : Decimal) : List Char :=
  if d.significand = 0 then List.replicate (places + 1) '0' else digits d.significand

/-- Digits behind a point without the zeros at their end. -/
def dropZeros (ds : List Char) : List Char := (ds.reverse.dropWhile (· == '0')).reverse

/-- `m * 2 ^ e` in hexadecimal digits with a power of two. The first digit is a one, except for the
least doubles; without a precision all digits are written but the zeros at the end. -/
def hexText (v : Layout) (m : Nat) (e : Int) : List Char :=
  let p : Int := if m = 0 then 0 else max (m.log2 + e) (-1022)
  let (num, den) := Decimal.fraction m (e - p + 52) 0
  let places := v.precision.getD 13
  let n :=
    Decimal.Tie.toEven.roundDiv (num * Nat.pow 16 (places - 13)) (den * Nat.pow 16 (13 - places))
  let unit := Nat.pow 16 places
  let ds := Nat.toDigits 16 (n % unit)
  let ds := if places = 0 then [] else List.replicate (places - ds.length) '0' ++ ds
  let ds := if v.precision.isNone then dropZeros ds else ds
  let point := if ds.isEmpty && !v.flags.contains '#' then [] else ['.']
  Nat.toDigits 16 (n / unit) ++ point ++ ds ++ ['p', if p < 0 then '-' else '+'] ++ digits p.natAbs

/-- The text of a double that is finite, without its sign, for a conversion. -/
def doubleText (v : Layout) (letter : Char) (m : Nat) (e : Int) : List Char :=
  let isMarked := v.flags.contains '#'
  let places := v.precision.getD 6
  match letter with
  | 'f' =>
    let t := Decimal.plain (fixed places m e)
    if isMarked && places = 0 then t ++ ['.'] else t
  | 'e' =>
    let d := rounded places m e
    withPower (digitsOf places d) (power d) isMarked
  | _ =>
    let places := max places 1 - 1
    let d := rounded places m e
    let p := power d
    if p < -4 || places < p then
      let ds := digitsOf places d
      withPower (if isMarked then ds else ds.take 1 ++ dropZeros (ds.drop 1)) p isMarked
    else
      let t := Decimal.plain (fixed (places - p).toNat m e)
      let whole := t.takeWhile (· != '.')
      let fraction := t.drop (whole.length + 1)
      let fraction := if isMarked then fraction else dropZeros fraction
      if fraction.isEmpty && !isMarked then whole else whole ++ '.' :: fraction

/-- An exponent at the front of a text behind one of some letters, and the rest. -/
def readExponent (letters cs : List Char) : Int × List Char :=
  match cs with
  | [] => (0, [])
  | c :: rest =>
    let (negative, ds) := Decimal.readSign rest
    let ns := ds.takeWhile Char.isDigit
    if letters.contains c && !ns.isEmpty then
      let n : Int := Decimal.ofDigits ns
      (if negative then -n else n, ds.drop ns.length)
    else (0, cs)

/-- A number at the front of a text: its digits, how many of them are behind the point, its
exponent, and the rest. No exponent far beyond those of all doubles makes a difference. -/
def readNumber? (isDigit : Char → Bool) (exponentLetters cs : List Char) :
    Option (List Char × Nat × Int × List Char) :=
  let whole := cs.takeWhile isDigit
  let rest := cs.dropWhile isDigit
  let (fraction, rest) :=
    match rest with
    | '.' :: more => (more.takeWhile isDigit, more.dropWhile isDigit)
    | _ => ([], rest)
  let ds := whole ++ fraction
  if ds.isEmpty then none
  else
    let (e, rest) := readExponent exponentLetters rest
    let bound : Int := 5000 + 4 * ds.length
    some (ds, fraction.length, max (-bound) (min bound e), rest)

/-- A number without sign at the front of a text, whether it is out of range, and the rest. -/
def readMagnitude? (cs : List Char) : Option (Float × Bool × List Char) :=
  let result (n : Nat) (x : Float) (rest : List Char) : Float × Bool × List Char :=
    (x, !Double.isFinite x || (n != 0 && x == 0.0), rest)
  let decimal : Option (Float × Bool × List Char) :=
    (readNumber? Char.isDigit ['e', 'E'] cs).map fun (ds, places, e, rest) =>
      let n := Decimal.ofDigits ds
      result n (Decimal.toDouble ⟨n, e - places⟩) rest
  match cs with
  | '0' :: x :: more =>
    if x == 'x' || x == 'X' then
      match readNumber? (Arithmetic.isDigitOf 16) ['p', 'P'] more with
      | some (ds, places, e, rest) =>
        let n := Arithmetic.ofDigits 16 ds
        some (result n (Double.ofDyadic false n (e - 4 * places)) rest)
      | none => decimal
    else decimal
  | _ => decimal

/-- The double at the front of a text, whether it is out of range, and the rest. -/
def readDouble? (cs : List Char) : Option (Float × Bool × List Char) :=
  let (negative, ds) := Decimal.readSign (cs.dropWhile Arithmetic.isSpace)
  let lower := ds.map Char.toLower
  let isWord (t : String) : Bool := (ofText t).isPrefixOf lower
  let magnitude :=
    if isWord "infinity" then some (Double.infinity, false, ds.drop 8)
    else if isWord "inf" then some (Double.infinity, false, ds.drop 3)
    else if isWord "nan" then some (Double.nan, false, ds.drop 3)
    else readMagnitude? ds
  magnitude.map fun (x, isOutOfRange, rest) => (if negative then -x else x, isOutOfRange, rest)

/-! ### Arguments -/

/-- Printing takes arguments off a list. -/
abbrev Printing := StateT (List (List Char)) Action

namespace Printing

/-- The next argument, if one is left. -/
def argument? : Printing (Option (List Char)) := modifyGet fun as => (as.head?, as.tail)

/-- Complain about an argument, of which `rest` is left over, or which is out of range. -/
def check (argument rest : List Char) (isRead isOutOfRange : Bool) : Printing Unit := do
  let complain (reason : String) : Printing Unit :=
    Action.complain 1 (argument ++ ofText (": " ++ reason))
  if !rest.isEmpty then
    complain (if isRead then "not completely converted" else "expected numeric value")
  else if isOutOfRange then complain "Numerical result out of range"
  else return

/-- The code of the character behind a quotation mark at the front. -/
def quotedCode? (argument : List Char) : Option Nat :=
  match argument with
  | c :: cs => if c == '"' || c == '\'' then some ((cs.head?.map Char.toNat).getD 0) else none
  | [] => none

/-- The next argument as a whole number between bounds. -/
def wholeNumber (least greatest : Int) : Printing Int := do
  match ← argument? with
  | none => return 0
  | some argument =>
    match quotedCode? argument with
    | some n => return n
    | none =>
      match Arithmetic.readInteger? argument with
      | none =>
        check argument argument false false
        return 0
      | some (n, rest) =>
        let inside := max least (min greatest n)
        check argument rest true (inside != n)
        return inside

/-- The next argument as a number of 64 bits with a sign. -/
def integer : Printing Int := wholeNumber (-Number.integerLimit) (Number.integerLimit - 1)

/-- The next argument as a number of 64 bits without a sign; a negative one counts from the end. -/
def natural : Printing Nat := do
  let n ← wholeNumber (1 - Number.wordLimit) (Number.wordLimit - 1)
  return (n % Number.wordLimit).toNat

/-- The next argument as a double. -/
def double : Printing Float := do
  match ← argument? with
  | none => return 0.0
  | some argument =>
    match quotedCode? argument with
    | some n => return Double.ofDyadic false n 0
    | none =>
      match readDouble? argument with
      | none =>
        check argument argument false false
        return 0.0
      | some (x, isOutOfRange, rest) =>
        check argument rest true isOutOfRange
        return x

/-- The greatest width or precision. -/
def maxExtent : Nat := 10000000

/-- A width or precision: digits at the front, or an argument, wrapped around to 32 bits, for a
star. -/
def extent (cs : List Char) : Printing (Option Int × List Char) := do
  match cs with
  | '*' :: rest => return (some ((← integer).bmod 4294967296), rest)
  | _ =>
    let ds := cs.takeWhile Char.isDigit
    return (if ds.isEmpty then none else some (Nat.ofDigitChars 10 ds 0), cs.drop ds.length)

/-- A layout at the front. -/
def layout (cs : List Char) : Printing (Layout × List Char) := do
  let flags := cs.takeWhile fun c => ['-', '+', ' ', '#', '0'].contains c
  let (width, cs) ← extent (cs.drop flags.length)
  let width := width.getD 0
  let (precision, cs) ←
    match cs with
    | '.' :: rest => do
      let (n, rest) ← extent rest
      pure (some (n.getD 0), rest)
    | _ => pure (none, cs)
  let precision := precision.bind fun n => if n < 0 then none else some n.toNat
  return (⟨if width < 0 then '-' :: flags else flags, width.natAbs, precision⟩, cs)

/-- Print a text in a layout, unless it is far too wide. -/
def put (v : Layout) (text : Unit → List Char) : Printing Unit :=
  if maxExtent < v.width || maxExtent < v.precision.getD 0 then
    Action.fail (ofText "xvsnprintf failed")
  else Action.write 1 (text ())

/-- A double as text. -/
def doubleLine (v : Layout) (letter : Char) (x : Float) : List Char :=
  let text :=
    match Double.parts x with
    | .finite negative m e =>
      let sign := v.sign negative
      if letter.toLower == 'a' then v.number (sign ++ ['0', 'x']) (hexText v m e)
      else v.number sign (doubleText v letter.toLower m e)
    | .infinite negative => v.pad (v.sign negative ++ ofText "inf")
    | .nan => v.pad (v.sign false ++ ofText "nan")
  if letter.isUpper then text.map Char.toUpper else text

/-- Print the next argument as a whole number without a sign. -/
def printNatural (v : Layout) (base : Nat) (isUpper : Bool) : Printing Unit := do
  let n ← natural
  put v fun _ => v.natural base isUpper n

/-- Print one conversion by its letter; nothing if there is no such letter, and otherwise whether
the output ends here. -/
def convert? (v : Layout) (letter : Char) : Option (Printing Bool) :=
  let go (print : Printing Unit) : Option (Printing Bool) := some do
    print
    return false
  match letter with
  | 's' => go do
    let t := (← argument?).getD []
    put v fun _ => v.text t
  | 'b' => some do
    let (t, stop) := unescape 0 ((← argument?).getD [])
    put v fun _ => v.text t
    return stop
  | 'c' => go do
    let c := (((← argument?).getD []).head?).getD '\x00'
    put v fun _ => v.pad [c]
  | 'd' | 'i' => go do
    let n ← integer
    put v fun _ => v.integer n
  | 'u' => go (printNatural v 10 false)
  | 'o' => go (printNatural v 8 false)
  | 'x' => go (printNatural v 16 false)
  | 'X' => go (printNatural v 16 true)
  | 'a' | 'e' | 'f' | 'g' | 'A' | 'E' | 'F' | 'G' => go do
    let x ← double
    put v fun _ => doubleLine v letter x
  | _ => none

/-- Print by a format once; `fuel` bounds its length. The result says whether the output ends
here. -/
def once : Nat → List Char → Printing Bool
  | 0, _ => return false
  | fuel + 1, cs => do
    match cs with
    | [] => return false
    | '\\' :: rest =>
      match escape? rest with
      | some (c, n) =>
        Action.write 1 [c]
        once fuel (rest.drop n)
      | none =>
        Action.write 1 ['\\']
        once fuel rest
    | '%' :: '%' :: rest =>
      Action.write 1 ['%']
      once fuel rest
    | '%' :: rest =>
      let (v, behind) ← layout rest
      match behind with
      | [] => Action.fail (ofText "missing format character")
      | letter :: behind =>
        match convert? v letter with
        | some print => if ← print then return true else once fuel behind
        | none =>
          let written := cs.take (cs.length - behind.length)
          Action.fail (written ++ ofText ": invalid directive")
    | c :: rest =>
      Action.write 1 [c]
      once fuel rest

/-- Print by a format as long as it takes arguments; `fuel` bounds their number. -/
def all (format : List Char) : Nat → Printing Unit
  | 0 => return
  | fuel + 1 => do
    let before := (← get).length
    if ← once (format.length + 1) format then return
    let after := (← get).length
    if after = 0 || after = before then return else all format fuel

end Printing

/-- Print arguments by a format. -/
def printf (arguments : List (List Char)) : Action Unit := do
  match arguments with
  | [] => Action.fail (ofText "usage: printf format [arg ...]")
  | format :: rest =>
    Action.exitWith 0
    (Printing.all format (rest.length + 1)).run' rest

end CommandChain.Shell
