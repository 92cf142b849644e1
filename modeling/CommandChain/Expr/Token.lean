import CommandChain.Expr.Escape
import CommandChain.Number.Decimal

/-!
# Tokens of expressions

A text is cut into numbers, string literals, words and symbols, with blanks between them where it
likes. Of the symbols that a text begins with the longest is taken. A token keeps how it is written;
the value of a number is that of its `Numeral`. -/

namespace CommandChain

/-- The symbols of the expression language. -/
inductive Punctuation where
  | strictEq | strictNe | ellipsis
  | eq | ne | le | ge | and | or | arrow
  | lt | gt | plus | minus | star | slash | percent | bang | question | colon | semicolon
  | comma | dot | parenL | parenR | bracketL | bracketR | braceL | braceR
deriving Repr, DecidableEq

namespace Punctuation

/-- How a symbol is written. -/
def chars : Punctuation → List Char
  | .strictEq => ['=', '=', '=']
  | .strictNe => ['!', '=', '=']
  | .ellipsis => ['.', '.', '.']
  | .eq => ['=', '=']
  | .ne => ['!', '=']
  | .le => ['<', '=']
  | .ge => ['>', '=']
  | .and => ['&', '&']
  | .or => ['|', '|']
  | .arrow => ['=', '>']
  | .lt => ['<']
  | .gt => ['>']
  | .plus => ['+']
  | .minus => ['-']
  | .star => ['*']
  | .slash => ['/']
  | .percent => ['%']
  | .bang => ['!']
  | .question => ['?']
  | .colon => [':']
  | .semicolon => [';']
  | .comma => [',']
  | .dot => ['.']
  | .parenL => ['(']
  | .parenR => [')']
  | .bracketL => ['[']
  | .bracketR => [']']
  | .braceL => ['{']
  | .braceR => ['}']

/-- All symbols, longer ones first. -/
def all : List Punctuation :=
  [.strictEq, .strictNe, .ellipsis, .eq, .ne, .le, .ge, .and, .or, .arrow, .lt, .gt, .plus, .minus,
    .star, .slash, .percent, .bang, .question, .colon, .semicolon, .comma, .dot, .parenL, .parenR,
    .bracketL, .bracketR, .braceL, .braceR]

end Punctuation

/-- The exponent of a number: `e` or `E`, a sign or none, and digits. -/
structure Exponent where
  mark : Char
  sign : Option Char
  digits : List Char
deriving Repr, DecidableEq

/-- A number as it is written: digits before and after a point, and an exponent or none. The point
stands only before digits. -/
structure Numeral where
  whole : List Char
  fraction : List Char
  exponent : Option Exponent
deriving Repr, DecidableEq

namespace Exponent

/-- How an exponent is written. -/
def chars (e : Exponent) : List Char := e.mark :: (e.sign.toList ++ e.digits)

/-- The number of an exponent. -/
def value (e : Exponent) : Int :=
  let n : Int := Decimal.ofDigits e.digits
  if e.sign = some '-' then -n else n

end Exponent

namespace Numeral

/-- How the digits after a point are written. -/
def fractionChars (ds : List Char) : List Char := if ds.isEmpty then [] else '.' :: ds

/-- How a number is written. -/
def chars (n : Numeral) : List Char :=
  n.whole ++ (fractionChars n.fraction ++ (n.exponent.map Exponent.chars).getD [])

/-- The number that is written. -/
def value (n : Numeral) : Float :=
  Double.ofDecimal (Decimal.ofDigits (n.whole ++ n.fraction))
    ((n.exponent.map Exponent.value).getD 0 - n.fraction.length)

end Numeral

/-- A token. A string literal is kept as it stands between its quotation marks, with the mark. -/
inductive Token where
  | num (n : Numeral)
  | str (mark : Char) (raw : List Char)
  | word (name : String)
  | sym (s : Punctuation)
deriving Repr, DecidableEq

namespace Token

/-- The characters that a word may begin with. -/
def isWordStart (c : Char) : Bool := c.isAlpha || c == '_' || c == '$'

/-- The characters that a word may go on with. -/
def isWordChar (c : Char) : Bool := c.isAlphanum || c == '_' || c == '$'

/-- The inside of a string literal up to the quote `mark`, and the rest after it. -/
def readRaw? (mark : Char) : List Char → Option (List Char × List Char)
  | [] => none
  | '\\' :: c :: cs => (readRaw? mark cs).map fun p => ('\\' :: c :: p.1, p.2)
  | c :: cs =>
    if c == mark then some ([], cs)
    else if c == '\\' then none
    else (readRaw? mark cs).map fun p => (c :: p.1, p.2)

/-- The sign that a text begins with, and the rest. -/
def readSign : List Char → Option Char × List Char
  | '+' :: cs => (some '+', cs)
  | '-' :: cs => (some '-', cs)
  | cs => (none, cs)

/-- The exponent that a number goes on with, and the rest. -/
def readExponent (cs : List Char) : Option Exponent × List Char :=
  match cs with
  | c :: rest =>
    if c == 'e' || c == 'E' then
      let (sign, ds) := readSign rest
      let digits := ds.takeWhile Char.isDigit
      if digits.isEmpty then (none, cs)
      else (some ⟨c, sign, digits⟩, ds.dropWhile Char.isDigit)
    else (none, cs)
  | [] => (none, cs)

/-- The digits after a point, if the text goes on with a point and a digit, and the rest. -/
def readFraction (cs : List Char) : List Char × List Char :=
  match cs with
  | '.' :: rest =>
    let digits := rest.takeWhile Char.isDigit
    if digits.isEmpty then ([], cs) else (digits, rest.dropWhile Char.isDigit)
  | _ => ([], cs)

/-- A number: digits on at least one side of an optional point, and an exponent or none. -/
def readNumber? (cs : List Char) : Option (Numeral × List Char) :=
  let whole := cs.takeWhile Char.isDigit
  let (fraction, rest) := readFraction (cs.dropWhile Char.isDigit)
  if whole.isEmpty && fraction.isEmpty then none
  else
    let (exponent, rest) := readExponent rest
    some (⟨whole, fraction, exponent⟩, rest)

/-- The token at the front of a text that does not begin with a blank, and the rest. -/
def read? (cs : List Char) : Option (Token × List Char) :=
  match readNumber? cs with
  | some (n, rest) => some (.num n, rest)
  | none =>
    match cs with
    | [] => none
    | c :: rest =>
      if c == '"' || c == '\'' then (readRaw? c rest).map fun p => (.str c p.1, p.2)
      else if isWordStart c then
        some (.word (String.ofList (cs.takeWhile isWordChar)), cs.dropWhile isWordChar)
      else
        (Punctuation.all.find? fun s => s.chars.isPrefixOf cs).map fun s =>
          (.sym s, cs.drop s.chars.length)

/-- The tokens of a text with `fuel` or fewer characters. -/
def lexFrom : Nat → List Char → Option (List Token)
  | 0, cs => if (cs.dropWhile Text.isSpace).isEmpty then some [] else none
  | fuel + 1, cs =>
    match cs.dropWhile Text.isSpace with
    | [] => some []
    | c :: rest =>
      match read? (c :: rest) with
      | none => none
      | some (t, rest) => (lexFrom fuel rest).map (t :: ·)

/-- The tokens of a text; none if some part of it is no token. -/
def lex? (cs : List Char) : Option (List Token) := lexFrom cs.length cs

/-- The characters of the first malformed escape in a string literal. -/
def fault? : Token → Option (List Char)
  | .str _ raw =>
    match Escape.decode raw with
    | .error ds => some ds
    | .ok _ => none
  | _ => none

/-- The text that a string literal stands for; nothing if an escape is malformed. -/
def content (raw : List Char) : String :=
  match Escape.decode raw with
  | .error _ => ""
  | .ok t => String.ofList t

end Token

end CommandChain
