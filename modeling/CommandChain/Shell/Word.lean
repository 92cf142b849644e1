import CommandChain.Text.Split

/-!
# Words of a script

A word is a row of pieces: text, parameters, substituted scripts and arithmetic. Every piece knows
whether it stands in quotation marks, where its value is not split any more and where the signs of
patterns are plain characters. An empty quoted text stands for a quotation mark: a word with one is
never nothing.

The shell works on bytes. A text of bytes is a list of characters below 256, one for each byte. -/

namespace CommandChain.Shell

/-- What is done to the value of a parameter. Some operations ask whether the parameter is set; with
`evenEmpty` an empty one counts as not set. -/
inductive ParamOp where
  | value
  | length
  /-- The argument for a parameter that is not set. -/
  | orElse (evenEmpty : Bool)
  /-- The same, and the parameter is set to it. -/
  | orAssign (evenEmpty : Bool)
  /-- The argument is the complaint about a parameter that is not set. -/
  | orFail (evenEmpty : Bool)
  /-- The argument for a parameter that is set, and nothing for any other. -/
  | ifSet (evenEmpty : Bool)
  /-- The value without a front that has the form of the argument. -/
  | dropFront (longest : Bool)
  /-- The value without a back that has the form of the argument. -/
  | dropBack (longest : Bool)
  /-- No operation: the value cannot be found. -/
  | unknown
deriving Repr, DecidableEq

/-- A piece of a word. -/
inductive Piece where
  | text (cs : List Char) (quoted : Bool)
  | param (name : List Char) (op : ParamOp) (argument : List Piece) (quoted : Bool)
  /-- A script that is replaced by its output, and the line on which it begins. -/
  | command (script : List Char) (line : Nat) (quoted : Bool)
  | arithmetic (term : List Piece) (quoted : Bool)
deriving Repr

/-- The pieces of a word. -/
abbrev Word := List Piece

namespace Word

/-- The text of a word without any quotation marks and expansions. -/
def bare? : Word → Option (List Char)
  | [] => some []
  | .text cs false :: w => (bare? w).map (cs ++ ·)
  | _ => none

/-- A word that is a text without quotation marks. -/
def ofText (cs : List Char) : Word := cs.map fun c => .text [c] false

/-- The piece for a tilde, the home directory, if it is known. -/
def home : Piece := .param ['H', 'O', 'M', 'E'] (.orElse false) [.text ['~'] false] true

/-- A word with the home directory in place of a tilde at its front, where the word or a part of its
path ends behind the tilde. -/
def withHome (isPathList : Bool) : Word → Word
  | [.text ['~'] false] => [home]
  | .text ['~'] false :: .text [c] false :: w =>
    if c == '/' || (isPathList && c == ':') then home :: .text [c] false :: w
    else .text ['~'] false :: .text [c] false :: w
  | w => w

/-- A word with the home directory in place of every tilde at the front of a part that colons
divide. -/
def withHomes : Word → Word
  | [] => []
  | p :: w =>
    match p with
    | .text [':'] false => p :: withHome true (withHomes w)
    | _ => p :: withHomes w

/-- The text of a word in which everything is taken as it stands. -/
def plainText : Word → List Char
  | [] => []
  | .text cs _ :: w => cs ++ plainText w
  | _ :: w => plainText w

end Word

/-! ### Characters -/

/-- The mark that surrounds a substituted script. -/
def backquote : Char := Char.ofNat 0x60

/-- The blanks between words on a line. -/
def isBlank (c : Char) : Bool := c == ' ' || c == '\t'

/-- The characters that end a word. -/
def isMeta (c : Char) : Bool :=
  isBlank c || c == ';' || c == '&' || c == '|' || c == '<' || c == '>' || c == '(' || c == ')'

/-- The characters that a name begins with. -/
def isNameStart (c : Char) : Bool := c.isAlpha || c == '_'

/-- The characters of a name. -/
def isNameChar (c : Char) : Bool := c.isAlphanum || c == '_'

/-- A text is a name. -/
def isName : List Char → Bool
  | [] => false
  | c :: cs => isNameStart c && cs.all isNameChar

/-- The parameters named by one sign. -/
def isSpecial (c : Char) : Bool :=
  c == '@' || c == '*' || c == '#' || c == '?' || c == '$' || c == '!' || c == '-' || c.isDigit

end CommandChain.Shell
