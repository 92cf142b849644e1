/-!
# Splitting at the top level

A scan reads a text from left to right and remembers how deep it is in brackets and whether it is
inside quotes. `splitTop d t` cuts `t` at every occurrence of the delimiter `d` that starts outside
all brackets and quotes; the pieces joined with `d` give back `t`.

`fields` cuts at every occurrence of one character and pays no heed to brackets. -/

namespace CommandChain.Text

/-- The characters that open and close a quotation. -/
def isQuote (c : Char) : Bool := c == '"' || c == '\''

/-- The characters that open a bracket. -/
def isOpening (c : Char) : Bool := c == '(' || c == '[' || c == '{'

/-- The characters that close a bracket. -/
def isClosing (c : Char) : Bool := c == ')' || c == ']' || c == '}'

/-- Where a left-to-right scan of a text stands. -/
inductive Scan where
  /-- Outside quotes, below `depth` open brackets. -/
  | bare (depth : Nat)
  /-- Inside the quotation that `mark` opened. -/
  | quoted (mark : Char) (depth : Nat)
  /-- Inside a quotation, right after a backslash. -/
  | escaped (mark : Char) (depth : Nat)
deriving Repr, DecidableEq

namespace Scan

/-- The scan of an empty text. -/
def start : Scan := .bare 0

/-- One more character. A closing bracket without an opening one is ignored, and brackets need not
match in kind. -/
def next : Scan → Char → Scan
  | .bare d, c =>
    if isQuote c then .quoted c d
    else if isOpening c then .bare (d + 1)
    else if isClosing c then .bare (d - 1)
    else .bare d
  | .quoted q d, c => if c == '\\' then .escaped q d else if c == q then .bare d else .quoted q d
  | .escaped q d, _ => .quoted q d

/-- The scan of a whole text. -/
def run (s : Scan) (t : List Char) : Scan := t.foldl next s

/-- Outside all brackets and quotes. -/
def atTop : Scan → Bool
  | .bare 0 => true
  | _ => false

end Scan

/-- Put a character in front of the first piece. -/
def consFirst (c : Char) : List (List Char) → List (List Char)
  | [] => [[c]]
  | p :: ps => (c :: p) :: ps

/-- The pieces of a text, where `skip` more characters belong to the delimiter last found. -/
def splitFrom (d : List Char) : Nat → Scan → List Char → List (List Char)
  | _, _, [] => [[]]
  | skip + 1, s, _ :: cs => splitFrom d skip s cs
  | 0, s, c :: cs =>
    if s.atTop && d.isPrefixOf (c :: cs) then [] :: splitFrom d (d.length - 1) .start cs
    else consFirst c (splitFrom d 0 (s.next c) cs)

/-- The pieces of a text between the top-level occurrences of `d`; an empty delimiter cuts
nothing. -/
def splitTop (d t : List Char) : List (List Char) :=
  if d.isEmpty then [t] else splitFrom d 0 .start t

/-- `splitTop` on strings. -/
def splitTopText (d t : String) : List String := (splitTop d.toList t.toList).map String.ofList

/-- The pieces of a text between the occurrences of the character `sep`. -/
def fields (sep : Char) : List Char → List (List Char)
  | [] => [[]]
  | c :: cs => if c == sep then [] :: fields sep cs else consFirst c (fields sep cs)

/-- `fields` on strings. -/
def fieldsText (sep : Char) (t : String) : List String := (fields sep t.toList).map String.ofList

end CommandChain.Text
