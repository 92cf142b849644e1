import CommandChain.Json.Reader

/-!
# The text of a scalar

A scalar is plain, quoted or a block. In plain and quoted scalars a single line break counts as a
blank and further ones stand for themselves; a `Gap` holds white space back until it is known what
follows. A block scalar keeps its lines (`|`) or folds them (`>`), without their common indentation.

Line breaks have been made uniform before: a line ends with a line feed or one of the two Unicode
separators. -/

namespace CommandChain.Yaml

/-- The characters that end a line. -/
def isBreak (c : Char) : Bool := c == '\n' || c.toNat == 0x2028 || c.toNat == 0x2029

/-- The white space inside a line. -/
def isBlank (c : Char) : Bool := c == ' ' || c == '\t'

/-- Nothing, white space or a line break comes next. -/
def endsWord : List Char → Bool
  | [] => true
  | c :: _ => isBlank c || isBreak c

/-- A line that begins or ends a document. -/
def isMarker : List Char → Bool
  | '-' :: '-' :: '-' :: cs => endsWord cs
  | '.' :: '.' :: '.' :: cs => endsWord cs
  | _ => false

/-! ### White space between the words of a scalar -/

/-- White space inside a scalar: blanks on one line, or line breaks, where `column` characters of
the last line were passed over. No `first` break means that it was escaped. -/
inductive Gap where
  | blanks (ws : List Char)
  | lines (first : Option Char) (more : List Char) (column : Nat)

namespace Gap

/-- No white space. -/
def none : Gap := .blanks []

/-- One more blank. Blanks at the front of a line are dropped. -/
def addBlank (c : Char) : Gap → Gap
  | .blanks ws => .blanks (ws ++ [c])
  | .lines first more column => .lines first more (column + 1)

/-- One more line break. Blanks at the end of a line are dropped. -/
def addBreak (c : Char) : Gap → Gap
  | .blanks _ => .lines (some c) [] 0
  | .lines first more _ => .lines first (more ++ [c]) 0

/-- What the white space stands for between two words. -/
def text : Gap → List Char
  | .blanks ws => ws
  | .lines Option.none more _ => more
  | .lines (some c) more _ =>
    if c == '\n' then if more.isEmpty then [' '] else more else c :: more

/-- There is none. -/
def isEmpty : Gap → Bool
  | .blanks ws => ws.isEmpty
  | .lines .. => false

/-- The words before and after stand on different lines. -/
def isBroken : Gap → Bool
  | .blanks _ => false
  | .lines .. => true

/-- The next word stands left of a column. -/
def isLeftOf (margin : Nat) : Gap → Bool
  | .blanks _ => false
  | .lines _ _ column => column < margin

end Gap

/-! ### Plain scalars -/

/-- A plain scalar: its text, whether a line break follows, and the rest. -/
structure PlainScalar where
  text : List Char
  isBroken : Bool
  rest : List Char

/-- A colon in front of the rest ends the key of a mapping. -/
def endsKey : List Char → Bool
  | ':' :: cs => endsWord cs
  | _ => false

/-- The brackets and the comma of flow collections. -/
def isFlowMark (c : Char) : Bool := c == ',' || c == '[' || c == ']' || c == '{' || c == '}'

/-- A colon before a mark of a flow collection, which is refused. -/
def isLooseColon : List Char → Bool
  | ':' :: c :: _ => isFlowMark c || c == '?'
  | _ => false

/-- Read a plain scalar, in a flow collection or not, whose further lines must not begin left of
`margin`. The words read so far are given in reverse. -/
def plainFrom (inFlow : Bool) (margin : Nat) (acc : List Char) (gap : Gap) :
    List Char → Option PlainScalar
  | [] => some ⟨acc.reverse, gap.isBroken, []⟩
  | c :: cs =>
    if isBlank c then
      if c == '\t' && gap.isLeftOf margin then none
      else plainFrom inFlow margin acc (gap.addBlank c) cs
    else if isBreak c then plainFrom inFlow margin acc (gap.addBreak c) cs
    else if !gap.isEmpty && (c == '#' || (!inFlow && gap.isLeftOf margin) ||
        (gap.isLeftOf 1 && isMarker (c :: cs))) then
      some ⟨acc.reverse, gap.isBroken, c :: cs⟩
    else if inFlow && isLooseColon (c :: cs) then none
    else if endsKey (c :: cs) || (inFlow && isFlowMark c) then
      some ⟨acc.reverse, gap.isBroken, c :: cs⟩
    else plainFrom inFlow margin (c :: (gap.text.reverse ++ acc)) .none cs

/-! ### Quoted scalars -/

/-- The character of so many hexadecimal digits, and how many characters the escape takes. -/
def hexEscape? (n : Nat) (cs : List Char) : Option (Char × Nat) :=
  (Text.hexCharacter? n cs).map (·, n + 1)

/-- The characters that an escape of one letter stands for. -/
def letterEscapes : List (Char × Nat) :=
  [('0', 0), ('a', 7), ('b', 8), ('t', 9), ('\t', 9), ('n', 0x0A), ('v', 0x0B), ('f', 0x0C),
    ('r', 0x0D), ('e', 0x1B), (' ', 0x20), ('"', 0x22), ('/', 0x2F), ('\\', 0x5C), ('N', 0x85),
    ('_', 0xA0), ('L', 0x2028), ('P', 0x2029)]

/-- The character of an escape after its backslash, and how many characters it takes. -/
def escape? : List Char → Option (Char × Nat)
  | [] => none
  | 'x' :: cs => hexEscape? 2 cs
  | 'u' :: cs => hexEscape? 4 cs
  | 'U' :: cs => hexEscape? 8 cs
  | c :: _ => (letterEscapes.lookup c).map fun n => (Char.ofNat n, 1)

/-- Read a quoted scalar up to its closing mark, where `skip` more characters belong to an escape:
its text and the rest. The text read so far is given in reverse. -/
def quotedFrom (mark : Char) (acc : List Char) (gap : Gap) :
    Nat → List Char → Option (List Char × List Char)
  | _, [] => none
  | skip + 1, _ :: cs => quotedFrom mark acc gap skip cs
  | 0, c :: cs =>
    if isBlank c then quotedFrom mark acc (gap.addBlank c) 0 cs
    else if isBreak c then quotedFrom mark acc (gap.addBreak c) 0 cs
    else if gap.isLeftOf 1 && isMarker (c :: cs) then none
    else
      let acc := gap.text.reverse ++ acc
      if c == mark then
        if mark == '\'' && cs.head? == some '\'' then quotedFrom mark (c :: acc) .none 1 cs
        else some (acc.reverse, cs)
      else if mark == '"' && c == '\\' then
        if (cs.head?.map isBreak).getD false then quotedFrom mark acc (.lines none [] 0) 1 cs
        else
          match escape? cs with
          | some (e, n) => quotedFrom mark (e :: acc) .none n cs
          | none => none
      else quotedFrom mark (c :: acc) .none 0 cs

/-! ### Block scalars -/

/-- A line and what ends it; the last line may end with nothing. -/
structure Line where
  text : List Char
  ending : List Char

/-- The lines of a text. -/
def lines : List Char → List Line
  | [] => []
  | c :: cs =>
    if isBreak c then ⟨[], [c]⟩ :: lines cs
    else
      match lines cs with
      | [] => [⟨[c], []⟩]
      | l :: ls => ⟨c :: l.text, l.ending⟩ :: ls

/-- What happens to the line breaks at the end of a block: one is kept, none or all. -/
inductive Chomp where
  | clip
  | strip
  | keep
deriving DecidableEq

/-- A sign for the line breaks at the end. -/
def readChomp : List Char → Chomp × List Char
  | '-' :: cs => (.strip, cs)
  | '+' :: cs => (.keep, cs)
  | cs => (.clip, cs)

/-- A digit for the indentation, which is not zero. -/
def readIncrement : List Char → Option (Option Nat × List Char)
  | [] => some (none, [])
  | c :: cs =>
    if c.isDigit then if c == '0' then none else some (some (c.toNat - 48), cs)
    else some (none, c :: cs)

/-- The signs behind the indicator of a block, in either order, up to the end of its line. -/
def readHeader (cs : List Char) : Option (Chomp × Option Nat × List Char) := do
  let (first, cs) := readChomp cs
  let (increment, cs) ← readIncrement cs
  let (chomp, cs) := if first = .clip then readChomp cs else (first, cs)
  let cs := cs.dropWhile isBlank
  let cs := if cs.head? == some '#' then cs.dropWhile (!isBreak ·) else cs
  match cs with
  | [] => some (chomp, increment, [])
  | c :: rest => if isBreak c then some (chomp, increment, rest) else none

/-- The spaces at the front of a line. -/
def Line.indent (l : Line) : Nat := (l.text.takeWhile (· == ' ')).length

/-- The indentation of the first line that is not empty, or of an empty line before it that has
more. A tabulator must not follow the spaces. -/
def firstIndent? : List Line → Option Nat
  | [] => some 0
  | l :: ls =>
    match l.text.drop l.indent with
    | [] => if l.ending.isEmpty then some l.indent else (firstIndent? ls).map (max l.indent)
    | c :: _ => if c == '\t' then none else some l.indent

/-- Read the lines of a block, each without `indent` spaces: its text and the rest. Before it stands
the line break `first`, after which `more` empty lines came; `wasBlank` says that the line before it
began with a blank. -/
def blockFrom (folded : Bool) (chomp : Chomp) (indent : Nat) (first more : List Char)
    (wasBlank : Bool) : List Line → Option (List Char × List Char)
  | [] => some (ending, [])
  | l :: ls =>
    let passed := min l.indent indent
    match l.text.drop passed with
    | [] =>
      if l.ending.isEmpty then some (ending, [])
      else blockFrom folded chomp indent first (more ++ l.ending) wasBlank ls
    | c :: cs =>
      if passed < indent then
        if c == '\t' then none
        else some (ending, c :: cs ++ l.ending ++ ls.flatMap fun m => m.text ++ m.ending)
      else
        let join :=
          if folded && first == ['\n'] && !wasBlank && !isBlank c then
            if more.isEmpty then [' '] else []
          else first
        (blockFrom folded chomp indent l.ending [] (isBlank c) ls).map fun (text, rest) =>
          (join ++ more ++ c :: cs ++ text, rest)
where
  /-- What is left of the line breaks at the end. -/
  ending : List Char :=
    match chomp with
    | .clip => first
    | .strip => []
    | .keep => first ++ more

/-- Read a block scalar after its indicator, whose lines must not begin left of `margin`: its text
and the rest. -/
def readBlock (folded : Bool) (margin : Nat) (cs : List Char) :
    Option (List Char × List Char) := do
  let (chomp, increment, cs) ← readHeader cs
  let ls := lines cs
  let indent ←
    match increment with
    | some n => some (margin - 1 + n)
    | none => (firstIndent? ls).map fun n => max n (max margin 1)
  blockFrom folded chomp indent [] [] false ls

end CommandChain.Yaml
