import CommandChain.Shell.Arithmetic
import CommandChain.Shell.Pattern
import CommandChain.Shell.Session

/-!
# Expansion

The value of a word is a row of cells: characters, which remember whether they may be split and
whether they have a meaning in patterns, and the places where words begin and end. The cells are
split into fields, and a field that is a pattern is replaced by the files that it fits. -/

namespace CommandChain.Shell

/-- A character of an expanded word, or a place between characters. -/
inductive Cell where
  | char (c : Char) (isOpen isActive : Bool)
  /-- There is a field here, even if it has no characters. -/
  | mark
  /-- A field ends here. -/
  | cut
deriving Repr, DecidableEq

namespace Cell

/-- The characters of a value; a quoted one is not split, and its characters stand for
themselves. -/
def ofValue (quoted : Bool) (cs : List Char) : List Cell :=
  cs.map fun c => .char c (!quoted) (!quoted)

/-- The characters of cells. -/
def text (cells : List Cell) : List Char :=
  cells.filterMap fun cell =>
    match cell with
    | .char c _ _ => some c
    | _ => none

/-- Cells as a pattern. -/
def signs (cells : List Cell) : List PatternSign :=
  cells.filterMap fun cell =>
    match cell with
    | .char c _ isActive => some (c, isActive)
    | _ => none

end Cell

/-! ### Fields -/

/-- The blanks among the characters that split fields. -/
def isFieldBlank (c : Char) : Bool := c == ' ' || c == '\t' || c == '\n'

/-- Fields under construction: the finished ones and the cells of the one at work, the last
first. -/
structure Fields where
  done : List (List Cell) := []
  current : List Cell := []
  /-- A field has just ended: blanks are passed over. -/
  isBetween : Bool := false
  /-- It has ended at a blank: one sign of another kind is passed over, too. -/
  passesSign : Bool := false

namespace Fields

/-- Add a cell to the field at work. -/
def add (f : Fields) (cell : Cell) : Fields :=
  { f with current := cell :: f.current, isBetween := false, passesSign := false }

/-- End the field at work at a blank or at a sign of another kind. -/
def close (f : Fields) (atBlank : Bool) : Fields :=
  if atBlank && f.current.isEmpty then f
  else ⟨f.current.reverse :: f.done, [], true, atBlank⟩

/-- Take one more cell; `separators` split fields. -/
def next (separators : List Char) (f : Fields) (cell : Cell) : Fields :=
  match cell with
  | .char c true _ =>
    if !separators.contains c then f.add cell
    else if !f.isBetween then f.close (isFieldBlank c)
    else if isFieldBlank c then f
    else if f.passesSign then { f with passesSign := false }
    else f.close false
  | .cut => f.close true
  | _ => f.add cell

/-- The fields of some cells. -/
def ofCells (separators : List Char) (cells : List Cell) : List (List Cell) :=
  let f := cells.foldl (next separators) {}
  (if f.current.isEmpty then f.done else f.current.reverse :: f.done).reverse

end Fields

/-! ### Files that fit a pattern -/

/-- The names in a directory, also of itself and of the one above. -/
def Session.namesIn (s : Session) (dir : List Char) : List (List Char) :=
  match s.files.directory s.here.text (if dir.isEmpty then "." else toText dir) with
  | .error _ => []
  | .ok p =>
    let inside := s.files.entries.filter fun e => !e.1.isEmpty && e.1.dropLast == p
    ['.'] :: ['.', '.'] :: inside.filterMap fun e => e.1.getLast?.map ofText

/-- The paths that fit the parts of a pattern, behind a path that was already found. A name that
begins with a point fits only a part that does. -/
def Session.pathsOf (s : Session) : List Char → List (List PatternSign) → List (List Char)
  | before, [] => if (s.find? before).isSome then [before] else []
  | before, p :: ps =>
    let path (name : List Char) : List Char := before ++ name ++ if ps.isEmpty then [] else ['/']
    let as := Pattern.atoms 0 p
    if p.any Pattern.isActive then
      ((s.namesIn before).filter fun name =>
        Pattern.fits as name && (name.head? != some '.' || as.head? == some (.char '.'))).flatMap
          fun name => s.pathsOf (path name) ps
    else s.pathsOf (path (Pattern.plain as)) ps

/-- A field as it is, or the files that it fits in their order. -/
def Session.filesOf (s : Session) (field : List Cell) : List (List Char) :=
  let signs := Cell.signs field
  if s.keepsPatterns || !signs.any Pattern.isActive then [Cell.text field]
  else
    match s.pathsOf [] (Pattern.components signs) with
    | [] => [Cell.text field]
    | paths => paths.mergeSort fun a b => !(b < a)

/-! ### Parameters -/

/-- How a word is expanded. -/
structure Manner where
  /-- It becomes fields: arguments stay apart. -/
  isFull : Bool := false
  /-- It stands in quotation marks. -/
  isQuoted : Bool := false
  /-- Its own text is split, too. -/
  isOpen : Bool := false

/-- Values one after the other, with some cells between them. -/
def joinCells (between : List Cell) (values : List (List Cell)) : List Cell :=
  between.intercalate values

/-- All arguments. Between quotation marks they stay apart if `staysApart`; otherwise the first of
the characters that split fields stands between them. -/
def Session.allArguments (s : Session) (m : Manner) (staysApart : Bool) : List Cell :=
  let values := s.arguments.map (Cell.ofValue m.isQuoted)
  if m.isFull && m.isQuoted && staysApart then joinCells [.cut] (values.map (.mark :: ·))
  else
    match s.separators with
    | c :: _ => joinCells (Cell.ofValue m.isQuoted [c]) values
    | [] => joinCells (if m.isFull && !m.isQuoted then [.cut] else []) values

/-- The value of a parameter, if it is set. -/
def Session.parameter? (s : Session) (m : Manner) (name : List Char) : Option (List Cell) :=
  let value := Cell.ofValue m.isQuoted
  match name with
  | ['@'] => some (s.allArguments m true)
  | ['*'] => some (s.allArguments m false)
  | ['#'] => some (value (digits s.arguments.length))
  | ['?'] => some (value (digits s.status))
  | ['$'] => some (value (digits Session.processNumber))
  | ['-'] => some (value s.optionText)
  | ['!'] => none
  | _ =>
    if name.all Char.isDigit then
      match Nat.ofDigitChars 10 name 0 with
      | 0 => some (value s.name)
      | n + 1 => s.arguments[n]?.map value
    else (s.lookup? name).map value

/-- A value that counts as one: with `evenEmpty` only if it has characters. -/
def present? (evenEmpty : Bool) (cells : Option (List Cell)) : Option (List Cell) :=
  cells.filter fun v => !evenEmpty || v.any (· != .mark)

/-- The value of a parameter, or nothing if none is needed. -/
def Action.parameter (m : Manner) (name : List Char) : Action (List Cell) := do
  let s ← get
  match s.parameter? m name with
  | some v => return v
  | none =>
    if s.refusesUnset then Action.fail (name ++ ofText ": parameter not set") else return []

/-! ### Words -/

/-- The output of a substituted script, without the line ends at its end. -/
def substitute (run : Runner) (line : Nat) (script : List Char) : Action (List Char) := do
  let (output, status) ← Action.capture (run false (some line) script)
  modify fun s => { s with substituted := status }
  return ((output.filter (· != '\x00')).reverse.dropWhile (· == '\n')).reverse

section
variable (run : Runner)

mutual

/-- The cells of a word. -/
def expandPieces (m : Manner) : List Piece → Action (List Cell)
  | [] => return []
  | p :: ps => do
    let cells ← expandPiece m p
    return cells ++ (← expandPieces m ps)

/-- The cells of a piece. -/
def expandPiece (m : Manner) : Piece → Action (List Cell)
  | .text cs quoted =>
    return if cs.isEmpty then [.mark]
      else cs.map fun c => .char c (m.isOpen && !m.isQuoted && !quoted) (!quoted)
  | .command script line quoted => do
    return Cell.ofValue (m.isQuoted || quoted) (← substitute run line script)
  | .arithmetic term quoted => do
    let term := Cell.text (← expandPieces {} term)
    return Cell.ofValue (m.isQuoted || quoted) (Arithmetic.text (← Arithmetic.eval term))
  | .param name op argument quoted => do
    let m := { m with isQuoted := m.isQuoted || quoted }
    let value := (← get).parameter? m name
    match op with
    | .value => Action.parameter m name
    | .length =>
      let value ← Action.parameter m name
      return Cell.ofValue m.isQuoted (digits (value.filter (· != .mark)).length)
    | .orElse evenEmpty =>
      match present? evenEmpty value with
      | some v => return v
      | none => expandPieces { m with isOpen := true } argument
    | .ifSet evenEmpty =>
      match present? evenEmpty value with
      | some _ => expandPieces { m with isOpen := true } argument
      | none => return []
    | .orAssign evenEmpty =>
      match present? evenEmpty value with
      | some v => return v
      | none =>
        let v := Cell.text (← expandPieces {} argument)
        Action.assign name v
        Action.parameter m name
    | .orFail evenEmpty =>
      match present? evenEmpty value with
      | some v => return v
      | none =>
        let message := Cell.text (← expandPieces {} argument)
        let plain := "parameter not set" ++ if evenEmpty then " or null" else ""
        Action.fail (name ++ ofText ": " ++ if argument.isEmpty then ofText plain else message)
    | .dropFront longest =>
      let value ← Action.parameter m name
      let as := Pattern.atoms 0 (Cell.signs (← expandPieces {} argument))
      return value.drop ((Pattern.frontLength? longest as (Cell.text value)).getD 0)
    | .dropBack longest =>
      let value ← Action.parameter m name
      let as := Pattern.atoms 0 (Cell.signs (← expandPieces {} argument))
      return value.take ((Pattern.backStart? longest as (Cell.text value)).getD value.length)
    | .unknown => Action.fail (ofText "Bad substitution")

end

/-- The fields of a word. -/
def expandFields (w : Word) : Action (List (List Char)) := do
  let cells ← expandPieces run { isFull := true } (Word.withHome false w)
  let s ← get
  return (Fields.ofCells s.separators cells).flatMap s.filesOf

/-- The fields of some words. -/
def expandWords : List Word → Action (List (List Char))
  | [] => return []
  | w :: ws => do
    let fields ← expandFields run w
    return fields ++ (← expandWords ws)

/-- A word as one text. -/
def expandText (w : Word) : Action (List Char) := do
  return Cell.text (← expandPieces run {} (Word.withHome false w))

/-- The value of an assignment. -/
def expandValue (w : Word) : Action (List Char) := do
  return Cell.text (← expandPieces run {} (Word.withHome true (Word.withHomes w)))

/-- A word as a pattern. -/
def expandPattern (w : Word) : Action (List PatternSign) := do
  return Cell.signs (← expandPieces run {} (Word.withHome false w))

/-- A text below a command. -/
def expandDocument (w : Word) : Action (List Char) := do
  return Cell.text (← expandPieces run { isQuoted := true } w)

end

end CommandChain.Shell
