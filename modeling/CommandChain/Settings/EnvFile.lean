import CommandChain.Files
import CommandChain.Members
import CommandChain.Text.Blank

/-!
# Environments and environment files

An environment gives texts to names. A file `.env`, in the working directory or the nearest one
above it, gives more of them, one assignment a line. It never changes a name that is in the
environment already, and a line with a fault ends it: what stands before that line holds
nevertheless. -/

namespace CommandChain

/-- The environment in which a program is started. -/
abbrev Environment := Members String

namespace EnvFile

/-! ### Lines -/

/-- Where a scan of a line stands. -/
inductive LineScan where
  | plain
  /-- Behind a blank, where a comment may begin. -/
  | blank
  /-- Behind a backslash. -/
  | escape
  | quoted (mark : Char)
  | quotedEscape (mark : Char)
  | comment
deriving Repr, DecidableEq

namespace LineScan

/-- One more character behind a blank or a character of a plain text. -/
def bare (c : Char) (other : LineScan) : LineScan :=
  if c == '\\' then .escape else if c == '"' || c == '\'' then .quoted c else other

/-- One more character. -/
def next : LineScan → Char → LineScan
  | .plain, c => if Text.isBlank c && c != '\n' && c != '\r' then .blank else bare c .plain
  | .blank, c => if c == '#' then .comment else bare c .plain
  | .escape, _ => .plain
  | .quoted mark, c =>
    if c == '\\' then .quotedEscape mark else if c == mark then .plain else .quoted mark
  | .quotedEscape mark, _ => .quoted mark
  | .comment, _ => .comment

end LineScan

/-- Scan a line: its characters before a comment, and where the scan ends. -/
def scanLine (s : LineScan) : List Char → List Char × LineScan
  | [] => ([], s)
  | c :: cs =>
    if s.next c = .comment then ([], .comment)
    else
      let (t, e) := scanLine (s.next c) cs
      (c :: t, e)

/-- The line without the line break at its end. -/
def dropBreak (line : List Char) : List Char :=
  match line.reverse with
  | '\n' :: '\r' :: cs => cs.reverse
  | '\n' :: cs => cs.reverse
  | _ => line

/-- The lines of a text, each with its line break. -/
def physicalLines : List Char → List (List Char)
  | [] => []
  | c :: cs =>
    if c == '\n' then [c] :: physicalLines cs
    else
      match physicalLines cs with
      | [] => [[c]]
      | l :: ls => (c :: l) :: ls

/-- Join the lines over which a quotation goes on, and drop comments. What was read of the line at
work is given. A line that does not end is none. -/
def joinLines (read : List Char) (s : LineScan) : List (List Char) → List (Option (List Char))
  | [] => if s = .plain then [] else [none]
  | l :: ls =>
    if (Text.trimStart (read ++ l)).head? == some '#' then some [] :: joinLines [] .plain ls
    else
      match scanLine s l with
      | (t, .comment) => some (read ++ t) :: joinLines [] .plain ls
      | (t, .plain) => some (dropBreak (read ++ t)) :: joinLines [] .plain ls
      | (t, s) => joinLines (read ++ t) s ls

/-! ### Values -/

/-- Where a scan of a value stands; some places may lie between double marks. -/
inductive ValueScan where
  | text (isDouble : Bool)
  | escape (isDouble : Bool)
  | single
  /-- In a name after a dollar sign; its characters are given in reverse. -/
  | name (isDouble : Bool) (read : List Char)
  /-- In a name between braces; its characters are given in reverse. -/
  | braced (isDouble : Bool) (read : List Char)
  /-- Behind a blank, where only a comment may follow. -/
  | done
  | comment

/-- The value of a name, empty if it has none. -/
def nameValue (env : Environment) (read : List Char) : List Char :=
  ((Members.get? (String.ofList read.reverse) env).getD "").toList

/-- The character of an escape. -/
def escape? (c : Char) : Option Char :=
  if c == 'n' then some '\n'
  else if c == '\\' || c == '\'' || c == '"' || c == '$' || c == ' ' then some c
  else none

/-- One more character: where the scan stands, and the text that it yields. A mark behind a name
without braces is text. -/
def ValueScan.next (env : Environment) : ValueScan → Char → Option (ValueScan × List Char)
  | .text isDouble, c =>
    if c == '$' then some (.name isDouble [], [])
    else if c == '\\' then some (.escape isDouble, [])
    else if c == '"' then some (.text (!isDouble), [])
    else if isDouble then some (.text true, [c])
    else if c == '\'' then some (.single, [])
    else if c == ' ' || c == '\t' then some (.done, [])
    else some (.text false, [c])
  | .escape isDouble, c => (escape? c).map fun e => (.text isDouble, [e])
  | .single, c => if c == '\'' then some (.text false, []) else some (.single, [c])
  | .name isDouble read, c =>
    if c.isAlphanum then some (.name isDouble (c :: read), [])
    else if c == '\x7b' && read.isEmpty then some (.braced isDouble [], [])
    else if c == '$' then some (.name isDouble [], nameValue env read)
    else some (.text isDouble, nameValue env read ++ [c])
  | .braced isDouble read, c =>
    if c == '\x7d' then some (.text isDouble, nameValue env read)
    else some (.braced isDouble (c :: read), [])
  | .done, c =>
    if c == ' ' || c == '\t' then some (.done, [])
    else if c == '#' then some (.comment, []) else none
  | .comment, _ => some (.comment, [])

/-- The end of a value: what is left to yield; none within marks or braces. -/
def ValueScan.finish (env : Environment) : ValueScan → Option (List Char)
  | .name false read => some (nameValue env read)
  | .text false | .escape false | .done | .comment => some []
  | .text true | .escape true | .name true _ | .braced .. | .single => none

/-- The value that the rest of a line writes. -/
def valueFrom (env : Environment) (s : ValueScan) : List Char → Option (List Char)
  | [] => s.finish env
  | c :: cs => do
    let (s, t) ← s.next env c
    return t ++ (← valueFrom env s cs)

/-! ### Assignments -/

/-- The characters of a name behind the first. -/
def isNameChar (c : Char) : Bool := c.isAlphanum || c == '_' || c == '.'

/-- A name at the front, and the rest without blanks before it. -/
def readName? (cs : List Char) : Option (List Char × List Char) :=
  match cs with
  | [] => none
  | c :: _ =>
    if c.isAlpha || c == '_' then
      some (cs.takeWhile isNameChar, Text.trimStart (cs.dropWhile isNameChar))
    else none

/-- The name of an assignment and the rest behind its sign. The word `export` may stand before
it. -/
def readTarget? (cs : List Char) : Option (List Char × List Char) := do
  match ← readName? cs with
  | (name, '=' :: rest) => return (name, rest)
  | (word, rest) =>
    if word == ['e', 'x', 'p', 'o', 'r', 't'] then
      match ← readName? rest with
      | (name, '=' :: rest) => return (name, rest)
      | _ => none
    else none

/-- The assignment of a line, if there is one; none for a line with a fault. -/
def readLine? (env : Environment) (line : List Char) : Option (Option (String × String)) :=
  let cs := Text.trim line
  if cs.isEmpty || cs.head? == some '#' then some none
  else do
    let (name, rest) ← readTarget? cs
    let value := Text.trimStart rest
    let value ← if value.head? == some '#' then some [] else valueFrom env (.text false) value
    return some (String.ofList name, String.ofList value)

/-- Add the assignments of some lines up to the first fault. -/
def addLines (env : Environment) : List (Option (List Char)) → Environment
  | [] => env
  | none :: _ => env
  | some line :: lines =>
    match readLine? env line with
    | none => env
    | some none => addLines env lines
    | some (some (name, value)) =>
      addLines (if Members.contains name env then env else Members.insert name value env) lines

/-- Add the assignments of a text. -/
def add (t : String) (env : Environment) : Environment :=
  addLines env (joinLines [] .plain (physicalLines (Text.dropOrderMark t.toList)))

end EnvFile

/-- The file `.env` in a directory or the nearest one above it. -/
def Files.envFile? (fs : Files) (place : Path) : Option String :=
  ((List.range (place.length + 1)).reverse.findSome? fun n =>
    match fs.find? (place.take n ++ [".env"]) with
    | some (.file content _) => some content
    | _ => none).map Text.decode

/-- The environment with what the file `.env` adds to it, seen from the directory `here`. -/
def Environment.withFile (env : Environment) (fs : Files) (here : String) : Environment :=
  match fs.directory "/" here with
  | .ok place => ((fs.envFile? place).map fun t => EnvFile.add t env).getD env
  | .error _ => env

end CommandChain
