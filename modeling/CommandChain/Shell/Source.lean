import CommandChain.Shell.Token

/-!
# The text of a script

A `Source` is what is left to be read of a script, with the line that was reached. A backslash at
the end of a line joins it to the next one, except where characters are taken as they stand. -/

namespace CommandChain.Shell

/-- A text below a command that is still to come: its number, the line that ends it, whether it is
taken as it stands, and whether tabulators are stripped from the front of its lines. -/
structure Awaited where
  number : Nat
  mark : List Char
  isPlain : Bool
  stripTabs : Bool
deriving Repr

/-- What is left of a script. -/
structure Source where
  text : List Char
  line : Nat := 1
  /-- A token that was read and put back. -/
  pushed : Option Token := none
  /-- The text from the last token on. -/
  before : List Char := text
  awaited : List Awaited := []
  /-- The texts that were read below commands. -/
  documents : List (Nat × Word) := []
  /-- How many texts below commands were announced. -/
  announced : Nat := 0
deriving Repr

namespace Source

/-- The first character, beyond the joints of lines, with what follows and the line that is
reached. -/
def front? : List Char → Nat → Option (Char × List Char × Nat)
  | [], _ => none
  | '\\' :: '\n' :: cs, line => front? cs (line + 1)
  | c :: cs, line => some (c, cs, if c == '\n' then line + 1 else line)

/-- The text without blanks, joints of lines and a comment at its front, and the line. -/
def skipBlanks : List Char → Nat → List Char × Nat
  | [], line => ([], line)
  | '\\' :: '\n' :: cs, line => skipBlanks cs (line + 1)
  | c :: cs, line =>
    if isBlank c then skipBlanks cs line
    else if c == '#' then (cs.dropWhile (· != '\n'), line)
    else (c :: cs, line)

/-- The lines of a text below a command, up to the line that ends it: the text, the lines behind it
and the number of lines that were read. A line behind a joint ends nothing. -/
def takeDocument (a : Awaited) (isJoined : Bool) :
    List (List Char) → List Char × List (List Char) × Nat
  | [] => ([], [], 0)
  | l :: ls =>
    let l := if a.stripTabs then l.dropWhile (· == '\t') else l
    if !isJoined && l == a.mark then ([], ls, 1)
    else if ls.isEmpty then (l, [], 0)
    else
      let joins := !a.isPlain && (l.reverse.takeWhile (· == '\\')).length % 2 == 1
      let (body, rest, n) := takeDocument a joins ls
      (l ++ '\n' :: body, rest, n + 1)

end Source

/-- A reader of scripts: it stops at the first fault, which it tells with its line. -/
abbrev Reader := StateT Source (Except (ScriptFault × Nat))

namespace Reader

/-- A fault on the line that was reached. -/
def fail {α : Type} (f : ScriptFault) : Reader α := do throw (f, (← get).line)

/-- A token does not fit. -/
def unexpected {α : Type} (t : Token) (expected : Option Token) : Reader α :=
  fail (.unexpected t.name (expected.map Token.name))

/-- The next character; joints of lines are passed over. -/
def next : Reader (Option Char) :=
  modifyGet fun s =>
    match Source.front? s.text s.line with
    | some (c, text, line) => (some c, { s with text, line })
    | none => (none, { s with text := [] })

/-- The next character as it stands. -/
def nextPlain : Reader (Option Char) :=
  modifyGet fun s =>
    match s.text with
    | c :: text => (some c, { s with text, line := if c == '\n' then s.line + 1 else s.line })
    | [] => (none, s)

/-- The next character if it is the given one. -/
def take (c : Char) : Reader Bool := do
  let s ← get
  if (← next) = some c then return true
  else
    set s
    return false

/-- The characters of a class at the front; `fuel` bounds their number. -/
def takeWhile (p : Char → Bool) : Nat → Reader (List Char)
  | 0 => return []
  | fuel + 1 => do
    let s ← get
    match ← next with
    | some c =>
      if p c then return c :: (← takeWhile p fuel)
      else
        set s
        return []
    | none => return []

/-- Put a token back. -/
def push (t : Token) : Reader Unit := modify fun s => { s with pushed := some t }

/-- The text between an earlier place and the last token. -/
def textSince (start : Source) : Reader (List Char) := do
  return start.text.take (start.text.length - (← get).before.length)

end Reader

end CommandChain.Shell
