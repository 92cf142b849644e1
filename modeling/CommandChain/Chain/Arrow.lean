import CommandChain.Text.Blank
import CommandChain.Text.Quoted

/-!
# Arrow notation

A command may name its inputs and its result around arrows:

* `ins --> out` collects the inputs;
* `ins -> command -> out` names both, `(ins) -> command` the inputs and `command -> out` the result.

An arrow counts only outside brackets and quotes. The parts of the short arrow are trimmed and lose
one pair of quotation marks. -/

namespace CommandChain

/-- The command that hands on its only input, or the list of its inputs. -/
def collectCommand : String := "(...args) => args.length == 1 ? args[0] : args"

/-- A command taken apart at its arrows. -/
structure Arrow where
  ins : Option (List Char)
  command : List Char
  out : Option (List Char)
deriving Repr, DecidableEq

namespace Arrow

/-- A part of the short arrow. -/
def part (t : List Char) : List Char := Text.unquote (Text.trim t)

/-- The text begins with an opening parenthesis and ends with a closing one. -/
def isParenthesized (t : List Char) : Bool := t.head? == some '(' && t.getLast? == some ')'

/-- Take a command apart. A text with no arrow, or with too many, is a command as it stands. -/
def ofChars (t : List Char) : Arrow :=
  match Text.splitTop ['-', '-', '>'] t with
  | [ins, out] => ⟨some ins, [], some (Text.trim out)⟩
  | _ =>
    match (Text.splitTop ['-', '>'] t).map part with
    | [ins, command, out] => ⟨some ins, command, some out⟩
    | [a, b] => if isParenthesized a then ⟨some a, b, none⟩ else ⟨none, a, some b⟩
    | _ => ⟨none, t, none⟩

/-- The command of an arrow; one that is left out collects. -/
def commandText (a : Arrow) : String :=
  if a.command.isEmpty then collectCommand else String.ofList a.command

end Arrow

/-- The text without its first character and its last closing parenthesis, if it begins with an
opening one and has a closing one. -/
def stripParentheses (t : List Char) : List Char :=
  match t with
  | '(' :: rest => if rest.contains ')' then (rest.reverse.erase ')').reverse else t
  | _ => t

/-- The input tokens of a list with commas, perhaps in parentheses. -/
def splitIns (t : List Char) : List String :=
  let tokens := (Text.splitTop [','] (stripParentheses (Text.trim t))).map Text.trim
  (tokens.filter (!·.isEmpty)).map String.ofList

end CommandChain
