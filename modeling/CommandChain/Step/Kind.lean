import CommandChain.Store.Basic

/-!
# Kinds of steps

The shape of a command says what runs it: `[name path]` is a capability, a command with an arrow in
it is an expression, and anything else is a script of the shell. The kind also decides how
parameters are written behind the command. -/

namespace CommandChain

/-- What runs a step. -/
inductive StepKind where
  | capability
  | expression
  | shell
deriving Repr, DecidableEq

namespace StepKind

/-- A text with another one in it. -/
def hasInfix (part : List Char) : List Char → Bool
  | [] => part.isEmpty
  | c :: cs => part.isPrefixOf (c :: cs) || hasInfix part cs

/-- The text begins with an opening bracket and ends with a closing one. -/
def isBracketed (command : List Char) : Bool :=
  command.head? == some '[' && command.getLast? == some ']'

/-- The kind of a command. -/
def ofCommand (command : String) : StepKind :=
  if isBracketed command.toList then .capability
  else if hasInfix ['=', '>'] command.toList then .expression
  else .shell

/-- The name of a kind. -/
def name : StepKind → String
  | .capability => "capability"
  | .expression => "expression"
  | .shell => "shell"

/-- A parameter as it is written behind a command: JSON text, which the shell wants between double
quotes. -/
def render (kind : StepKind) (v : Json) : String :=
  match kind with
  | .shell => if Text.isQuoted v.text then v.text else Text.quoteText v.text
  | .capability | .expression => v.text

end StepKind

namespace Step

/-- The values of the input tokens of a step. -/
def params (ins : List String) (s : Store) : List Json := ins.map s.literal

/-- The script that the shell runs for a command and its parameters. -/
def script (command : String) (params : List Json) : String :=
  String.intercalate " " (command :: params.map StepKind.shell.render)

/-- A step as it is logged. -/
def describe (command : String) (params : List Json) : String :=
  match StepKind.ofCommand command with
  | .capability => command ++ " " ++ (Json.arr params).text
  | .expression =>
    "(" ++ command ++ ")(" ++
      String.intercalate ", " (params.map StepKind.expression.render) ++ ")"
  | .shell => script command params

end Step

end CommandChain
