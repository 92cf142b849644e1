import CommandChain.Expr.Eval
import CommandChain.Store.Basic

/-!
# Conditions

A condition is an expression over the variables of the store that its text mentions. It holds when
its value counts as true; a condition that has no value does not hold. -/

namespace CommandChain.Condition

/-- The characters of a mentioned name. -/
def isNameChar (c : Char) : Bool := c.isAlphanum || c == '_' || c == '-'

/-- The longest runs of name characters in a text. -/
def runs (cs : List Char) : List (List Char) :=
  (Text.fields ' ' (cs.map fun c => if isNameChar c then c else ' ')).filter (!·.isEmpty)

/-- A run, and the pieces of it between hyphens if it has any. -/
def pieces (run : List Char) : List (List Char) :=
  if run.contains '-' then run :: (Text.fields '-' run).filter (!·.isEmpty) else [run]

/-- The names that a text mentions. -/
def mentioned (t : String) : List String := ((runs t.toList).flatMap pieces).map String.ofList

/-- The variables of a store that a text mentions. -/
def scope (t : String) (s : Store) : Scope :=
  (mentioned t).filterMap fun name => (Members.get? name s.vars).map fun v => (name, .ofJson v)

/-- Whether the value of a condition counts as true. -/
def check (t : String) (s : Store) : Except Expr.Error Bool :=
  (Expr.evaluate t (scope t s)).map Value.isTruthy

/-- The condition has a value and it counts as true. -/
def holds (t : String) (s : Store) : Bool := (check t s).toOption.getD false

end CommandChain.Condition
