import CommandChain.Expr.Eval
import CommandChain.Shell.Program
import CommandChain.Step.Capability

/-!
# Answers of a step

Whatever runs a step answers with a value or a failure. A failing capability still hands over its
result. A program that succeeds answers with what it wrote, and one that fails says why on its other
stream. -/

namespace CommandChain

/-- The message of a failure that has none. -/
def defaultMessage : String := "Chain execution stopped"

/-- Why a run fails. -/
inductive RunError where
  /-- A command in brackets names no function. -/
  | unresolved (command : String)
  /-- A step failed. -/
  | step (message : String)
  /-- A step raised the error flag. -/
  | raised (message : String)
deriving Repr, DecidableEq

/-- The wording of an error. -/
def RunError.message : RunError → String
  | .unresolved command => "Cannot get executable function from: " ++ command
  | .step message => message
  | .raised message => message

/-- A failed step, and the value that it left nevertheless. -/
structure StepFailure where
  error : RunError
  output : Option Json := none
deriving Repr

/-- The answer of a step, and what a program complained about although it succeeded. -/
structure Answer where
  result : Except StepFailure Json
  warning : Option String := none

namespace Answer

/-- A failure that leaves no value. -/
def failed (message : String) : Answer := ⟨.error { error := .step message }, none⟩

/-- The answer of a capability. -/
def ofOutput (o : CapabilityOutput) : Answer :=
  if o.isSuccess then ⟨.ok o.value, none⟩
  else ⟨.error ⟨.step (o.message?.getD defaultMessage), some o.value⟩, none⟩

/-- The answer of an expression. -/
def ofExpr (w : Wording) (r : Except Expr.Error Json) : Answer :=
  match r with
  | .ok v => ⟨.ok v, none⟩
  | .error e => failed (e.message w)

/-- The message of a script that failed: its complaint or else how it ended. -/
def failureMessage (ending : Shell.Ending) (complaint : String) : String :=
  if !complaint.isEmpty then complaint
  else
    match ending with
    | .status n => "Command exited with status " ++ toString n
    | .signal => "Command terminated by signal"

/-- The answer of a script. -/
def ofScript (o : Shell.Outcome) : Answer :=
  let stderr := Text.decode o.stderr
  let complaint := Text.trimmed stderr
  if o.ending = .status 0 then
    { result := .ok (.str (Text.decode o.stdout)),
      warning := if complaint.isEmpty then none else some (Text.trimmedEnd stderr) }
  else failed (failureMessage o.ending complaint)

/-- The answer of a plugin. -/
def ofPlugin (o : Shell.Outcome) : Answer :=
  let complaint := Text.trimmed (Text.decode o.stderr)
  ofOutput
    { result := some (.str (Text.decode o.stdout))
      success := some (o.ending = .status 0)
      message := if complaint.isEmpty then none else some complaint }

end Answer

end CommandChain
