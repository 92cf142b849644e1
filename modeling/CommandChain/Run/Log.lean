import CommandChain.Run.Listing
import CommandChain.Run.Task

/-!
# The log of a run

What a run makes known is logged. Conditions that have no value, complaints of successful scripts
and failures are logged always, the beginning and the end of every step only by a run that reports
its steps. -/

namespace CommandChain

/-- How grave an entry is. -/
inductive LogLevel where
  | info
  | warn
  | error
deriving Repr, DecidableEq

/-- The name of a level. -/
def LogLevel.name : LogLevel → String
  | .info => "INFO"
  | .warn => "WARN"
  | .error => "ERROR"

/-- An entry of a log. A step is known by its description. -/
inductive LogEntry where
  | noCondition (condition message : String)
  | complaint (stderr script : String)
  | stepStarted (step : String)
  | stepEnded (step : String)
  | stateAfter (step listing : String)
  | stepFailed (step : String)
  | stepMessage (message : String)
  | flagRaised
  | flagMessage (message : String)
  | flagCommand (step : String)
  | runFailed (message : String)
  | refused (message : String)
deriving Repr, DecidableEq

namespace LogEntry

/-- How grave an entry is. -/
def level : LogEntry → LogLevel
  | .stepStarted _ | .stepEnded _ | .stateAfter .. => .info
  | .complaint .. => .warn
  | _ => .error

/-- The text of an entry that is made at a given time. -/
def text (time : String) : LogEntry → String
  | .noCondition .. => "Condition evaluation failed, treating as false"
  | .complaint stderr _ => stderr
  | .stepStarted step => "[INFO] START PROCESS " ++ time ++ " : " ++ step
  | .stepEnded step => "[INFO] END PROCESS " ++ time ++ " : " ++ step
  | .stateAfter step listing => "[INFO] STATE AFTER PROCESS : " ++ step ++ "\n" ++ listing
  | .stepFailed step => "[ERROR] Failed to execute: " ++ step
  | .stepMessage message => "[ERROR] MESSAGE : " ++ message
  | .flagRaised => "[ERROR] ERROR CONDITION DETECTED : _error=true"
  | .flagMessage message => "[ERROR] ERROR MESSAGE : " ++ message
  | .flagCommand step => "[ERROR] COMMAND : " ++ step
  | .runFailed message => "[ERROR] Chain execution failed: " ++ message
  | .refused message => message

/-- The named values beside the text of an entry. -/
def fields : LogEntry → List (String × String)
  | .noCondition condition message => [("condition", condition), ("error", message)]
  | .complaint _ script => [("command", script)]
  | _ => []

end LogEntry

/-- The most characters of a description. -/
def descriptionLimit : Nat := 500

/-- A step as it is logged. -/
def logName (command : String) (params : List Json) : String :=
  Text.truncate (Step.describe command params) descriptionLimit

namespace Event

/-- The entries about the error flag after a step. -/
def flagEntries (step : String) (s : Store) : List LogEntry :=
  if s.errorRaised then
    [.flagRaised, .flagMessage (s.raisedMessage?.getD defaultMessage), .flagCommand step]
  else []

/-- The entries of an event, in a run that reports its steps or not. -/
def entries (w : Wording) (verbose : Bool) : Event → List LogEntry
  | .checked _ (.ok _) => []
  | .checked condition (.error e) => [.noCondition condition (e.message w)]
  | .started command params => if verbose then [.stepStarted (logName command params)] else []
  | .ended command params answer s =>
    let step := logName command params
    match answer.result with
    | .error f => [.stepFailed step, .stepMessage f.error.message]
    | .ok _ =>
      (answer.warning.toList.map (.complaint · (Step.script command params))) ++
        (if verbose then [.stepEnded step, .stateAfter step (Listing.ofMembers s.vars)] else []) ++
        flagEntries step s

end Event

end CommandChain
