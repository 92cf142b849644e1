import CommandChain.Step.Answer
import CommandChain.Step.Kind

/-!
# Dispatch

A step is handed to what runs it. Expressions and registered capabilities answer at once; the shell
and plugins are programs, which take their time once they have started. -/

namespace CommandChain

/-- What is not up to a chain: how programs are started, and the words of the readers of texts. -/
structure Surroundings where
  launcher : Shell.Launcher := Shell.launch
  wording : Wording := {}

/-- What a run needs to run its steps. -/
structure Workshop extends Surroundings where
  registry : Registry := []
  shell : String := "sh"
  shellFlag : String := "-c"
  discovery : Discovery
  /-- The environment of the programs. -/
  environment : Members String := []
  /-- The directory from which the others are written. -/
  home : String := "/"

/-- The answer to a step: how long it takes, if it is a program, and the files after it. -/
structure Reply where
  answer : Answer
  duration : Option Nat := none
  files : Files

namespace Workshop

/-- A path as it is seen from the root. -/
def fromHome (w : Workshop) (path : String) : String :=
  if path.isEmpty then path else Files.join w.home path

/-- Start a program in the working directory. -/
def launch (w : Workshop) (files : Files) (program : String) (arguments : List String)
    (input : String) : Except FileFault Shell.Outcome :=
  w.launcher files w.environment (w.fromHome w.discovery.workingDirectory) program arguments
    (Text.encode input)

/-- Run a script. -/
def runScript (w : Workshop) (files : Files) (script : String) : Reply :=
  match w.launch files w.shell [w.shellFlag, script] "" with
  | .error fault =>
    { answer := .failed ("failed to execute " ++ w.shell ++ ": " ++ fault.message), files }
  | .ok o => { answer := .ofScript o, duration := some o.elapsed, files := o.files }

/-- Run a plugin, which reads its parameters as one JSON array. -/
def runPlugin (w : Workshop) (files : Files) (program : String) (arguments : List String)
    (params : List Json) : Reply :=
  match w.launch files program arguments (Json.arr params).text with
  | .error fault =>
    { answer := .ofOutput (.failed ("failed to spawn " ++ program ++ ": " ++ fault.message)),
      files }
  | .ok o => { answer := .ofPlugin o, duration := some o.elapsed, files := o.files }

/-- There is a file at a written path. -/
def isFile (w : Workshop) (files : Files) (path : String) : Bool :=
  (files.file? "/" (w.fromHome path)).isSome

/-- What a command in brackets resolves to. -/
def resolve? (w : Workshop) (files : Files) (command : String) : Option Callable :=
  (Reference.ofCommand? command).bind fun r =>
    r.resolve? w.registry w.discovery Files.join (w.isFile files)

/-- Run a step. -/
def dispatch (w : Workshop) (files : Files) (command : String) (params : List Json) : Reply :=
  match StepKind.ofCommand command with
  | .expression => { answer := .ofExpr w.wording (Expr.applyText command params), files }
  | .shell => w.runScript files (Step.script command params)
  | .capability =>
    match w.resolve? files command with
    | none => { answer := ⟨.error { error := .unresolved command }, none⟩, files }
    | some (.function call) => { answer := .ofOutput (call params), files }
    | some (.plugin program arguments) => w.runPlugin files program arguments params

end Workshop

end CommandChain
