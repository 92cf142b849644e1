import CommandChain.Members
import CommandChain.Shell.Run

/-!
# Programs

A program is a shell, a utility, or a file that may be run and begins with the path of a shell. It
is started in a directory with arguments and input, and hands back how it ended and what it
wrote. -/

namespace CommandChain.Shell

/-- What comes of a program. -/
structure Outcome where
  ending : Ending
  stdout : List UInt8
  stderr : List UInt8
  /-- The time it took, in nanoseconds. -/
  elapsed : Nat
  files : Files

/-- What starts a program, given the files, the environment, the directory, the name of the program,
its arguments and its input. -/
abbrev Launcher :=
  Files → Members String → String → String → List String → List UInt8 → Except FileFault Outcome

/-- The outcome of an action. -/
def outcome (a : Action Unit) (s : Session) : Outcome :=
  let (result, s) := (ExceptT.run a).run s
  { ending :=
      match result with
      | .ok () => .status s.status
      | .error (.ending e) => e
      | .error i => .status (Action.statusOf i s)
    stdout := toBytes s.stdout.reverse
    stderr := toBytes s.stderr.reverse
    elapsed := s.elapsed
    files := s.files }

/-- The interpreter in the first line of a file, and its options. -/
def interpreter? (content : List Char) : Option (String × Arguments) :=
  match content with
  | '#' :: '!' :: cs =>
    let line := cs.takeWhile (· != '\n')
    match (Text.fields ' ' line).filter (!·.isEmpty) with
    | name :: options => some (toText name, options)
    | [] => none
  | _ => none

/-- What runs a file as a program. -/
def fileProgram (s : Session) (program : String) (arguments : Arguments) :
    Except FileFault (Action Unit) :=
  match s.files.open? s.here.text program with
  | .error fault => .error fault
  | .ok (_, .directory) => .error .forbidden
  | .ok (_, .file content isExecutable) =>
    if !isExecutable then .error .forbidden
    else
      match interpreter? (ofBytes content) with
      | none => .error .notAProgram
      | some (shell, options) =>
        if shellNames.contains shell then
          .ok (startShell run (ofText shell) (options ++ ofText program :: arguments))
        else .error .missing

/-- Start a program in a directory. The environment is where its variables come from. -/
def launch : Launcher := fun files environment here program arguments input => do
  let place ← files.directory "/" here
  let name := ofText program
  let bindings := environment.map fun m => (ofText m.1, ofText m.2)
  let s : Session :=
    { name, line := 0, here := place, files, stdin := ofBytes input, bindings
      exported := bindings.map (·.1) }
  let arguments := arguments.map ofText
  if shellNames.contains program then return outcome (startShell run name arguments) s
  match program? name with
  | some u => return outcome (u arguments) s
  | none =>
    if program.toList.contains '/' then return outcome (← fileProgram s program arguments) s
    else throw .missing

end CommandChain.Shell
