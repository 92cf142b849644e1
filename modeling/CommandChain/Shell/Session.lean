import CommandChain.Files
import CommandChain.Shell.Word

/-!
# The state of a shell

A session holds what a script can read and change: variables, the directory it stands in, the files,
what is left of its input, and what it has written. Time passes only where a script sleeps.

An `Action` changes a session. It may be interrupted: the session keeps all that was done before. -/

namespace CommandChain.Shell

/-- The bytes of a text, each as a character below 256. -/
def ofText (t : String) : List Char := (Text.encode t).map fun b => Char.ofNat b.toNat

/-- The bytes as characters below 256. -/
def ofBytes (bs : List UInt8) : List Char := bs.map fun b => Char.ofNat b.toNat

/-- Characters below 256 as bytes. -/
def toBytes (cs : List Char) : List UInt8 := cs.map fun c => UInt8.ofNat c.toNat

/-- Characters below 256 as a text. -/
def toText (cs : List Char) : String := Text.decode (toBytes cs)

/-- A number in decimal digits. -/
def digits (n : Nat) : List Char := Nat.toDigits 10 n

/-- Where a stream goes. -/
inductive Target where
  | stdout
  | stderr
  | file (place : Path)
  | closed
deriving Repr, DecidableEq

/-- How a program ends. -/
inductive Ending where
  | status (n : Nat)
  | signal
deriving Repr, DecidableEq

/-- The script of a function, and the line on which it begins. -/
structure Routine where
  script : List Char
  line : Nat
deriving Repr

/-- A running script. -/
structure Session where
  /-- The name of the script. -/
  name : List Char
  /-- The line of the command that runs. -/
  line : Nat := 1
  /-- The line up to which the script was read. -/
  reached : Nat := 1
  /-- There is a script with lines; a program that runs alone has none. -/
  hasLines : Bool := true
  /-- The builtin command that runs. -/
  speaker : Option (List Char) := none
  arguments : List (List Char) := []
  /-- The variables. -/
  bindings : List (List Char × List Char) := []
  /-- The variables that a program started by the script sees. -/
  exported : List (List Char) := []
  /-- The variables that keep their values. -/
  frozen : List (List Char) := []
  functions : List (List Char × Routine) := []
  /-- How many functions run inside each other. -/
  depth : Nat := 0
  /-- What the variables of the running function were before. -/
  shadowed : Option (List (List Char × Option (List Char))) := none
  /-- The texts below commands. -/
  documents : List (Nat × Word) := []
  /-- How many loops run inside each other. -/
  loops : Nat := 0
  /-- The exit status of the last command. -/
  status : Nat := 0
  /-- The exit status of the last substituted script. -/
  substituted : Nat := 0
  /-- The directory that the script stands in. -/
  here : Path
  files : Files
  stdin : List Char := []
  /-- Why there is no input, if it cannot be read. -/
  stdinFault : Option String := none
  /-- Something was written to a stream that is closed. -/
  hasLost : Bool := false
  /-- What was written, the last character first. -/
  stdout : List Char := []
  stderr : List Char := []
  /-- Where the streams from 1 on go. -/
  streams : List (Nat × Target) := [(1, .stdout), (2, .stderr)]
  /-- The letters of the options that are on. -/
  options : List Char := []
  /-- The time passed, in nanoseconds. -/
  elapsed : Nat := 0

/-- Why a script does not go on. -/
inductive Interrupt where
  /-- The script has ended. -/
  | ending (e : Ending)
  /-- There was a complaint. -/
  | fault
  /-- So many loops are left. -/
  | leaveLoops (n : Nat)
  /-- So many loops less one are left, and the next one goes on with its next round. -/
  | nextRound (n : Nat)
  /-- The running function or file is left. -/
  | leaveScript
deriving Repr, DecidableEq

namespace Session

/-- The number of every process. -/
def processNumber : Nat := 4242

/-- Set the exit status. -/
def exitWith (s : Session) (n : Nat) : Session := { s with status := n }

/-- Where a stream goes. -/
def target (s : Session) (stream : Nat) : Target := (s.streams.lookup stream).getD .closed

/-- Take the input from a text. -/
def setInput (s : Session) (cs : List Char) : Session := { s with stdin := cs, stdinFault := none }

/-- Turn a stream to a target. -/
def setStream (s : Session) (stream : Nat) (t : Target) : Session :=
  { s with streams := (stream, t) :: s.streams.filter (·.1 != stream) }

/-- Write to a stream. -/
def write (s : Session) (stream : Nat) (cs : List Char) : Session :=
  match s.target stream with
  | .stdout => { s with stdout := cs.reverse ++ s.stdout }
  | .stderr => { s with stderr := cs.reverse ++ s.stderr }
  | .closed => if cs.isEmpty then s else { s with hasLost := true }
  | .file p =>
    match s.files.find? p with
    | some (.file content isExecutable) =>
      { s with files := s.files.put p (.file (content ++ toBytes cs) isExecutable) }
    | _ => s

/-- The front of a complaint: the name of the script, the line if it has lines, and the builtin
command that runs. -/
def complaintFront (s : Session) : List Char :=
  s.name ++ ofText ": " ++ (if s.hasLines then digits s.line ++ ofText ": " else []) ++
    match s.speaker with
    | some speaker => speaker ++ ofText ": "
    | none => []

/-- Complain. -/
def complain (s : Session) (message : List Char) : Session :=
  s.write 2 (s.complaintFront ++ message ++ ['\n'])

/-- Set a variable. -/
def assign (s : Session) (name value : List Char) : Session :=
  { s with bindings := (name, value) :: s.bindings.filter (·.1 != name) }

/-- Forget a variable. -/
def unset (s : Session) (name : List Char) : Session :=
  { s with
    bindings := s.bindings.filter (·.1 != name)
    exported := s.exported.filter (· != name) }

/-- Give a variable the value that it had, if it had one. -/
def restore (s : Session) (name : List Char) (value : Option (List Char)) : Session :=
  match value with
  | some v => s.assign name v
  | none => { s with bindings := s.bindings.filter (·.1 != name) }

/-- The value of a variable. -/
def lookup? (s : Session) (name : List Char) : Option (List Char) := s.bindings.lookup name

/-- The characters that split the value of a parameter. -/
def separators (s : Session) : List Char := (s.lookup? ['I', 'F', 'S']).getD [' ', '\t', '\n']

/-- The letters of all options, in the order in which they are shown. -/
def optionLetters : List Char := "ubaCEVvxsnmiIfe".toList

/-- The letters of the options that are on. -/
def optionText (s : Session) : List Char := optionLetters.filter s.options.contains

/-- Turn an option on or off. -/
def setOption (s : Session) (isOn : Bool) (letter : Char) : Session :=
  let others := s.options.filter (· != letter)
  { s with options := if isOn then letter :: others else others }

/-- A failing command ends the script. -/
def stopsOnFailure (s : Session) : Bool := s.options.contains 'e'

/-- A parameter that is not set has no value. -/
def refusesUnset (s : Session) : Bool := s.options.contains 'u'

/-- Patterns are not replaced by the files that they fit. -/
def keepsPatterns (s : Session) : Bool := s.options.contains 'f'

/-- Commands are shown before they run. -/
def showsCommands (s : Session) : Bool := s.options.contains 'x'

/-- The path as the files know it. -/
def locate (s : Session) (t : List Char) : Except FileFault Path :=
  s.files.locate s.here.text (toText t)

/-- What a path names. -/
def find? (s : Session) (t : List Char) : Option FileEntry :=
  match s.locate t with
  | .ok p => s.files.find? p
  | .error _ => none

/-- The content of a file. -/
def contentOf (s : Session) (t : List Char) : Except FileFault (List Char) :=
  (s.files.read s.here.text (toText t)).map ofBytes

end Session

/-- What a script does to a session. -/
abbrev Action := ExceptT Interrupt (StateM Session)

/-- What runs a script inside another one: whether a failure of it is looked at, the line on which
it begins if it is a part of the other one, and its text. -/
abbrev Runner := Bool → Option Nat → List Char → Action Unit

namespace Action

/-- Set the exit status. -/
def exitWith (n : Nat) : Action Unit := modify (·.exitWith n)

/-- Write to a stream. -/
def write (stream : Nat) (cs : List Char) : Action Unit := modify (·.write stream cs)

/-- Complain, and go on with an exit status. -/
def complain (n : Nat) (message : List Char) : Action Unit :=
  modify fun s => (s.complain message).exitWith n

/-- Complain and go no further. -/
def fail {α : Type} (message : List Char) : Action α := do
  complain 2 message
  throw .fault

/-- Set a variable. -/
def assign (name value : List Char) : Action Unit := do
  if !isName name then fail (name ++ ofText ": bad variable name")
  else if (← get).frozen.contains name then fail (name ++ ofText ": is read only")
  else modify fun s =>
    { s.assign name value with
      exported := if s.options.contains 'a' then name :: s.exported else s.exported }

/-- The exit status behind an interrupt. -/
def statusOf (i : Interrupt) (s : Session) : Nat :=
  match i with
  | .ending (.status n) => n
  | .fault => 2
  | _ => s.status

/-- Do something in a session of its own: files, input, output and time go on, and only the exit
status tells what happened. A signal reaches the session around it. -/
def apart (enter : Session → Session) (a : Action Unit) : Action Unit := do
  let outer ← get
  let (result, inner) := (ExceptT.run a).run { enter outer with reached := 1 }
  let status :=
    match result with
    | .ok () => inner.status
    | .error i => statusOf i inner
  set { outer with
    files := inner.files, stdin := inner.stdin, stdout := inner.stdout, stderr := inner.stderr
    elapsed := inner.elapsed, status }
  match result with
  | .error (.ending .signal) => throw (.ending .signal)
  | _ => return

/-- Do something in a session of its own whose output is kept: the output and the exit status. -/
def capture (a : Action Unit) : Action (List Char × Nat) := do
  let outer ← get
  apart (fun s => ({ s with stdout := [] } : Session).setStream 1 .stdout) a
  let inner ← get
  set { inner with stdout := outer.stdout, status := outer.status }
  return (inner.stdout.reverse, inner.status)

/-- Do something, and put a part of the session back to what it was before, whatever happened. -/
def restoring (restore : Session → Session → Session) (a : Action Unit) : Action Unit := do
  let outer ← get
  let (result, inner) := (ExceptT.run a).run outer
  set (restore outer inner)
  match result with
  | .ok () => return
  | .error i => throw i

end Action

end CommandChain.Shell
