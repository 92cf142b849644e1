import CommandChain.Shell.Builtin
import CommandChain.Shell.Reader

/-!
# Running scripts

Words are expanded, streams are redirected, and commands are run in the order that the script says.
Running a command follows its structure. Only a script inside a script, a substituted command, a
function or another file, starts anew, and there are at most `maxDepth` scripts inside each other. A
loop has at most `maxRounds` rounds. -/

namespace CommandChain.Shell

/-! ### Redirection -/

/-- Open a file for writing, empty or to append to it. -/
def openOutput (s : Session) (kind : RedirectKind) (t : List Char) :
    Except FileFault (Path × Files) := do
  let p ← s.locate t
  match s.files.find? p with
  | some .directory => throw .aDirectory
  | some (.file _ isExecutable) =>
    return (p, if kind = .output then s.files.put p (.file [] isExecutable) else s.files)
  | none =>
    if s.files.isDirectory p.dropLast then return (p, s.files.put p (.file [] false))
    else throw .missing

/-- A text that is one digit is the number of a stream. -/
def streamNumber? : List Char → Option Nat
  | [c] => if c.isDigit then some (c.toNat - 48) else none
  | _ => none

/-- Redirect a stream to its target; whether that succeeds. -/
def redirect (r : Redirect) (t : List Char) : Action Bool := do
  let s ← get
  let refuse (front reason : String) : Action Bool := do
    Action.complain 2 (ofText front ++ t ++ ofText reason)
    return false
  match r.kind with
  | .document _ =>
    set (s.setInput t)
    return true
  | .input =>
    match s.contentOf t with
    | .ok content =>
      set (s.setInput content)
      return true
    | .error .aDirectory =>
      set { s with stdin := [], stdinFault := some (faultText .aDirectory) }
      return true
    | .error _ => refuse "cannot open " ": No such file"
  | .duplicate =>
    match streamNumber? t with
    | none =>
      set (if r.stream = 0 then { s with stdin := [], stdinFault := some "Bad file descriptor" }
        else s.setStream r.stream .closed)
      return true
    | some n =>
      if n = 0 || r.stream = 0 then return true
      else if s.target n = .closed then
        -- The stream is already closed when the complaint is written.
        set (s.setStream r.stream .closed)
        refuse "" ": Bad file descriptor"
      else
        set (s.setStream r.stream (s.target n))
        return true
  | kind =>
    let isTaken : Bool :=
      match s.find? t with
      | some (.file ..) => kind = .output && s.options.contains 'C'
      | _ => false
    if isTaken then refuse "cannot create " ": File exists"
    else
      match openOutput s kind t with
      | .ok (p, files) =>
        set ({ s with files }.setStream r.stream (.file p))
        return true
      | .error .aDirectory => refuse "cannot create " ": Is a directory"
      | .error _ => refuse "cannot create " ": Directory nonexistent"

/-- Redirect streams up to the first that fails; whether all succeed. -/
def redirectAll : List (Redirect × List Char) → Action Bool
  | [] => return true
  | (r, t) :: rest => do if ← redirect r t then redirectAll rest else return false

/-- The targets of redirections. The target of a stream that is doubled is a stream, or `-` for
none. -/
def expandTargets (run : Runner) : List Redirect → Action (List (Redirect × List Char))
  | [] => return []
  | r :: rs => do
    let t ←
      match r.kind with
      | .document number => do expandDocument run (((← get).documents.lookup number).getD [])
      | .duplicate =>
        match ← expandFields run r.target with
        | [] => Action.fail (ofText "redir error")
        | t :: _ =>
          if t == ['-'] || (streamNumber? t).isSome then pure t
          else do
            modify fun s => { s with line := s.reached }
            Action.fail (ofText "Syntax error: Bad fd number")
      | _ => expandText run r.target
    return (r, t) :: (← expandTargets run rs)

/-- Do something with redirected streams, and turn them back; `failing` is done if they cannot be
redirected. -/
def withRedirects (run : Runner) (rs : List Redirect) (failing body : Action Unit) :
    Action Unit := do
  if rs.isEmpty then body
  else
    let targets ← expandTargets run rs
    let isInput := rs.any fun r => r.stream = 0
    Action.restoring (fun outer inner =>
        { inner with
          streams := outer.streams
          stdin := if isInput then outer.stdin else inner.stdin
          stdinFault := outer.stdinFault }) do
      if ← redirectAll targets then body else failing

/-! ### Assignments -/

/-- Make assignments. -/
def assignEach (run : Runner) (as : List (List Char × Word)) : Action Unit :=
  as.forM fun a => do Action.assign a.1 (← expandValue run a.2)

/-- Make assignments that last as long as an action, and that programs see. -/
def withAssignments (run : Runner) (as : List (List Char × Word)) (body : Action Unit) :
    Action Unit := do
  if as.isEmpty then body
  else
    Action.restoring (fun outer inner =>
        { (as.foldl (fun s a => s.restore a.1 (outer.lookup? a.1)) inner) with
          exported := outer.exported }) do
      assignEach run as
      modify fun s => { s with exported := as.map (·.1) ++ s.exported }
      body

/-- The fields of a word in a call that sets variables: an assignment is one field. -/
def expandDeclared (run : Runner) (ws : List Word) : Action (List (List Char)) := do
  match ws with
  | [] => return []
  | w :: ws =>
    let fields ←
      match Reader.assignment? w with
      | some (name, value) => do pure [name ++ '=' :: (← expandValue run value)]
      | none => expandFields run w
    return fields ++ (← expandDeclared run ws)

/-- The commands that set variables. -/
def declaringNames : List String := ["export", "readonly", "local"]

/-- The fields of a call. -/
def expandCall (run : Runner) (ws : List Word) : Action (List (List Char)) := do
  match ws with
  | [] => return []
  | w :: ws =>
    match ← expandFields run w with
    | [] => expandCall run ws
    | name :: more =>
      let rest ←
        if declaringNames.contains (toText name) then expandDeclared run ws else expandWords run ws
      return name :: more ++ rest

/-! ### Other scripts -/

/-- The names under which a shell is called. -/
def shellNames : List String := ["sh", "dash", "bash", "/bin/sh", "/bin/dash", "/bin/bash",
  "/usr/bin/sh", "/usr/bin/dash", "/usr/bin/bash"]

/-- A shell that has just started: it has the variables that it was given, and a few of its own. -/
def Session.fresh (s : Session) (name : List Char) : Session :=
  let inherited := s.bindings.filter fun v => s.exported.contains v.1
  let own (s : Session) (name : String) (value : List Char) : Session :=
    s.assign (ofText name) value
  let plain : Session :=
    { name, line := 0, bindings := inherited, exported := inherited.map (·.1), here := s.here
      files := s.files, stdin := s.stdin, stdout := s.stdout, stderr := s.stderr
      streams := s.streams, elapsed := s.elapsed }
  let plain := own (own plain "IFS" [' ', '\t', '\n']) "OPTIND" ['1']
  { own plain "PWD" (ofText s.here.text) with exported := ofText "PWD" :: plain.exported }

/-- Run a script with a name and arguments. -/
def runNamed (run : Runner) (name : List Char) (arguments : Arguments) (script : List Char) :
    Action Unit := do
  modify fun s => { s with name, arguments, line := 1 }
  run false none script

/-- Start a shell with its arguments: a script behind the option `c`, or a file, or the input. -/
def startShell (run : Runner) (name : List Char) (arguments : Arguments) : Action Unit := do
  modify (·.fresh name)
  let (rest, _) ← readOptions ['c', 'l'] (arguments.length + 1) arguments
  let options := arguments.take (arguments.length - rest.length)
  let takesScript := options.any fun a =>
    (a.head? == some '-' || a.head? == some '+') && a.contains 'c'
  match takesScript, rest with
  | true, script :: zero :: more => runNamed run zero more script
  | true, [script] => runNamed run name [] script
  | true, [] => Action.fail (ofText "-c requires an argument")
  | false, file :: more =>
    match (← get).contentOf file with
    | .ok content => runNamed run file more content
    | .error _ => Action.fail (ofText "cannot open " ++ file ++ ofText ": No such file")
  | false, [] =>
    let s ← get
    set ((s.setOption true 's').setInput [])
    runNamed run name [] s.stdin

/-- Run a script in the session that calls it, until it ends or is left. -/
def runInside (run : Runner) (watched : Bool) (line : Option Nat) (script : List Char) :
    Action Unit :=
  try run watched line script
  catch
    | .leaveScript => return
    | i => throw i

/-- The greatest number of functions inside each other. -/
def maxCalls : Nat := 1000

/-- Call a function. -/
def callFunction (run : Runner) (watched : Bool) (r : Routine) (arguments : Arguments) :
    Action Unit := do
  if maxCalls ≤ (← get).depth then
    Action.fail (ofText s!"Maximum function recursion depth ({maxCalls}) reached")
  else
    Action.restoring (fun outer inner =>
        let inner :=
          (inner.shadowed.getD []).foldl (fun s before => s.restore before.1 before.2) inner
        { inner with
          arguments := outer.arguments, shadowed := outer.shadowed, loops := outer.loops
          depth := outer.depth }) do
      modify fun s => { s with arguments, shadowed := some [], loops := 0, depth := s.depth + 1 }
      runInside run watched (some r.line) r.script

/-- Run a file that is not one of the shell's. -/
def callFile (run : Runner) (name : List Char) (arguments : Arguments) : Action Unit := do
  let s ← get
  match s.find? name with
  | some (.file content true) =>
    Action.apart (·.fresh name) (runNamed run name arguments (ofBytes content))
  | some _ => Action.complain 126 (name ++ ofText ": Permission denied")
  | none => Action.complain 127 (name ++ ofText ": not found")

/-- Call a program or a shell. -/
def callProgram (run : Runner) (name : List Char) (arguments : Arguments) : Action Unit :=
  if name.isEmpty then Action.complain 127 (ofText ": Permission denied")
  else
    match program? name with
    | some u => u arguments
    | none =>
      if shellNames.contains (toText name) then Action.apart id (startShell run name arguments)
      else if name.contains '/' then callFile run name arguments
      else Action.complain 127 (name ++ ofText ": not found")

/-- Run a file in the session that calls it. -/
def source (run : Runner) : Utility := fun arguments => do
  match arguments with
  | [] => Action.exitWith 0
  | file :: _ =>
    if !file.contains '/' then Action.fail (file ++ ofText ": not found")
    else
      match (← get).contentOf file with
      | .ok content =>
        modify fun s => { s with speaker := some file }
        runInside run false none content
      | .error .aDirectory => Action.exitWith 0
      | .error _ => Action.fail (ofText "cannot open " ++ file ++ ofText ": No such file")

/-- Take the place of the shell. -/
def exec (run : Runner) : Utility := fun arguments => do
  let (_, rest) ← takeOptions [] arguments
  match rest with
  | [] => Action.exitWith 0
  | name :: arguments =>
    callProgram run name arguments
    throw (.ending (.status (← get).status))

/-! ### Calls -/

/-- Do something as a builtin command of a name. Output that was lost is a failure. -/
def speaking (name : List Char) (a : Action Unit) : Action Unit :=
  Action.restoring (fun outer inner => { inner with speaker := outer.speaker, hasLost := false }) do
    modify fun s => { s with speaker := some name, hasLost := false }
    a
    let s ← get
    if s.hasLost then Action.complain (s.status ||| 1) (name ++ ofText ": I/O error") else return

/-- The special builtin command of a name, also those that run other scripts. -/
def specialBuiltin? (run : Runner) (watched : Bool) (name : String) : Option Utility :=
  match name with
  | "eval" => some fun arguments => run watched none ([' '].intercalate arguments)
  | "." => some (source run)
  | "exec" => some (exec run)
  | name => specialBuiltins.lookup name

/-- Go on with the status 2 after a complaint. -/
def forgiving (a : Action Unit) : Action Unit :=
  try a
  catch
    | .fault => Action.exitWith 2
    | i => throw i

/-- What a name is to the command that tells it. -/
def describeCommand (run : Runner) (name : List Char) : Action Unit := do
  let t := toText name
  if (specialBuiltin? run false t).isSome || (builtins.lookup t).isSome ||
      ((← get).functions.lookup name).isSome then
    Action.write 1 (name ++ ['\n'])
    Action.exitWith 0
  else if (program? name).isSome then
    Action.write 1 ((if name.contains '/' then name else ofText "/usr/bin/" ++ name) ++ ['\n'])
    Action.exitWith 0
  else Action.exitWith 127

/-- Call a command by its name, but no function. -/
def callCommand (run : Runner) (watched : Bool) : Utility := fun arguments => do
  let (flags, rest) ← takeOptions ['p', 'v', 'V'] arguments
  match rest with
  | [] => Action.exitWith 0
  | name :: arguments =>
    if !flags.isEmpty && flags != ['p'] then describeCommand run name
    else
      let t := toText name
      match specialBuiltin? run watched t, builtins.lookup t with
      | some u, _ | none, some u => speaking name (u arguments)
      | none, none =>
        modify fun s => { s with speaker := none }
        callProgram run name arguments

/-- Show a command before it runs. -/
def showCommand (s : Session) (fields : List (List Char)) : Session :=
  if s.showsCommands then s.write 2 (ofText "+ " ++ [' '].intercalate fields ++ ['\n']) else s

/-- Run a simple command. Assignments before a call last only as long as the call, unless it is one
of a special builtin command. Without a call the status is that of the last substituted script. -/
def runSimple (run : Runner) (watched : Bool) (c : Simple) : Action Unit := do
  modify fun s => { s with substituted := 0 }
  let fields ← expandCall run c.words
  let shown (a : Action Unit) : Action Unit := do
    modify fun s =>
      showCommand s
        ((c.assignments.map fun a => a.1 ++ '=' :: (s.lookup? a.1).getD []) ++ fields)
    a
  match fields with
  | [] =>
    withRedirects run c.redirects (return) do
      assignEach run c.assignments
      shown do Action.exitWith (← get).substituted
  | name :: arguments =>
    let t := toText name
    let redirected := withRedirects run c.redirects
    match specialBuiltin? run watched t with
    | some u =>
      let body : Action Unit := do
        assignEach run c.assignments
        shown (speaking name (u arguments))
      if t == "exec" then
        if ← redirectAll (← expandTargets run c.redirects) then body else throw .fault
      else redirected (throw .fault) body
    | none =>
      let call : Action Unit := do
        match (← get).functions.lookup name with
        | some r => callFunction run watched r arguments
        | none =>
          if t == "command" then forgiving (speaking name (callCommand run watched arguments))
          else
            match builtins.lookup t with
            | some u => forgiving (speaking name (u arguments))
            | none => callProgram run name arguments
      redirected (return) (withAssignments run c.assignments (shown call))

/-- End the script after a failure, if that is what it asked for. -/
def stopOnFailure (watched : Bool) : Action Unit := do
  let s ← get
  if s.stopsOnFailure && !watched && s.status != 0 then throw (.ending (.status s.status))
  else return

/-! ### Loops -/

/-- The greatest number of rounds of a loop. -/
def maxRounds : Nat := 10000

/-- Do one round of a loop; whether there may be another one. -/
def round (body : Action Unit) : Action Bool :=
  try
    body
    return true
  catch
    | .leaveLoops (n + 2) => throw (.leaveLoops (n + 1))
    | .leaveLoops _ => return false
    | .nextRound (n + 2) => throw (.nextRound (n + 1))
    | .nextRound _ => return true
    | i => throw i

/-- Do something inside one more loop. -/
def inLoop (a : Action Unit) : Action Unit :=
  Action.restoring (fun outer inner => { inner with loops := outer.loops }) do
    modify fun s => { s with loops := s.loops + 1 }
    a

/-- Rounds of a loop, as long as its condition has the wanted result. -/
def rounds (holds : Bool) (cond body : Action Unit) : Nat → Nat → Action Unit
  | 0, _ => return
  | fuel + 1, status => do
    let goesOn ← round do
      cond
      if ((← get).status == 0) == holds then body
      else
        Action.exitWith status
        throw (.leaveLoops 1)
    if goesOn then rounds holds cond body fuel (← get).status else return

/-- Rounds of a loop over values. -/
def roundsOver (name : List Char) (body : Action Unit) : List (List Char) → Action Unit
  | [] => return
  | v :: vs => do
    Action.assign name v
    if ← round body then roundsOver name body vs else return

/-- Whether one of some patterns fits a text. -/
def fitsAny (run : Runner) (text : List Char) : List Word → Action Bool
  | [] => return false
  | p :: ps => do
    if Pattern.fits (Pattern.atoms 0 (← expandPattern run p)) text then return true
    else fitsAny run text ps

/-! ### Commands -/

/-- Go to a line. -/
def atLine (line : Nat) : Action Unit := modify fun s => { s with line }

section
variable (run : Runner)

mutual

/-- Run a command. A watched command may fail even in a script that stops at failures. -/
def eval (watched : Bool) : Command → Action Unit
  | .simple line c => do
    atLine line
    runSimple run watched c
    stopOnFailure watched
  | .skip => Action.exitWith 0
  | .seq a b => do
    eval watched a
    eval watched b
  | .andThen a b => do
    eval true a
    if (← get).status = 0 then eval watched b else return
  | .orElse a b => do
    eval true a
    if (← get).status = 0 then return else eval watched b
  | .negate a => do
    eval true a
    Action.exitWith (if (← get).status = 0 then 1 else 0)
  | .pipe a b => do
    let start := (← get).elapsed
    let (output, _) ← Action.capture (eval watched a)
    let left ← get
    Action.apart (fun s => { s.setInput output with elapsed := start }) (eval watched b)
    modify fun s => { s with stdin := left.stdin, elapsed := max left.elapsed s.elapsed }
    stopOnFailure watched
  | .background a => do
    let stdin := (← get).stdin
    Action.apart (·.setInput []) (eval false a)
    modify fun s => { s.exitWith 0 with stdin }
  | .subshell a => do
    Action.apart id (eval watched a)
    stopOnFailure watched
  | .redirected line a rs => do
    atLine line
    withRedirects run rs (stopOnFailure watched) (eval watched a)
  | .choose cond yes no => do
    eval true cond
    if (← get).status = 0 then eval watched yes else eval watched no
  | .repeatWhile holds cond body =>
    inLoop (rounds holds (eval true cond) (eval watched body) maxRounds 0)
  | .forEach line name words body => do
    atLine line
    let values ←
      match words with
      | some ws => expandWords run ws
      | none => do pure (← get).arguments
    Action.exitWith 0
    inLoop (roundsOver name (eval watched body) values)
  | .select line word clauses => do
    atLine line
    let text ← expandText run word
    evalClauses watched text clauses
  | .define name script line => do
    modify fun s =>
      { s.exitWith 0 with
        functions := (name, ⟨script, line⟩) :: s.functions.filter (·.1 != name) }

/-- Run the first clause of which a pattern fits a text. -/
def evalClauses (watched : Bool) (text : List Char) : List (List Word × Command) → Action Unit
  | [] => Action.exitWith 0
  | (patterns, body) :: clauses => do
    if ← fitsAny run text patterns then eval watched body else evalClauses watched text clauses

end

end

/-- Run what is left of a script, line by line; `fuel` bounds the number of lines, and `isFirst`
says that no command was run yet. The script is no part of another one if `isWhole`. -/
def runLines (run : Runner) (watched isWhole : Bool) : Nat → Bool → Source → Action Unit
  | 0, _, _ => return
  | fuel + 1, isFirst, source => do
    match Reader.readCommandLine.run source with
    | .error (fault, line) =>
      atLine line
      Action.fail (ofText ("Syntax error: " ++ fault.message))
    | .ok (none, _) => if isFirst then Action.exitWith 0 else return
    | .ok (some none, rest) => runLines run watched isWhole fuel isFirst rest
    | .ok (some (some c), rest) => do
      if isWhole then modify fun s => { s with reached := rest.line } else pure ()
      if (← get).options.contains 'n' then runLines run watched isWhole fuel isFirst rest
      else
        modify fun s => { s with documents := rest.documents }
        eval run watched c
        runLines run watched isWhole fuel false rest

/-- Run a script inside at most so many others. -/
def runWithin : Nat → Runner
  | 0, _, _, _ => Action.fail (ofText "Maximum depth of scripts reached")
  | depth + 1, watched, line, text =>
    Action.restoring
      (fun outer inner => { inner with documents := outer.documents, reached := outer.reached })
      (runLines (runWithin depth) watched line.isNone (text.length + 1) true
        { text, line := line.getD 1 })

/-- The greatest number of scripts inside each other. -/
def maxDepth : Nat := 2500

/-- Run a script. -/
def run : Runner := runWithin maxDepth

end CommandChain.Shell
