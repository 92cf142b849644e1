import CommandChain.Shell.Expansion
import CommandChain.Shell.Utility

/-!
# Builtin commands

The commands that change the session they are called in. A complaint of such a command ends it with
the status 2; a complaint of one of the `specialNames` ends the script. -/

namespace CommandChain.Shell

/-- Letters at the front of the arguments that are options; `allowed` are those that the command
knows. -/
def takeOptions (allowed : List Char) : Arguments → Action (List Char × Arguments)
  | [] => return ([], [])
  | a :: as =>
    match a with
    | ['-', '-'] => return ([], as)
    | '-' :: c :: flags =>
      match (c :: flags).find? fun c => !allowed.contains c with
      | some c => Action.fail (ofText "Illegal option -" ++ [c])
      | none => do
        let (more, rest) ← takeOptions allowed as
        return (c :: flags ++ more, rest)
    | _ => return ([], a :: as)

/-- Print the arguments with their escapes replaced, and a line end unless the first one says
otherwise. -/
def echo : Utility := fun arguments =>
  match arguments with
  | ['-', 'n'] :: rest => echoPlain rest true false
  | _ => echoPlain arguments true true

/-- Print by a format; options are none. -/
def formattedPrint : Utility := fun arguments => do
  let (_, rest) ← takeOptions [] arguments
  printf rest

/-! ### Variables -/

/-- The name and value of an assignment, or the name alone. -/
def splitAssignment (a : List Char) : List Char × Option (List Char) :=
  let name := a.takeWhile (· != '=')
  (name, if name.length < a.length then some (a.drop (name.length + 1)) else none)

/-- A text between quotation marks, as a script would write it. -/
def quoted (cs : List Char) : List Char :=
  let single (t : List Char) : List Char := '\'' :: t ++ ['\'']
  single (cs.flatMap fun c => if c == '\'' then ofText "'\"'\"'" else [c])

/-- Print variables in the order of their names. -/
def printVariables (front : String) (names : List (List Char)) : Action Unit := do
  let s ← get
  let lines := (names.eraseDups.mergeSort fun a b => !(b < a)).map fun name =>
    match s.lookup? name with
    | some v => ofText (front ++ " ") ++ name ++ '=' :: quoted v ++ ['\n']
    | none => ofText (front ++ " ") ++ name ++ ['\n']
  Action.write 1 lines.flatten
  Action.exitWith 0

/-- Set variables, and mark them. Without any the marked ones are printed. -/
def declare (front : String) (marked : Session → List (List Char))
    (mark : List Char → Session → Session) : Utility := fun arguments => do
  let (flags, rest) ← takeOptions ['p'] arguments
  if rest.isEmpty || !flags.isEmpty then printVariables front (marked (← get))
  else
    rest.forM fun a => do
      let (name, value) := splitAssignment a
      if !isName name then Action.fail (name ++ ofText ": bad variable name")
      else
        match value with
        | some v => Action.assign name v
        | none => pure ()
      modify (mark name)
    Action.exitWith 0

/-- Set variables, which last as long as the running function. -/
def declareLocal : Utility := fun arguments => do
  if (← get).shadowed.isNone then Action.fail (ofText "not in a function")
  else
    arguments.forM fun a => do
      let (name, value) := splitAssignment a
      modify fun s =>
        { s with shadowed := s.shadowed.map fun before =>
            if before.any (·.1 == name) then before else (name, s.lookup? name) :: before }
      match value with
      | some v => Action.assign name v
      | none => return
    Action.exitWith 0

/-- Forget variables or functions. -/
def forget : Utility := fun arguments => do
  let (flags, names) ← takeOptions ['v', 'f'] arguments
  names.forM fun name => do
    if flags.contains 'f' then
      modify fun s => { s with functions := s.functions.filter (·.1 != name) }
    else if !isName name then Action.fail (name ++ ofText ": bad variable name")
    else if (← get).frozen.contains name then Action.fail (name ++ ofText ": is read only")
    else modify (·.unset name)
  Action.exitWith 0

/-! ### Reading -/

/-- A line of the input: its characters, each with a flag that says whether it was escaped, the
rest, and whether the line was ended. -/
def readLine (raw : Bool) : List Char → List (Char × Bool) × List Char × Bool
  | [] => ([], [], false)
  | '\\' :: c :: cs =>
    if raw then
      if c == '\n' then ([('\\', false)], cs, true)
      else
        let (line, rest, ended) := readLine raw cs
        (('\\', false) :: (c, false) :: line, rest, ended)
    else
      let (line, rest, ended) := readLine raw cs
      (if c == '\n' then line else (c, true) :: line, rest, ended)
  | c :: cs =>
    if c == '\n' then ([], cs, true)
    else
      let (line, rest, ended) := readLine raw cs
      ((c, false) :: line, rest, ended)

/-- Give the words of a line to variables, the last of which takes all that is left but blanks at
its end. -/
def assignWords (separators : List Char) : List (List Char) → List (Char × Bool) → Action Unit
  | [], _ => return
  | name :: names, line => do
    let isSeparator (p : Char × Bool) : Bool := separators.contains p.1 && !p.2
    let isBlank (p : Char × Bool) : Bool := isSeparator p && isFieldBlank p.1
    let line := line.dropWhile isBlank
    let word := line.takeWhile (!isSeparator ·)
    let behind := (line.drop word.length).dropWhile isBlank
    let rest :=
      match behind with
      | p :: ps => if isSeparator p then ps.dropWhile isBlank else behind
      | [] => []
    if names.isEmpty then
      let whole := (line.reverse.dropWhile isBlank).reverse
      Action.assign name ((if rest.isEmpty then word else whole).map (·.1))
    else
      Action.assign name (word.map (·.1))
      assignWords separators names rest

/-- Read a line into variables. -/
def read : Utility := fun arguments => do
  let (flags, names) ← takeOptions ['r'] arguments
  if names.isEmpty then Action.fail (ofText "arg count")
  else
    let s ← get
    let (line, rest, ended) := readLine (flags.contains 'r') s.stdin
    set { s with stdin := rest }
    assignWords s.separators names line
    Action.exitWith (if ended then 0 else 1)

/-! ### The course of a script -/

/-- End the script. -/
def exit : Utility := fun arguments => do
  match arguments with
  | [] => throw (.ending (.status (← get).status))
  | a :: _ => throw (.ending (.status ((← naturalNumber a) % 256)))

/-- Leave the running function. -/
def leave : Utility := fun arguments => do
  match arguments with
  | [] => throw .leaveScript
  | a :: _ =>
    Action.exitWith ((← naturalNumber a) % 256)
    throw .leaveScript

/-- Leave loops. Outside of loops nothing happens. -/
def leaveLoops (interrupt : Nat → Interrupt) : Utility := fun arguments => do
  let n ←
    match arguments with
    | [] => pure 1
    | a :: _ => do
      let n ← naturalNumber a
      if n = 0 then illegalNumber a else pure n
  Action.exitWith 0
  match min n (← get).loops with
  | 0 => return
  | n => throw (interrupt n)

/-- Drop the first arguments. -/
def shift : Utility := fun arguments => do
  let n ←
    match arguments with
    | [] => pure 1
    | a :: _ => naturalNumber a
  let s ← get
  if s.arguments.length < n then Action.fail (ofText "can't shift that many")
  else set { s.exitWith 0 with arguments := s.arguments.drop n }

/-- The letters of the options by their names. -/
def optionNames : List (String × Char) :=
  [("errexit", 'e'), ("noglob", 'f'), ("ignoreeof", 'I'), ("interactive", 'i'), ("monitor", 'm'),
    ("noexec", 'n'), ("stdin", 's'), ("xtrace", 'x'), ("verbose", 'v'), ("vi", 'V'), ("emacs", 'E'),
    ("noclobber", 'C'), ("allexport", 'a'), ("notify", 'b'), ("nounset", 'u'), ("nolog", 'L'),
    ("debug", 'D')]

/-- Turn the options of an argument on or off. Those in `others` mean something else here. The
option `o` takes a name from the arguments behind it. -/
def setOptions (others : List Char) (isOn : Bool) : List Char → Arguments → Action Arguments
  | [], rest => return rest
  | c :: flags, rest => do
    if others.contains c then setOptions others isOn flags rest
    else if c == 'o' then
      match rest with
      | [] => setOptions others isOn flags rest
      | name :: rest =>
        match optionNames.lookup (toText name) with
        | some letter =>
          modify (·.setOption isOn letter)
          setOptions others isOn flags rest
        | none => Action.fail (ofText "Illegal option -o " ++ name)
    else if Session.optionLetters.contains c then
      modify (·.setOption isOn c)
      setOptions others isOn flags rest
    else Action.fail (ofText "Illegal option -" ++ [c])

/-- The options at the front of the arguments; the result is what is left, and whether it was
divided from the options. `fuel` bounds the number of arguments. -/
def readOptions (others : List Char) : Nat → Arguments → Action (Arguments × Bool)
  | 0, as => return (as, false)
  | fuel + 1, as => do
    match as with
    | ['-'] :: rest => return (rest, false)
    | ['-', '-'] :: rest => return (rest, true)
    | ('-' :: flags) :: rest => readOptions others fuel (← setOptions others true flags rest)
    | ('+' :: flags) :: rest => readOptions others fuel (← setOptions others false flags rest)
    | _ => return (as, false)

/-- Set options or arguments. -/
def setArguments : Utility := fun arguments => do
  let (rest, isDivided) ← readOptions [] (arguments.length + 1) arguments
  if isDivided || !rest.isEmpty then modify fun s => { s with arguments := rest }
  Action.exitWith 0

/-! ### Directories -/

/-- Go to another directory. -/
def cd : Utility := fun arguments => do
  let (_, rest) ← takeOptions ['L', 'P'] arguments
  let s ← get
  let value (name : String) : List Char := (s.lookup? (ofText name)).getD []
  let (dest, isShown) :=
    match rest with
    | [] => (value "HOME", false)
    | ['-'] :: _ => (value "OLDPWD", true)
    | a :: _ => (a, false)
  match s.files.directory s.here.text (if dest.isEmpty then "." else toText dest) with
  | .error _ => Action.fail (ofText "can't cd to " ++ dest)
  | .ok p =>
    set (({ s with here := p }.assign (ofText "OLDPWD") (ofText s.here.text)).assign (ofText "PWD")
      (ofText p.text))
    if isShown then workingDirectory else Action.exitWith 0

/-! ### Processes -/

/-- Send a signal. The only process there is to reach is the shell itself. -/
def kill : Utility := fun arguments => do
  match arguments.filter fun a => a.head? != some '-' with
  | [a] =>
    if (← naturalNumber a) = Session.processNumber then throw (.ending .signal)
    else Action.complain 1 (ofText "No such process\n")
  | _ => Action.fail (ofText ("Usage: kill [-s sigspec | -signum | -sigspec] [pid | job]... or\n" ++
      "kill -l [exitstatus]"))

/-- Wait for processes, none of which is still running. -/
def wait : Utility := fun arguments => Action.exitWith (if arguments.isEmpty then 0 else 127)

/-- The builtin commands by name. -/
def builtins : List (String × Utility) :=
  [("echo", echo), ("printf", formattedPrint), ("test", test), ("[", bracketTest), ("read", read),
    ("cd", cd), ("kill", kill), ("wait", wait),
    ("pwd", fun as => do
      let _ ← takeOptions ['L', 'P'] as
      workingDirectory),
    ("true", fun _ => Action.exitWith 0), ("false", fun _ => Action.exitWith 1)]

/-- The special builtin commands by name. -/
def specialBuiltins : List (String × Utility) :=
  [(":", fun _ => Action.exitWith 0), ("exit", exit), ("return", leave),
    ("local", declareLocal), ("break", leaveLoops .leaveLoops), ("continue", leaveLoops .nextRound),
    ("shift", shift),
    ("set", setArguments), ("unset", forget),
    ("export", declare "export" (·.exported) fun name s =>
      { s with exported := name :: s.exported }),
    ("readonly", declare "readonly" (·.frozen) fun name s => { s with frozen := name :: s.frozen })]

end CommandChain.Shell
