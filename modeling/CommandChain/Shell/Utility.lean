import CommandChain.Shell.Condition
import CommandChain.Shell.Printf

/-!
# Utilities

The programs that a script may call. Each takes its arguments, and leaves its exit status in the
session. A complaint of a program begins with its name. -/

namespace CommandChain.Shell

/-- The arguments of a call. -/
abbrev Arguments := List (List Char)

/-- What a command does with its arguments. -/
abbrev Utility := Arguments → Action Unit

/-- Write a line to the error stream, and set the exit status. -/
def complainLine (status : Nat) (message : List Char) : Action Unit := do
  Action.write 2 (message ++ ['\n'])
  Action.exitWith status

/-- A program cannot use an option. -/
def refuseOption (name : String) (reason option : List Char) : Action Unit :=
  complainLine 1 (ofText (name ++ ": ") ++ reason ++ ofText " '" ++ option ++ ofText "'\nTry '" ++
    ofText name ++ ofText " --help' for more information.")

/-- The first argument that is an option which a program does not know, if there is one. `letters`
are the options that it knows. -/
def unknownOption? (letters : List Char) : Arguments → Option (List Char × List Char)
  | [] => none
  | a :: as =>
    match a with
    | ['-', '-'] => none
    | '-' :: '-' :: _ => some (ofText "unrecognized option", a)
    | '-' :: flags =>
      match flags.find? fun c => !letters.contains c with
      | some c => some (ofText "invalid option --", [c])
      | none => unknownOption? letters as
    | _ => unknownOption? letters as

/-- The arguments that are no options, and the letters of those that are. -/
def operands : Arguments → Arguments × List Char
  | [] => ([], [])
  | a :: as =>
    match a with
    | ['-', '-'] => (as, [])
    | '-' :: c :: flags =>
      let (rest, letters) := operands as
      (rest, c :: flags ++ letters)
    | _ =>
      let (rest, letters) := operands as
      (a :: rest, letters)

/-- Do something with the operands of a program, if it knows all its options. -/
def withOptions (name : String) (letters : List Char) (run : Arguments → List Char → Action Unit) :
    Utility := fun arguments =>
  match unknownOption? letters arguments with
  | some (reason, option) => refuseOption name reason option
  | none =>
    let (rest, flags) := operands arguments
    run rest flags

/-! ### Printing -/

/-- Print the arguments with blanks between them. -/
def echoPlain (s : Arguments) (isEscaped hasNewline : Bool) : Action Unit := do
  let t := [' '].intercalate s
  let (t, stop) := if isEscaped then unescape 0 t else (t, false)
  Action.write 1 (if hasNewline && !stop then t ++ ['\n'] else t)
  Action.exitWith 0

/-- The options of a program that prints its arguments, and the rest; escapes are replaced only if
that is asked for. -/
def echoOptions (isEscaped hasNewline : Bool) : Arguments → Action Unit
  | [] => echoPlain [] isEscaped hasNewline
  | a :: as =>
    match a with
    | '-' :: c :: flags =>
      if (c :: flags).all fun c => c == 'n' || c == 'e' || c == 'E' then
        let isEscaped := (c :: flags).foldl (fun e c => if c == 'n' then e else c == 'e') isEscaped
        echoOptions isEscaped (hasNewline && !(c :: flags).contains 'n') as
      else echoPlain (a :: as) isEscaped hasNewline
    | _ => echoPlain (a :: as) isEscaped hasNewline

/-- How a program that prints files shows their lines. -/
structure LineStyle where
  /-- Lines are numbered; with `onlyFilled` only those that are not empty. -/
  isNumbered : Bool
  onlyFilled : Bool
  /-- Of empty lines one after the other only the first is shown. -/
  isSqueezed : Bool
  showsEnds : Bool
  showsTabs : Bool
  showsOthers : Bool

/-- A byte by signs that can be seen. -/
def visible (v : LineStyle) (c : Char) : List Char :=
  let n := c.toNat
  if c == '\t' then if v.showsTabs then ['^', 'I'] else [c]
  else if !v.showsOthers then [c]
  else
    let (mark, n) := if 128 ≤ n then (['M', '-'], n - 128) else ([], n)
    if n < 32 then mark ++ ['^', Char.ofNat (n + 64)]
    else if n = 127 then mark ++ ['^', '?']
    else mark ++ [Char.ofNat n]

/-- Lines as they are shown, from a number on; `afterEmpty` says whether the line before was
empty. -/
def showLines (v : LineStyle) (isLastEnded : Bool) : Nat → Bool → List (List Char) → List Char
  | _, _, [] => []
  | n, afterEmpty, l :: ls =>
    if v.isSqueezed && afterEmpty && l.isEmpty then showLines v isLastEnded n true ls
    else
      let isCounted := v.isNumbered && !(v.onlyFilled && l.isEmpty)
      let number := digits n
      let front :=
        if isCounted then List.replicate (6 - number.length) ' ' ++ number ++ ['\t'] else []
      let ending :=
        if !ls.isEmpty || isLastEnded then (if v.showsEnds then ['$', '\n'] else ['\n']) else []
      front ++ l.flatMap (visible v) ++ ending ++
        showLines v isLastEnded (if isCounted then n + 1 else n) l.isEmpty ls

/-- A text whose lines are shown in a style. -/
def LineStyle.apply (v : LineStyle) (cs : List Char) : List Char :=
  let ls := Text.fields '\n' cs
  let isLastEnded := ls.getLast?.any (·.isEmpty)
  showLines v isLastEnded 1 false (if isLastEnded then ls.dropLast else ls)

/-- The wording of a fault with a file. -/
def faultText : FileFault → String
  | .missing => "No such file or directory"
  | .notADirectory => "Not a directory"
  | .aDirectory => "Is a directory"
  | .forbidden | .notAProgram => "Permission denied"

/-- The contents of files, where `-` is the input; a complaint about each that cannot be read. -/
def contents : Arguments → Action (List Char)
  | [] => return []
  | name :: names => do
    let s ← get
    let content ←
      if name == ['-'] then
        match s.stdinFault with
        | some fault => do
          complainLine 1 (ofText ("cat: -: " ++ fault))
          pure []
        | none => do
          set { s with stdin := [] }
          pure s.stdin
      else
        match s.contentOf name with
        | .ok content => pure content
        | .error fault => do
          complainLine 1 (ofText "cat: " ++ name ++ ofText (": " ++ faultText fault))
          pure []
    return content ++ (← contents names)

/-- Print files, or the input. -/
def cat : Utility :=
  withOptions "cat" "AbeEnstTuv".toList fun files flags => do
    if (← get).target 1 = .closed then
      complainLine 1 (ofText "cat: standard output: Bad file descriptor")
    else
      Action.exitWith 0
      let has (letters : String) : Bool := letters.toList.any flags.contains
      let style : LineStyle := ⟨has "nb", has "b", has "s", has "AeE", has "AtT", has "Aevt"⟩
      Action.write 1 (style.apply (← contents (if files.isEmpty then [['-']] else files)))

/-! ### Time -/

/-- The nanoseconds of a length of time. No power of ten beyond the sixtieth makes a difference. -/
def duration? (cs : List Char) : Option Nat :=
  let (factor, ds) :=
    match cs.getLast? with
    | some 's' => (1, cs.dropLast)
    | some 'm' => (60, cs.dropLast)
    | some 'h' => (3600, cs.dropLast)
    | some 'd' => (86400, cs.dropLast)
    | _ => (1, cs)
  (Decimal.read? ds).map fun d =>
    let e := max (-60) (min 60 (d.exponent + 9))
    factor * (if 0 ≤ e then d.significand * Nat.pow 10 e.toNat
      else d.significand / Nat.pow 10 (-e).toNat)

/-- Let time pass. -/
def sleep : Utility :=
  withOptions "sleep" [] fun times _ => do
    let hint : List Char := ofText "Try 'sleep --help' for more information."
    if times.isEmpty then complainLine 1 (ofText "sleep: missing operand\n" ++ hint)
    else
      match times.filter fun t => (duration? t).isNone with
      | [] =>
        modify fun s =>
          { s.exitWith 0 with elapsed := (times.filterMap duration?).foldl (· + ·) s.elapsed }
      | wrong =>
        let line (t : List Char) : List Char :=
          ofText "sleep: invalid time interval '" ++ t ++ ofText "'\n"
        complainLine 1 (wrong.flatMap line ++ hint)

/-! ### The rest -/

/-- Print the directory. -/
def workingDirectory : Action Unit := do
  Action.write 1 (ofText (← get).here.text ++ ['\n'])
  Action.exitWith 0

/-- Do a thing as a program of a name: a complaint ends it. -/
def asProgram (name : String) (u : Utility) : Utility := fun arguments => do
  let go : Action Unit := do
    modify fun s => { s with name := ofText name, hasLines := false, speaker := none }
    try u arguments catch _ => Action.exitWith 2
  Action.restoring (fun outer inner =>
    { inner with name := outer.name, hasLines := outer.hasLines, speaker := outer.speaker }) go

/-- Do a thing as a program of a name that prints: output that is lost is a failure. -/
def printing (name : String) (u : Utility) : Utility := fun arguments => do
  modify fun s => { s with hasLost := false }
  u arguments
  if (← get).hasLost then complainLine 1 (ofText (name ++ ": write error: Bad file descriptor"))
  else return

/-- The programs by name. -/
def programs : List (String × Utility) :=
  [("cat", cat), ("sleep", sleep), ("echo", printing "echo" (echoOptions false true)),
    ("printf", printing "printf" (asProgram "printf" printf)), ("test", asProgram "test" test),
    ("[", asProgram "[" bracketTest),
    ("pwd", printing "pwd" (withOptions "pwd" "LP".toList fun _ _ => workingDirectory)),
    ("true", fun _ => Action.exitWith 0), ("false", fun _ => Action.exitWith 1)]

/-- The directories of the programs. -/
def programDirectories : List String := ["/bin/", "/usr/bin/"]

/-- The program of a name or path. -/
def program? (name : List Char) : Option Utility :=
  let t := toText name
  match programs.lookup t with
  | some u => some u
  | none =>
    programDirectories.findSome? fun dir =>
      if dir.toList.isPrefixOf name then programs.lookup (toText (name.drop dir.length)) else none

end CommandChain.Shell
