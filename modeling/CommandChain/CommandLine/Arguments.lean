import CommandChain.Store.Basic

/-!
# Arguments

The arguments of the program name a command, `run` or `normalize`, and what it works on. Options may
stand before and behind the other arguments; `--` ends them. An argument that begins with a hyphen
is an option, unless it is nothing but that hyphen. -/

namespace CommandChain.CommandLine

/-! ### What is asked for -/

/-- What is to be done. -/
inductive Action where
  | run (words : List String) (presets : Members Json) (isVerbose : Bool)
  | normalize (chain : String)
deriving Repr

/-- What is asked for, and the file with the settings for it. -/
structure Invocation where
  config : Option String
  action : Action
deriving Repr

/-- What help is about. -/
inductive Topic where
  | program
  | run
  | normalize
  | help
deriving Repr, DecidableEq

/-- How arguments are misused. -/
inductive Misuse where
  | unknownOption (option : String)
  | missingValue (option : String)
  | unusedValue (option : String)
  | repeated (option : String)
  | unassigned (preset : String)
  | unnamed (preset : String)
  | unknownCommand (name : String)
  | unexpected (word : String)
  | missingCommand
  | missingChain
deriving Repr, DecidableEq

/-- The wording of a misuse. -/
def Misuse.message : Misuse → String
  | .unknownOption option => "unexpected argument '" ++ option ++ "' found"
  | .missingValue option => "a value is required for '" ++ option ++ "' but none was supplied"
  | .unusedValue option => "unexpected value for '" ++ option ++ "' found; no more were expected"
  | .repeated option => "the argument '" ++ option ++ "' cannot be used multiple times"
  | .unassigned preset => "expected KEY=VALUE, got '" ++ preset ++ "'"
  | .unnamed preset => "missing variable name in '" ++ preset ++ "'"
  | .unknownCommand name => "unrecognized subcommand '" ++ name ++ "'"
  | .unexpected word => "unexpected argument '" ++ word ++ "' found"
  | .missingCommand => "a subcommand is required but one was not provided"
  | .missingChain => "the following required arguments were not provided: <CHAIN>"

/-- Why there is nothing to be done. -/
inductive Refusal where
  | help (topic : Topic)
  | misuse (m : Misuse)
deriving Repr, DecidableEq

/-! ### Arguments one by one -/

/-- An argument by its form. -/
inductive Form where
  /-- Two hyphens: no option follows. -/
  | stop
  | long (name : String) (value : Option String)
  | short (letters : List Char)
  | word
deriving Repr, DecidableEq

/-- A text before and behind its first equals sign. -/
def splitAssignment (cs : List Char) : List Char × Option (List Char) :=
  match cs.dropWhile (· != '=') with
  | [] => (cs, none)
  | _ :: value => (cs.takeWhile (· != '='), some value)

/-- The form of an argument. -/
def Form.ofArgument (a : String) : Form :=
  match a.toList with
  | ['-', '-'] => .stop
  | '-' :: '-' :: cs =>
    let (name, value) := splitAssignment cs
    .long (String.ofList name) (value.map String.ofList)
  | '-' :: c :: cs => .short (c :: cs)
  | _ => .word

/-- The preset that a text writes: a name and a value, which may be any literal. -/
def readPreset (t : String) : Except Misuse (String × Json) :=
  match splitAssignment t.toList with
  | (_, none) => .error (.unassigned t)
  | (name, some value) =>
    let name := Text.trimmed (String.ofList name)
    if name.isEmpty then .error (.unnamed t)
    else .ok (name, (Json.str (String.ofList value)).coerce)

/-! ### Options -/

/-- What was read of the arguments of a command, or of the program before its command. -/
structure Taken where
  config : Option String := none
  presets : List (String × Json) := []
  isVerbose : Bool := false
  words : List String := []

namespace Taken

/-- Take an option without a value. -/
def flag (t : Taken) (topic : Topic) (name : String) : Except Refusal Taken :=
  if name == "help" then .error (.help topic)
  else if name == "verbose" && topic = .run then
    if t.isVerbose then .error (.misuse (.repeated "--verbose"))
    else .ok { t with isVerbose := true }
  else .error (.misuse (.unknownOption ("--" ++ name)))

/-- Options of one letter, each of which stands for a flag. -/
def letters (t : Taken) (topic : Topic) (cs : List Char) : Except Refusal Taken :=
  cs.foldlM (fun t c =>
    if c == 'h' then t.flag topic "help"
    else if c == 'v' then t.flag topic "verbose"
    else .error (.misuse (.unknownOption (String.ofList ['-', c])))) t

/-- Take an option with its value. -/
def option (t : Taken) (name value : String) : Except Refusal Taken :=
  if name == "config" then
    if t.config.isSome then .error (.misuse (.repeated "--config"))
    else if value.isEmpty then .error (.misuse (.missingValue "--config"))
    else .ok { t with config := some value }
  else
    match readPreset value with
    | .ok preset => .ok { t with presets := t.presets ++ [preset] }
    | .error m => .error (.misuse m)

/-- The option has a value. -/
def hasValue (topic : Topic) (name : String) : Bool :=
  name == "config" || (name == "var" && topic = .run)

/-- Take a long option, whose value stands in the argument itself or is the next one. Also how many
more arguments are used. -/
def long (t : Taken) (topic : Topic) (name : String) (value next : Option String) :
    Except Refusal (Taken × Nat) :=
  if hasValue topic name then
    match value, next with
    | some v, _ => (t.option name v).map (·, 0)
    | none, some v =>
      if Form.ofArgument v = .word then (t.option name v).map (·, 1)
      else .error (.misuse (.missingValue ("--" ++ name)))
    | none, none => .error (.misuse (.missingValue ("--" ++ name)))
  else
    match t.flag topic name, value with
    | .error (.misuse m), _ => .error (.misuse m)
    | _, some _ => .error (.misuse (.unusedValue ("--" ++ name)))
    | r, none => r.map (·, 0)

end Taken

/-- Read arguments, where `skip` more were used already. Before the command reading stops at a word,
and the rest is handed on. -/
def readArguments (topic : Topic) : Nat → Taken → List String → Except Refusal (Taken × List String)
  | _, t, [] => .ok (t, [])
  | skip + 1, t, _ :: as => readArguments topic skip t as
  | 0, t, a :: as =>
    match Form.ofArgument a with
    | .stop => .ok ({ t with words := t.words ++ as }, [])
    | .word =>
      if topic = .program then .ok (t, a :: as)
      else readArguments topic 0 { t with words := t.words ++ [a] } as
    | .long name value =>
      match t.long topic name value as.head? with
      | .ok (t, used) => readArguments topic used t as
      | .error e => .error e
    | .short cs =>
      match t.letters topic cs with
      | .ok t => readArguments topic 0 t as
      | .error e => .error e

/-! ### Commands -/

/-- What the command `help` is asked about. -/
def helpTopic : List String → Except Refusal Topic
  | [] => .ok .program
  | ["run"] => .ok .run
  | ["normalize"] => .ok .normalize
  | ["help"] => .ok .help
  | name :: more =>
    .error (.misuse (.unknownCommand
      (if ["run", "normalize", "help"].contains name then more.headD "" else name)))

/-- The action of a command with the words that it was given. -/
def actionOf (topic : Topic) (t : Taken) : Except Refusal Action :=
  match topic, t.words with
  | _, [] => .error (.misuse .missingChain)
  | .normalize, [chain] => .ok (.normalize chain)
  | .normalize, _ :: word :: _ => .error (.misuse (.unexpected word))
  | _, words => .ok (.run words (Members.ofList t.presets) t.isVerbose)

/-- What a command is asked to do. The file with the settings may be named before or behind the
command, and behind it wins. -/
def command (before : Taken) (topic : Topic) (as : List String) : Except Refusal Invocation := do
  let (t, _) ← readArguments topic 0 {} as
  return { config := t.config <|> before.config, action := ← actionOf topic t }

/-- What the arguments ask for. -/
def parse (as : List String) : Except Refusal Invocation := do
  match ← readArguments .program 0 {} as with
  | (t, name :: as) =>
    match name with
    | "run" => command t .run as
    | "normalize" => command t .normalize as
    | "help" => throw (.help (← helpTopic as))
    | _ => throw (.misuse (.unknownCommand name))
  | (t, []) =>
    match t.words with
    | [] => throw (.misuse .missingCommand)
    | word :: _ => throw (.misuse (.unexpected word))

end CommandChain.CommandLine
