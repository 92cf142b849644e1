import CommandChain.CommandLine.Help
import CommandChain.Run.Chain
import CommandChain.Settings.Load

/-!
# The program

The program runs a chain and prints its output, or prints the canonical form of a chain. Failures
are told on the other stream, and by the exit code 1; the code 2 stands for misused arguments. -/

namespace CommandChain.CommandLine

/-- What the program prints and its exit code. -/
structure Exit where
  code : Nat
  stdout : String := ""
  stderr : String := ""
deriving Repr, DecidableEq

/-- A success that prints some lines. -/
def Exit.success (t : String) : Exit := { code := 0, stdout := t ++ "\n" }

/-- A failure with its message. -/
def Exit.failure (message : String) : Exit := { code := 1, stderr := message ++ "\n" }

/-- A failure before a chain is run. -/
def Exit.error (message : String) : Exit := .failure ("Error: " ++ message)

/-- Where a chain comes from, or the exit that says that it comes from nowhere. -/
def resolve (w : Wording) (files : Files) (home chain : String) : Except Exit Source :=
  (Source.resolve files home chain).mapError fun e =>
    .error ("Failed to load chain " ++ chain ++ ": " ++ e.message w)

/-- What the settings make of a run that is started in the directory `home`. -/
def workshop (s : Settings) (env : Environment) (home : String) (around : Surroundings) :
    Workshop where
  toSurroundings := around
  shell := s.shell
  shellFlag := s.shellFlag
  discovery := {
    workingDirectory := home
    discoverRelative := s.discoverRelative
    pluginPaths := s.pluginPaths }
  environment := env
  home := home

/-- Do what was asked for. -/
def Action.perform (a : Action) (s : Settings) (files : Files) (env : Environment) (home : String)
    (around : Surroundings) : Except Exit Exit := do
  match a with
  | .run words presets _ =>
    match splitArguments words with
    | none => throw (.error "No chain given")
    | some (chain, args) =>
      let source ← resolve around.wording files home chain
      let r := source.run (workshop s env home around) s.verbose files (args.map .str) presets
      return if r.isSuccess then .success r.output.display else .failure r.message
  | .normalize chain =>
    let source ← resolve around.wording files home chain
    match Chain.ofJson source.definition with
    | .ok c => return .success c.toJson.pretty
    | .error e => throw (.error e.message)

/-- The last word of the arguments on how much is logged. -/
def Action.verbose? : Action → Option Bool
  | .run _ _ true => some true
  | _ => none

/-- Run the program with its arguments in the directory `home`. -/
def execute (files : Files) (env : Environment) (home : String) (arguments : List String)
    (around : Surroundings := {}) : Exit :=
  match parse arguments with
  | .error (.help topic) => { code := 0, stdout := topic.text }
  | .error (.misuse m) => { code := 2, stderr := m.text }
  | .ok i =>
    let env := env.withFile files home
    match Settings.load files home env { path := i.config, verbose := i.action.verbose? } with
    | .error e => .error (e.message around.wording)
    | .ok s =>
      match i.action.perform s files env home around with
      | .ok e | .error e => e

end CommandChain.CommandLine
