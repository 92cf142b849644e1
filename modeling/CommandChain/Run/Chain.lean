import CommandChain.Chain.Normal
import CommandChain.Chain.Source
import CommandChain.Run.Log
import CommandChain.Run.Schedule

/-!
# Running a chain

A chain is run in a store of its own: the variables of the definition, the presets, and the
arguments bound in order to the inputs of the root. Its output is the value at the result path of
the root. A run that fails has an empty output and the message of its first failure. -/

namespace CommandChain

/-- The variable that holds the directory of the chain. -/
def chainDirectory : String := "_chain_cwd"

/-- The variable that holds the directory in which the program was started. -/
def startDirectory : String := "_init_cwd"

/-- A directory as it is stored, with a slash behind it. -/
def withSlash (dir : String) : Json :=
  .str (if dir.toList.getLast? == some '/' then dir else dir ++ "/")

namespace Store

/-- Bind inputs to arguments in order. An input without an argument is 0 unless there is a variable
of exactly its name. -/
def bindInputs : List String → List Json → Store → Store
  | [], _, s => s
  | key :: keys, [], s => bindInputs keys [] (if s.contains key then s else s.set key .zero)
  | key :: keys, v :: vs, s => bindInputs keys vs (s.set key v)

/-- The store in which a chain starts. -/
def prepare (c : Chain) (dir home : String) (args : List Json) (presets : Members Json) : Store :=
  let s : Store := ⟨c.vars.overlay presets⟩
  let s := bindInputs c.root.info.ins args s
  let s := if s.contains c.root.info.out then s else s.insert c.root.info.out (.str "")
  (s.set chainDirectory (withSlash dir)).set startDirectory (withSlash home)

end Store

/-- What comes of a chain. -/
structure Report where
  result : Except String Json
  log : List LogEntry

namespace Report

/-- The output; a failure has an empty one. -/
def output (r : Report) : Json :=
  match r.result with
  | .ok v => v
  | .error _ => .str ""

/-- The chain ran to its end. -/
def isSuccess (r : Report) : Bool :=
  match r.result with
  | .ok _ => true
  | .error _ => false

/-- The message of a failure; empty for a success. -/
def message (r : Report) : String :=
  match r.result with
  | .ok _ => ""
  | .error m => m

/-- A definition was refused. -/
def refused (message : String) : Report := ⟨.error message, [.refused message]⟩

end Report

/-- The most steps of a run. -/
def maxSteps : Nat := Nat.pow 10 15

/-- The log of a run, from its beginning on. -/
def Running.log (w : Wording) (verbose : Bool) (r : Running) : List LogEntry :=
  r.events.reverse.flatMap (Event.entries w verbose)

/-- Run a canonical chain. -/
def Chain.run (c : Chain) (w : Workshop) (verbose : Bool) (files : Files) (args : List Json)
    (presets : Members Json) : Report :=
  let verbose := c.verbose || verbose
  let start : Running :=
    { task := .ofBody c.root
      store := .prepare c w.discovery.workingDirectory w.home args presets
      files }
  match start.run w maxSteps with
  | some (.ok r) =>
    ⟨.ok ((r.store.lookup c.root.info.out).getD (.str "")), r.log w.wording verbose⟩
  | some (.error (e, r)) =>
    ⟨.error e.message, r.log w.wording verbose ++ [.runFailed e.message]⟩
  | none => ⟨.error "The chain does not end", []⟩

/-- Run the chain of a source. -/
def Source.run (source : Source) (w : Workshop) (verbose : Bool) (files : Files) (args : List Json)
    (presets : Members Json) : Report :=
  let w := { w with discovery.workingDirectory := source.directory }
  match Chain.ofJson source.definition with
  | .ok c => c.run w verbose files args presets
  | .error e => .refused e.message

/-- The chain and its arguments on a command line. A directory with a slash behind it is followed by
the name of a file in it. -/
def splitArguments : List String → Option (String × List String)
  | [] => none
  | [chain] => some (chain, [])
  | dir :: file :: rest =>
    if dir.toList.getLast? == some '/' then some (dir ++ file, rest) else some (dir, file :: rest)

/-- Run the chain that a command line names or writes. -/
def runArguments (w : Workshop) (verbose : Bool) (files : Files) (argv : List String) : Report :=
  match splitArguments argv with
  | none => .refused (LoadError.noChain.message w.wording)
  | some (chain, args) =>
    match Source.resolve files w.home chain with
    | .ok source => source.run w verbose files (args.map .str) []
    | .error e => .refused (e.message w.wording)

end CommandChain
