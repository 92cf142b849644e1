import CommandChain.Members
import CommandChain.Number.Decimal
import CommandChain.Text.Blank
import CommandChain.Toml.Scalar
import CommandChain.Wording

/-!
# Settings

Settings are read from a table of three sections. What a section leaves out has its default, and
what it has beyond its keys is ignored. A text may be given as any scalar and a truth value as a
number or a word, but a list has to be a list. -/

namespace CommandChain

/-- How steps are run, where plugins are looked for, and what is logged. -/
structure Settings where
  shell : String := "sh"
  shellFlag : String := "-c"
  verbose : Bool := false
  pluginPaths : List String := []
  discoverRelative : Bool := true
  filter : String := "info"
deriving Repr, DecidableEq

/-- Why there are no settings. -/
inductive SettingsError where
  | missing (path : String)
  /-- The text of a file is no TOML document. -/
  | malformed (path text : String)
  /-- The value of a key is not of its kind. -/
  | wrongKind (key : String)
deriving Repr, DecidableEq

/-- The wording of an error. -/
def SettingsError.message (e : SettingsError) (w : Wording := {}) : String :=
  "Failed to load configuration: " ++
    match e with
    | .missing path => "configuration file \"" ++ path ++ "\" not found"
    | .malformed path text => w.toml text ++ " in " ++ path
    | .wrongKind key => "invalid type for key `" ++ key ++ "`"

namespace Toml

/-- A double with the fewest digits that read back, never with an exponent. Of two decimals equally
near the greater magnitude is written. -/
def floatText (x : Float) : String :=
  match Double.parts x with
  | .nan => "NaN"
  | .infinite negative => if negative then "-inf" else "inf"
  | .finite negative m e =>
    let magnitude :=
      if m = 0 then ['0'] else (Decimal.shortest .up (Double.ofDyadic false m e) m e).plain
    String.ofList (if negative then '-' :: magnitude else magnitude)

/-- A scalar as a text. -/
def toText? : Toml → Option String
  | .text t | .moment t => some t
  | .integer i => some (toString i)
  | .float x => some (floatText x)
  | .boolean b => some (if b then "true" else "false")
  | .array _ | .table _ => none

/-- A scalar as a truth value. -/
def toBool? : Toml → Option Bool
  | .boolean b => some b
  | .integer i => some (i != 0)
  | .float x => some (x != 0.0)
  | .text t | .moment t =>
    let word := Text.lower t
    if ["1", "true", "on", "yes"].contains word then some true
    else if ["0", "false", "off", "no"].contains word then some false
    else none
  | .array _ | .table _ => none

/-- A list of texts. -/
def toTexts? : Toml → Option (List String)
  | .array items => items.mapM toText?
  | _ => none

/-- The members of a section. A list gives the values of the keys in their order. -/
def toSection? (keys : List String) : Toml → Option (Members Toml)
  | .table ms => some ms
  | .array items => some (keys.zip items)
  | _ => none

end Toml

namespace Settings

/-- The value of a key, or its default. -/
def valueOf {α : Type} (read : Toml → Option α) (key : String) (fallback : α) (ms : Members Toml) :
    Except SettingsError α :=
  match Members.get? key ms with
  | none => .ok fallback
  | some v =>
    match read v with
    | some a => .ok a
    | none => .error (.wrongKind key)

/-- The settings of a table. -/
def ofTable (t : Members Toml) : Except SettingsError Settings := do
  let d : Settings := {}
  let runner ← valueOf (Toml.toSection? ["shell", "shell_flag", "verbose"]) "runner" [] t
  let capabilities ←
    valueOf (Toml.toSection? ["plugin_paths", "discover_relative"]) "capabilities" [] t
  let logging ← valueOf (Toml.toSection? ["filter"]) "logging" [] t
  return {
    shell := ← valueOf Toml.toText? "shell" d.shell runner
    shellFlag := ← valueOf Toml.toText? "shell_flag" d.shellFlag runner
    verbose := ← valueOf Toml.toBool? "verbose" d.verbose runner
    pluginPaths := ← valueOf Toml.toTexts? "plugin_paths" d.pluginPaths capabilities
    discoverRelative := ← valueOf Toml.toBool? "discover_relative" d.discoverRelative capabilities
    filter := ← valueOf Toml.toText? "filter" d.filter logging }

end Settings

end CommandChain
