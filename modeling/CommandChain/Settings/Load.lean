import CommandChain.Settings.Basic
import CommandChain.Settings.EnvFile
import CommandChain.Toml.Document

/-!
# Loading settings

Settings come in layers: the defaults, a TOML file, and the environment, of which the later win. A
file that is asked for has to be there; the one that is looked for otherwise need not. Keys may be
written in any case.

A name `CHIMERA__SECTION__KEY` in the environment, in any case, sets the key of a section. -/

namespace CommandChain.Settings

/-! ### Keys -/

/-- The characters of the names in a key. -/
def isKeyChar (c : Char) : Bool := c.isAlphanum || c == ' ' || c == '_' || c == '-'

/-- A key is a path of names with points between them. A text that is no such path stands for
itself. -/
def keyPath (key : String) : List String :=
  let names := Text.fields '.' key.toList
  if names.all fun n => !n.isEmpty && n.all isKeyChar then names.map String.ofList else [key]

/-- The table under a key, or an empty one. -/
def tableOf (key : String) (t : Members Toml) : Members Toml :=
  match Members.get? key t with
  | some (.table ms) => ms
  | _ => []

mutual

/-- Put a value under a key, which is written in small letters. A table is joined with the one that
is there. -/
def put (key : String) (v : Toml) (t : Members Toml) : Members Toml :=
  match v with
  | .table ms =>
    let key := Text.lower key
    if ms.isEmpty && Members.contains key t then t
    else Members.insert key (.table (putAll ms (tableOf key t))) t
  | v => Members.insert (Text.lower key) v t

/-- Put values under their keys one after the other. -/
def putAll : List (String × Toml) → Members Toml → Members Toml
  | [], t => t
  | (key, v) :: ms, t => putAll ms (put key v t)

end

/-- Put a value at the end of a path. What stands on the way and is no table gives way to one. -/
def place (v : Toml) : List String → Members Toml → Members Toml
  | [], t => t
  | [key], t => put key v t
  | key :: path, t =>
    let key := Text.lower key
    Members.insert key (.table (place v path (tableOf key t))) t

/-- A layer: values by their keys. -/
abbrev Layer := List (String × Toml)

/-- Lay one more layer over a table. -/
def overlay (t : Members Toml) (l : Layer) : Members Toml :=
  l.foldl (fun t m => place m.2 (keyPath m.1) t) t

/-! ### The environment -/

/-- How the names of settings begin, in small letters. -/
def nameStart : List Char := ['c', 'h', 'i', 'm', 'e', 'r', 'a', '_', '_']

/-- A text with a point for every two underscores. -/
def withPoints : List Char → List Char
  | '_' :: '_' :: cs => '.' :: withPoints cs
  | c :: cs => c :: withPoints cs
  | [] => []

/-- The key that a name in the environment stands for. -/
def keyOfName? (name : String) : Option String :=
  let cs := name.toList.map Char.toLower
  if nameStart.isPrefixOf cs then some (String.ofList (withPoints (cs.drop nameStart.length)))
  else none

/-- A whole number of 64 bits. -/
def integer? (t : List Char) : Option Int :=
  let (negative, ds) := Decimal.readSign t
  let i : Int := if negative then -(Decimal.ofDigits ds : Int) else Decimal.ofDigits ds
  if !ds.isEmpty && ds.all Char.isDigit && -Number.integerLimit ≤ i && i < Number.integerLimit then
    some i
  else none

/-- The value that a text in the environment writes: a truth value, a number, a list with commas if
the key has one, or a text. -/
def valueOfText (key t : String) : Toml :=
  let word := Text.lower t
  if word == "true" then .boolean true
  else if word == "false" then .boolean false
  else
    match integer? t.toList with
    | some i => .integer i
    | none =>
      match Decimal.readDouble? t.toList with
      | some x => .float x
      | none =>
        if key == "capabilities.plugin_paths" then .array ((Text.fieldsText ',' t).map .text)
        else .text t

/-- The settings in an environment. -/
def ofEnvironment (env : Environment) : Layer :=
  env.filterMap fun m => (keyOfName? m.1).map fun key => (key, valueOfText key m.2)

/-! ### Files -/

/-- The file that is read if none is asked for. -/
def defaultFile : String := "chimera.toml"

/-- The name in the environment of the file that is read. -/
def fileVariable : String := "CHIMERA_CONFIG_PATH"

/-- A path without slashes at its end, and with the ending of a TOML file. -/
def withEnding (path : String) : String :=
  String.ofList ((path.toList.reverse.dropWhile (· == '/')).reverse) ++ ".toml"

/-- The file of a path. If there is none, the ending may have been left out. -/
def content? (fs : Files) (here path : String) : Option String :=
  ((fs.file? here path) <|> (fs.file? here (withEnding path))).map fun f => Text.decode f.2

/-- The layer of a file, seen from the directory `here`. -/
def ofFile (fs : Files) (here path : String) (isRequired : Bool) : Except SettingsError Layer :=
  match content? fs here path with
  | none => if isRequired then .error (.missing path) else .ok []
  | some t =>
    match Toml.parse? (String.ofList (Text.dropOrderMark t.toList)) with
    | some ms => .ok ms
    | none => .error (.malformed path t)

/-! ### Layers together -/

/-- What is asked for: a file, a last word on how much is logged, and whether the environment
counts. -/
structure Request where
  path : Option String := none
  verbose : Option Bool := none
  readsEnvironment : Bool := true

/-- The settings for one who stands in the directory `here`. -/
def load (fs : Files) (here : String) (env : Environment) (r : Request) :
    Except SettingsError Settings := do
  let env : Environment := if r.readsEnvironment then env else []
  let file ←
    match r.path <|> Members.get? fileVariable env with
    | some path => ofFile fs here path true
    | none => ofFile fs here defaultFile false
  let s ← ofTable (overlay (overlay [] file) (ofEnvironment env))
  return { s with verbose := r.verbose.getD s.verbose }

end CommandChain.Settings
