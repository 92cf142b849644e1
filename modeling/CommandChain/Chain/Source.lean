import CommandChain.Files
import CommandChain.Json.Reader
import CommandChain.Wording
import CommandChain.Yaml.Document

/-!
# Where a chain comes from

A chain is named by a file or written out in place. Either way its definition is YAML or, failing
that, JSON. The steps of a chain from a file run in the directory of the file. -/

namespace CommandChain

/-- Why there is no definition. -/
inductive LoadError where
  /-- The text is neither a YAML document nor a JSON value. -/
  | malformed (text : String)
  | noChain
  | notText (path : String)
deriving Repr, DecidableEq

/-- The wording of a load error. -/
def LoadError.message (e : LoadError) (w : Wording := {}) : String :=
  "Unable to fetch chain: " ++
    match e with
    | .malformed text =>
      "Not a valid YAML or JSON format\n" ++
        "YAML Error: " ++ w.yaml text ++ "\nJSON Error: " ++ w.json text
    | .noChain => "no chain given"
    | .notText path => path ++ ": stream did not contain valid UTF-8"

/-- A definition, the directory of its steps, and a line that tells where it comes from. -/
structure Source where
  definition : Json
  directory : String
  description : String

/-- The definition that a text writes. -/
def parseDefinition (t : String) : Except LoadError Json :=
  match Yaml.parse? t <|> Json.parse? t with
  | some v => .ok v
  | none => .error (.malformed t)

namespace Source

/-- A definition written out in place, for one who stands in the directory `here`. -/
def inPlace (here t : String) : Except LoadError Source := do
  return { definition := ← parseDefinition t, directory := here,
           description := "CHAIN SCRIPT : " ++ t }

/-- The chain that a text names or writes. -/
def resolve (fs : Files) (here t : String) : Except LoadError Source :=
  match fs.file? here t with
  | none => inPlace here t
  | some (p, content) =>
    match String.fromUTF8? ⟨content.toArray⟩ with
    | none => .error (.notText t)
    | some s => do
      return { definition := ← parseDefinition s, directory := Path.text p.dropLast,
               description := "CHAIN FILE   : " ++ t }

/-- A definition that is given as a value. -/
def ofJson (v : Json) (directory : String) : Source :=
  { definition := v, directory, description := "No description available" }

end Source

end CommandChain
