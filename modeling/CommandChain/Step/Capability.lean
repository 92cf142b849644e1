import CommandChain.Json.Basic
import CommandChain.Text.Blank
import CommandChain.Text.Quoted

/-!
# Capabilities

A capability is a function that a command names in brackets: `[name path.to.it]`. The functions that
a host registers form a tree under each name. A name that is not registered may still be that of a
file, a plugin, in the working directory or in one of the plugin directories. -/

namespace CommandChain

/-! ### References -/

/-- A command in brackets, taken apart. -/
structure Reference where
  name : String
  path : List String
deriving Repr, DecidableEq

/-- The text between brackets, if it stands between brackets. -/
def Reference.inner? : List Char → Option (List Char)
  | '[' :: t => if t.getLast? == some ']' then some t.dropLast else none
  | _ => none

/-- The words between the brackets: trimmed, without quotation marks, none of them empty. -/
def Reference.words (inner : List Char) : List (List Char) :=
  ((Text.splitTop [' '] inner).map fun w => Text.unquote (Text.trim w)).filter (!·.isEmpty)

/-- The reference that a command makes. The words behind the name form a path with dots in it. -/
def Reference.ofCommand? (command : String) : Option Reference :=
  (Reference.inner? command.toList).bind fun inner =>
    match Reference.words inner with
    | [] => none
    | [name] => some ⟨String.ofList name, []⟩
    | name :: rest =>
      some ⟨String.ofList name,
        Text.fieldsText '.' (String.intercalate " " (rest.map String.ofList))⟩

/-! ### What a capability hands back -/

/-- The outcome of a call. What is left out has its default. -/
structure CapabilityOutput where
  result : Option Json := none
  success : Option Bool := none
  message : Option String := none
deriving Inhabited

namespace CapabilityOutput

/-- A success with a result. -/
def ok (v : Json) : CapabilityOutput := { result := some v, success := some true }

/-- A failure with a message. -/
def failed (message : String) : CapabilityOutput :=
  { success := some false, message := some message }

/-- The result, which is 0 by default and never null. -/
def value (o : CapabilityOutput) : Json :=
  match o.result with
  | none | some .null => .zero
  | some v => v

/-- A call succeeds unless it says otherwise. -/
def isSuccess (o : CapabilityOutput) : Bool := o.success.getD true

/-- The message, if there is one that says anything. -/
def message? (o : CapabilityOutput) : Option String := o.message.filter (!·.isEmpty)

end CapabilityOutput

/-! ### Registered capabilities -/

/-- A tree of functions. -/
inductive Export where
  | function (call : List Json → CapabilityOutput)
  | group (members : List (String × Export))

/-- The function at the end of a path. -/
def Export.walk : Export → List String → Option (List Json → CapabilityOutput)
  | .function f, [] => some f
  | .function _, _ :: _ => none
  | .group _, [] => none
  | .group ms, name :: path => (Members.get? name ms).bind fun e => e.walk path
termination_by _ path => path.length

/-- The registered trees by name. -/
abbrev Registry := Members Export

/-! ### Resolution -/

/-- Where plugins are looked for: perhaps the working directory, then some others. -/
structure Discovery where
  workingDirectory : String
  discoverRelative : Bool := true
  pluginPaths : List String := []

/-- What a reference resolves to. -/
inductive Callable where
  | function (call : List Json → CapabilityOutput)
  | plugin (program : String) (arguments : List String)

/-- The places where a plugin may be, in order, given how a name is joined to a directory. -/
def Discovery.candidates (d : Discovery) (join : String → String → String) (name : String) :
    List String :=
  ((if d.discoverRelative then [d.workingDirectory] else []) ++ d.pluginPaths).map (join · name)

/-- What a reference resolves to, if anything. A registered name never means a plugin. -/
def Reference.resolve? (registry : Registry) (d : Discovery) (join : String → String → String)
    (isFile : String → Bool) (r : Reference) : Option Callable :=
  match Members.get? r.name registry with
  | some e => (e.walk r.path).map .function
  | none => ((d.candidates join r.name).find? isFile).map (.plugin · r.path)

end CommandChain
