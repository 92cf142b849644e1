import CommandChain.Chain.Arrow
import CommandChain.Chain.Node

/-!
# From definitions to canonical chains

A definition is a JSON value: a command, or an object that describes a node with many shorthands.
`Node.ofJson` reads a node and `Chain.ofJson` a whole chain.

Some fields have several names, of which the last one present in a fixed order counts. The field
`error` is a condition: the node becomes a series of what it was before and of a handler under that
condition, which stores the message, runs the actions and raises the error flag. -/

namespace CommandChain

/-- Why a definition is no chain. -/
inductive NormalizeError where
  | notANode (kind : String)
  | varsNotAnObject (kind : String)
deriving Repr, DecidableEq

/-- The wording of a normalization error. -/
def NormalizeError.message : NormalizeError → String
  | .notANode kind => "Cannot normalize chain: expected a string or an object, got " ++ kind
  | .varsNotAnObject kind => "Cannot normalize chain: 'vars' must be an object, got " ++ kind

/-! ### The fields of one node -/

/-- The fields of a node as they are written, apart from its children and its error block. -/
structure Draft where
  command : Option Json := none
  ins : Option Json := none
  out : Option Json := none
  mode : Option Json := none
  guard : Option Json := none
  loop : Option Json := none

namespace Draft

/-- The value under the last of some names that is present. -/
def pick (ms : Members Json) : List String → Option Json
  | [] => none
  | name :: names =>
    match pick ms names with
    | some v => some v
    | none => Members.get? name ms

/-- The value under which an object lists its children. -/
def chains (ms : Members Json) : Option Json := pick ms ["chains", "series", "parallel"]

/-- The mode of an object: the key of its children, or the field. -/
def modeField (ms : Members Json) : Option Json :=
  if Members.contains "parallel" ms then some (.str "parallel")
  else if Members.contains "series" ms then some (.str "series")
  else Members.get? "mode" ms

/-- The fields of an object under any of their names. -/
def ofMembers (ms : Members Json) : Draft where
  command := pick ms ["command", "process"]
  ins := pick ms ["ins", "input", "inputs"]
  out := pick ms ["out", "output", "outs", "outputs"]
  mode := modeField ms
  guard := Members.get? "if" ms
  loop := Members.get? "while" ms

/-- Take the arrows of the command apart. What they name wins over the fields. -/
def withArrow (d : Draft) : Draft :=
  match d.command with
  | none => d
  | some c =>
    let a := Arrow.ofChars c.plainText.toList
    { d with
      command := some (.str a.commandText)
      ins := (a.ins.map fun t => Json.str (String.ofList t)) <|> d.ins
      out := (a.out.map fun t => Json.str (String.ofList t)) <|> d.out }

/-- An input token; a value that is no string stands for itself. -/
def token : Json → String
  | .str s => Text.trimmed s
  | v => "'" ++ v.text ++ "'"

/-- The input tokens of a field. -/
def tokens : Option Json → List String
  | none | some .null => []
  | some (.str s) => splitIns s.toList
  | some (.arr items) => items.map token
  | some v => [token v]

/-- The path of a field; an empty text names the default. -/
def outPath (v : Option Json) : String :=
  match v.map Json.plainText with
  | none | some "" => defaultOut
  | some t => t

/-- What the fields say about a node. -/
def info (d : Draft) : NodeInfo where
  mode := Mode.ofText ((d.mode.map Json.plainText).getD "")
  guard := (d.guard.map Json.plainText).getD "true"
  loop := (d.loop.map Json.plainText).getD "false"
  ins := tokens d.ins
  out := outPath d.out

/-- The node of the fields without children: a leaf, or an empty group if there is no command. -/
def node (d : Draft) : Node :=
  match d.command with
  | some c => .leaf d.info c.plainText
  | none => .group d.info []

/-- The leaf that an error block watches. Its arrows are taken apart once more. -/
def watched (d : Draft) : Node :=
  (withArrow
    { command := d.command, ins := some (.arr ((tokens d.ins).map .str)), out := d.out }).node

end Draft

namespace Node

/-- The leaf of a command. -/
def ofCommand (t : String) : Node := (Draft.withArrow { command := some (.str t) }).node

/-! ### Error blocks -/

/-- The step that stores the message of an error block. -/
def storeMessage (message : Json) : Node := ofCommand ("(" ++ message.text ++ ")-->_error_message")

/-- The step that raises the error flag. -/
def raiseError : Node := ofCommand "(\"true\")-->_error"

/-- The handler of an error block: under the condition `error`, store the message, run the actions
and raise the flag. -/
def handler (error : Json) (message : Option Json) (actions : List Node) : Node :=
  .group { guard := error.plainText }
    ((message.map storeMessage).toList ++ actions ++ [raiseError])

/-- A node whose body is watched by a handler. -/
def guarded (info : NodeInfo) (body handler : Node) : Node :=
  .group { info with mode := .series } [body, handler]

/-! ### Nodes -/

/-- The values of an object are smaller than the object. -/
theorem sizeOf_get? {name : String} {ms : Members Json} {v : Json}
    (h : Members.get? name ms = some v) : sizeOf v + 3 ≤ sizeOf ms := by
  induction ms with
  | nil => simp [Members.get?] at h
  | cons m ms ih =>
    obtain ⟨k, w⟩ := m
    have hs : sizeOf ((k, w) :: ms) = 1 + (1 + sizeOf k + sizeOf w) + sizeOf ms := by simp
    have hk : 1 ≤ sizeOf k := by cases k; simp
    have hm : 1 ≤ sizeOf ms := by
      cases ms with
      | nil => simp
      | cons => simp; omega
    rw [hs]
    simp only [Members.get?] at h
    split at h
    · simp only [Option.some.injEq] at h; subst h; omega
    · have := ih h; omega

theorem sizeOf_pick {ms : Members Json} {v : Json} :
    ∀ {names : List String}, Draft.pick ms names = some v → sizeOf v + 3 ≤ sizeOf ms
  | [], h => by simp [Draft.pick] at h
  | name :: names, h => by
    simp only [Draft.pick] at h
    split at h
    · next w hw => simp only [Option.some.injEq] at h; subst h; exact sizeOf_pick hw
    · exact sizeOf_get? h

theorem sizeOf_toList (v : Json) : sizeOf v.toList ≤ sizeOf v + 2 := by
  cases v <;> simp [Json.toList] <;> omega

mutual

/-- The node of a definition. -/
def ofJson (v : Json) : Except NormalizeError Node :=
  match v with
  | .null => .ok (ofCommand "")
  | .str t => .ok (ofCommand t)
  | .obj ms =>
    let d := (Draft.ofMembers ms).withArrow
    match Members.get? "error" ms, _hc : Draft.chains ms with
    | some error, some items => do
      let body ← ofItems items.toList
      let actions ← ofActions ms
      return guarded d.info (.group { mode := d.info.mode } body)
        (handler error (Members.get? "error_message" ms) actions)
    | some error, none =>
      match d.command with
      | some _ => do
        let actions ← ofActions ms
        return guarded d.info d.watched (handler error (Members.get? "error_message" ms) actions)
      | none => .ok d.node
    | none, some items => do return .group d.info (← ofItems items.toList)
    | none, none => .ok d.node
  | v => .error (.notANode v.kind)
termination_by (sizeOf v, 1)
decreasing_by
  · have h₁ := sizeOf_pick (show Draft.pick ms _ = some items from _hc)
    have h₂ := sizeOf_toList items
    simp only [Prod.lex_def, Json.obj.sizeOf_spec]; left; omega
  · simp only [Prod.lex_def, Json.obj.sizeOf_spec]; left; omega
  · simp only [Prod.lex_def, Json.obj.sizeOf_spec]; left; omega
  · have h₁ := sizeOf_pick (show Draft.pick ms _ = some items from _hc)
    have h₂ := sizeOf_toList items
    simp only [Prod.lex_def, Json.obj.sizeOf_spec]; left; omega

/-- The nodes of the error actions of an object. -/
def ofActions (ms : Members Json) : Except NormalizeError (List Node) :=
  match _h : Members.get? "error_actions" ms with
  | some actions => ofItems actions.toList
  | none => .ok []
termination_by (sizeOf ms, 0)
decreasing_by
  have h₁ := sizeOf_get? _h
  have h₂ := sizeOf_toList actions
  simp only [Prod.lex_def]; left; omega

/-- The nodes of definitions, up to the first that is none. -/
def ofItems (vs : List Json) : Except NormalizeError (List Node) :=
  match vs with
  | [] => .ok []
  | v :: vs => do
    let n ← ofJson v
    return n :: (← ofItems vs)
termination_by (sizeOf vs, 2)

end

end Node

/-! ### Chains -/

namespace Chain

/-- The variables of a definition. -/
def varsOf (v : Json) : Except NormalizeError (Members Json) :=
  match Members.get? "vars" v.members with
  | none | some .null => .ok []
  | some (.obj ms) => .ok ms
  | some w => .error (.varsNotAnObject w.kind)

/-- A field switches something on. -/
def isEnabled : Json → Bool
  | .bool b => b
  | .str s => ["true", "yes", "1"].contains (Text.lower (Text.trimmed s))
  | .num n => n.toDouble != 0.0
  | _ => false

/-- The chain of a definition. A definition whose nodes are malformed is refused for that, whatever
its variables. -/
def ofJson (v : Json) : Except NormalizeError Chain := do
  let pipeline ← Node.ofJson v
  let vars ← varsOf v
  return {
    vars
    verbose := ((Members.get? "verbose" v.members).map isEnabled).getD false
    root := pipeline.wrap }

end Chain

end CommandChain
