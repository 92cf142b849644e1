import CommandChain.Json.Printer
import CommandChain.Text.Blank

/-!
# Canonical chains

A chain is a tree. A leaf holds one command and a group holds the nodes it is made of, which run one
after the other or side by side. Every node has a guard, by which it may be skipped, a loop
condition under which it is repeated, the input tokens of its command and the path of its result.

The root of a chain has no guard and no loop of its own and holds exactly one node, the pipeline. -/

namespace CommandChain

/-- How the nodes of a group are run. -/
inductive Mode where
  | series
  | parallel
deriving Repr, DecidableEq, Inhabited

/-- The mode that a text names; any text but `parallel` names the series. -/
def Mode.ofText (t : String) : Mode :=
  if Text.lower (Text.trimmed t) == "parallel" then .parallel else .series

/-- The name of a mode. -/
def Mode.name : Mode → String
  | .series => "series"
  | .parallel => "parallel"

/-- The path of a result that names none. -/
def defaultOut : String := "_ans"

/-- What every node has, with the values that hold where a definition gives none. -/
structure NodeInfo where
  mode : Mode := .series
  guard : String := "true"
  loop : String := "false"
  ins : List String := []
  out : String := defaultOut
deriving Repr, DecidableEq, Inhabited

/-- A node of a chain. -/
inductive Node where
  | leaf (info : NodeInfo) (command : String)
  | group (info : NodeInfo) (children : List Node)
deriving Repr, Inhabited

/-- What the node has apart from its command or children. -/
def Node.info : Node → NodeInfo
  | .leaf i _ => i
  | .group i _ => i

/-- A whole chain: the variables it starts with, whether it reports every step, and its tree. -/
structure Chain where
  vars : Members Json
  verbose : Bool
  root : Node
deriving Inhabited

/-- The root over a pipeline. It keeps the inputs and the result of the pipeline; the guard and the
loop stay below. A group also leaves its inputs and its result to the root, and the mode of a leaf
is forgotten. -/
def Node.wrap : Node → Node
  | .leaf i c =>
    let i := { i with mode := .series }
    .group { i with guard := "true", loop := "false" } [.leaf i c]
  | .group i ns =>
    .group { i with guard := "true", loop := "false" }
      [.group { i with ins := [], out := defaultOut } ns]

/-! ### Chains as JSON -/

/-- The fields of a node that are not its command or children. -/
def NodeInfo.toMembers (i : NodeInfo) : List (String × Json) :=
  [("mode", .str i.mode.name), ("if", .str i.guard), ("while", .str i.loop),
    ("ins", .arr (i.ins.map .str)), ("out", .str i.out)]

mutual

/-- A node as an object, with its fields in the order in which they are printed. -/
def Node.toJson : Node → Json
  | .leaf i c => .obj (i.toMembers ++ [("command", .str c)])
  | .group i ns => .obj (i.toMembers ++ [("chains", .arr (Node.listToJson ns))])

/-- Nodes as objects. -/
def Node.listToJson : List Node → List Json
  | [] => []
  | n :: ns => n.toJson :: Node.listToJson ns

end


/-- A chain as an object, with its fields in the order in which they are printed. -/
def Chain.toJson (c : Chain) : Json :=
  .obj [("vars", .obj c.vars), ("verbose", .bool c.verbose), ("root", c.root.toJson)]

end CommandChain
