import CommandChain.Yaml.Node
import CommandChain.Yaml.Plain

/-!
# The value of a document

The value of a document is a JSON value. Keys have to be scalars and stand for their text, whatever
a plain scalar would mean elsewhere; of equal keys the last wins. A text of no tokens at all is
null, and a text of two documents is refused.

A link has the value of the node that it means, as deep as the link stands. So that a short document
cannot have a value without end, no more links are followed than `linksPerNode` times its size. -/

namespace CommandChain.Yaml

/-- How often links may be followed, for each node of the document. -/
def linksPerNode : Nat := 100

/-- A value found while links are counted: the state is how many may still be followed. -/
abbrev Linked := StateT Nat Option

namespace Node

/-- The node itself behind its slot, or the one that a link means. -/
def target (slots : List (Nat × Node)) : Node → Linked Node
  | .anchored _ n => pure n
  | .link slot => fun
    | 0 => none
    | links + 1 => (slots.lookup slot).map (·, links)
  | n => pure n

/-- The text of a key. -/
def keyText (slots : List (Nat × Node)) (n : Node) : Linked String := do
  match ← n.target slots with
  | .scalar _ _ text => return text
  | _ => failure

/-- The value of a node, in which collections are nested `room` deep at most. -/
def value (slots : List (Nat × Node)) : (room : Nat) → Node → Linked Json
  | 0, n => do
    match ← n.target slots with
    | .scalar tag isPlain text => liftM (scalarValue? tag isPlain text)
    | _ => failure
  | room + 1, n => do
    match ← n.target slots with
    | .scalar tag isPlain text => liftM (scalarValue? tag isPlain text)
    | .sequence items => return .arr (← items.mapM (value slots room))
    | .mapping pairs =>
      let ms ← pairs.mapM fun (k, v) => do return (← k.keyText slots, ← value slots room v)
      return .obj (Members.ofList ms)
    | _ => failure

/-- The value of the root of a document. A slot that several nodes have is that of the last one. -/
def value? (root : Node) : Option Json :=
  (root.value root.anchors.reverse maxNesting).run' (linksPerNode * root.size)

end Node

/-- The value that a text of one document writes. -/
def parse? (t : String) : Option Json := do
  let (root, rest) ← readDocument (← scan? t)
  if rest.all (· = .documentEnd) then root.value? else none

end CommandChain.Yaml
