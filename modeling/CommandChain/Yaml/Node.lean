import CommandChain.Text.Parsed
import CommandChain.Yaml.Token

/-!
# Nodes

The tokens of a document write a tree of nodes: scalars, sequences, mappings, and links to other
nodes of the tree. A node that is left out is an empty scalar. `readNode` reads a node from its
tokens; nodes are nested `maxNesting` deep at most. -/

namespace CommandChain.Yaml

/-- The deepest nesting of sequences and mappings. -/
def maxNesting : Nat := 128

/-- A node of a document. -/
inductive Node where
  | scalar (tag : Option Tag) (isPlain : Bool) (text : String)
  | sequence (items : List Node)
  | mapping (pairs : List (Node × Node))
  /-- The node of a slot is meant. -/
  | link (slot : Nat)
  /-- A node that has a slot. -/
  | anchored (slot : Nat) (node : Node)

namespace Node

/-- A node that is left out. -/
def empty : Node := .scalar none true ""

mutual

/-- The nodes with slots in a node, in the order of the text. -/
def anchors : Node → List (Nat × Node)
  | .scalar .. | .link _ => []
  | .sequence items => anchorsOfItems items
  | .mapping pairs => anchorsOfPairs pairs
  | .anchored slot node => (slot, node) :: node.anchors

/-- The nodes with slots in the items of a sequence. -/
def anchorsOfItems : List Node → List (Nat × Node)
  | [] => []
  | n :: ns => n.anchors ++ anchorsOfItems ns

/-- The nodes with slots in the pairs of a mapping. -/
def anchorsOfPairs : List (Node × Node) → List (Nat × Node)
  | [] => []
  | (k, v) :: ps => k.anchors ++ v.anchors ++ anchorsOfPairs ps

end

mutual

/-- The size of a node, where a sequence or mapping counts twice: for its beginning and its end. -/
def size : Node → Nat
  | .scalar .. | .link _ => 1
  | .sequence items => sizeOfItems items + 2
  | .mapping pairs => sizeOfPairs pairs + 2
  | .anchored _ node => node.size

/-- The size of the items of a sequence. -/
def sizeOfItems : List Node → Nat
  | [] => 0
  | n :: ns => n.size + sizeOfItems ns

/-- The size of the pairs of a mapping. -/
def sizeOfPairs : List (Node × Node) → Nat
  | [] => 0
  | (k, v) :: ps => k.size + v.size + sizeOfPairs ps

end

end Node

/-! ### Slots and tags in front of a node -/

/-- What stands in front of a node. -/
structure Properties where
  slot : Option Nat := none
  tag : Option Tag := none

namespace Properties

/-- Read a slot and a tag in either order. -/
def read : List Token → Properties × List Token
  | .anchor slot :: .tag t :: ts => ({ slot, tag := t }, ts)
  | .tag t :: .anchor slot :: ts => ({ slot, tag := t }, ts)
  | .anchor slot :: ts => ({ slot }, ts)
  | .tag t :: ts => ({ tag := t }, ts)
  | ts => ({}, ts)

/-- Reading leaves no more than there was. -/
theorem length_read_le (ts : List Token) : (read ts).2.length ≤ ts.length := by
  unfold read
  split <;> simp <;> omega

/-- Give a node its slot. -/
def anchor (p : Properties) (n : Node) : Node := p.slot.elim n (.anchored · n)

/-- The node behind the properties. A sequence or mapping must not be of a kind of its own, and
other tags say nothing of it. -/
def apply (p : Properties) : Node → Option Node
  | .scalar _ isPlain text => some (p.anchor (.scalar p.tag isPlain text))
  | n => if p.tag = some .own then none else some (p.anchor n)

/-- The node that is left out behind the properties. -/
def applyEmpty (p : Properties) : Node := p.anchor (.scalar p.tag true "")

end Properties

/-! ### Reading -/

/-- Where a node stands. -/
inductive Place where
  /-- In a flow collection, where no block may begin. -/
  | flow
  /-- In a block. -/
  | block
  /-- In a pair of a block, where a sequence may begin at the column of the key. -/
  | pair
deriving DecidableEq

/-- A node without slot and tag begins here. -/
def Place.begins (p : Place) : List Token → Bool
  | .scalar .. :: _ | .bracketL :: _ | .braceL :: _ => true
  | .sequence :: _ | .mapping :: _ => p != .flow
  | .entry :: _ => p == .pair
  | _ => false

/-- No node stands between the mark of an entry and this one. -/
def endsEntry : List Token → Bool
  | .entry :: _ | .key :: _ | .value :: _ | .blockEnd :: _ => true
  | _ => false

/-- No node stands between a mark of a pair of a block and this one. -/
def endsBlockPart : List Token → Bool
  | .key :: _ | .value :: _ | .blockEnd :: _ => true
  | _ => false

/-- No node stands between a mark of a pair of a flow collection and this one. -/
def endsFlowPart : List Token → Bool
  | .value :: _ | .comma :: _ | .bracketR :: _ | .braceR :: _ => true
  | _ => false

/-- Pass over one given token. -/
def readToken (t : Token) : (ts : List Token) → Option (Parsed Unit ts)
  | t' :: ts => if t' = t then some ⟨(), ts, by simp⟩ else none
  | [] => none

/-- What may be left out: a value and a rest that is not longer. -/
abbrev Optional (α : Type) (ts : List Token) :=
  α × { rest : List Token // rest.length ≤ ts.length }

/-- A value that was not left out. -/
def Optional.ofParsed {α : Type} {ts : List Token} (p : Parsed α ts) : Optional α ts :=
  (p.value, ⟨p.rest, Nat.le_of_lt p.shorter⟩)

mutual

/-- A node inside `maxNesting - room` collections. -/
def readNode (place : Place) (room : Nat) (ts : List Token) : Option (Parsed Node ts) :=
  match ts with
  | .link slot :: ts => some ⟨.link slot, ts, by simp⟩
  | ts =>
    have := Properties.length_read_le ts
    let p := (Properties.read ts).1
    if place.begins (Properties.read ts).2 then
      match readContent room (Properties.read ts).2 with
      | none => none
      | some n => (p.apply n.value).map fun v => ⟨v, n.rest, by have := n.shorter; omega⟩
    else if h : (Properties.read ts).2.length < ts.length then some ⟨p.applyEmpty, _, h⟩
    else none
termination_by (ts.length, 3)
decreasing_by
  rcases Nat.lt_or_eq_of_le this with h | h
  · exact Prod.Lex.left _ _ h
  · rw [h]; exact Prod.Lex.right _ (by decide)

/-- A node without slot and tag. That one begins here, and may stand here, was seen before. -/
def readContent (room : Nat) (ts : List Token) : Option (Parsed Node ts) :=
  match ts, room with
  | .scalar isPlain text :: ts, _ => some ⟨.scalar none isPlain text, ts, by simp⟩
  | .bracketL :: ts, room + 1 =>
    (readFlowItems room ts).map fun p => (p.map Node.sequence).widen (by simp)
  | .braceL :: ts, room + 1 =>
    (readFlowPairs room ts).map fun p => (p.map Node.mapping).widen (by simp)
  | .sequence :: ts, room + 1 =>
    match readEntries room ts with
    | none => none
    | some p =>
      match readToken .blockEnd p.rest with
      | none => none
      | some e => some ⟨.sequence p.value, e.rest, by
          have := p.shorter; have := e.shorter; simp only [List.length_cons]; omega⟩
  | .mapping :: ts, room + 1 =>
    (readPairs room ts).map fun p => (p.map Node.mapping).widen (by simp)
  | .entry :: ts, room + 1 => (readEntries room (.entry :: ts)).map (·.map Node.sequence)
  | _, _ => none
termination_by (ts.length, 2)

/-- The entries of a block up to a token that is none; there is at least one. -/
def readEntries (room : Nat) (ts : List Token) : Option (Parsed (List Node) ts) :=
  match ts with
  | .entry :: ts =>
    if endsEntry ts then
      match readMoreEntries room ts with
      | none => none
      | some (vs, ⟨rest, h⟩) => some ⟨.empty :: vs, rest, Nat.lt_succ_of_le h⟩
    else
      match readNode .block room ts with
      | none => none
      | some v =>
        have := v.shorter
        match readMoreEntries room v.rest with
        | none => none
        | some (vs, ⟨rest, h⟩) => some ⟨v.value :: vs, rest, by
            simp only [List.length_cons]; omega⟩
  | _ => none
termination_by (ts.length, 0)

/-- Further entries of a block, if there are any. -/
def readMoreEntries (room : Nat) (ts : List Token) : Option (Optional (List Node) ts) :=
  match ts with
  | .entry :: rest => (readEntries room (.entry :: rest)).map .ofParsed
  | ts => some ([], ⟨ts, Nat.le_refl _⟩)
termination_by (ts.length, 1)

/-- The pairs of a block up to its end. -/
def readPairs (room : Nat) (ts : List Token) : Option (Parsed (List (Node × Node)) ts) :=
  match ts with
  | .blockEnd :: ts => some ⟨[], ts, by simp⟩
  | .key :: ts =>
    match readBlockPart room ts with
    | none => none
    | some (k, ⟨rest, h₁⟩) =>
      match readBlockValue room rest with
      | none => none
      | some (v, ⟨rest, h₂⟩) =>
        (readPairs room rest).map fun ps =>
          (ps.map ((k, v) :: ·)).widen (by simp only [List.length_cons]; omega)
  | _ => none
termination_by (ts.length, 0)

/-- A key or value of a block. -/
def readBlockPart (room : Nat) (ts : List Token) : Option (Optional Node ts) :=
  if endsBlockPart ts then some (.empty, ⟨ts, Nat.le_refl _⟩)
  else (readNode .pair room ts).map .ofParsed
termination_by (ts.length, 4)

/-- The value behind a key of a block, which may be left out with its mark or without. -/
def readBlockValue (room : Nat) (ts : List Token) : Option (Optional Node ts) :=
  match ts with
  | .value :: ts =>
    (readBlockPart room ts).map fun (v, ⟨rest, h⟩) => (v, ⟨rest, Nat.le_succ_of_le h⟩)
  | ts => some (.empty, ⟨ts, Nat.le_refl _⟩)
termination_by (ts.length, 0)

/-- The items of a flow sequence up to its closing bracket. -/
def readFlowItems (room : Nat) (ts : List Token) : Option (Parsed (List Node) ts) :=
  match readToken .bracketR ts with
  | some e => some ⟨[], e.rest, e.shorter⟩
  | none =>
    match readFlowItem room ts with
    | none => none
    | some v =>
      have h₁ := v.shorter
      match readToken .bracketR v.rest with
      | some e => some ⟨[v.value], e.rest, by have := e.shorter; omega⟩
      | none =>
        match readToken .comma v.rest with
        | none => none
        | some m =>
          have h₂ := m.shorter
          (readFlowItems room m.rest).map fun vs => (vs.map (v.value :: ·)).widen (by omega)
termination_by (ts.length, 5)

/-- An item of a flow sequence; a pair is a mapping of one member. -/
def readFlowItem (room : Nat) (ts : List Token) : Option (Parsed Node ts) :=
  match ts, room with
  | .key :: ts, room + 1 =>
    match readItemKey room ts with
    | none => none
    | some k =>
      have := k.shorter
      (readFlowValue room k.rest).map fun (v, ⟨rest, h⟩) =>
        ⟨.mapping [(k.value, v)], rest, by simp only [List.length_cons]; omega⟩
  | ts, room => readNode .flow room ts
termination_by (ts.length, 4)

/-- A key of a flow sequence. The token that shows that it was left out is passed over with it: in
`[? : : v]` only the second colon has a value behind it. -/
def readItemKey (room : Nat) (ts : List Token) : Option (Parsed Node ts) :=
  match ts with
  | .value :: ts | .comma :: ts | .bracketR :: ts => some ⟨.empty, ts, by simp⟩
  | ts => readNode .flow room ts
termination_by (ts.length, 4)

/-- The pairs of a flow mapping up to its closing brace. -/
def readFlowPairs (room : Nat) (ts : List Token) : Option (Parsed (List (Node × Node)) ts) :=
  match readToken .braceR ts with
  | some e => some ⟨[], e.rest, e.shorter⟩
  | none =>
    match readFlowPair room ts with
    | none => none
    | some m =>
      have h₁ := m.shorter
      match readToken .braceR m.rest with
      | some e => some ⟨[m.value], e.rest, by have := e.shorter; omega⟩
      | none =>
        match readToken .comma m.rest with
        | none => none
        | some c =>
          have h₂ := c.shorter
          (readFlowPairs room c.rest).map fun ms => (ms.map (m.value :: ·)).widen (by omega)
termination_by (ts.length, 5)

/-- A pair of a flow mapping. A node that was not seen to be a key has no value. -/
def readFlowPair (room : Nat) (ts : List Token) : Option (Parsed (Node × Node) ts) :=
  match ts with
  | .key :: ts =>
    match readFlowPart room ts with
    | none => none
    | some (k, ⟨rest, h₁⟩) =>
      (readFlowValue room rest).map fun (v, ⟨rest, h₂⟩) =>
        ⟨(k, v), rest, by simp only [List.length_cons]; omega⟩
  | ts => (readNode .flow room ts).map (·.map (·, .empty))
termination_by (ts.length, 4)

/-- A key of a flow mapping or a value of a flow collection. -/
def readFlowPart (room : Nat) (ts : List Token) : Option (Optional Node ts) :=
  if endsFlowPart ts then some (.empty, ⟨ts, Nat.le_refl _⟩)
  else (readNode .flow room ts).map .ofParsed
termination_by (ts.length, 4)

/-- The value behind a key of a flow collection, which may be left out with its mark or without. -/
def readFlowValue (room : Nat) (ts : List Token) : Option (Optional Node ts) :=
  match ts with
  | .value :: ts =>
    (readFlowPart room ts).map fun (v, ⟨rest, h⟩) => (v, ⟨rest, Nat.le_succ_of_le h⟩)
  | ts => some (.empty, ⟨ts, Nat.le_refl _⟩)
termination_by (ts.length, 0)

end

/-! ### Documents -/

/-- The content of a document is left out. -/
def endsDocument : List Token → Bool
  | [] | .documentStart :: _ | .documentEnd :: _ => true
  | _ => false

/-- The root of a document behind the mark of its beginning. -/
def readMarked (ts : List Token) : Option (Node × List Token) :=
  if endsDocument ts then some (.empty, ts)
  else (readNode .block maxNesting ts).map fun p => (p.value, p.rest)

/-- The root of a document and the tokens behind it. The beginning has to be marked behind
directives and where the content is left out, unless there are no tokens at all. -/
def readDocument : List Token → Option (Node × List Token)
  | [] => some (.empty, [])
  | .directive :: ts =>
    match ts.dropWhile (· = .directive) with
    | .documentStart :: ts => readMarked ts
    | _ => none
  | .documentStart :: ts => readMarked ts
  | ts => (readNode .block maxNesting ts).map fun p => (p.value, p.rest)

end CommandChain.Yaml
