import CommandChain.Yaml.Tag

/-!
# Tokens of a document

A document is cut into scalars and marks. Indentation becomes marks of its own: `sequence` and
`mapping` where a deeper block begins, `blockEnd` where it ends. The first word of a pair is seen to
be a key only at the colon behind it, so a `Candidate` remembers where the key would have begun, and
`key` is then put there.

A name that is given to a node is replaced by a number, its slot, which is the number of the names
before it. A name that is given again takes a new slot, and the next new name may then take the
same.

`scan?` gives the tokens of a text, or nothing if it is no text of tokens. -/

namespace CommandChain.Yaml

/-- A token. -/
inductive Token where
  | documentStart
  | documentEnd
  /-- A block of entries begins here. -/
  | sequence
  /-- A block of pairs begins here. -/
  | mapping
  /-- The last block ends here. -/
  | blockEnd
  /-- An entry of a block of entries follows. -/
  | entry
  | key
  | value
  | bracketL
  | bracketR
  | braceL
  | braceR
  | comma
  | scalar (isPlain : Bool) (text : String)
  /-- The node that follows has a slot. -/
  | anchor (slot : Nat)
  /-- The node of a slot is meant. -/
  | link (slot : Nat)
  | tag (t : Tag)
  | directive
deriving Repr, DecidableEq

/-! ### Places in the text -/

/-- What is left of a text, and where in the text that is. -/
structure Cursor where
  rest : List Char
  line : Nat := 0
  column : Nat := 0
  /-- The number of bytes before it. -/
  offset : Nat := 0

namespace Cursor

/-- One character further. -/
def next (c : Cursor) : Cursor :=
  match c.rest with
  | [] => c
  | ch :: cs =>
    if isBreak ch then ⟨cs, c.line + 1, 0, c.offset + ch.utf8Size⟩
    else ⟨cs, c.line, c.column + 1, c.offset + ch.utf8Size⟩

/-- Several characters further. -/
def skip (c : Cursor) : Nat → Cursor
  | 0 => c
  | n + 1 => c.next.skip n

/-- At a given rest of the text. -/
def goto (c : Cursor) (rest : List Char) : Cursor := c.skip (c.rest.length - rest.length)

end Cursor

/-! ### The state of a scan -/

/-- The place of something that may turn out to be a key. -/
structure Candidate where
  /-- The number of tokens before it. -/
  index : Nat
  line : Nat
  column : Nat
  offset : Nat
  /-- It stands where the block wants a key. -/
  required : Bool

/-- A scan that has read a part of a text. -/
structure Scan where
  cursor : Cursor
  /-- For every open block, innermost first, the column right of its first one. -/
  margins : List Nat := []
  /-- A key may begin here. -/
  keyAllowed : Bool := true
  candidate : Option Candidate := none
  /-- The candidates outside the open flow collections, innermost first. -/
  outer : List (Option Candidate) := []
  /-- What handles stand for because of a directive. -/
  handles : Handles := []
  /-- The version of the language has been told. -/
  hasVersion : Bool := false
  /-- The slots of the names that nodes have. -/
  slots : List (String × Nat) := []
  /-- The tokens so far, the last one first. -/
  tokens : List Token := []

namespace Scan

/-- Inside a flow collection, where indentation has no meaning. -/
def inFlow (s : Scan) : Bool := !s.outer.isEmpty

/-- What stands left of this column ends the innermost block. -/
def margin (s : Scan) : Nat := s.margins.headD 0

/-- Add a token. -/
def emit (s : Scan) (t : Token) : Scan := { s with tokens := t :: s.tokens }

/-- Go on at a given rest of the text. -/
def goto (s : Scan) (rest : List Char) : Scan := { s with cursor := s.cursor.goto rest }

/-- A key may begin next, or not. -/
def allowKey (s : Scan) (b : Bool) : Scan := { s with keyAllowed := b }

/-- Add a token after `index` others. -/
def insertAt (s : Scan) (index : Nat) (t : Token) : Scan :=
  { s with tokens := s.tokens.insertIdx (s.tokens.length - index) t }

/-- End the blocks whose margin is right of a column. -/
def close (s : Scan) (column : Nat) : Scan :=
  if s.inFlow then s
  else
    { s with
      margins := s.margins.dropWhile (column < ·)
      tokens := (s.margins.takeWhile (column < ·)).map (fun _ => .blockEnd) ++ s.tokens }

/-- Begin a block at a column, unless the innermost one is as deep. Its mark comes after `index`
other tokens. -/
def openBlock (s : Scan) (column index : Nat) (t : Token) : Scan :=
  if s.inFlow || column < s.margin then s
  else { s.insertAt index t with margins := (column + 1) :: s.margins }

/-- Begin a block at the cursor. -/
def openHere (s : Scan) (t : Token) : Scan := s.openBlock s.cursor.column s.tokens.length t

/-- Give up the candidate; one that is required must not be given up. -/
def dropCandidate (s : Scan) : Option Scan :=
  match s.candidate with
  | some k => if k.required then none else some { s with candidate := none }
  | none => some s

/-- What follows may be a key, if one may begin here. -/
def markCandidate (s : Scan) : Option Scan :=
  if s.keyAllowed then do
    let s ← s.dropCandidate
    return { s with
      candidate := some {
        index := s.tokens.length
        line := s.cursor.line
        column := s.cursor.column
        offset := s.cursor.offset
        required := !s.inFlow && s.margin == s.cursor.column + 1 } }
  else some s

/-- A key ends on its line and has at most 1024 bytes. -/
def isStale (s : Scan) (k : Candidate) : Bool :=
  k.line < s.cursor.line || k.offset + 1024 < s.cursor.offset

/-- A candidate that is not stale; a stale one must not be required. -/
def fresh? (s : Scan) : Option Candidate → Option (Option Candidate)
  | some k => if s.isStale k then if k.required then none else some none else some (some k)
  | none => some none

/-- Give up the stale candidates. -/
def dropStale (s : Scan) : Option Scan := do
  let candidate ← s.fresh? s.candidate
  let outer ← s.outer.mapM s.fresh?
  return { s with candidate, outer }

/-! ### Between tokens -/

/-- A byte order mark. -/
def isByteOrderMark (c : Char) : Bool := c.toNat == 0xFEFF

/-- Pass over blanks, comments, line breaks and a byte order mark at the front of a line. Where a
key may begin, a tabulator is no blank. The flag says that a comment is being read. -/
def skipFrom (inFlow : Bool) (keyAllowed inComment : Bool) (c : Cursor) :
    List Char → Cursor × Bool
  | [] => (c, keyAllowed)
  | ch :: cs =>
    if isBreak ch then skipFrom inFlow (keyAllowed || !inFlow) false c.next cs
    else if inComment then skipFrom inFlow keyAllowed true c.next cs
    else if ch == '#' then skipFrom inFlow keyAllowed true c.next cs
    else if ch == ' ' || (ch == '\t' && (inFlow || !keyAllowed)) ||
        (c.column == 0 && isByteOrderMark ch) then
      skipFrom inFlow keyAllowed false c.next cs
    else (c, keyAllowed)

/-- Go on to the next token. -/
def skipSpace (s : Scan) : Scan :=
  let (cursor, keyAllowed) := skipFrom s.inFlow s.keyAllowed false s.cursor s.cursor.rest
  { s with cursor, keyAllowed }

/-! ### Marks -/

/-- A mark of one character. -/
def mark (s : Scan) (t : Token) : Scan := { s.emit t with cursor := s.cursor.next }

/-- The line that begins or ends a document. -/
def marker (s : Scan) (t : Token) : Option Scan := do
  let s ← (s.close 0).dropCandidate
  return ((s.emit t).allowKey false).goto (s.cursor.rest.drop 3)

/-- The opening bracket of a flow collection. -/
def openFlow (s : Scan) (t : Token) : Option Scan := do
  let s ← s.markCandidate
  return { (s.mark t).allowKey true with candidate := none, outer := s.candidate :: s.outer }

/-- The closing bracket of a flow collection. -/
def closeFlow (s : Scan) (t : Token) : Option Scan := do
  let s ← s.dropCandidate
  let s := (s.mark t).allowKey false
  match s.outer with
  | [] => some s
  | k :: ks => some { s with candidate := k, outer := ks }

/-- The comma between items. -/
def comma (s : Scan) : Option Scan := do
  let s ← s.dropCandidate
  return (s.mark .comma).allowKey true

/-- The hyphen before an entry. -/
def entry (s : Scan) : Option Scan := do
  if !s.inFlow && !s.keyAllowed then none
  let s ← (s.openHere .sequence).dropCandidate
  return (s.mark .entry).allowKey true

/-- The question mark before a key. -/
def key (s : Scan) : Option Scan := do
  if !s.inFlow && !s.keyAllowed then none
  let s ← (s.openHere .mapping).dropCandidate
  return (s.mark .key).allowKey !s.inFlow

/-- The colon before a value. It makes a key of the candidate. -/
def value (s : Scan) : Option Scan :=
  match s.candidate with
  | some k =>
    let s := (s.insertAt k.index .key).openBlock k.column k.index .mapping
    some { (s.mark .value).allowKey false with candidate := none }
  | none =>
    if !s.inFlow && !s.keyAllowed then none
    else some (((s.openHere .mapping).mark .value).allowKey !s.inFlow)

/-! ### Scalars -/

/-- A scalar of a given text. -/
def scalar (s : Scan) (isPlain : Bool) (text rest : List Char) : Scan :=
  (s.emit (.scalar isPlain (String.ofList text))).goto rest

/-- A scalar in quotation marks. -/
def quoted (s : Scan) (mark : Char) (cs : List Char) : Option Scan := do
  let s ← s.markCandidate
  let (text, rest) ← quotedFrom mark [] .none 0 cs
  return (s.scalar false text rest).allowKey false

/-- A scalar of whole lines. -/
def block (s : Scan) (folded : Bool) (cs : List Char) : Option Scan := do
  let s ← s.dropCandidate
  let (text, rest) ← readBlock folded s.margin cs
  return (s.scalar false text rest).allowKey true

/-- A scalar without quotation marks. -/
def plain (s : Scan) : Option Scan := do
  let s ← s.markCandidate
  let p ← plainFrom s.inFlow s.margin [] .none s.cursor.rest
  return (s.scalar true p.text p.rest).allowKey p.isBroken

/-- The characters that begin something else than a plain scalar. -/
def indicators : List Char :=
  ['-', '?', ':', ',', '[', ']', '{', '}', '#', '&', '*', '!', '|', '>', '\'', '"', '%', '@',
    Char.ofNat 0x60]

/-- A plain scalar may begin with these characters. -/
def beginsPlain (s : Scan) (c : Char) (cs : List Char) : Bool :=
  !(indicators.contains c || endsWord [c]) ||
    (c == '-' && !(cs.head?.map isBlank).getD false) ||
    (!s.inFlow && (c == '?' || c == ':') && !endsWord cs)

/-! ### Properties of nodes, directives -/

/-- The name of a node, which a mark or white space must end. -/
def readNodeName (cs : List Char) : Option (String × List Char) :=
  let rest := cs.dropWhile isWordChar
  if rest.length < cs.length &&
      (endsWord rest || (rest.head?.map fun c => "?:,]\x7d%@\x60".contains c).getD false) then
    some (String.ofList (cs.takeWhile isWordChar), rest)
  else none

/-- The name that a node is given. -/
def anchor (s : Scan) (cs : List Char) : Option Scan := do
  let s ← s.markCandidate
  let (name, rest) ← readNodeName cs
  let slot := s.slots.length
  let slots := (name, slot) :: s.slots.filter (·.1 != name)
  return ({ s.emit (.anchor slot) with slots }.allowKey false).goto rest

/-- The name of a node in its place. -/
def link (s : Scan) (cs : List Char) : Option Scan := do
  let s ← s.markCandidate
  let (name, rest) ← readNodeName cs
  let slot ← s.slots.lookup name
  return ((s.emit (.link slot)).allowKey false).goto rest

/-- The tag of a node. -/
def tag (s : Scan) : Option Scan := do
  let s ← s.markCandidate
  let (t, rest) ← readTag (s.handles ++ Tag.coreHandles) s.cursor.rest
  if endsWord rest || (s.inFlow && rest.head? == some ',') then
    return ((s.emit (.tag t)).allowKey false).goto rest
  else none

/-- A directive. Neither the version nor a handle can be told twice. -/
def directive (s : Scan) (cs : List Char) : Option Scan := do
  let s ← (s.close 0).dropCandidate
  let (d, rest) ← readDirective cs
  let s := ((s.emit .directive).allowKey false).goto rest
  match d with
  | .version => if s.hasVersion then none else some { s with hasVersion := true }
  | .handle handle beginning =>
    if (s.handles.lookup handle).isSome then none
    else some { s with handles := (handle, beginning) :: s.handles }

/-! ### The whole text -/

/-- Read the token at the cursor. -/
def token (s : Scan) (c : Char) (cs : List Char) : Option Scan :=
  if s.cursor.column == 0 && c == '%' then s.directive cs
  else if s.cursor.column == 0 && isMarker (c :: cs) then
    s.marker (if c == '-' then .documentStart else .documentEnd)
  else if c == '[' then s.openFlow .bracketL
  else if c == '{' then s.openFlow .braceL
  else if c == ']' then s.closeFlow .bracketR
  else if c == '}' then s.closeFlow .braceR
  else if c == ',' then s.comma
  else if c == '-' && endsWord cs then s.entry
  else if c == '?' && (s.inFlow || endsWord cs) then s.key
  else if c == ':' && (s.inFlow || endsWord cs) then s.value
  else if c == '*' then s.link cs
  else if c == '&' then s.anchor cs
  else if c == '!' then s.tag
  else if (c == '|' || c == '>') && !s.inFlow then s.block (c == '>') cs
  else if c == '\'' || c == '"' then s.quoted c cs
  else if s.beginsPlain c cs then s.plain
  else none

/-- Read all further tokens, if there are fewer than `fuel`. Every token takes at least one
character. -/
def run : (fuel : Nat) → Scan → Option (List Token)
  | 0, _ => none
  | fuel + 1, s => do
    let s ← s.skipSpace.dropStale
    match s.cursor.rest with
    | [] => return (← (s.close 0).dropCandidate).tokens.reverse
    | c :: cs => (← (s.close (s.cursor.column + 1)).token c cs).run fuel

end Scan

/-! ### Characters -/

/-- The characters that a document may hold. -/
def isAllowed (c : Char) : Bool :=
  let n := c.toNat
  n == 9 || n == 0x0A || n == 0x0D || (0x20 ≤ n && n ≤ 0x7E) || n == 0x85 ||
    (0xA0 ≤ n && n ≤ 0xFFFD) || 0x10000 ≤ n

/-- The text with every line break of one or two control characters as a line feed. -/
def uniformBreaks : List Char → List Char
  | [] => []
  | '\r' :: '\n' :: cs => '\n' :: uniformBreaks cs
  | c :: cs => (if c == '\r' || c.toNat == 0x85 then '\n' else c) :: uniformBreaks cs

/-- The tokens of a text. -/
def scan? (t : String) : Option (List Token) :=
  let cs := t.toList
  if cs.all isAllowed then Scan.run (cs.length + 1) { cursor := { rest := uniformBreaks cs } }
  else none

end CommandChain.Yaml
