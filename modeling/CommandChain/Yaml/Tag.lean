import CommandChain.Text.Hex
import CommandChain.Yaml.Scalar

/-!
# Tags and directives

A tag names the kind of a node. It is written whole between angle brackets, or as a handle and the
rest of the name: in `!!int` the handle is `!!`, in `!mine` it is `!`. A handle stands for a text of
its own, which a directive in front of the document can change.

The name of a tag is a text of bytes, so here a character below 256 stands for the byte of that
number. Bytes are also written as `%` and two hexadecimal digits. -/

namespace CommandChain.Yaml

/-- What a tag says of its node. -/
inductive Tag where
  /-- A kind that only this document knows, or one without a name. -/
  | own
  | bool
  | int
  | float
  | null
  /-- Any other known kind; a scalar is then a text. -/
  | text
  /-- Bytes that write no text. They say nothing. -/
  | broken
deriving Repr, DecidableEq

/-- What handles stand for. -/
abbrev Handles := List (List Char × List Char)

namespace Tag

/-- The text that the handle `!!` stands for. -/
def coreName : List Char := "tag:yaml.org,2002:".toList

/-- What the handles of every document stand for. -/
def coreHandles : Handles := [("!".toList, "!".toList), ("!!".toList, coreName)]

/-- The bytes write a text. -/
def isText (cs : List Char) : Bool :=
  ByteArray.validateUTF8 ⟨(cs.map fun c => UInt8.ofNat c.toNat).toArray⟩

/-- The tag of a name. -/
def ofName (cs : List Char) : Tag :=
  match cs with
  | '!' :: cs => if isText cs then .own else .broken
  | cs =>
    if cs == coreName ++ "bool".toList then .bool
    else if cs == coreName ++ "int".toList then .int
    else if cs == coreName ++ "float".toList then .float
    else if cs == coreName ++ "null".toList then .null
    else .text

end Tag

/-! ### Names -/

/-- The characters of the names of anchors, handles and directives. -/
def isWordChar (c : Char) : Bool := c.isAlphanum || c == '_' || c == '-'

/-- Read a handle: an exclamation mark, or a word between two. The second one may be missing, and
then the word is no part of a handle but of a name. -/
def readHandle : List Char → Option (List Char × List Char)
  | '!' :: cs =>
    let word := '!' :: cs.takeWhile isWordChar
    match cs.dropWhile isWordChar with
    | '!' :: rest => some (word ++ ['!'], rest)
    | rest => some (word, rest)
  | _ => none

/-- The mark at the end of a handle stands there. -/
def isHandle (cs : List Char) : Bool := 2 ≤ cs.length && cs.getLast? == some '!'

/-- The characters of a name, which are more if it is `whole` and not behind a handle. -/
def isNameChar (whole : Bool) (c : Char) : Bool :=
  isWordChar c || ";/?:@&=+$.!~*'()".contains c || (whole && ",[]".contains c)

/-- How many bytes of a character follow its first one. -/
def furtherBytes? (b : Nat) : Option Nat :=
  if b < 0x80 then some 0
  else if b < 0xC0 then none
  else if b < 0xE0 then some 1
  else if b < 0xF0 then some 2
  else if b < 0xF8 then some 3
  else none

/-- How many bytes are missing after a byte, when `missing` were missing before it. -/
def afterByte? (missing b : Nat) : Option Nat :=
  match missing with
  | 0 => furtherBytes? b
  | n + 1 => if 0x80 ≤ b && b < 0xC0 then some n else none

/-- Read the bytes of a name and leave the rest. The bytes of a character all have to be written in
the same way, so that `missing` ones must come as digits. -/
def nameFrom (whole : Bool) : (missing : Nat) → List Char → Option (List Char × List Char)
  | missing, '%' :: d :: e :: cs => do
    let b ← Text.hexNumber? [d, e]
    let (name, rest) ← nameFrom whole (← afterByte? missing b) cs
    return (Char.ofNat b :: name, rest)
  | 0, c :: cs =>
    if c == '%' then none
    else if isNameChar whole c then (nameFrom whole 0 cs).map fun (name, rest) => (c :: name, rest)
    else some ([], c :: cs)
  | 0, [] => some ([], [])
  | _ + 1, _ => none

/-- Read a name behind its beginning, if it has one. A zero byte ends the name, though not its text.
-/
def readName (whole : Bool) (beginning cs : List Char) : Option (List Char × List Char) :=
  (nameFrom whole 0 cs).map fun (name, rest) =>
    ((beginning ++ name).takeWhile fun c => c.toNat != 0, rest)

/-- Read a name that must not be empty. -/
def readNonemptyName (whole : Bool) (cs : List Char) : Option (List Char × List Char) :=
  (readName whole [] cs).filter fun (_, rest) => rest.length < cs.length

/-- Read a tag and leave the rest. -/
def readTag (handles : Handles) (cs : List Char) : Option (Tag × List Char) :=
  match cs with
  | '!' :: '<' :: cs => do
    let (name, rest) ← readNonemptyName true cs
    match rest with
    | '>' :: rest => some (.ofName name, rest)
    | _ => none
  | cs => do
    let (handle, rest) ← readHandle cs
    if isHandle handle then
      let (name, rest) ← readNonemptyName false rest
      let beginning ← handles.lookup handle
      return (.ofName (beginning ++ name), rest)
    else
      let (name, rest) ← readName false (handle.drop 1) rest
      if name.isEmpty then return (.own, rest)
      let beginning ← handles.lookup ['!']
      return (.ofName (beginning ++ name), rest)

/-! ### Directives -/

/-- A line in front of a document. -/
inductive Directive where
  /-- The version of the language is one that is known. -/
  | version
  /-- A handle stands for the beginning of a name. -/
  | handle (handle beginning : List Char)

/-- Read a number of at most nine digits. -/
def readVersionPart (cs : List Char) : Option (Nat × List Char) :=
  let ds := cs.takeWhile Char.isDigit
  if ds.isEmpty || 9 < ds.length then none
  else some (ds.foldl (fun n c => n * 10 + (c.toNat - 48)) 0, cs.dropWhile Char.isDigit)

/-- Read a version, which is 1.1 or 1.2. -/
def readVersion (cs : List Char) : Option (List Char) := do
  let (major, rest) ← readVersionPart cs
  match rest with
  | '.' :: rest =>
    let (minor, rest) ← readVersionPart rest
    if major = 1 ∧ (minor = 1 ∨ minor = 2) then some rest else none
  | _ => none

/-- Read a handle and what it stands for, with blanks between them. -/
def readHandleText (cs : List Char) : Option (List Char × List Char × List Char) := do
  let (handle, rest) ← readHandle cs
  if !isHandle handle && handle != ['!'] then none
  if !(rest.head?.map isBlank).getD false then none
  let (name, rest) ← readNonemptyName true (rest.dropWhile isBlank)
  if endsWord rest then some (handle, name, rest) else none

/-- Read a directive behind its percent sign, up to the end of its line. -/
def readDirective (cs : List Char) : Option (Directive × List Char) := do
  let rest := cs.dropWhile isWordChar
  if !endsWord rest then none
  let rest := rest.dropWhile isBlank
  let (directive, rest) ←
    match String.ofList (cs.takeWhile isWordChar) with
    | "YAML" => (readVersion rest).map (.version, ·)
    | "TAG" => (readHandleText rest).map fun (handle, name, rest) => (.handle handle name, rest)
    | _ => none
  let rest := rest.dropWhile isBlank
  let rest := if rest.head? == some '#' then rest.dropWhile (!isBreak ·) else rest
  match rest with
  | [] => some (directive, [])
  | c :: rest => if isBreak c then some (directive, rest) else none

end CommandChain.Yaml
