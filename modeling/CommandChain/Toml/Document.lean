import CommandChain.Text.Parsed
import CommandChain.Toml.Table

/-!
# Documents

A document is a sequence of statements, one a line: headers of tables and assignments. `parse?`
reads the statements and fills the tables with them; a document with a fault in either has no
value. -/

namespace CommandChain.Toml

/-! ### Keys and white space -/

/-- The rest of a line without the blanks at its front. -/
def skipBlanks (cs : List Char) : List Char := cs.dropWhile isBlank

/-- The text from its first character on that belongs to no blank, line break or comment. -/
def skipLines (inComment : Bool) : List Char → List Char
  | [] => []
  | '\r' :: '\n' :: cs => skipLines false cs
  | c :: cs =>
    if c == '\n' then skipLines false cs
    else if inComment then if isPrintable c then skipLines true cs else c :: cs
    else if c == '#' then skipLines true cs
    else if isBlank c then skipLines false cs
    else c :: cs

theorem length_skipLines_le (inComment : Bool) (cs : List Char) :
    (skipLines inComment cs).length ≤ cs.length := by
  fun_induction skipLines inComment cs <;>
    simp only [List.length_cons, List.length_nil] at * <;> omega

theorem length_skipBlanks_le (cs : List Char) : (skipBlanks cs).length ≤ cs.length :=
  length_dropWhile_le _ _

/-- The characters of a key without marks. -/
def isKeyChar (c : Char) : Bool := c.isAlphanum || c == '_' || c == '-'

/-- One name of a key: a string on one line, or a word. -/
def readName? (cs : List Char) : Option (String × List Char) :=
  match cs with
  | [] => none
  | c :: rest =>
    if c == '"' || c == '\'' then
      (lineFrom c 0 rest).map fun (t, rest) => (String.ofList t, rest)
    else
      let word := cs.takeWhile isKeyChar
      if word.isEmpty then none else some (String.ofList word, cs.dropWhile isKeyChar)

/-- A key: names with points between them, and blanks around each. -/
def readKey (cs : List Char) : Option (Parsed (List String) cs) :=
  match (Parsed.checked (readName? (skipBlanks cs)) : Option (Parsed String cs)) with
  | none => none
  | some name =>
    have hname := name.shorter
    match h : skipBlanks name.rest with
    | '.' :: more =>
      have hmore : more.length < name.rest.length := by
        have := length_skipBlanks_le name.rest
        rw [h, List.length_cons] at this
        omega
      match readKey more with
      | none => none
      | some key => some ⟨name.value :: key.value, key.rest, by have := key.shorter; omega⟩
    | rest => some ⟨[name.value], rest, by
        have := length_skipBlanks_le name.rest; rw [h] at this; omega⟩
termination_by cs.length

/-! ### Values -/

/-- Pass over one character at the front, and blanks before it. -/
def readMark (mark : Char) (cs : List Char) : Option (Parsed Unit cs) :=
  match skipBlanks cs with
  | [] => none
  | c :: rest => if c == mark then Parsed.checked (some ((), rest)) else none

/-- Pass over one character at the front, and lines before it. -/
def readMarkBelow (mark : Char) (cs : List Char) : Option (Parsed Unit cs) :=
  match skipLines false cs with
  | [] => none
  | c :: rest => if c == mark then Parsed.checked (some ((), rest)) else none

mutual

/-- A value inside `79 - room` arrays and tables. -/
def readValue (room : Nat) (cs : List Char) : Option (Parsed Toml cs) :=
  match cs with
  | [] => none
  | c :: rest =>
    if c == '"' || c == '\'' then
      Parsed.checked ((readString c rest).map fun (t, rest) => (.text (String.ofList t), rest))
    else if c == '[' then
      match room with
      | 0 => none
      | room + 1 => (readItems room rest).map fun vs =>
          (vs.map .array).widen (length_le_cons c rest)
    else if c == '\x7b' then
      match room with
      | 0 => none
      | room + 1 =>
        match readMark '\x7d' rest with
        | some s => some ((s.map fun _ => .table []).widen (length_le_cons c rest))
        | none =>
          match readFields room rest with
          | none => none
          | some fields =>
            (ofAssignments? fields.value).map fun v =>
              (fields.map fun _ => v).widen (length_le_cons c rest)
    else Parsed.checked (readWord? (c :: rest))
termination_by 2 * cs.length

/-- The items of an array up to its closing bracket, with a comma behind each but perhaps the
last. -/
def readItems (room : Nat) (cs : List Char) : Option (Parsed (List Toml) cs) :=
  match readMarkBelow ']' cs with
  | some s => some ⟨[], s.rest, s.shorter⟩
  | none =>
    have hskip := length_skipLines_le false cs
    match readValue room (skipLines false cs) with
    | none => none
    | some v =>
      have hv := v.shorter
      match readMarkBelow ',' v.rest with
      | some s =>
        have hs := s.shorter
        match readItems room s.rest with
        | none => none
        | some vs => some ⟨v.value :: vs.value, vs.rest, by have := vs.shorter; omega⟩
      | none =>
        match readMarkBelow ']' v.rest with
        | some s => some ⟨[v.value], s.rest, by have := s.shorter; omega⟩
        | none => none
termination_by 2 * cs.length + 1

/-- The assignments of a table on one line up to its closing brace; there is at least one. -/
def readFields (room : Nat) (cs : List Char) : Option (Parsed (List (List String × Toml)) cs) :=
  match readKey cs with
  | none => none
  | some key =>
    have hkey := key.shorter
    match readMark '=' key.rest with
    | none => none
    | some s =>
      have hs := s.shorter
      have hskip := length_skipBlanks_le s.rest
      match readValue room (skipBlanks s.rest) with
      | none => none
      | some v =>
        have hv := v.shorter
        match readMark ',' v.rest with
        | some s' =>
          have hs' := s'.shorter
          match readFields room s'.rest with
          | none => none
          | some fs => some ⟨(key.value, v.value) :: fs.value, fs.rest, by
              have := fs.shorter; omega⟩
        | none =>
          match readMark '\x7d' v.rest with
          | some s' => some ⟨[(key.value, v.value)], s'.rest, by have := s'.shorter; omega⟩
          | none => none
termination_by 2 * cs.length + 1

end

/-! ### Statements -/

/-- A line of a document. -/
inductive Statement where
  /-- The header of a table. -/
  | table (path : List String)
  /-- The header of one more table in a list. -/
  | item (path : List String)
  | assignment (key : List String) (v : Toml)

/-- The deepest nesting of arrays and tables in a value. -/
def maxNesting : Nat := 79

/-- Read a statement, without what stands behind it on its line. -/
def readStatement? (cs : List Char) : Option (Statement × List Char) :=
  match cs with
  | '[' :: '[' :: rest => do
    let key ← readKey rest
    match key.rest with
    | ']' :: ']' :: rest => some (.item key.value, rest)
    | _ => none
  | '[' :: rest => do
    let key ← readKey rest
    match key.rest with
    | ']' :: rest => some (.table key.value, rest)
    | _ => none
  | _ => do
    let key ← readKey cs
    let sign ← readMark '=' key.rest
    let v ← readValue maxNesting (skipBlanks sign.rest)
    return (.assignment key.value v.value, v.rest)

/-- The text behind the end of a line, where only blanks and a comment may stand before it. -/
def endLine? (cs : List Char) : Option (List Char) :=
  let cs := skipBlanks cs
  let cs := if cs.head? == some '#' then cs.dropWhile isPrintable else cs
  if cs.isEmpty then some [] else lineBreak? cs

/-- The statements of a document. -/
def readStatements (cs : List Char) : Option (List Statement) :=
  if (skipLines false cs).isEmpty then some []
  else
    match readStatement? (skipLines false cs) with
    | none => none
    | some (s, rest) =>
      match endLine? rest with
      | none => none
      | some more =>
        if _h : more.length < cs.length then (readStatements more).map (s :: ·) else none
termination_by cs.length

/-! ### Documents -/

/-- A document as far as it has been read: the header that it is under, and its tables. -/
structure Draft where
  header : List String := []
  entries : Entries := []

/-- Take in one more statement. -/
def Draft.add? (d : Draft) : Statement → Option Draft
  | .table path => (d.entries.openTable? path).map (⟨path, ·⟩)
  | .item path => (d.entries.openItem? path).map (⟨path, ·⟩)
  | .assignment key v => (d.entries.assignIn? d.header key v).map (⟨d.header, ·⟩)

/-- The table that a document writes. -/
def parse? (t : String) : Option (Members Toml) := do
  let statements ← readStatements t.toList
  let d ← statements.foldlM Draft.add? {}
  return Entry.finishMembers d.entries

end CommandChain.Toml
