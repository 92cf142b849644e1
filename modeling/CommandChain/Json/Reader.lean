import CommandChain.Json.Basic
import CommandChain.Text.Blank
import CommandChain.Text.Hex
import CommandChain.Text.Parsed

/-!
# Reading JSON text

`Json.parse?` accepts exactly the texts of one JSON value with blanks around it, nested in fewer
than 128 arrays and objects. Of equal names in an object the last wins. Escapes of single
surrogates, raw control characters in strings and numbers beyond the doubles are refused.

A number without a point and an exponent that fits in 64 bits is a whole number. Any other number,
and `-0`, becomes a double: its digits are collected in a significand as long as that fits in 64
bits, and the significand is then multiplied or divided once by a power of ten. -/

namespace CommandChain.Json

/-- The text from its first token on. -/
def skipSpace (cs : List Char) : List Char := cs.dropWhile Text.isSpace

theorem length_skipSpace_le (cs : List Char) : (skipSpace cs).length ≤ cs.length :=
  length_dropWhile_le _ _

theorem length_lt_of_skipSpace {c : Char} {cs rest : List Char} (h : skipSpace cs = c :: rest) :
    rest.length < cs.length := by
  have := length_skipSpace_le cs
  rw [h] at this
  exact this

/-! ### Strings -/

/-- The first half of a surrogate pair. -/
def isHighSurrogate (n : Nat) : Bool := 0xD800 ≤ n && n < 0xDC00

/-- The second half of a surrogate pair. -/
def isLowSurrogate (n : Nat) : Bool := 0xDC00 ≤ n && n < 0xE000

/-- The character of a surrogate pair. -/
def joinSurrogates (high low : Nat) : Char :=
  Char.ofNat (0x10000 + (high - 0xD800) * 0x400 + (low - 0xDC00))

/-- The character that a one-letter escape stands for. -/
def escaped? (c : Char) : Option Char :=
  if c == '"' || c == '\\' || c == '/' then some c
  else if c == 'b' then some (Char.ofNat 8)
  else if c == 'f' then some (Char.ofNat 12)
  else if c == 'n' then some '\n'
  else if c == 'r' then some '\r'
  else if c == 't' then some '\t'
  else none

/-- The character of an escape whose backslash was read. -/
def readEscape : (cs : List Char) → Option (Parsed Char cs)
  | 'u' :: a :: b :: c :: d :: rest =>
    match Text.hexNumber? [a, b, c, d] with
    | none => none
    | some n =>
      if isLowSurrogate n then none
      else if isHighSurrogate n then
        match rest with
        | '\\' :: 'u' :: a' :: b' :: c' :: d' :: rest' =>
          match Text.hexNumber? [a', b', c', d'] with
          | none => none
          | some low =>
            if isLowSurrogate low then
              some ⟨joinSurrogates n low, rest', by simp only [List.length_cons]; omega⟩
            else none
        | _ => none
      else some ⟨Char.ofNat n, rest, by simp only [List.length_cons]; omega⟩
  | c :: rest =>
    match escaped? c with
    | none => none
    | some e => some ⟨e, rest, by simp⟩
  | [] => none

/-- The characters of a string up to its closing quote; the opening one was read. -/
def readString (cs : List Char) : Option (Parsed (List Char) cs) :=
  match cs with
  | [] => none
  | c :: rest =>
    if c == '"' then some ⟨[], rest, length_lt_cons c rest⟩
    else if c == '\\' then
      match readEscape rest with
      | none => none
      | some e =>
        have := e.shorter
        match readString e.rest with
        | none => none
        | some s => some (((e.andThen s).map (e.value :: ·)).widen (length_le_cons c rest))
    else if c.toNat < 32 then none
    else
      match readString rest with
      | none => none
      | some s => some ((s.map (c :: ·)).widen (length_le_cons c rest))
termination_by cs.length

/-! ### Numbers -/

/-- The largest significand. -/
def maxSignificand : Nat := Nat.pow 2 64 - 1

/-- Append digits to a significand as long as it fits; also the number of digits left over. -/
def appendDigits (significand : Nat) : List Char → Nat × Nat
  | [] => (significand, 0)
  | c :: cs =>
    let n := significand * 10 + (c.toNat - 48)
    if n ≤ maxSignificand then appendDigits n cs else (significand, cs.length + 1)

/-- `significand * 10 ^ exponent`, computed in doubles; none on overflow. -/
def scale? (significand : Nat) (exponent : Int) : Option Float :=
  let f := Double.ofInt significand
  let power (k : Int) := Double.ofDecimal 1 k
  if significand = 0 then some f
  else if 308 < exponent then none
  else if 0 ≤ exponent then
    let x := f * power exponent
    if x.isInf then none else some x
  else if -308 ≤ exponent then some (f / power (-exponent))
  else if -616 ≤ exponent then some (f / power 308 / power (-exponent - 308))
  else some 0.0

/-- The digits of an exponent, with a sign or none, and the rest. -/
def readExponent? (cs : List Char) : Option (Int × List Char) :=
  let (negative, ds) := Decimal.readSign cs
  let digits := ds.takeWhile Char.isDigit
  if digits.isEmpty then none
  else
    let n : Int := Decimal.ofDigits digits
    some (if negative then -n else n, ds.dropWhile Char.isDigit)

/-- A double from its significand and power of ten, after an exponent if one follows. -/
def readScaled? (negative : Bool) (significand : Nat) (power : Int) (cs : List Char) :
    Option (Number × List Char) := do
  let (e, rest) ←
    match cs with
    | c :: rest => if c == 'e' || c == 'E' then readExponent? rest else some (0, cs)
    | [] => some (0, cs)
  let x ← scale? significand (power + e)
  return (.float (if negative then -x else x), rest)

/-- The fraction and exponent of a number whose whole digits are given. -/
def readTail? (negative : Bool) (whole cs : List Char) : Option (Number × List Char) :=
  let (significand, dropped) := appendDigits 0 whole
  match cs with
  | '.' :: rest =>
    let frac := rest.takeWhile Char.isDigit
    if frac.isEmpty then none
    else
      let (significand, unused) := appendDigits significand frac
      readScaled? negative significand (dropped - (frac.length - unused : Nat))
        (rest.dropWhile Char.isDigit)
  | _ =>
    let isExponent := (cs.head?.map fun c => c == 'e' || c == 'E').getD false
    if isExponent || dropped != 0 then readScaled? negative significand dropped cs
    else if !negative then some (.int significand, cs)
    else if 0 < significand && significand ≤ Nat.pow 2 63 then
      some (.int (-(significand : Int)), cs)
    else some (.float (-(Double.ofInt significand)), cs)

/-- A number: a minus sign or none, digits without a leading zero, fraction and exponent. -/
def readNumber? (cs : List Char) : Option (Number × List Char) :=
  let (negative, ds) :=
    match cs with
    | '-' :: rest => (true, rest)
    | _ => (false, cs)
  let whole := ds.takeWhile Char.isDigit
  if whole.isEmpty || (whole.head? == some '0' && whole.length != 1) then none
  else readTail? negative whole (ds.dropWhile Char.isDigit)

/-! ### Values -/

/-- A literal name at the front of a text. -/
def readWord (word : List Char) (v : Json) (cs : List Char) : Option (Parsed Json cs) :=
  if h : word.isPrefixOf cs ∧ (cs.drop word.length).length < cs.length then
    some ⟨v, cs.drop word.length, h.2⟩
  else none

/-- Pass over blanks and one given character. -/
def readMark (mark : Char) (cs : List Char) : Option (Parsed Unit cs) :=
  match h : skipSpace cs with
  | c :: rest =>
    if c == mark then some ⟨(), rest, length_lt_of_skipSpace h⟩ else none
  | [] => none

mutual

/-- A value inside `127 - room` arrays and objects, after blanks. -/
def readValue (room : Nat) (cs : List Char) : Option (Parsed Json cs) :=
  match h : skipSpace cs with
  | [] => none
  | c :: rest =>
    have hle : rest.length < cs.length := length_lt_of_skipSpace h
    if c == '"' then
      (readString rest).map fun s =>
        (s.map fun t => Json.str (String.ofList t)).widen (Nat.le_of_lt hle)
    else if c == '[' then
      match room with
      | 0 => none
      | room + 1 =>
        match readMark ']' rest with
        | some m => some ⟨.arr [], m.rest, Nat.lt_trans m.shorter hle⟩
        | none =>
          match readItems room rest with
          | some vs => some ⟨.arr vs.value, vs.rest, Nat.lt_trans vs.shorter hle⟩
          | none => none
    else if c == '{' then
      match room with
      | 0 => none
      | room + 1 =>
        match readMark '}' rest with
        | some m => some ⟨.obj [], m.rest, Nat.lt_trans m.shorter hle⟩
        | none =>
          match readMembers room rest with
          | some ms => some ⟨.obj (Members.ofList ms.value), ms.rest, Nat.lt_trans ms.shorter hle⟩
          | none => none
    else
      have hle' : (c :: rest).length ≤ cs.length := hle
      let found :=
        if c == 'n' then readWord ['n', 'u', 'l', 'l'] .null (c :: rest)
        else if c == 't' then readWord ['t', 'r', 'u', 'e'] (.bool true) (c :: rest)
        else if c == 'f' then readWord ['f', 'a', 'l', 's', 'e'] (.bool false) (c :: rest)
        else (Parsed.checked (readNumber? (c :: rest))).map (·.map .num)
      found.map (·.widen hle')
termination_by (cs.length, 0)

/-- The items of an array up to its closing bracket; there is at least one. -/
def readItems (room : Nat) (cs : List Char) : Option (Parsed (List Json) cs) :=
  match readValue room cs with
  | none => none
  | some v =>
    have := v.shorter
    match readMark ']' v.rest with
    | some m => some ⟨[v.value], m.rest, Nat.lt_trans m.shorter v.shorter⟩
    | none =>
      match readMark ',' v.rest with
      | none => none
      | some m =>
        have := m.shorter
        match readItems room m.rest with
        | none => none
        | some vs => some ⟨v.value :: vs.value, vs.rest, by have := vs.shorter; omega⟩
termination_by (cs.length, 1)

/-- The members of an object up to its closing brace; there is at least one. -/
def readMembers (room : Nat) (cs : List Char) : Option (Parsed (List (String × Json)) cs) :=
  match readMark '"' cs with
  | none => none
  | some q =>
    match readString q.rest with
    | none => none
    | some k =>
      match readMark ':' k.rest with
      | none => none
      | some m =>
        have h₁ := q.shorter
        have h₂ := k.shorter
        have h₃ := m.shorter
        match readValue room m.rest with
        | none => none
        | some v =>
          have h₄ := v.shorter
          match readMark '}' v.rest with
          | some e => some ⟨[(String.ofList k.value, v.value)], e.rest, by
              have := e.shorter; omega⟩
          | none =>
            match readMark ',' v.rest with
            | none => none
            | some e =>
              have h₅ := e.shorter
              match readMembers room e.rest with
              | none => none
              | some ms => some ⟨(String.ofList k.value, v.value) :: ms.value, ms.rest, by
                  have := ms.shorter; omega⟩
termination_by (cs.length, 1)

end


/-- The deepest nesting of arrays and objects. -/
def maxNesting : Nat := 127

/-- The value that a text writes, with blanks around it. -/
def parseChars? (cs : List Char) : Option Json :=
  match readValue maxNesting cs with
  | some v => if (skipSpace v.rest).isEmpty then some v.value else none
  | none => none

/-- The value that a text writes, with blanks around it. -/
def parse? (t : String) : Option Json := parseChars? t.toList

end CommandChain.Json
