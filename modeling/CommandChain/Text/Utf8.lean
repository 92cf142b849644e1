/-!
# Bytes and text

Texts are written as UTF-8. `decode` reads bytes back; every longest run of bytes that begins a
character but does not finish it, and every byte that begins none, becomes one replacement
character. -/

namespace CommandChain.Text

/-- The bytes of a text in UTF-8. -/
def encode (t : String) : List UInt8 := t.toUTF8.toList

/-- The replacement character. -/
def replacement : Char := Char.ofNat 0xFFFD

/-- How many bytes follow the first byte of a character, and the range of the next byte. -/
def leadByte (b : UInt8) : Option (Nat × UInt8 × UInt8) :=
  if 0xC2 ≤ b && b ≤ 0xDF then some (1, 0x80, 0xBF)
  else if b == 0xE0 then some (2, 0xA0, 0xBF)
  else if b == 0xED then some (2, 0x80, 0x9F)
  else if 0xE1 ≤ b && b ≤ 0xEF then some (2, 0x80, 0xBF)
  else if b == 0xF0 then some (3, 0x90, 0xBF)
  else if 0xF1 ≤ b && b ≤ 0xF3 then some (3, 0x80, 0xBF)
  else if b == 0xF4 then some (3, 0x80, 0x8F)
  else none

/-- Where the decoding of bytes stands: nothing open, or a character that still wants `more` bytes,
the next of them between `lo` and `hi`. -/
inductive Decoding where
  | between
  | inside (code more : Nat) (lo hi : UInt8)

/-- A byte at the start of a character. -/
def Decoding.first (b : UInt8) : List Char × Decoding :=
  if b < 0x80 then ([Char.ofNat b.toNat], .between)
  else
    match leadByte b with
    | some (more, lo, hi) => ([], .inside (b.toNat % Nat.pow 2 (6 - more)) more lo hi)
    | none => ([replacement], .between)

/-- One more byte: the characters that it finishes, and the new state. -/
def Decoding.next : Decoding → UInt8 → List Char × Decoding
  | .between, b => Decoding.first b
  | .inside code more lo hi, b =>
    if lo ≤ b && b ≤ hi then
      let code := code * 64 + b.toNat % 64
      if more ≤ 1 then ([Char.ofNat code], .between) else ([], .inside code (more - 1) 0x80 0xBF)
    else
      let (cs, s) := Decoding.first b
      (replacement :: cs, s)

/-- The characters of the bytes that follow a state. -/
def Decoding.rest : Decoding → List UInt8 → List Char
  | .between, [] => []
  | .inside .., [] => [replacement]
  | s, b :: bs =>
    let (cs, s') := s.next b
    cs ++ rest s' bs

/-- The text of some bytes, with a replacement character for what is not UTF-8. -/
def decode (bs : List UInt8) : String := String.ofList (Decoding.between.rest bs)

/-- A text without the mark of its byte order. -/
def dropOrderMark (cs : List Char) : List Char :=
  match cs with
  | [] => []
  | c :: rest => if c.toNat == 0xFEFF then rest else cs

end CommandChain.Text
