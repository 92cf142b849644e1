/-!
# Hexadecimal digits

Digits in small and in capital letters, and the characters whose code points they write. -/

namespace CommandChain.Text

/-- The value of a hexadecimal digit. -/
def hexValue? (c : Char) : Option Nat :=
  if c.isDigit then some (c.toNat - 48)
  else if 'a' ≤ c && c ≤ 'f' then some (c.toNat - 87)
  else if 'A' ≤ c && c ≤ 'F' then some (c.toNat - 55)
  else none

/-- The number that hexadecimal digits write. -/
def hexNumber? : List Char → Option Nat
  | [] => none
  | cs => cs.foldlM (fun n c => (hexValue? c).map (n * 16 + ·)) 0

/-- The character whose code point the first `n` characters write. -/
def hexCharacter? (n : Nat) (cs : List Char) : Option Char :=
  if (cs.take n).length = n then
    (hexNumber? (cs.take n)).bind fun code =>
      if code.isValidChar then some (Char.ofNat code) else none
  else none

end CommandChain.Text
