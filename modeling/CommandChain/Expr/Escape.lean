import CommandChain.Json.Reader
import CommandChain.Text.Utf8

/-!
# Escapes in string literals

A backslash and the letter `n`, `t`, `r`, `b`, `f` or `0` stand for a control character, `\u` and
four hexadecimal digits for a code point, and a backslash before any other character for that
character. Two `\u` escapes of a surrogate pair stand for one character, and a single surrogate for
the replacement character. -/

namespace CommandChain.Escape

open CommandChain.Json (isHighSurrogate isLowSurrogate joinSurrogates)

/-- The number that four characters write: hexadecimal digits, the first of them perhaps a plus
sign. -/
def hexNumber? : List Char → Option Nat
  | '+' :: cs => Text.hexNumber? cs
  | cs => Text.hexNumber? cs

theorem length_drop_four_lt {cs : List Char} (h : 4 ≤ cs.length) :
    (cs.drop 4).length < cs.length := by
  rw [List.length_drop]
  omega

/-- The code after `\u`, or the characters that are no code. -/
def readCode (cs : List Char) : Except (List Char) (Parsed Nat cs) :=
  if h : 4 ≤ cs.length then
    match hexNumber? (cs.take 4) with
    | some n => .ok ⟨n, cs.drop 4, length_drop_four_lt h⟩
    | none => .error (cs.take 4)
  else .error cs

/-- The character of a code point; a surrogate has none of its own. -/
def codePoint (n : Nat) : Char :=
  if isHighSurrogate n || isLowSurrogate n then Text.replacement else Char.ofNat n

/-- The character of one `\u` escape, or of two that are a surrogate pair. -/
def readUnicode (cs : List Char) : Except (List Char) (Parsed Char cs) :=
  match readCode cs with
  | .error ds => .error ds
  | .ok p =>
    let single : Parsed Char cs := ⟨codePoint p.value, p.rest, p.shorter⟩
    if isHighSurrogate p.value then
      match h : p.rest with
      | '\\' :: 'u' :: more =>
        match readCode more with
        | .error ds => .error ds
        | .ok q =>
          if isLowSurrogate q.value then
            .ok ⟨joinSurrogates p.value q.value, q.rest, by
              have h₁ := p.shorter
              have h₂ := q.shorter
              rw [h] at h₁
              simp only [List.length_cons] at h₁
              omega⟩
          else .ok single
      | _ => .ok single
    else .ok single

/-- The character that a backslash and one more character stand for. -/
def escaped (c : Char) : Char :=
  if c == 'n' then '\n'
  else if c == 't' then '\t'
  else if c == 'r' then '\r'
  else if c == 'b' then Char.ofNat 8
  else if c == 'f' then Char.ofNat 12
  else if c == '0' then Char.ofNat 0
  else c

/-- The text that the inside of a string literal stands for, or the characters after the first
`\u` that are no code. -/
def decode (cs : List Char) : Except (List Char) (List Char) :=
  match cs with
  | [] => .ok []
  | '\\' :: 'u' :: rest =>
    match readUnicode rest with
    | .error ds => .error ds
    | .ok p =>
      have := p.shorter
      match decode p.rest with
      | .error ds => .error ds
      | .ok t => .ok (p.value :: t)
  | '\\' :: c :: rest =>
    match decode rest with
    | .error ds => .error ds
    | .ok t => .ok (escaped c :: t)
  | c :: rest =>
    match decode rest with
    | .error ds => .error ds
    | .ok t => .ok (c :: t)
termination_by cs.length

end CommandChain.Escape
