/-!
# Results of reading

A reader takes a value from the front of its input and hands on the rest. `Parsed` also carries the
proof that the rest is shorter, by which readers that call each other are seen to end. -/

namespace CommandChain

universe u v

/-- A value read from the front of `input`, and what is left of it. -/
structure Parsed (α : Type u) {χ : Type v} (input : List χ) where
  value : α
  rest : List χ
  shorter : rest.length < input.length

namespace Parsed

variable {α β : Type u} {χ : Type v} {input longer : List χ}

/-- Change the value. -/
def map (f : α → β) (p : Parsed α input) : Parsed β input := ⟨f p.value, p.rest, p.shorter⟩

/-- The same result, seen from a longer input. -/
def widen (p : Parsed α input) (h : input.length ≤ longer.length) : Parsed α longer :=
  ⟨p.value, p.rest, Nat.lt_of_lt_of_le p.shorter h⟩

/-- What is read behind something else, seen from before it. -/
def andThen (p : Parsed α input) (q : Parsed β p.rest) : Parsed β input :=
  ⟨q.value, q.rest, Nat.lt_trans q.shorter p.shorter⟩

/-- Check that a reader left less than it was given. -/
def checked : Option (α × List χ) → Option (Parsed α input)
  | some (a, rest) => if h : rest.length < input.length then some ⟨a, rest, h⟩ else none
  | none => none

end Parsed

theorem length_dropWhile_le {χ : Type v} (f : χ → Bool) (cs : List χ) :
    (cs.dropWhile f).length ≤ cs.length :=
  (List.dropWhile_sublist f).length_le

theorem length_lt_cons {χ : Type v} (c : χ) (cs : List χ) : cs.length < (c :: cs).length :=
  Nat.lt_succ_self cs.length

theorem length_le_cons {χ : Type v} (c : χ) (cs : List χ) : cs.length ≤ (c :: cs).length :=
  Nat.le_succ cs.length

end CommandChain
