import CommandChain.Json.Reader
import Mathlib.Tactic.SplitIfs

/-!
# What is read from JSON text

A value that was read is of one of seven kinds, told by the character after the blanks, and each
kind says what was read for its parts and what was left (`readValue_cases`). So it is with the items
of an array and the members of an object: one is read, and then the bracket is closed or there are
more. -/

namespace CommandChain.Json

variable {cs : List Char} {room : Nat}

theorem eq_of_checked {α : Type} {x : Option (α × List Char)} {p : Parsed α cs}
    (h : Parsed.checked x = some p) : x = some (p.value, p.rest) := by
  unfold Parsed.checked at h
  split at h
  · split_ifs at h
    cases h
    rfl
  · cases h

/-! ### Numbers -/

section

variable {negative : Bool} {significand : Nat} {power : Int} {whole rest : List Char} {n : Number}

/-- A double with a sign. -/
def signed (negative : Bool) (x : Float) : Number := .float (if negative then -x else x)

theorem readScaled?_exponent {c : Char} (hc : c = 'e' ∨ c = 'E') (cs : List Char) :
    readScaled? negative significand power (c :: cs) =
      (readExponent? cs).bind fun e =>
        (scale? significand (power + e.1)).map fun x => (signed negative x, e.2) := by
  have hmark : (c == 'e' || c == 'E') = true := by simpa using hc
  simp only [readScaled?, hmark, if_true, Option.map_eq_bind]
  rfl

theorem readScaled?_of_ne (h : ∀ c ∈ cs.head?, c ≠ 'e' ∧ c ≠ 'E') :
    readScaled? negative significand power cs =
      (scale? significand power).map fun x => (signed negative x, cs) := by
  cases cs with
  | nil =>
    simp only [readScaled?, Option.map_eq_bind, Option.bind_eq_bind, Option.bind_some, Int.add_zero]
    rfl
  | cons c cs =>
    have hmark : (c == 'e' || c == 'E') = false := by simpa using h c rfl
    simp only [readScaled?, hmark, Bool.false_eq_true, if_false, Option.map_eq_bind,
      Option.bind_eq_bind, Option.bind_some, Int.add_zero]
    rfl

theorem readScaled?_cases (h : readScaled? negative significand power cs = some (n, rest)) :
    (∃ x, n = .float x) ∧
      (rest = cs ∨ ∃ c more i, cs = c :: more ∧ (c = 'e' ∨ c = 'E') ∧
        readExponent? more = some (i, rest)) := by
  by_cases hmark : ∃ c more, cs = c :: more ∧ (c = 'e' ∨ c = 'E')
  · obtain ⟨c, more, rfl, hc⟩ := hmark
    rw [readScaled?_exponent hc, Option.bind_eq_some_iff] at h
    obtain ⟨⟨i, after⟩, hexponent, h⟩ := h
    obtain ⟨x, -, h⟩ := Option.map_eq_some_iff.mp h
    cases h
    exact ⟨⟨_, rfl⟩, .inr ⟨c, more, i, rfl, hc, hexponent⟩⟩
  · have hne : ∀ c ∈ cs.head?, c ≠ 'e' ∧ c ≠ 'E' := by
      intro c hc
      obtain ⟨more, rfl⟩ := List.head?_eq_some_iff.mp hc
      exact not_or.mp fun h => hmark ⟨c, more, rfl, h⟩
    rw [readScaled?_of_ne hne] at h
    obtain ⟨x, -, h⟩ := Option.map_eq_some_iff.mp h
    cases h
    exact ⟨⟨_, rfl⟩, .inl rfl⟩

/-- Without a point and an exponent, a number whose digits all count is a whole number, if it has at
most 64 bits. -/
theorem readTail?_of_ne (h : ∀ ds, cs ≠ '.' :: ds) :
    readTail? negative whole cs =
      if (cs.head?.map fun c => c == 'e' || c == 'E').getD false ||
        (appendDigits 0 whole).2 != 0 then
        readScaled? negative (appendDigits 0 whole).1 (appendDigits 0 whole).2 cs
      else if !negative then some (.int (appendDigits 0 whole).1, cs)
      else if 0 < (appendDigits 0 whole).1 && (appendDigits 0 whole).1 ≤ Nat.pow 2 63 then
        some (.int (-((appendDigits 0 whole).1 : Int)), cs)
      else some (.float (-(Double.ofInt (appendDigits 0 whole).1)), cs) := by
  simp only [readTail?]

/-- A number behind its sign, if there is one. -/
def readUnsigned? (negative : Bool) (ds : List Char) : Option (Number × List Char) :=
  let whole := ds.takeWhile Char.isDigit
  if whole.isEmpty || (whole.head? == some '0' && whole.length != 1) then none
  else readTail? negative whole (ds.dropWhile Char.isDigit)

theorem readNumber?_minus (ds : List Char) : readNumber? ('-' :: ds) = readUnsigned? true ds := rfl

theorem readNumber?_of_ne (h : ∀ ds, cs ≠ '-' :: ds) : readNumber? cs = readUnsigned? false cs := by
  unfold readNumber?
  split
  next negative ds hsign =>
  split at hsign
  · next ds' => exact absurd rfl (h ds')
  · cases hsign
    rfl

end

/-! ### Literal names -/

theorem readWord_eq_some {word : List Char} {v : Json} {p : Parsed Json cs}
    (h : readWord word v cs = some p) :
    word <+: cs ∧ p.value = v ∧ p.rest = cs.drop word.length := by
  unfold readWord at h
  split_ifs at h with hword
  cases h
  exact ⟨List.isPrefixOf_iff_prefix.mp hword.1, rfl, rfl⟩

/-- The literal names with their values. -/
def words : List (List Char × Json) :=
  [(['n', 'u', 'l', 'l'], .null), (['t', 'r', 'u', 'e'], .bool true),
    (['f', 'a', 'l', 's', 'e'], .bool false)]

/-! ### Items, members and values -/

/-- An item was read, and then the closing bracket, or a comma and more items. -/
theorem readItems_cases {p : Parsed (List Json) cs} (h : readItems room cs = some p) :
    ∃ v, readValue room cs = some v ∧
      ((∃ m, readMark ']' v.rest = some m ∧ p.value = [v.value] ∧ p.rest = m.rest) ∨
        ∃ m vs, readMark ',' v.rest = some m ∧ readItems room m.rest = some vs ∧
          p.value = v.value :: vs.value ∧ p.rest = vs.rest) := by
  unfold readItems at h
  split at h
  · cases h
  · next v hv =>
    simp only at h
    split at h
    · next m hm =>
      cases h
      exact ⟨v, hv, .inl ⟨m, hm, rfl, rfl⟩⟩
    · split at h
      · cases h
      · next m hm =>
        split at h
        · cases h
        · next vs hvs =>
          cases h
          exact ⟨v, hv, .inr ⟨m, vs, hm, hvs, rfl, rfl⟩⟩

theorem readMembers_cases {p : Parsed (List (String × Json)) cs}
    (h : readMembers room cs = some p) :
    ∃ q k m v, readMark '"' cs = some q ∧ readString q.rest = some k ∧
      readMark ':' k.rest = some m ∧ readValue room m.rest = some v ∧
      ((∃ e, readMark '}' v.rest = some e ∧ p.value = [(String.ofList k.value, v.value)] ∧
          p.rest = e.rest) ∨
        ∃ e ms, readMark ',' v.rest = some e ∧ readMembers room e.rest = some ms ∧
          p.value = (String.ofList k.value, v.value) :: ms.value ∧ p.rest = ms.rest) := by
  unfold readMembers at h
  split at h
  · cases h
  · next q hq =>
    split at h
    · cases h
    · next k hk =>
      split at h
      · cases h
      · next m hm =>
        simp only at h
        split at h
        · cases h
        · next v hv =>
          refine ⟨q, k, m, v, hq, hk, hm, hv, ?_⟩
          split at h
          · next e he =>
            cases h
            exact .inl ⟨e, he, rfl, rfl⟩
          · split at h
            · cases h
            · next e he =>
              split at h
              · cases h
              · next ms hms =>
                cases h
                exact .inr ⟨e, ms, he, hms, rfl, rfl⟩

/-- A string, an array, an object, a literal name or a number was read. -/
theorem readValue_cases {p : Parsed Json cs} (h : readValue room cs = some p) :
    ∃ c rest, skipSpace cs = c :: rest ∧
      ((c = '"' ∧ ∃ s, readString rest = some s ∧ p.value = .str (String.ofList s.value) ∧
          p.rest = s.rest) ∨
        (c = '[' ∧ ∃ n m, room = n + 1 ∧ readMark ']' rest = some m ∧ p.value = .arr [] ∧
          p.rest = m.rest) ∨
        (c = '[' ∧ ∃ n vs, room = n + 1 ∧ readItems n rest = some vs ∧ p.value = .arr vs.value ∧
          p.rest = vs.rest) ∨
        (c = '{' ∧ ∃ n m, room = n + 1 ∧ readMark '}' rest = some m ∧ p.value = .obj [] ∧
          p.rest = m.rest) ∨
        (c = '{' ∧ ∃ n ms, room = n + 1 ∧ readMembers n rest = some ms ∧
          p.value = .obj (Members.ofList ms.value) ∧ p.rest = ms.rest) ∨
        (∃ w v, (w, v) ∈ words ∧ w <+: c :: rest ∧ p.value = v ∧
          p.rest = (c :: rest).drop w.length) ∨
        ∃ n, readNumber? (c :: rest) = some (n, p.rest) ∧ p.value = .num n) := by
  unfold readValue at h
  split at h
  · cases h
  · next c rest hc =>
    refine ⟨c, rest, hc, ?_⟩
    simp only at h
    split_ifs at h with hquote hbracket hbrace hn ht hf
    · obtain ⟨s, hs, rfl⟩ := Option.map_eq_some_iff.mp h
      exact .inl ⟨eq_of_beq hquote, s, hs, rfl, rfl⟩
    · split at h
      · cases h
      · split at h
        · next m hm =>
          cases h
          exact .inr (.inl ⟨eq_of_beq hbracket, _, m, rfl, hm, rfl, rfl⟩)
        · split at h
          · next vs hvs =>
            cases h
            exact .inr (.inr (.inl ⟨eq_of_beq hbracket, _, vs, rfl, hvs, rfl, rfl⟩))
          · cases h
    · split at h
      · cases h
      · split at h
        · next m hm =>
          cases h
          exact .inr (.inr (.inr (.inl ⟨eq_of_beq hbrace, _, m, rfl, hm, rfl, rfl⟩)))
        · split at h
          · next ms hms =>
            cases h
            exact .inr (.inr (.inr (.inr (.inl ⟨eq_of_beq hbrace, _, ms, rfl, hms, rfl, rfl⟩))))
          · cases h
    all_goals
      obtain ⟨q, hq, rfl⟩ := Option.map_eq_some_iff.mp h
      refine .inr (.inr (.inr (.inr (.inr ?_))))
    · exact .inl ⟨_, _, by simp [words], readWord_eq_some hq⟩
    · exact .inl ⟨_, _, by simp [words], readWord_eq_some hq⟩
    · exact .inl ⟨_, _, by simp [words], readWord_eq_some hq⟩
    · obtain ⟨x, hx, rfl⟩ := Option.map_eq_some_iff.mp hq
      exact .inr ⟨x.value, eq_of_checked hx, rfl⟩

end CommandChain.Json
