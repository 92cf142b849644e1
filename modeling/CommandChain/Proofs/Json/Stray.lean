import CommandChain.Json.Printer
import CommandChain.Json.Reader
import CommandChain.Proofs.Json.Printed
import CommandChain.Proofs.Json.Read

/-!
# Texts that are no JSON

Outside of strings JSON has no backslash. So a text in which a backslash stands before any double
quote is no JSON text (`parseChars?_eq_none_of_stray`): whatever a reader takes from its front, the
backslash is left. Of this kind is a text as it stands inside a JSON string, as soon as one
character of it is escaped there (`flatMap_escapeChar_eq_or_stray`). -/

namespace CommandChain.Json

variable {c : Char} {cs rest : List Char}

/-- A backslash stands in the text, and no double quote before it. -/
def Stray : List Char → Prop
  | [] => False
  | c :: cs => c = '\\' ∨ (c ≠ '"' ∧ Stray cs)

namespace Stray

theorem of_cons (h : Stray (c :: cs)) (hc : c ≠ '\\') : c ≠ '"' ∧ Stray cs :=
  h.resolve_left hc

theorem dropWhile {p : Char → Bool} (h : Stray cs) (hp : p '\\' = false) :
    Stray (cs.dropWhile p) := by
  induction cs with
  | nil => exact h
  | cons c cs ih =>
    rw [List.dropWhile_cons]
    split_ifs with hc
    · exact ih (h.of_cons fun e => by simp [e, hp] at hc).2
    · exact h

theorem skipSpace (h : Stray cs) : Stray (skipSpace cs) := h.dropWhile (by decide)

theorem digits (h : Stray cs) : Stray (cs.dropWhile Char.isDigit) := h.dropWhile (by decide)

/-- A word without a backslash is passed over. -/
theorem drop_word {word : List Char} (hword : '\\' ∉ word) (h : Stray (word ++ rest)) :
    Stray rest := by
  induction word with
  | nil => exact h
  | cons c word ih =>
    obtain ⟨hc, hword⟩ := not_or.mp (fun hm => hword (List.mem_cons.mpr hm))
    exact ih hword (of_cons h (Ne.symm hc)).2

/-! ### Readers leave the backslash -/

theorem readMark {mark : Char} {p : Parsed Unit cs} (h : Stray cs) (hmark : mark ≠ '\\')
    (hp : readMark mark cs = some p) : mark ≠ '"' ∧ Stray p.rest := by
  have hs := h.skipSpace
  unfold Json.readMark at hp
  split at hp
  · next c rest hc =>
    split_ifs at hp with hcm
    cases hp
    obtain rfl := eq_of_beq hcm
    rw [hc] at hs
    exact hs.of_cons hmark
  · cases hp

theorem drop_of_prefix {word : List Char} (h : Stray cs) (hword : '\\' ∉ word)
    (hpre : word <+: cs) : Stray (cs.drop word.length) := by
  obtain ⟨rest, rfl⟩ := hpre
  simpa using drop_word hword h

theorem readSign (h : Stray cs) : Stray (Decimal.readSign cs).2 := by
  unfold Decimal.readSign
  split
  · exact (h.of_cons (by decide)).2
  · exact (h.of_cons (by decide)).2
  · exact h

theorem readExponent? {i : Int} (h : Stray cs) (hread : readExponent? cs = some (i, rest)) :
    Stray rest := by
  unfold Json.readExponent? at hread
  simp only [Option.ite_none_left_eq_some, Option.some.injEq, Prod.mk.injEq] at hread
  obtain ⟨-, -, rfl⟩ := hread
  exact h.readSign.digits

theorem readScaled? {negative : Bool} {significand : Nat} {power : Int} {n : Number} (h : Stray cs)
    (hread : readScaled? negative significand power cs = some (n, rest)) : Stray rest := by
  obtain ⟨-, rfl | ⟨c, more, i, rfl, hc, hexponent⟩⟩ := readScaled?_cases hread
  · exact h
  · have hne : c ≠ '\\' := by rcases hc with rfl | rfl <;> decide
    exact (h.of_cons hne).2.readExponent? hexponent

theorem readTail? {negative : Bool} {whole : List Char} {n : Number} (h : Stray cs)
    (hread : readTail? negative whole cs = some (n, rest)) : Stray rest := by
  unfold Json.readTail? at hread
  simp only at hread
  split at hread
  · split_ifs at hread
    exact (h.of_cons (by decide)).2.digits.readScaled? hread
  · split_ifs at hread
    · exact h.readScaled? hread
    all_goals
      cases hread
      exact h

theorem readNumber? {n : Number} (h : Stray cs) (hread : readNumber? cs = some (n, rest)) :
    Stray rest := by
  unfold Json.readNumber? at hread
  simp only at hread
  split_ifs at hread
  refine Stray.readTail? (Stray.digits ?_) hread
  split
  · exact (h.of_cons (by decide)).2
  · exact h

theorem readMembers_eq_none (h : Stray cs) (room : Nat) : readMembers room cs = none := by
  refine Option.eq_none_iff_forall_ne_some.mpr fun p hp => ?_
  obtain ⟨q, -, -, -, hq, -⟩ := readMembers_cases hp
  exact absurd rfl (h.readMark (by decide) hq).1

/-- What is read at the front of a text behind an opening bracket, given how values are read. -/
theorem readItems {n : Nat} (hvalue : ∀ {cs room} {p : Parsed Json cs}, cs.length ≤ n → Stray cs →
      readValue room cs = some p → Stray p.rest) :
    ∀ {cs : List Char} {room : Nat} {p : Parsed (List Json) cs}, cs.length ≤ n → Stray cs →
      readItems room cs = some p → Stray p.rest := by
  induction n with
  | zero =>
    intro cs room p hlen h
    rw [List.length_eq_zero_iff.mp (Nat.le_zero.mp hlen)] at h
    exact h.elim
  | succ n ih =>
    intro cs room p hlen h hp
    obtain ⟨v, hv, ⟨m, hm, -, hrest⟩ | ⟨m, vs, hm, hvs, -, hrest⟩⟩ := readItems_cases hp
    · rw [hrest]
      exact ((hvalue hlen h hv).readMark (by decide) hm).2
    · have hm' := ((hvalue hlen h hv).readMark (by decide) hm).2
      have h₁ := v.shorter
      have h₂ := m.shorter
      rw [hrest]
      exact ih (fun hl => hvalue (by omega)) (by omega) hm' hvs

/-- **A value leaves the backslash** in what follows it. -/
theorem readValue {n : Nat} : ∀ {cs : List Char} {room : Nat} {p : Parsed Json cs}, cs.length ≤ n →
    Stray cs → readValue room cs = some p → Stray p.rest := by
  induction n with
  | zero =>
    intro cs room p hlen h
    rw [List.length_eq_zero_iff.mp (Nat.le_zero.mp hlen)] at h
    exact h.elim
  | succ n ih =>
    intro cs room p hlen h hp
    obtain ⟨c, rest, hc, hkind⟩ := readValue_cases hp
    have hshort := length_lt_of_skipSpace hc
    have hs := h.skipSpace
    rw [hc] at hs
    rcases hkind with ⟨rfl, -⟩ | ⟨rfl, room', m, -, hm, -, hrest⟩ |
      ⟨rfl, room', vs, -, hvs, -, hrest⟩ | ⟨rfl, room', m, -, hm, -, hrest⟩ |
      ⟨rfl, room', ms, -, hms, -⟩ | ⟨word, v, hword, hpre, -, hrest⟩ | ⟨x, hx, -⟩
    · -- a string does not begin before the backslash
      exact absurd rfl (hs.of_cons (by decide)).1
    · rw [hrest]
      exact ((hs.of_cons (by decide)).2.readMark (by decide) hm).2
    · rw [hrest]
      exact Stray.readItems ih (by omega) (hs.of_cons (by decide)).2 hvs
    · rw [hrest]
      exact ((hs.of_cons (by decide)).2.readMark (by decide) hm).2
    · rw [(hs.of_cons (by decide)).2.readMembers_eq_none] at hms
      cases hms
    · have hplain : ∀ w ∈ words, '\\' ∉ w.1 := by decide
      rw [hrest]
      exact hs.drop_of_prefix (hplain _ hword) hpre
    · exact hs.readNumber? hx

end Stray

/-- **A text with a backslash before any double quote** is no JSON text. -/
theorem parseChars?_eq_none_of_stray (h : Stray cs) : parseChars? cs = none := by
  unfold parseChars?
  split
  · next v hv =>
    have hrest := (Stray.readValue le_rfl h hv).skipSpace
    split_ifs with hempty
    · rw [List.isEmpty_iff.mp hempty] at hrest
      exact hrest.elim
    · rfl
  · rfl

/-! ### Texts between double quotes -/

/-- As it stands in a JSON string a text is as it is, or has a backslash before any double quote. -/
theorem flatMap_escapeChar_eq_or_stray (s : List Char) :
    s.flatMap escapeChar = s ∨ Stray (s.flatMap escapeChar) := by
  induction s with
  | nil => exact .inl rfl
  | cons c s ih =>
    rw [List.flatMap_cons]
    rcases escapeChar_cases c with ⟨hc, hquote, -⟩ | ⟨x, hc, -⟩ | ⟨hc, -⟩
    · rw [hc, List.singleton_append]
      rcases ih with hs | hs
      · exact .inl (by rw [hs])
      · exact .inr (.inr ⟨hquote, hs⟩)
    · exact .inr (by rw [hc]; exact .inl rfl)
    · exact .inr (by rw [hc]; exact .inl rfl)

theorem parseChars?_flatMap_escapeChar {s : List Char} (h : parseChars? s = none) :
    parseChars? (s.flatMap escapeChar) = none := by
  rcases flatMap_escapeChar_eq_or_stray s with hs | hs
  · rw [hs, h]
  · exact parseChars?_eq_none_of_stray hs

theorem escapeChar_eq_iff :
    escapeChar c = [c] ↔ c ≠ '"' ∧ c ≠ '\\' ∧ 32 ≤ c.toNat := by
  constructor
  · intro h
    rcases escapeChar_cases c with ⟨-, hchar⟩ | ⟨x, hc, -⟩ | ⟨hc, -⟩
    · exact hchar
    · simp [hc] at h
    · simp [hc] at h
  · rintro ⟨hquote, hslash, hcontrol⟩
    have hne : ∀ d : Char, d.toNat < 32 → c ≠ d := by
      rintro d hd rfl
      omega
    have h₈ : c.toNat ≠ 8 := by omega
    have h₁₂ : c.toNat ≠ 12 := by omega
    simp [escapeChar, hquote, hslash, hne '\n' (by decide), hne '\r' (by decide),
      hne '\t' (by decide), h₈, h₁₂, Nat.not_lt.mpr hcontrol]

theorem escapeChar_ne_nil (c : Char) : escapeChar c ≠ [] := by
  rcases escapeChar_cases c with ⟨hc, -⟩ | ⟨x, hc, -⟩ | ⟨hc, -⟩ <;> simp [hc]

theorem length_le_flatMap_escapeChar (s : List Char) :
    s.length ≤ (s.flatMap escapeChar).length := by
  induction s with
  | nil => rfl
  | cons c s ih =>
    have := List.length_pos_iff.mpr (escapeChar_ne_nil c)
    rw [List.flatMap_cons, List.length_append, List.length_cons]
    omega

/-- **A text stands in a JSON string as it is** exactly if it has no double quote, no backslash and
no control character. -/
theorem flatMap_escapeChar_eq_iff {s : List Char} :
    s.flatMap escapeChar = s ↔ ∀ c ∈ s, c ≠ '"' ∧ c ≠ '\\' ∧ 32 ≤ c.toNat := by
  induction s with
  | nil => simp
  | cons c s ih =>
    rw [List.flatMap_cons, List.forall_mem_cons, ← escapeChar_eq_iff]
    refine Iff.trans ?_ (and_congr_right' ih)
    constructor
    · intro h
      have hs := length_le_flatMap_escapeChar s
      have hlen := congrArg List.length h
      rw [List.length_append, List.length_cons] at hlen
      obtain ⟨a, ha⟩ := List.length_eq_one_iff.mp (show (escapeChar c).length = 1 by
        have := List.length_pos_iff.mpr (escapeChar_ne_nil c)
        omega)
      rw [ha, List.singleton_append, List.cons.injEq] at h
      exact ⟨by rw [ha, h.1], h.2⟩
    · rintro ⟨hc, hs⟩
      rw [hc, hs]
      rfl

end CommandChain.Json
