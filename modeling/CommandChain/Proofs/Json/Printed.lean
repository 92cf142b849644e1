import CommandChain.Json.Printer
import CommandChain.Proofs.Expr.Escaped
import CommandChain.Proofs.Expr.Spelling

/-!
# Printed numbers and strings

JSON text writes its numbers and strings so that the lexical rules of expressions take them: behind
a minus, if there is one, a number is a numeral, and between its double quotes a string is the
inside of a string literal, whose escapes decode to the string. -/

namespace CommandChain

open Syntax (NumberRule ExponentRule ContentRule)

/-! ### Numbers -/

/-- The characters write a number as the rule `number` has it. -/
def IsNumeral (cs : List Char) : Prop := ∃ n, NumberRule n ∧ n.chars = cs

namespace Decimal

theorem digits_ne_nil (n : Nat) : digits n ≠ [] := Nat.toDigits_ne_nil

theorem isDigit_of_mem_digits {n : Nat} {c : Char} (h : c ∈ digits n) : c.isDigit = true :=
  Nat.isDigit_of_mem_toDigits (by decide) (by decide) h

theorem isDigit_of_mem_zeros {n : Nat} {c : Char} (h : c ∈ List.replicate n '0') :
    c.isDigit = true := by
  rw [List.eq_of_mem_replicate h]
  rfl

theorem isDigit_zero : ∀ c ∈ ['0'], c.isDigit = true := by simp

theorem isNumeral_whole {ds : List Char} (hds : ∀ c ∈ ds, c.isDigit = true) (hne : ds ≠ []) :
    IsNumeral ds :=
  ⟨⟨ds, [], none⟩, ⟨hds, by simp, .inl hne, by simp⟩,
    by simp [Numeral.chars, Numeral.fractionChars]⟩

theorem isNumeral_point {ds fs : List Char} (hds : ∀ c ∈ ds, c.isDigit = true)
    (hfs : ∀ c ∈ fs, c.isDigit = true) (hne : fs ≠ []) : IsNumeral (ds ++ '.' :: fs) :=
  ⟨⟨ds, fs, none⟩, ⟨hds, hfs, .inr hne, by simp⟩,
    by simp [Numeral.chars, Numeral.fractionChars, hne]⟩

theorem plain_of_whole {d : Decimal} (h : 0 ≤ d.exponent) :
    (∀ c ∈ d.plain, c.isDigit = true) ∧ d.plain ≠ [] := by
  simp only [plain, if_pos h]
  refine ⟨List.forall_mem_append.mpr ⟨fun c => isDigit_of_mem_digits,
    fun c => isDigit_of_mem_zeros⟩, ?_⟩
  simp [digits_ne_nil]

theorem isNumeral_plain (d : Decimal) : IsNumeral d.plain := by
  by_cases h : 0 ≤ d.exponent
  · exact isNumeral_whole (plain_of_whole h).1 (plain_of_whole h).2
  · have hdigits : ∀ c ∈ digits d.significand, c.isDigit = true := fun c => isDigit_of_mem_digits
    simp only [plain, if_neg h]
    split_ifs with hlt
    · refine isNumeral_point (fun c hc => hdigits c (List.mem_of_mem_take hc))
        (fun c hc => hdigits c (List.mem_of_mem_drop hc)) ?_
      intro hnil
      have := List.drop_eq_nil_iff.mp hnil
      omega
    · have hfraction := List.forall_mem_append.mpr
        ⟨fun c => isDigit_of_mem_zeros (n := (-d.exponent).toNat - (digits d.significand).length),
          hdigits⟩
      exact isNumeral_point isDigit_zero hfraction (by simp [digits_ne_nil])

theorem isNumeral_scientific (d : Decimal) : IsNumeral d.scientific := by
  obtain ⟨c, cs, hcs⟩ := List.exists_cons_of_ne_nil (digits_ne_nil d.significand)
  have hdigits : ∀ x ∈ c :: cs, x.isDigit = true := fun x hx => isDigit_of_mem_digits (hcs ▸ hx)
  obtain ⟨hc, hfraction⟩ := List.forall_mem_cons.mp hdigits
  let e : Exponent :=
    ⟨'e', some (if d.firstPower < 0 then '-' else '+'), digits d.firstPower.natAbs⟩
  have he : ExponentRule e :=
    ⟨.inl rfl, by simp only [e]; split_ifs <;> simp, digits_ne_nil _,
      fun x => isDigit_of_mem_digits⟩
  refine ⟨⟨[c], cs, some e⟩, ⟨by simpa using hc, hfraction, by simp, ?_⟩, ?_⟩
  · rintro _ ⟨⟩
    exact he
  · cases cs <;> simp [scientific, hcs, Numeral.chars, Numeral.fractionChars, Exponent.chars, e]

end Decimal

namespace Number

theorem isNumeral_decimalText (d : Decimal) : IsNumeral (decimalText d) := by
  unfold decimalText
  split_ifs with hplain hwhole
  · obtain ⟨hdigits, -⟩ := Decimal.plain_of_whole hwhole
    exact Decimal.isNumeral_point hdigits Decimal.isDigit_zero (by simp)
  · exact Decimal.isNumeral_plain d
  · exact Decimal.isNumeral_scientific d

/-- The double that is read from the digits of a number as JSON text writes it, negated behind a
minus. -/
def readBack? (n : Number) : Option Float :=
  match n.chars with
  | '-' :: cs => (Token.readNumber? cs).map fun p => -p.1.value
  | cs => (Token.readNumber? cs).map fun p => p.1.value

/-- The digits of a number read back as the nearest double of the number. -/
def ReadsBack (n : Number) : Prop := n.readBack? = some n.toDouble

instance (n : Number) : Decidable n.ReadsBack :=
  inferInstanceAs (Decidable (n.readBack? = some n.toDouble))

/-- A number is written as a numeral, perhaps behind a minus. A double that is not finite is written
as `null`. -/
theorem chars_cases (n : Number) :
    IsNumeral n.chars ∨ (∃ cs, n.chars = '-' :: cs ∧ IsNumeral cs) ∨
      n.chars = ['n', 'u', 'l', 'l'] := by
  have hdigits : ∀ m, IsNumeral (Decimal.digits m) := fun m =>
    Decimal.isNumeral_whole (fun c => Decimal.isDigit_of_mem_digits) (Decimal.digits_ne_nil m)
  cases n with
  | int i =>
    simp only [chars, intText]
    split_ifs
    · exact .inr (.inl ⟨_, rfl, hdigits _⟩)
    · exact .inl (hdigits _)
  | float x =>
    have hmagnitude : ∀ m e, IsNumeral (if m = 0 then ['0', '.', '0']
        else decimalText (Decimal.shortest .toEven (Double.ofDyadic false m e) m e)) := by
      intro m e
      split_ifs
      · exact Decimal.isNumeral_point Decimal.isDigit_zero Decimal.isDigit_zero (by simp)
      · exact isNumeral_decimalText _
    rcases hx : Double.parts x with _ | _ | ⟨negative, m, e⟩
    · exact .inr (.inr (by simp only [chars, floatText, hx]))
    · exact .inr (.inr (by simp only [chars, floatText, hx]))
    · cases negative with
      | true => exact .inr (.inl ⟨_, by simp only [chars, floatText, hx, if_true], hmagnitude m e⟩)
      | false =>
        exact .inl <| by
          simpa only [chars, floatText, hx, Bool.false_eq_true, if_false] using hmagnitude m e

theorem isNumeral_or_minus {n : Number} (h : n.ReadsBack) :
    IsNumeral n.chars ∨ ∃ cs, n.chars = '-' :: cs ∧ IsNumeral cs := by
  rcases chars_cases n with hn | hn | hn
  · exact .inl hn
  · exact .inr hn
  · -- `null` is no numeral
    simp [ReadsBack, readBack?, hn, Token.readNumber?, Token.readFraction] at h

theorem readNumber?_numeral {num : Numeral} (h : NumberRule num) :
    Token.readNumber? num.chars = some (num, []) := by
  have hword : Syntax.NoWordChar [] := by simp [Syntax.NoWordChar]
  have hread := Syntax.readNumber?_chars h hword (by simp [Syntax.NoFraction])
  rwa [List.append_nil] at hread

/-- A number that reads back is written as a numeral of its value, perhaps behind a minus. -/
theorem ReadsBack.exists_numeral {n : Number} (h : n.ReadsBack) :
    ∃ num, NumberRule num ∧
      (n.chars = num.chars ∧ num.value = n.toDouble ∨
        n.chars = '-' :: num.chars ∧ -num.value = n.toDouble) := by
  rcases isNumeral_or_minus h with ⟨num, hrule, hchars⟩ | ⟨cs, hcs, num, hrule, rfl⟩
  · refine ⟨num, hrule, .inl ⟨hchars.symm, ?_⟩⟩
    unfold ReadsBack readBack? at h
    split at h
    · next cs hminus =>
      obtain ⟨c, ds, hhead, hbegins⟩ := hrule.exists_head
      obtain ⟨rfl, -⟩ := List.cons.inj (hhead.symm.trans (hchars.trans hminus))
      exact absurd hbegins (by decide)
    · rw [← hchars, readNumber?_numeral hrule] at h
      exact Option.some.inj h
  · refine ⟨num, hrule, .inr ⟨hcs, ?_⟩⟩
    simp only [ReadsBack, readBack?, hcs, readNumber?_numeral hrule, Option.map_some] at h
    exact Option.some.inj h

end Number

/-! ### Strings -/

namespace Json

/-- A character stands in a JSON string as it is, behind a backslash by a letter of its own, or
behind `\\u` by its code. -/
theorem escapeChar_cases (c : Char) :
    (escapeChar c = [c] ∧ c ≠ '"' ∧ c ≠ '\\' ∧ 32 ≤ c.toNat) ∨
    (∃ x, escapeChar c = ['\\', x] ∧ x ≠ 'u' ∧ Escape.escaped x = c ∧ escaped? x = some c) ∨
    (escapeChar c = ['\\', 'u', '0', '0', hexDigit (c.toNat / 16), hexDigit (c.toNat % 16)] ∧
      c.toNat < 32) := by
  unfold escapeChar
  split_ifs with hquote hslash hn hr ht hb hf hcontrol
  · exact .inr (.inl ⟨_, rfl, by decide, (eq_of_beq hquote).symm, by rw [eq_of_beq hquote]; rfl⟩)
  · exact .inr (.inl ⟨_, rfl, by decide, (eq_of_beq hslash).symm, by rw [eq_of_beq hslash]; rfl⟩)
  · exact .inr (.inl ⟨_, rfl, by decide, (eq_of_beq hn).symm, by rw [eq_of_beq hn]; rfl⟩)
  · exact .inr (.inl ⟨_, rfl, by decide, (eq_of_beq hr).symm, by rw [eq_of_beq hr]; rfl⟩)
  · exact .inr (.inl ⟨_, rfl, by decide, (eq_of_beq ht).symm, by rw [eq_of_beq ht]; rfl⟩)
  · refine .inr (.inl ⟨_, rfl, by decide, ?_⟩)
    rw [← Char.ofNat_toNat c, eq_of_beq hb]
    exact ⟨rfl, rfl⟩
  · refine .inr (.inl ⟨_, rfl, by decide, ?_⟩)
    rw [← Char.ofNat_toNat c, eq_of_beq hf]
    exact ⟨rfl, rfl⟩
  · exact .inr (.inr ⟨rfl, hcontrol⟩)
  · exact .inl ⟨rfl, by simpa using hquote, by simpa using hslash, by omega⟩

theorem contentRule_escapeChar (c : Char) {cs : List Char} (h : ContentRule '"' cs) :
    ContentRule '"' (escapeChar c ++ cs) := by
  have hdigit : ∀ n < 16, hexDigit n ≠ '"' ∧ hexDigit n ≠ '\\' := by decide
  rcases escapeChar_cases c with ⟨hc, hquote, hslash, -⟩ | ⟨x, hc, -, -⟩ | ⟨hc, hlt⟩
  · rw [hc]
    exact .plain hquote hslash h
  · rw [hc]
    exact .escape x h
  · obtain ⟨hq, hs⟩ := hdigit (c.toNat / 16) (by omega)
    obtain ⟨hq', hs'⟩ := hdigit (c.toNat % 16) (by omega)
    rw [hc]
    exact .escape 'u' (.plain (by decide) (by decide) (.plain (by decide) (by decide)
      (.plain hq hs (.plain hq' hs' h))))

theorem contentRule_quoted (s : List Char) : ContentRule '"' (s.flatMap escapeChar) := by
  induction s with
  | nil => exact .nil
  | cons c s ih => exact contentRule_escapeChar c ih

/-- The code of a control character is read as that character. -/
theorem readUnicode_control {c : Char} (h : c.toNat < 32) (cs : List Char) :
    ∃ hshorter, Escape.readUnicode
      ('0' :: '0' :: hexDigit (c.toNat / 16) :: hexDigit (c.toNat % 16) :: cs) =
        .ok ⟨c, cs, hshorter⟩ := by
  have hnumber : ∀ n < 32,
      Escape.hexNumber? ['0', '0', hexDigit (n / 16), hexDigit (n % 16)] = some n := by decide
  have hhigh : ∀ n < 32, isHighSurrogate n = false := by decide
  have hpoint : ∀ n < 32, Escape.codePoint n = Char.ofNat n := by decide
  refine ⟨by simp; omega, ?_⟩
  simp [Escape.readUnicode, Escape.readCode, hnumber _ h, hhigh _ h, hpoint _ h]

theorem decode_escapeChar (c : Char) {cs t : List Char} (h : Escape.decode cs = .ok t) :
    Escape.decode (escapeChar c ++ cs) = .ok (c :: t) := by
  rcases escapeChar_cases c with ⟨hc, -, hslash, -⟩ | ⟨x, hc, hx, rfl, -⟩ | ⟨hc, hlt⟩
  · rw [hc, List.singleton_append, Escape.decode_plain hslash, h]
    rfl
  · rw [hc, List.cons_append, List.singleton_append, Escape.decode_letter hx, h]
    rfl
  · obtain ⟨hshorter, hread⟩ := readUnicode_control hlt cs
    simp only [hc, List.cons_append, List.nil_append]
    rw [Escape.decode_unicode hread, h]
    rfl

/-- Between its double quotes, a string is the inside of a string literal that stands for it. -/
theorem decode_quoted (s : List Char) : Escape.decode (s.flatMap escapeChar) = .ok s := by
  induction s with
  | nil => rw [List.flatMap_nil, Escape.decode]
  | cons c s ih => exact decode_escapeChar c ih

end Json

end CommandChain
