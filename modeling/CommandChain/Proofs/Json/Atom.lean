import CommandChain.Proofs.Expr.Brackets
import CommandChain.Proofs.Json.Printed

/-!
# JSON texts are atoms

The text of a JSON value closes the quotations and the brackets that it opens, and whatever
delimiter one may look for stands only inside of them. So between brackets no delimiter begins in it
at all (`Json.keeps_compact`), and outside of brackets no comma does (`Json.splitTop_compact`),
because the items and the members of a value stand in brackets of their own. -/

namespace CommandChain.Json

open Text (Scan)
open Text.Scan (isNeutral keeps_of_isNeutral)

/-! ### Numbers and strings -/

/-- The characters of a number: those of numerals, and those of `null` for what is not finite. -/
theorem mem_chars {n : Number} {c : Char} (h : c ∈ n.chars) :
    Syntax.isNumberChar c = true ∨ c ∈ ['n', 'u', 'l'] := by
  rcases n.chars_cases with ⟨m, hrule, hchars⟩ | ⟨cs, hchars, m, hrule, rfl⟩ | hnull
  · exact .inl (hrule.isNumberChar c (hchars ▸ h))
  · rw [hchars] at h
    rcases List.mem_cons.mp h with rfl | h
    · exact .inl (by decide)
    · exact .inl (hrule.isNumberChar c h)
  · rw [hnull] at h
    exact .inr (by simpa using h)

theorem isNeutral_of_mem_chars {n : Number} : ∀ c ∈ n.chars, isNeutral c = true := by
  intro c hc
  rcases mem_chars hc with hc | hc
  · exact Syntax.isNeutral_of_isNumberChar hc
  · exact List.all_eq_true.mp (by decide : ['n', 'u', 'l'].all isNeutral = true) c hc

theorem not_comma_of_mem_chars {n : Number} : ',' ∉ n.chars := by
  intro hc
  rcases mem_chars hc with hc | hc
  · exact absurd hc (by decide)
  · exact absurd hc (by decide)

/-- A JSON string is covered behind its first quotation mark, and ends outside of quotes. -/
theorem covers_quoted (s : List Char) (n : Nat) :
    (Scan.quoted '"' n).Covers (s.flatMap escapeChar ++ ['"']) ∧
      (Scan.quoted '"' n).run (s.flatMap escapeChar ++ ['"']) = .bare n :=
  Text.covers_quotation (.inl rfl) (contentRule_quoted s) n

theorem keeps_quoted (s : List Char) (n : Nat) : (Scan.bare (n + 1)).Keeps (quoted s) :=
  ⟨⟨rfl, (covers_quoted s (n + 1)).1⟩, (covers_quoted s (n + 1)).2⟩

/-! ### Values -/

theorem keeps_cons {c : Char} (hc : isNeutral c = true) {t : List Char} {n : Nat}
    (h : (Scan.bare (n + 1)).Keeps t) : (Scan.bare (n + 1)).Keeps (c :: t) :=
  (keeps_of_isNeutral (t := [c]) (by simpa using hc) n).append h

theorem keeps_bracketed {a b : Char} {t : List Char} {n : Nat}
    (ha : (Scan.bare (n + 1)).next a = .bare (n + 2))
    (hb : (Scan.bare (n + 2)).next b = .bare (n + 1))
    (h : (Scan.bare (n + 2)).Keeps t) : (Scan.bare (n + 1)).Keeps (a :: (t ++ [b])) :=
  ⟨⟨rfl, (h.bracketed ha hb).1⟩, (h.bracketed ha hb).2⟩

mutual

/-- **Between brackets the text of a value is covered.** -/
theorem keeps_compact : (v : Json) → ∀ n, (Scan.bare (n + 1)).Keeps v.compact
  | .null, n => keeps_of_isNeutral (List.all_eq_true.mp (by decide)) n
  | .bool true, n => keeps_of_isNeutral (List.all_eq_true.mp (by decide)) n
  | .bool false, n => keeps_of_isNeutral (List.all_eq_true.mp (by decide)) n
  | .num _, n => keeps_of_isNeutral isNeutral_of_mem_chars n
  | .str s, n => keeps_quoted s.toList n
  | .arr items, n => keeps_bracketed rfl rfl (keeps_compactItems items (n + 1))
  | .obj ms, n => keeps_bracketed rfl rfl (keeps_compactMembers ms (n + 1))

theorem keeps_compactItems : (vs : List Json) → ∀ n, (Scan.bare (n + 1)).Keeps (compactItems vs)
  | [], _ => .nil
  | v :: vs, n => (keeps_compact v n).append (keeps_compactMore vs n)

theorem keeps_compactMore : (vs : List Json) → ∀ n, (Scan.bare (n + 1)).Keeps (compactMore vs)
  | [], _ => .nil
  | v :: vs, n => keeps_cons (by decide) ((keeps_compact v n).append (keeps_compactMore vs n))

theorem keeps_compactMembers : (ms : List (String × Json)) →
    ∀ n, (Scan.bare (n + 1)).Keeps (compactMembers ms)
  | [], _ => .nil
  | (k, v) :: ms, n => (keeps_quoted k.toList n).append (keeps_cons (by decide)
      ((keeps_compact v n).append (keeps_compactMoreMembers ms n)))

theorem keeps_compactMoreMembers : (ms : List (String × Json)) →
    ∀ n, (Scan.bare (n + 1)).Keeps (compactMoreMembers ms)
  | [], _ => .nil
  | (k, v) :: ms, n => keeps_cons (by decide) ((keeps_quoted k.toList n).append
      (keeps_cons (by decide) ((keeps_compact v n).append (keeps_compactMoreMembers ms n))))

end

/-- **No comma counts in the text of a value.** -/
theorem splitTop_compact (v : Json) : Text.splitTop [','] v.compact = [v.compact] := by
  rw [Text.splitTop_eq_singleton_iff (List.cons_ne_nil _ _)]
  have hfront {a : Char} {t : List Char} (ha : a ≠ ',') (h : (Scan.start.next a).Covers t) :
      Scan.start.Clears [','] [] (a :: t) :=
    (Text.Scan.clears_cons (List.cons_ne_nil _ _) (by simpa using ha.symm)).mpr h.clears
  cases v with
  | null => exact Text.Scan.clears_of_not_mem (by decide)
  | bool b => cases b <;> exact Text.Scan.clears_of_not_mem (by decide)
  | num n => exact Text.Scan.clears_of_not_mem not_comma_of_mem_chars
  | str s => exact hfront (by decide) (covers_quoted s.toList 0).1
  | arr items => exact hfront (by decide) ((keeps_compactItems items 0).bracketed rfl rfl).1
  | obj ms => exact hfront (by decide) ((keeps_compactMembers ms 0).bracketed rfl rfl).1

/-! ### The ends of a text -/

theorem isBlank_of_isNumberChar {c : Char} (h : Syntax.isNumberChar c = true) :
    Text.isBlank c = false := by
  rcases Bool.or_eq_true_iff.mp h with hdigit | hmark
  · exact Text.isBlank_of_isDigit hdigit
  · have hnone : ['.', 'e', 'E', '+', '-'].any Text.isBlank = false := by decide
    simpa using List.any_eq_false.mp hnone c (List.contains_iff_mem.mp hmark)

theorem isBlank_of_mem_chars {n : Number} : ∀ c ∈ n.chars, Text.isBlank c = false := by
  intro c hc
  rcases mem_chars hc with hc | hc
  · exact isBlank_of_isNumberChar hc
  · have hnone : ['n', 'u', 'l'].any Text.isBlank = false := by decide
    simpa using List.any_eq_false.mp hnone c hc

theorem chars_ne_nil (n : Number) : n.chars ≠ [] := by
  rcases n.chars_cases with ⟨m, hrule, hchars⟩ | ⟨cs, hchars, -⟩ | hnull
  · obtain ⟨c, cs, hhead, -⟩ := hrule.exists_head
    simp [← hchars, hhead]
  · simp [hchars]
  · simp [hnull]

/-- The text of a value is not empty and has no blanks at its ends. -/
theorem isTrimmed_compact (v : Json) : v.compact ≠ [] ∧ Text.IsTrimmed v.compact := by
  cases v with
  | null => exact ⟨by decide, Text.isTrimmed_of_ends (a := 'n') (b := 'l') rfl rfl ['u', 'l']⟩
  | bool b =>
    cases b
    · exact ⟨by decide, Text.isTrimmed_of_ends (a := 'f') (b := 'e') rfl rfl ['a', 'l', 's']⟩
    · exact ⟨by decide, Text.isTrimmed_of_ends (a := 't') (b := 'e') rfl rfl ['r', 'u']⟩
  | num n => exact ⟨chars_ne_nil n, Text.isTrimmed_of_forall isBlank_of_mem_chars⟩
  | str s => exact ⟨List.cons_ne_nil _ _, Text.isTrimmed_of_ends (by decide) (by decide) _⟩
  | arr items => exact ⟨List.cons_ne_nil _ _, Text.isTrimmed_of_ends (by decide) (by decide) _⟩
  | obj ms => exact ⟨List.cons_ne_nil _ _, Text.isTrimmed_of_ends (by decide) (by decide) _⟩

end CommandChain.Json
