import CommandChain.Expr.Parser
import Mathlib.Data.List.Chain
import Mathlib.Data.List.TakeWhile
import Mathlib.Tactic.SplitIfs

/-!
# How leaves are spelled

`Spelled xs cs` says that the characters `cs` write the leaves `xs`: each leaf by its lexical rule,
with blanks before, between and after them. The rules are those of an unordered grammar: no leaf
need be the longest that the text begins with, and only keywords and names of variables look at what
comes next. Leaves that may stand side by side (`Joins`) are told apart all the same, and are then
the tokens that are read. -/

namespace CommandChain.Syntax

open Token

/-! ### Runs of characters -/

section Runs

variable {p : Char → Bool} {cs ds : List Char}

theorem head?_dropWhile_eq_false (cs : List Char) :
    ∀ c ∈ (cs.dropWhile p).head?, p c = false := by
  intro c hc
  have h := List.head?_dropWhile_not p cs
  rw [Option.mem_def.mp hc] at h
  exact h

/-- A run of characters ends where it ended before, if what follows does not go on with it. -/
theorem takeWhile_append_of_stop (cs : List Char) (hds : ∀ c ∈ ds.head?, p c = false) :
    (cs ++ ds).takeWhile p = cs.takeWhile p ∧ (cs ++ ds).dropWhile p = cs.dropWhile p ++ ds := by
  induction cs with
  | nil =>
    cases ds with
    | nil => simp
    | cons d ds => simp [hds d rfl]
  | cons c cs ih =>
    rw [List.cons_append, List.takeWhile_cons, List.takeWhile_cons, List.dropWhile_cons,
      List.dropWhile_cons]
    split_ifs
    · exact ⟨by rw [ih.1], ih.2⟩
    · exact ⟨rfl, rfl⟩

theorem takeWhile_append_of_head (hcs : ∀ c ∈ cs, p c = true) (hds : ∀ c ∈ ds.head?, p c = false) :
    (cs ++ ds).takeWhile p = cs := by
  rw [(takeWhile_append_of_stop cs hds).1, List.takeWhile_eq_self_iff.mpr hcs]

theorem dropWhile_append_of_head (hcs : ∀ c ∈ cs, p c = true) (hds : ∀ c ∈ ds.head?, p c = false) :
    (cs ++ ds).dropWhile p = ds := by
  rw [(takeWhile_append_of_stop cs hds).2, List.dropWhile_eq_nil_iff.mpr hcs, List.nil_append]

end Runs

/-! ### Lexical rules -/

/-- The digits of an exponent are digits, and there is one. -/
structure ExponentRule (e : Exponent) : Prop where
  mark : e.mark = 'e' ∨ e.mark = 'E'
  sign : e.sign = none ∨ e.sign = some '+' ∨ e.sign = some '-'
  nonempty : e.digits ≠ []
  digits : ∀ c ∈ e.digits, c.isDigit = true

/-- The rule `number`. -/
structure NumberRule (n : Numeral) : Prop where
  whole : ∀ c ∈ n.whole, c.isDigit = true
  fraction : ∀ c ∈ n.fraction, c.isDigit = true
  nonempty : n.whole ≠ [] ∨ n.fraction ≠ []
  exponent : ∀ e ∈ n.exponent, ExponentRule e

/-- The inside of a string literal: characters other than its mark and the backslash, and
backslashes with any character after them. -/
inductive ContentRule (mark : Char) : List Char → Prop where
  | nil : ContentRule mark []
  | plain {c : Char} {cs : List Char} (hmark : c ≠ mark) (hslash : c ≠ '\\')
      (more : ContentRule mark cs) : ContentRule mark (c :: cs)
  | escape (c : Char) {cs : List Char} (more : ContentRule mark cs) :
      ContentRule mark ('\\' :: c :: cs)

/-- A character that a word may begin with, and characters that it may go on with. -/
def WordRule (w : String) : Prop :=
  ∃ c cs, w.toList = c :: cs ∧ isWordStart c = true ∧ ∀ d ∈ cs, isWordChar d = true

/-- The text does not go on with a character of a word. -/
def NoWordChar (cs : List Char) : Prop := ∀ c ∈ cs.head?, isWordChar c = false

/-- The text begins with a keyword that no character of a word follows. -/
def KeywordAhead (cs : List Char) : Prop :=
  ∃ k ∈ keywords, ∃ more, cs = k.toList ++ more ∧ NoWordChar more

namespace Terminal

/-- How a leaf is written. -/
def chars : Terminal → List Char
  | .number n => n.chars
  | .string mark raw => mark :: (raw ++ [mark])
  | .keyword w | .identifier w | .property w => w.toList
  | .sym s => s.chars

/-- The lexical rule of a leaf, with `rest` after it. -/
def Rule : Terminal → List Char → Prop
  | .number n, _ => NumberRule n
  | .string mark raw, _ => (mark = '"' ∨ mark = '\'') ∧ ContentRule mark raw
  | .keyword w, rest => w ∈ keywords ∧ NoWordChar rest
  | .identifier w, rest => WordRule w ∧ ¬ KeywordAhead (w.toList ++ rest)
  | .property w, _ => WordRule w
  | .sym _, _ => True

end Terminal

/-- The characters write the leaves, with blanks where they like. -/
inductive Spelled : List Terminal → List Char → Prop where
  | nil {blanks : List Char} (hblanks : ∀ c ∈ blanks, Text.isSpace c = true) : Spelled [] blanks
  | cons {blanks rest : List Char} {x : Terminal} {xs : List Terminal}
      (hblanks : ∀ c ∈ blanks, Text.isSpace c = true) (rule : x.Rule rest)
      (more : Spelled xs rest) :
      Spelled (x :: xs) (blanks ++ (x.chars ++ rest))

/-! ### Reading a number -/

theorem readSign_chars {sign : Option Char} {cs : List Char}
    (hsign : sign = none ∨ sign = some '+' ∨ sign = some '-')
    (hcs : ∀ c ∈ cs.head?, c.isDigit = true) : readSign (sign.toList ++ cs) = (sign, cs) := by
  rcases hsign with rfl | rfl | rfl
  · cases cs with
    | nil => rfl
    | cons c cs =>
      have hc : c.isDigit = true := hcs c rfl
      unfold readSign
      split <;> simp_all
  · rfl
  · rfl

theorem readExponent_chars {e : Exponent} {rest : List Char} (he : ExponentRule e)
    (hrest : ∀ c ∈ rest.head?, c.isDigit = false) :
    readExponent (e.chars ++ rest) = (some e, rest) := by
  have hmark : (e.mark == 'e' || e.mark == 'E') = true := by simpa using he.mark
  have hsign : readSign (e.sign.toList ++ (e.digits ++ rest)) = (e.sign, e.digits ++ rest) := by
    refine readSign_chars he.sign ?_
    obtain ⟨d, ds, hds⟩ := List.exists_cons_of_ne_nil he.nonempty
    intro c hc
    rw [hds] at hc
    obtain rfl : d = c := by simpa using hc
    exact he.digits d (by simp [hds])
  simp only [Exponent.chars, List.cons_append, List.append_assoc, readExponent,
    hmark, if_true, hsign, takeWhile_append_of_head he.digits hrest,
    dropWhile_append_of_head he.digits hrest, List.isEmpty_iff, he.nonempty, if_false]

theorem readExponent_of_noWordChar {rest : List Char} (hrest : NoWordChar rest) :
    readExponent rest = (none, rest) := by
  cases rest with
  | nil => rfl
  | cons c cs =>
    have hc : isWordChar c = false := hrest c rfl
    have : (c == 'e' || c == 'E') = false := by
      refine Bool.eq_false_iff.mpr fun h => ?_
      rcases (by simpa using h : c = 'e' ∨ c = 'E') with rfl | rfl
      · exact absurd hc (by decide)
      · exact absurd hc (by decide)
    simp only [readExponent, this, Bool.false_eq_true, if_false]

/-- A digit is a character of a word. -/
theorem isDigit_eq_false {c : Char} (h : isWordChar c = false) : c.isDigit = false := by
  unfold isWordChar at h
  simp only [Bool.or_eq_false_iff, Char.isAlphanum] at h
  exact h.1.1.2

/-- The text does not go on with a point and a digit. -/
def NoFraction (cs : List Char) : Prop := ∀ c more, cs = '.' :: c :: more → c.isDigit = false

theorem readFraction_of_noFraction {rest : List Char} (hrest : NoFraction rest) :
    readFraction rest = ([], rest) := by
  unfold readFraction
  split
  · next more =>
    cases more with
    | nil => rfl
    | cons c more => simp [hrest c more rfl]
  · rfl

theorem readFraction_chars {ds rest : List Char} (hds : ∀ c ∈ ds, c.isDigit = true)
    (hrest : ∀ c ∈ rest.head?, c.isDigit = false) (hno : NoFraction rest) :
    readFraction (Numeral.fractionChars ds ++ rest) = (ds, rest) := by
  unfold Numeral.fractionChars
  split
  · next h =>
    obtain rfl := List.isEmpty_iff.mp h
    exact readFraction_of_noFraction hno
  · next h =>
    simp only [List.cons_append, readFraction, takeWhile_append_of_head hds hrest,
      dropWhile_append_of_head hds hrest, h, Bool.false_eq_true, if_false]

/-- The characters of an exponent begin with a letter. -/
theorem head?_exponent {e : Option Exponent} (he : ∀ x ∈ e, ExponentRule x) {rest : List Char}
    {c : Char} (hc : c ∈ ((e.map Exponent.chars).getD [] ++ rest).head?) :
    c = 'e' ∨ c = 'E' ∨ e = none ∧ c ∈ rest.head? := by
  cases e with
  | none => exact .inr (.inr ⟨rfl, hc⟩)
  | some e =>
    have hmark := (he e rfl).mark
    obtain rfl : e.mark = c := by simpa [Exponent.chars] using hc
    exact hmark.imp_right .inl

theorem readNumber?_chars {n : Numeral} {rest : List Char} (hn : NumberRule n)
    (hrest : NoWordChar rest) (hno : NoFraction rest) :
    readNumber? (n.chars ++ rest) = some (n, rest) := by
  have hexp : readExponent ((n.exponent.map Exponent.chars).getD [] ++ rest) =
      (n.exponent, rest) := by
    cases h : n.exponent with
    | none => exact readExponent_of_noWordChar hrest
    | some e =>
      exact readExponent_chars (hn.exponent e h) fun c hc => isDigit_eq_false (hrest c hc)
  have htail : ∀ c ∈ ((n.exponent.map Exponent.chars).getD [] ++ rest).head?,
      c.isDigit = false := by
    intro c hc
    rcases head?_exponent hn.exponent hc with rfl | rfl | ⟨-, hc⟩
    · decide
    · decide
    · exact isDigit_eq_false (hrest c hc)
  have hpoint : NoFraction ((n.exponent.map Exponent.chars).getD [] ++ rest) := by
    intro c more h
    rcases head?_exponent hn.exponent (c := '.') (by rw [h]; rfl) with h' | h' | ⟨h', -⟩
    · exact absurd h' (by decide)
    · exact absurd h' (by decide)
    · rw [h'] at h
      exact hno c more h
  have hwhole : ∀ c ∈ (Numeral.fractionChars n.fraction ++
      ((n.exponent.map Exponent.chars).getD [] ++ rest)).head?, c.isDigit = false := by
    unfold Numeral.fractionChars
    split
    · exact htail
    · intro c hc
      obtain rfl : '.' = c := by simpa using hc
      decide
  have hne : (n.whole.isEmpty && n.fraction.isEmpty) = false := by
    rcases hn.nonempty with h | h <;> simp [h]
  simp only [readNumber?, Numeral.chars, List.append_assoc,
    takeWhile_append_of_head hn.whole hwhole, dropWhile_append_of_head hn.whole hwhole,
    readFraction_chars hn.fraction htail hpoint, hne, Bool.false_eq_true, if_false, hexp]

/-- A text that begins neither with a digit nor with a point and a digit begins with no number. -/
theorem readNumber?_eq_none {cs : List Char} (hcs : ∀ c ∈ cs.head?, c.isDigit = false)
    (hno : NoFraction cs) : readNumber? cs = none := by
  have htake : ([] ++ cs).takeWhile Char.isDigit = [] := takeWhile_append_of_head (by simp) hcs
  have hdrop : ([] ++ cs).dropWhile Char.isDigit = cs := dropWhile_append_of_head (by simp) hcs
  rw [List.nil_append] at htake hdrop
  simp [readNumber?, htake, hdrop, readFraction_of_noFraction hno]

/-! ### Reading a leaf -/

theorem readRaw?_content {mark : Char} (hmark : mark ≠ '\\') {raw : List Char}
    (hraw : ContentRule mark raw) (rest : List Char) :
    readRaw? mark (raw ++ mark :: rest) = some (raw, rest) := by
  induction hraw with
  | nil => simp [readRaw?, hmark]
  | plain hne hslash more ih => simp [readRaw?, hne, hslash, ih]
  | escape c more ih => simp [readRaw?, ih]

theorem le_toNat_of_isAlpha {c : Char} (hc : c.isAlpha = true) : 65 ≤ c.toNat := by
  rcases Bool.or_eq_true_iff.mp hc with hc | hc
  · exact UInt32.le_iff_toNat_le.mp (of_decide_eq_true hc).1
  · have ha : 97 ≤ c.toNat :=
      UInt32.le_iff_toNat_le.mp (of_decide_eq_true (Bool.and_eq_true_iff.mp hc).1)
    omega

theorem toNat_le_of_isAlpha {c : Char} (hc : c.isAlpha = true) : c.toNat ≤ 122 := by
  rcases Bool.or_eq_true_iff.mp hc with hc | hc
  · have hz : c.toNat ≤ 90 := UInt32.le_iff_toNat_le.mp (of_decide_eq_true hc).2
    omega
  · exact UInt32.le_iff_toNat_le.mp (of_decide_eq_true (Bool.and_eq_true_iff.mp hc).2)

theorem isDigit_of_isWordStart {c : Char} (hc : isWordStart c = true) : c.isDigit = false := by
  simp only [isWordStart, Bool.or_eq_true, beq_iff_eq] at hc
  rcases hc with (hc | rfl) | rfl
  · have hle := le_toNat_of_isAlpha hc
    rw [Bool.eq_false_iff]
    intro hdigit
    have hnine : c.toNat ≤ 57 := (Char.isDigit_iff_toNat.mp hdigit).2
    omega
  · decide
  · decide

theorem isWordChar_of_isWordStart {c : Char} (hc : isWordStart c = true) : isWordChar c = true := by
  simp only [isWordStart, isWordChar, Char.isAlphanum, Bool.or_eq_true] at hc ⊢
  rcases hc with (hc | hc) | hc
  · exact .inl (.inl (.inl hc))
  · exact .inl (.inr hc)
  · exact .inr hc

theorem WordRule.toList_ne_nil {w : String} (hw : WordRule w) : w.toList ≠ [] := by
  obtain ⟨c, cs, h, -⟩ := hw
  simp [h]

theorem WordRule.isWordChar {w : String} (hw : WordRule w) :
    ∀ c ∈ w.toList, isWordChar c = true := by
  obtain ⟨c, cs, h, hc, hcs⟩ := hw
  rw [h]
  exact List.forall_mem_cons.mpr ⟨isWordChar_of_isWordStart hc, hcs⟩

/-- What a text begins with that does not begin with a number or a string literal. -/
theorem read?_of_plain {c : Char} {cs : List Char} (hdigit : c.isDigit = false)
    (hno : NoFraction (c :: cs)) (hquote : c ≠ '"' ∧ c ≠ '\'') :
    read? (c :: cs) =
      if isWordStart c then
        some (.word (String.ofList ((c :: cs).takeWhile isWordChar)),
          (c :: cs).dropWhile isWordChar)
      else
        (Punctuation.all.find? fun s => s.chars.isPrefixOf (c :: cs)).map fun s =>
          (.sym s, (c :: cs).drop s.chars.length) := by
  have hnum : readNumber? (c :: cs) = none := readNumber?_eq_none (by simpa using hdigit) hno
  simp [read?, hnum, hquote.1, hquote.2]

theorem read?_string {mark : Char} (hmark : mark = '"' ∨ mark = '\'') {raw : List Char}
    (hraw : ContentRule mark raw) (rest : List Char) :
    read? (mark :: (raw ++ [mark]) ++ rest) = some (.str mark raw, rest) := by
  have hdigit : mark.isDigit = false := by rcases hmark with rfl | rfl <;> decide
  have hpoint : mark ≠ '.' := by rcases hmark with rfl | rfl <;> decide
  have hslash : mark ≠ '\\' := by rcases hmark with rfl | rfl <;> decide
  have hnum : readNumber? (mark :: (raw ++ mark :: rest)) = none := by
    refine readNumber?_eq_none (by simpa using hdigit) ?_
    intro c more h
    exact absurd (List.cons.inj h).1 hpoint
  simp [read?, hnum, hmark, readRaw?_content hslash hraw]

theorem read?_word {w : String} (hw : WordRule w) {rest : List Char} (hrest : NoWordChar rest) :
    read? (w.toList ++ rest) = some (.word w, rest) := by
  have hchars := hw.isWordChar
  obtain ⟨c, cs, h, hc, -⟩ := hw
  have hdigit := isDigit_of_isWordStart hc
  have hpoint : NoFraction (c :: (cs ++ rest)) := by
    intro d more h
    obtain rfl : c = '.' := (List.cons.inj h).1
    exact absurd hc (by decide)
  have hquote : c ≠ '"' ∧ c ≠ '\'' := by
    constructor
    · rintro rfl
      exact absurd hc (by decide)
    · rintro rfl
      exact absurd hc (by decide)
  rw [h, List.cons_append, read?_of_plain hdigit hpoint hquote, if_pos hc, ← List.cons_append, ← h,
    takeWhile_append_of_head hchars hrest, dropWhile_append_of_head hchars hrest,
    String.ofList_toList]

/-- What must not follow a symbol, because the two would be read as another symbol or as a
number. -/
def Clear : Punctuation → List Char → Prop
  | .lt, rest | .gt, rest | .bang, rest | .ne, rest | .eq, rest => rest.head? ≠ some '='
  | .dot, rest => ∀ c ∈ rest.head?, c ≠ '.' ∧ c.isDigit = false
  | _, _ => True

theorem find?_chars {s : Punctuation} {rest : List Char} (h : Clear s rest) :
    (Punctuation.all.find? fun s' => s'.chars.isPrefixOf (s.chars ++ rest)) = some s := by
  cases rest with
  | nil => cases s <;> rfl
  | cons c cs =>
    cases s
    case eq | ne | lt | gt | bang =>
      have hne : c ≠ '=' := by simpa [Clear] using h
      have hc : ('=' == c) = false := beq_eq_false_iff_ne.mpr hne.symm
      simp [Punctuation.all, Punctuation.chars, List.isPrefixOf, hc]
    case dot =>
      have hc : ('.' == c) = false := beq_eq_false_iff_ne.mpr (h c rfl).1.symm
      simp [Punctuation.all, Punctuation.chars, List.isPrefixOf, hc]
    all_goals simp [Punctuation.all, Punctuation.chars]

theorem read?_sym {s : Punctuation} {rest : List Char} (h : Clear s rest) :
    read? (s.chars ++ rest) = some (.sym s, rest) := by
  have hfind := find?_chars h
  obtain ⟨c, cs, hcs⟩ : ∃ c cs, s.chars = c :: cs := by
    cases s <;> exact ⟨_, _, rfl⟩
  have hplain : c.isDigit = false ∧ isWordStart c = false ∧ c ≠ '"' ∧ c ≠ '\'' := by
    cases s <;> cases hcs <;> decide
  have hpoint : NoFraction (c :: (cs ++ rest)) := by
    intro d more hd
    cases s <;> cases hcs <;> simp_all [Clear]
    obtain ⟨rfl, -⟩ := hd
    decide
  rw [hcs, List.cons_append] at hfind ⊢
  rw [read?_of_plain hplain.1 hpoint hplain.2.2, hplain.2.1, hfind]
  simp [hcs]

/-! ### Leaves side by side -/

namespace Terminal

/-- The characters that a leaf may begin with. -/
def Begins : Terminal → Char → Prop
  | .number _, c => c.isDigit = true ∨ c = '.'
  | .string .., c => c = '"' ∨ c = '\''
  | .keyword _, c | .identifier _, c | .property _, c => isWordStart c = true
  | .sym s, c => s.chars.head? = some c

/-- A symbol. -/
def isSym : Terminal → Bool
  | .sym _ => true
  | _ => false

/-- A symbol that begins with an equals sign. -/
def isEqual : Terminal → Bool
  | .sym .strictEq | .sym .eq | .sym .arrow => true
  | _ => false

/-- The second leaf may come right after the first: a number or a name is followed by a symbol, a
point by the name of a property, and no equals sign follows a symbol that it would lengthen. -/
def Joins : Terminal → Terminal → Prop
  | .number _, y | .identifier _, y | .property _, y => y.isSym = true
  | .sym .dot, y => ∃ w, y = .property w
  | .sym .lt, y | .sym .gt, y | .sym .bang, y | .sym .ne, y | .sym .eq, y => y.isEqual = false
  | _, _ => True

end Terminal

theorem wordRule_of_mem_keywords {w : String} (hw : w ∈ keywords) : WordRule w := by
  simp only [keywords, List.mem_cons, List.not_mem_nil, or_false] at hw
  rcases hw with rfl | rfl | rfl | rfl | rfl
  all_goals exact ⟨_, _, rfl, by decide, List.all_eq_true.mp (by decide)⟩

theorem NumberRule.exists_head {n : Numeral} (hn : NumberRule n) :
    ∃ c cs, n.chars = c :: cs ∧ (c.isDigit = true ∨ c = '.') := by
  unfold Numeral.chars Numeral.fractionChars
  cases h : n.whole with
  | cons c cs => exact ⟨c, _, rfl, .inl (hn.whole c (by simp [h]))⟩
  | nil =>
    have hfraction : n.fraction ≠ [] := hn.nonempty.resolve_left (fun hw => hw h)
    exact ⟨'.', _, by rw [if_neg (by simpa using hfraction)]; rfl, .inr rfl⟩

theorem Terminal.Rule.exists_head {x : Terminal} {rest : List Char} (h : x.Rule rest) :
    ∃ c cs, x.chars = c :: cs ∧ x.Begins c := by
  cases x with
  | number n => exact NumberRule.exists_head h
  | string mark raw => exact ⟨mark, raw ++ [mark], rfl, h.1⟩
  | keyword w =>
    obtain ⟨c, cs, hw, hc, -⟩ := wordRule_of_mem_keywords h.1
    exact ⟨c, cs, hw, hc⟩
  | identifier w =>
    obtain ⟨c, cs, hw, hc, -⟩ := h.1
    exact ⟨c, cs, hw, hc⟩
  | property w =>
    obtain ⟨c, cs, hw, hc, -⟩ := h
    exact ⟨c, cs, hw, hc⟩
  | sym s => cases s <;> exact ⟨_, _, rfl, rfl⟩

/-- A blank begins no leaf and is in no word. -/
theorem not_wordChar_of_isSpace {c : Char} (hc : Text.isSpace c = true) :
    isWordChar c = false ∧ c.isDigit = false ∧ c ≠ '.' ∧ c ≠ '=' := by
  simp only [Text.isSpace, Bool.or_eq_true, beq_iff_eq] at hc
  rcases hc with ((rfl | rfl) | rfl) | rfl <;> decide

theorem Terminal.Begins.isSpace_eq_false {x : Terminal} {c : Char} (h : x.Begins c) :
    Text.isSpace c = false := by
  refine Bool.eq_false_iff.mpr fun hc => ?_
  have hblank := not_wordChar_of_isSpace hc
  cases x with
  | number n =>
    rcases h with h | rfl
    · exact absurd h (by simp [hblank.2.1])
    · exact absurd hc (by decide)
  | string mark raw => rcases h with rfl | rfl <;> exact absurd hc (by decide)
  | keyword w | identifier w | property w =>
    have := isWordChar_of_isWordStart h
    exact absurd this (by simp [hblank.1])
  | sym s => cases s <;> cases h <;> exact absurd hc (by decide)

/-- A text begins with a blank or with its first leaf. -/
theorem Spelled.head {xs : List Terminal} {cs : List Char} (h : Spelled xs cs) {c : Char}
    (hc : c ∈ cs.head?) : Text.isSpace c = true ∨ ∃ x ∈ xs.head?, x.Begins c := by
  cases h with
  | nil hblanks => exact .inl (hblanks c (List.mem_of_mem_head? hc))
  | @cons blanks rest x xs hblanks rule more =>
    cases blanks with
    | cons b bs =>
      obtain rfl : b = c := by simpa using hc
      exact .inl (hblanks b (by simp))
    | nil =>
      obtain ⟨d, ds, hx, hd⟩ := rule.exists_head
      obtain rfl : d = c := by simpa [hx] using hc
      exact .inr ⟨x, rfl, hd⟩

section Next

variable {x : Terminal} {xs : List Terminal} {rest : List Char}

theorem Spelled.noWordChar (h : Spelled xs rest) (hxs : ∀ y ∈ xs.head?, y.isSym = true) :
    NoWordChar rest := by
  intro c hc
  rcases h.head hc with hblank | ⟨y, hy, hbegins⟩
  · exact (not_wordChar_of_isSpace hblank).1
  · cases y with
    | sym s => cases s <;> cases hbegins <;> decide
    | number | string | keyword | identifier | property => cases hxs _ hy

/-- What comes after a point is the name of a property. -/
theorem Spelled.after_dot (h : Spelled xs rest) (hxs : ∀ y ∈ xs.head?, ∃ w, y = .property w)
    {c : Char} (hc : c ∈ rest.head?) : c ≠ '.' ∧ c.isDigit = false := by
  rcases h.head hc with hblank | ⟨y, hy, hbegins⟩
  · exact ⟨(not_wordChar_of_isSpace hblank).2.2.1, (not_wordChar_of_isSpace hblank).2.1⟩
  · obtain ⟨w, rfl⟩ := hxs y hy
    refine ⟨?_, isDigit_of_isWordStart hbegins⟩
    rintro rfl
    exact absurd (show isWordStart '.' = true from hbegins) (by decide)

/-- Equals signs begin only some symbols. -/
theorem Spelled.not_equal (h : Spelled xs rest) (hxs : ∀ y ∈ xs.head?, y.isEqual = false) :
    rest.head? ≠ some '=' := by
  intro hc
  rcases h.head hc with hblank | ⟨y, hy, hbegins⟩
  · exact absurd hblank (by decide)
  · have hequal := hxs y hy
    cases y with
    | number n => exact absurd hbegins (by simp [Terminal.Begins])
    | string mark raw => exact absurd hbegins (by simp [Terminal.Begins])
    | keyword w | identifier w | property w =>
      exact absurd (show isWordStart '=' = true from hbegins) (by decide)
    | sym s =>
      have hchars : s.chars.head? = some '=' := hbegins
      cases s <;> first | exact absurd hequal (by decide) | exact absurd hchars (by decide)

theorem Spelled.noFraction (h : Spelled xs rest) (hxs : ∀ y ∈ xs.head?, y.isSym = true)
    (hjoins : xs.IsChain Terminal.Joins) : NoFraction rest := by
  rintro d more hrest
  cases h with
  | nil hblanks => exact absurd (hblanks '.' (by simp [hrest])) (by decide)
  | @cons blanks tail x xs hblanks rule spelled =>
    cases blanks with
    | cons b bs =>
      obtain ⟨rfl, -⟩ := List.cons.inj hrest
      exact absurd (hblanks '.' (by simp)) (by decide)
    | nil =>
      cases x with
      | sym s =>
        cases s
        case dot =>
          obtain ⟨-, rfl⟩ := List.cons.inj hrest
          exact (spelled.after_dot (List.IsChain.rel_head? hjoins) rfl).2
        case ellipsis =>
          obtain ⟨-, htail⟩ := List.cons.inj hrest
          obtain ⟨rfl, -⟩ := List.cons.inj htail
          decide
        all_goals exact absurd (List.cons.inj hrest).1 (by decide)
      | number | string | keyword | identifier | property => cases hxs _ rfl

/-- A leaf that the next one may follow is read as its token. -/
theorem read?_chars (rule : x.Rule rest) (more : Spelled xs rest)
    (hjoins : (x :: xs).IsChain Terminal.Joins) :
    read? (x.chars ++ rest) = some (x.token, rest) := by
  have hnext := List.IsChain.rel_head? hjoins
  cases x with
  | number n =>
    have h := readNumber?_chars rule (more.noWordChar hnext) (more.noFraction hnext hjoins.tail)
    simp [read?, Terminal.chars, Terminal.token, h]
  | string mark raw => exact read?_string rule.1 rule.2 rest
  | keyword w => exact read?_word (wordRule_of_mem_keywords rule.1) rule.2
  | identifier w => exact read?_word rule.1 (more.noWordChar hnext)
  | property w => exact read?_word rule (more.noWordChar hnext)
  | sym s =>
    refine read?_sym ?_
    cases s
    case lt | gt | bang | ne | eq => exact more.not_equal hnext
    case dot => exact fun c hc => more.after_dot hnext hc
    all_goals trivial

end Next

/-- Leaves that may stand side by side are the tokens of the text that they are spelled by. -/
theorem lexFrom_of_spelled {xs : List Terminal} {cs : List Char} (h : Spelled xs cs)
    (hjoins : xs.IsChain Terminal.Joins) {fuel : Nat} (hfuel : cs.length ≤ fuel) :
    lexFrom fuel cs = some (xs.map Terminal.token) := by
  induction h generalizing fuel with
  | @nil blanks hblanks =>
    have hdrop : blanks.dropWhile Text.isSpace = [] := List.dropWhile_eq_nil_iff.mpr hblanks
    cases fuel <;> simp [lexFrom, hdrop]
  | @cons blanks rest x xs hblanks rule more ih =>
    obtain ⟨c, cs, hchars, hbegins⟩ := rule.exists_head
    have hdrop : (blanks ++ (x.chars ++ rest)).dropWhile Text.isSpace = c :: (cs ++ rest) := by
      rw [hchars]
      refine dropWhile_append_of_head hblanks fun d hd => ?_
      obtain rfl : c = d := by simpa using hd
      exact hbegins.isSpace_eq_false
    have hread := read?_chars rule more hjoins
    rw [hchars, List.cons_append] at hread
    simp only [hchars, List.length_append, List.length_cons] at hfuel
    cases fuel with
    | zero => omega
    | succ fuel =>
      have hmore := ih hjoins.tail (show rest.length ≤ fuel by omega)
      simp [lexFrom, hdrop, hread, hmore]

theorem lex?_of_spelled {xs : List Terminal} {cs : List Char} (h : Spelled xs cs)
    (hjoins : xs.IsChain Terminal.Joins) : lex? cs = some (xs.map Terminal.token) :=
  lexFrom_of_spelled h hjoins le_rfl

/-- Names in a spelled text are no keywords. -/
theorem Spelled.proper {xs : List Terminal} {cs : List Char} (h : Spelled xs cs)
    (hjoins : xs.IsChain Terminal.Joins) : ∀ x ∈ xs, x.Proper := by
  induction h with
  | nil => simp
  | @cons blanks rest x xs hblanks rule more ih =>
    refine List.forall_mem_cons.mpr ⟨?_, ih hjoins.tail⟩
    cases x with
    | keyword w => exact rule.1
    | identifier w =>
      intro hw
      exact rule.2 ⟨w, hw, rest, rfl, more.noWordChar (List.IsChain.rel_head? hjoins)⟩
    | number | string | property | sym => trivial

/-! ### Texts one after the other -/

section Append

variable {xs ys : List Terminal} {cs ds : List Char}

theorem NoWordChar.append (h : NoWordChar cs) (hds : NoWordChar ds) : NoWordChar (cs ++ ds) := by
  cases cs with
  | nil => exact hds
  | cons c cs => exact h

/-- A keyword that does not go on into the second text is ahead in the first one already. -/
theorem KeywordAhead.of_append (hds : NoWordChar ds) (h : KeywordAhead (cs ++ ds)) :
    KeywordAhead cs := by
  obtain ⟨k, hk, more, heq, hmore⟩ := h
  rcases List.append_eq_append_iff.mp heq with ⟨tail, hktail, htail⟩ | ⟨tail, rfl, htail⟩
  · cases tail with
    | nil => exact ⟨k, hk, [], by simpa using hktail.symm, by simp [NoWordChar]⟩
    | cons c tail =>
      have hc : isWordChar c = true :=
        (wordRule_of_mem_keywords hk).isWordChar c (by simp [hktail])
      rw [hds c (by simp [htail])] at hc
      cases hc
  · refine ⟨k, hk, tail, rfl, ?_⟩
    cases tail with
    | nil => simp [NoWordChar]
    | cons c tail => simpa [NoWordChar, htail] using hmore

/-- The lexical rule of a leaf still holds with more after it. -/
theorem Terminal.Rule.append {x : Terminal} (h : x.Rule cs) (hds : NoWordChar ds) :
    x.Rule (cs ++ ds) := by
  cases x with
  | keyword w => exact ⟨h.1, h.2.append hds⟩
  | identifier w =>
    refine ⟨h.1, fun hahead => h.2 ?_⟩
    rw [← List.append_assoc] at hahead
    exact hahead.of_append hds
  | number | string | property | sym => exact h

theorem Spelled.blanks (hcs : ∀ c ∈ cs, Text.isSpace c = true) (h : Spelled xs ds) :
    Spelled xs (cs ++ ds) := by
  cases h with
  | nil hblanks => exact .nil (List.forall_mem_append.mpr ⟨hcs, hblanks⟩)
  | cons hblanks rule more =>
    rw [← List.append_assoc]
    exact .cons (List.forall_mem_append.mpr ⟨hcs, hblanks⟩) rule more

/-- Two texts of which the second does not go on with a word write the leaves of both. -/
theorem Spelled.append (h : Spelled xs cs) (h' : Spelled ys ds) (hds : NoWordChar ds) :
    Spelled (xs ++ ys) (cs ++ ds) := by
  induction h with
  | nil hblanks => exact h'.blanks hblanks
  | cons hblanks rule more ih =>
    rw [List.append_assoc, List.append_assoc]
    exact .cons hblanks (rule.append hds) ih

end Append

/-! ### Tokens that were read are spelled -/

theorem readSign_sound (cs : List Char) :
    cs = (readSign cs).1.toList ++ (readSign cs).2 ∧
      ((readSign cs).1 = none ∨ (readSign cs).1 = some '+' ∨ (readSign cs).1 = some '-') := by
  unfold readSign
  split <;> simp

theorem readExponent_sound (cs : List Char) :
    cs = ((readExponent cs).1.map Exponent.chars).getD [] ++ (readExponent cs).2 ∧
      ∀ e ∈ (readExponent cs).1, ExponentRule e := by
  cases cs with
  | nil => simp [readExponent]
  | cons c rest =>
    obtain ⟨hsign, hcases⟩ := readSign_sound rest
    unfold readExponent
    dsimp only
    split_ifs with hmark hdigits
    · simp
    · refine ⟨?_, ?_⟩
      · conv_lhs => rw [hsign]
        simp [Exponent.chars]
      · intro e he
        obtain rfl := Option.some.inj he
        exact ⟨by simpa using hmark, hcases, by simpa using hdigits,
          fun d hd => List.mem_takeWhile_imp hd⟩
    · simp

theorem readFraction_sound (cs : List Char) :
    cs = Numeral.fractionChars (readFraction cs).1 ++ (readFraction cs).2 ∧
      ∀ c ∈ (readFraction cs).1, c.isDigit = true := by
  unfold readFraction
  split
  · next rest =>
    dsimp only
    split_ifs with h
    · simp [Numeral.fractionChars]
    · exact ⟨by simp [Numeral.fractionChars, h], fun d hd => List.mem_takeWhile_imp hd⟩
  · simp [Numeral.fractionChars]

theorem readNumber?_sound {cs rest : List Char} {n : Numeral}
    (h : readNumber? cs = some (n, rest)) : cs = n.chars ++ rest ∧ NumberRule n := by
  unfold readNumber? at h
  dsimp only at h
  split_ifs at h with hne
  obtain ⟨rfl, rfl⟩ := Prod.mk.inj (Option.some.inj h)
  obtain ⟨hfraction, hdigits⟩ := readFraction_sound (cs.dropWhile Char.isDigit)
  obtain ⟨hexp, hrule⟩ := readExponent_sound (readFraction (cs.dropWhile Char.isDigit)).2
  refine ⟨?_, fun d hd => List.mem_takeWhile_imp hd, hdigits, ?_, hrule⟩
  · simp only [Numeral.chars, List.append_assoc]
    rw [← hexp, ← hfraction, List.takeWhile_append_dropWhile]
  · by_contra hboth
    simp only [not_or, not_not] at hboth
    exact hne (by simp [hboth.1, hboth.2])

theorem readRaw?_sound {mark : Char} {cs raw rest : List Char}
    (h : readRaw? mark cs = some (raw, rest)) :
    cs = raw ++ mark :: rest ∧ ContentRule mark raw := by
  fun_induction readRaw? mark cs generalizing raw with
  | case1 => cases h
  | case2 c cs ih =>
    simp only [Option.map_eq_some_iff, Prod.mk.injEq, Prod.exists] at h
    obtain ⟨raw, rest, hread, rfl, rfl⟩ := h
    obtain ⟨rfl, hrule⟩ := ih hread
    exact ⟨rfl, .escape c hrule⟩
  | case3 c cs hslash hmark =>
    obtain ⟨rfl, rfl⟩ := Prod.mk.inj (Option.some.inj h)
    obtain rfl := eq_of_beq hmark
    exact ⟨rfl, .nil⟩
  | case4 c cs hslash hmark => cases h
  | case5 c cs hslash hmark hplain ih =>
    simp only [Option.map_eq_some_iff, Prod.mk.injEq, Prod.exists] at h
    obtain ⟨raw, rest, hread, rfl, rfl⟩ := h
    obtain ⟨rfl, hrule⟩ := ih hread
    exact ⟨rfl, .plain (by simpa using hmark) (by simpa using hplain) hrule⟩

/-- A word that is read is a word, and the text does not go on with a character of it. -/
theorem wordRule_takeWhile {c : Char} {cs : List Char} (hc : isWordStart c = true) :
    WordRule (String.ofList ((c :: cs).takeWhile isWordChar)) := by
  refine ⟨c, cs.takeWhile isWordChar, ?_, hc, fun d hd => List.mem_takeWhile_imp hd⟩
  rw [String.toList_ofList, List.takeWhile_cons_of_pos (isWordChar_of_isWordStart hc)]

/-- A word that is read and is no keyword does not begin with a keyword of its own. -/
theorem not_keywordAhead {w : String} {rest : List Char} (hw : w ∉ keywords)
    (hchars : ∀ c ∈ w.toList, isWordChar c = true) (hrest : NoWordChar rest) :
    ¬ KeywordAhead (w.toList ++ rest) := by
  rintro ⟨k, hk, more, h, hmore⟩
  have hkeyword := (wordRule_of_mem_keywords hk).isWordChar
  have htake : w.toList = k.toList := by
    rw [← takeWhile_append_of_head hchars hrest, h, takeWhile_append_of_head hkeyword hmore]
  rw [String.toList_inj.mp htake] at hw
  exact hw hk

theorem read?_sound {x : Terminal} {cs rest : List Char} (hx : x.Proper)
    (h : read? cs = some (x.token, rest)) : cs = x.chars ++ rest ∧ x.Rule rest := by
  unfold read? at h
  split at h
  · next n rest' hnum =>
    obtain ⟨htoken, rfl⟩ := Prod.mk.inj (Option.some.inj h)
    obtain ⟨rfl, hrule⟩ := readNumber?_sound hnum
    cases x <;> cases htoken
    exact ⟨rfl, hrule⟩
  · split at h
    · cases h
    · next c rest' _ =>
      split_ifs at h with hquote hstart
      · simp only [Option.map_eq_some_iff, Prod.mk.injEq, Prod.exists] at h
        obtain ⟨raw, tail, hraw, htoken, rfl⟩ := h
        obtain ⟨rfl, hrule⟩ := readRaw?_sound hraw
        cases x <;> cases htoken
        exact ⟨by simp [Terminal.chars], by simpa using hquote, hrule⟩
      · obtain ⟨htoken, rfl⟩ := Prod.mk.inj (Option.some.inj h)
        have hword : WordRule (String.ofList ((c :: rest').takeWhile isWordChar)) :=
          wordRule_takeWhile hstart
        have hrest : NoWordChar ((c :: rest').dropWhile isWordChar) := head?_dropWhile_eq_false _
        have hchars : c :: rest' =
            (String.ofList ((c :: rest').takeWhile isWordChar)).toList ++
              (c :: rest').dropWhile isWordChar := by
          rw [String.toList_ofList, List.takeWhile_append_dropWhile]
        cases x <;> cases htoken
        · exact ⟨hchars, hx, hrest⟩
        · exact ⟨hchars, hword, not_keywordAhead hx hword.isWordChar hrest⟩
        · exact ⟨hchars, hword⟩
      · simp only [Option.map_eq_some_iff, Prod.mk.injEq] at h
        obtain ⟨s, hfind, htoken, rfl⟩ := h
        cases x <;> cases htoken
        have hchars := List.find?_some hfind
        exact ⟨(List.prefix_iff_eq_append.mp (List.isPrefixOf_iff_prefix.mp hchars)).symm, trivial⟩

/-- What is read as the tokens of leaves spells these leaves. -/
theorem spelled_of_lexFrom {fuel : Nat} {xs : List Terminal} {cs : List Char}
    (hproper : ∀ x ∈ xs, x.Proper) (h : lexFrom fuel cs = some (xs.map Terminal.token)) :
    Spelled xs cs := by
  induction fuel generalizing xs cs with
  | zero =>
    unfold lexFrom at h
    split_ifs at h with hblank
    obtain rfl : xs = [] := by simpa using h.symm
    exact .nil (List.dropWhile_eq_nil_iff.mp (by simpa using hblank))
  | succ fuel ih =>
    unfold lexFrom at h
    split at h
    · next hblank =>
      obtain rfl : xs = [] := by simpa using h.symm
      exact .nil (List.dropWhile_eq_nil_iff.mp hblank)
    · next c rest hdrop =>
      split at h
      · cases h
      · next t tail hread =>
        obtain ⟨ts, hmore, hts⟩ := Option.map_eq_some_iff.mp h
        obtain ⟨x, xs, rfl, rfl, rfl⟩ := List.map_eq_cons_iff.mp hts.symm
        obtain ⟨hx, hxs⟩ := List.forall_mem_cons.mp hproper
        obtain ⟨hchars, hrule⟩ := read?_sound hx hread
        have hcs : cs = cs.takeWhile Text.isSpace ++ (x.chars ++ tail) := by
          rw [← hchars, ← hdrop, List.takeWhile_append_dropWhile]
        rw [hcs]
        exact .cons (fun d hd => List.mem_takeWhile_imp hd) hrule (ih hxs hmore)

theorem spelled_of_lex? {xs : List Terminal} {cs : List Char} (hproper : ∀ x ∈ xs, x.Proper)
    (h : lex? cs = some (xs.map Terminal.token)) : Spelled xs cs :=
  spelled_of_lexFrom hproper h

end CommandChain.Syntax
