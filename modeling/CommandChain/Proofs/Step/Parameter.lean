import CommandChain.Step.Kind
import Mathlib.Data.List.Basic

/-!
# Parameters of scripts

The shell reads a parameter behind a command as a text in double quotes. There a backslash takes
away the meaning of a dollar sign, a backquote, a double quote, another backslash or the end of a
line, and stands for itself before anything else; a dollar sign or a backquote without one begins an
expansion.

A parameter is always one complete word (`readWord?_render`): JSON text between quotes has its
double quotes and backslashes escaped, and a JSON string has its quotes already. Dollar signs and
backquotes are not escaped, so that a parameter with one of them is expanded, and of a JSON string
the escapes of control characters stay as they are (`parameters_are_words`). -/

namespace CommandChain

namespace Shell.DoubleQuoted

/-! ### Texts in double quotes -/

/-- What the shell finds between double quotes. -/
inductive Part where
  /-- A character that stands for itself. -/
  | char (c : Char)
  /-- The sign that begins an expansion. -/
  | expansion (sign : Char)
deriving Repr, DecidableEq

/-- The signs that begin an expansion. -/
def isExpanding (c : Char) : Bool := c == '$' || c == '`'

/-- The characters that lose their meaning behind a backslash. -/
def isEscapable (c : Char) : Bool := isExpanding c || c == '"' || c == '\\' || c == '\n'

/-- A character without a backslash. -/
def Part.ofChar (c : Char) : Part := if isExpanding c then .expansion c else .char c

/-- The parts of a text up to its first double quote without a backslash, and the rest behind that
quote; nothing if there is no such quote. -/
def readParts? : List Char → Option (List Part × List Char)
  | [] => none
  | '\\' :: c :: cs =>
    (readParts? cs).map fun p =>
      (if isEscapable c then .char c :: p.1 else .char '\\' :: .char c :: p.1, p.2)
  | c :: cs =>
    if c == '"' then some ([], cs)
    else if c == '\\' then none
    else (readParts? cs).map fun p => (Part.ofChar c :: p.1, p.2)

/-- The parts of the word in double quotes at the front of a text, and the rest. -/
def readWord? : List Char → Option (List Part × List Char)
  | '"' :: cs => readParts? cs
  | _ => none

/-- `Words t ps`: the text consists of words in double quotes, each behind a blank, with the parts
`ps`. -/
inductive Words : List Char → List (List Part) → Prop
  | nil : Words [] []
  | cons {t rest : List Char} {p : List Part} {ps : List (List Part)} :
    readWord? t = some (p, rest) → Words rest ps → Words (' ' :: t) (p :: ps)

variable {c : Char} {t rest : List Char}

/-- `Prepends t ps`: the text `t` in front of any other is read as the parts `ps`. -/
def Prepends (t : List Char) (ps : List Part) : Prop :=
  ∀ rest, readParts? (t ++ rest) = (readParts? rest).map fun p => (ps ++ p.1, p.2)

theorem Prepends.nil : Prepends [] [] := by
  intro rest
  simp

theorem Prepends.append {t t' : List Char} {ps ps' : List Part} (h : Prepends t ps)
    (h' : Prepends t' ps') : Prepends (t ++ t') (ps ++ ps') := by
  intro rest
  rw [List.append_assoc, h, h', Option.map_map]
  simp [Function.comp_def]

theorem Prepends.flatMap {α : Type} {f : α → List Char} {g : α → List Part} {xs : List α}
    (h : ∀ x ∈ xs, Prepends (f x) (g x)) : Prepends (xs.flatMap f) (xs.flatMap g) := by
  induction xs with
  | nil => exact .nil
  | cons x xs ih =>
    rw [List.flatMap_cons, List.flatMap_cons]
    exact (h x List.mem_cons_self).append (ih fun y hy => h y (List.mem_cons_of_mem x hy))

theorem prepends_char (hquote : c ≠ '"') (hslash : c ≠ '\\') : Prepends [c] [Part.ofChar c] := by
  intro rest
  rw [List.singleton_append, readParts?]
  · simp [hquote, hslash]
  · intro c' cs h _
    exact hslash h

theorem prepends_escaped (h : isEscapable c = true) : Prepends ['\\', c] [.char c] := by
  intro rest
  rw [List.cons_append, List.singleton_append, readParts?]
  simp [h]

theorem prepends_kept (h : isEscapable c = false) : Prepends ['\\', c] [.char '\\', .char c] := by
  intro rest
  rw [List.cons_append, List.singleton_append, readParts?]
  simp [h]

/-- A text in double quotes is a complete word if its inside can stand before a double quote. -/
theorem Prepends.readWord? {ps : List Part} (h : Prepends t ps) :
    DoubleQuoted.readWord? ('"' :: (t ++ '"' :: rest)) = some (ps, rest) := by
  rw [DoubleQuoted.readWord?, h, readParts?]
  · simp
  · intro c' cs h _
    cases h

end Shell.DoubleQuoted

open Shell.DoubleQuoted

/-! ### What is handed over -/

namespace Json

/-- A character of a string as it is handed over: control characters stay escaped. -/
def argumentChar (c : Char) : List Char := if c.toNat < 32 then escapeChar c else [c]

/-- A value as it is handed over: its JSON text, and a string as it is but for its control
characters. -/
def argument : Json → List Char
  | .str s => s.toList.flatMap argumentChar
  | v => v.compact

/-- The value is a string with a control character in it. -/
def hasControl : Json → Bool
  | .str s => s.toList.any fun c => c.toNat < 32
  | _ => false

theorem argument_eq_display {v : Json} (h : v.hasControl = false) :
    v.argument = v.display.toList := by
  cases v with
  | str s =>
    have hchar : ∀ c ∈ s.toList, argumentChar c = [c] := by
      intro c hc
      have := List.any_eq_false.mp h c hc
      rw [argumentChar, if_neg (by simpa using this)]
    show s.toList.flatMap argumentChar = s.toList
    rw [List.flatMap_congr hchar, List.flatMap_singleton']
  | null | bool b | num n | arr items | obj ms => exact (String.toList_ofList).symm

end Json

/-! ### The text of a number -/

namespace Decimal

/-- The characters of a decimal. -/
def isNumeric (c : Char) : Bool := c.isDigit || c == '.' || c == 'e' || c == '+' || c == '-'

theorem isNumeric_digits (n : Nat) : ∀ c ∈ digits n, isNumeric c = true := by
  intro c h
  have hdigit := Nat.isDigit_of_mem_toDigits (by decide) (by decide) h
  simp [isNumeric, hdigit]

theorem isNumeric_zeros (n : Nat) : ∀ c ∈ List.replicate n '0', isNumeric c = true := by
  intro c h
  rw [List.eq_of_mem_replicate h]
  decide

theorem isNumeric_plain (d : Decimal) : ∀ c ∈ d.plain, isNumeric c = true := by
  have hdigits := isNumeric_digits d.significand
  dsimp only [plain]
  split_ifs
  · exact List.forall_mem_append.mpr ⟨hdigits, isNumeric_zeros _⟩
  · refine List.forall_mem_append.mpr ⟨fun c h => hdigits c (List.mem_of_mem_take h), ?_⟩
    exact List.forall_mem_cons.mpr ⟨by decide, fun c h => hdigits c (List.mem_of_mem_drop h)⟩
  · refine List.forall_mem_cons.mpr ⟨by decide, List.forall_mem_cons.mpr ⟨by decide, ?_⟩⟩
    exact List.forall_mem_append.mpr ⟨isNumeric_zeros _, hdigits⟩

theorem isNumeric_scientific (d : Decimal) : ∀ c ∈ d.scientific, isNumeric c = true := by
  have hdigits := isNumeric_digits d.significand
  dsimp only [scientific]
  refine List.forall_mem_append.mpr ⟨?_, ?_⟩
  · split
    · simp
    · next c hds => rwa [hds] at hdigits
    · next c cs hds =>
      rw [hds, List.forall_mem_cons] at hdigits
      exact List.forall_mem_cons.mpr
        ⟨hdigits.1, List.forall_mem_cons.mpr ⟨by decide, hdigits.2⟩⟩
  · refine List.forall_mem_cons.mpr ⟨by decide, List.forall_mem_cons.mpr ⟨?_, isNumeric_digits _⟩⟩
    split_ifs <;> decide

end Decimal

namespace Number

theorem isNumeric_intText (i : Int) : ∀ c ∈ intText i, Decimal.isNumeric c = true := by
  unfold intText
  split_ifs
  · exact List.forall_mem_cons.mpr ⟨by decide, Decimal.isNumeric_digits _⟩
  · exact Decimal.isNumeric_digits _

theorem isNumeric_decimalText (d : Decimal) : ∀ c ∈ decimalText d, Decimal.isNumeric c = true := by
  unfold decimalText
  split_ifs
  · exact List.forall_mem_append.mpr ⟨Decimal.isNumeric_plain d, by simp [Decimal.isNumeric]⟩
  · exact Decimal.isNumeric_plain d
  · exact Decimal.isNumeric_scientific d

theorem isNumeric_floatText (x : Float) :
    (∀ c ∈ floatText x, Decimal.isNumeric c = true) ∨ floatText x = ['n', 'u', 'l', 'l'] := by
  have hmagnitude : ∀ m e, ∀ c ∈ (if m = 0 then ['0', '.', '0']
      else decimalText (Decimal.shortest .toEven (Double.ofDyadic false m e) m e)),
      Decimal.isNumeric c = true := by
    intro m e
    split_ifs
    · simp [Decimal.isNumeric]
    · exact isNumeric_decimalText _
  unfold floatText
  rcases hx : Double.parts x with _ | _ | ⟨negative, m, e⟩
  · exact .inr rfl
  · exact .inr rfl
  · left
    rcases negative with _ | _
    · simp only [Bool.false_eq_true, if_false]
      exact hmagnitude m e
    · simp only [if_true]
      exact List.forall_mem_cons.mpr ⟨by simp [Decimal.isNumeric], hmagnitude m e⟩

/-- A number is written in the characters of a decimal, or as `null`. -/
theorem isNumeric_chars (n : Number) :
    (∀ c ∈ n.chars, Decimal.isNumeric c = true) ∨ n.chars = ['n', 'u', 'l', 'l'] := by
  cases n with
  | int i => exact .inl (isNumeric_intText i)
  | float x => exact isNumeric_floatText x

end Number

/-! ### Parameters as words -/

theorem prepends_quoteChar (c : Char) : Prepends (Text.quoteChar c) [Part.ofChar c] := by
  unfold Text.quoteChar
  split_ifs with h
  · have hc : c = '"' ∨ c = '\\' := by simpa using h
    have hpart : Part.ofChar c = .char c := by rcases hc with rfl | rfl <;> rfl
    rw [hpart]
    exact prepends_escaped (by rcases hc with rfl | rfl <;> rfl)
  · exact prepends_char (by rintro rfl; exact h rfl) (by rintro rfl; exact h rfl)

/-- Behind the backslash of an escaped control character stand characters without a meaning. -/
theorem prepends_letter {c : Char} {cs : List Char} (hc : isEscapable c = false)
    (hcs : ∀ x ∈ cs, isEscapable x = false) :
    Prepends ('\\' :: c :: cs) (('\\' :: c :: cs).map Part.ofChar) := by
  have hpart : ∀ x, isEscapable x = false → Part.ofChar x = .char x := by
    intro x hx
    have hx' : isExpanding x = false := by
      unfold isEscapable at hx
      simp only [Bool.or_eq_false_iff] at hx
      exact hx.1.1.1
    simp [Part.ofChar, hx']
  have hplain : Prepends (cs.flatMap fun x => [x]) (cs.flatMap fun x => [Part.ofChar x]) := by
    refine Prepends.flatMap fun x hx => prepends_char ?_ ?_
    · rintro rfl
      exact absurd (hcs _ hx) (by decide)
    · rintro rfl
      exact absurd (hcs _ hx) (by decide)
  rw [List.flatMap_singleton', ← List.map_eq_flatMap] at hplain
  have hfirst := prepends_kept hc
  have h := hfirst.append hplain
  simpa [hpart c hc, show Part.ofChar '\\' = .char '\\' from rfl] using h

theorem hexDigit_plain : ∀ n < 16, isEscapable (hexDigit n) = false := by decide

/-- A control character is escaped by a backslash and characters without a meaning. -/
theorem escapeChar_of_control {c : Char} (h : c.toNat < 32) :
    ∃ x xs, Json.escapeChar c = '\\' :: x :: xs ∧ isEscapable x = false ∧
      ∀ y ∈ xs, isEscapable y = false := by
  have hquote : c ≠ '"' := by rintro rfl; exact absurd h (by decide)
  have hslash : c ≠ '\\' := by rintro rfl; exact absurd h (by decide)
  simp only [Json.escapeChar, beq_iff_eq, hquote, hslash, if_false]
  split_ifs
  · exact ⟨_, _, rfl, by decide, by simp⟩
  · exact ⟨_, _, rfl, by decide, by simp⟩
  · exact ⟨_, _, rfl, by decide, by simp⟩
  · exact ⟨_, _, rfl, by decide, by simp⟩
  · exact ⟨_, _, rfl, by decide, by simp⟩
  · refine ⟨_, _, rfl, by decide, ?_⟩
    simp only [List.forall_mem_cons, List.not_mem_nil, false_implies, implies_true, and_true]
    exact ⟨by decide, by decide, hexDigit_plain _ (by omega), hexDigit_plain _ (by omega)⟩

/-- Any other character is written in a JSON string as it is between double quotes. -/
theorem escapeChar_of_not_control {c : Char} (h : ¬ c.toNat < 32) :
    Json.escapeChar c = Text.quoteChar c := by
  have hne : ∀ x : Char, x.toNat < 32 → c ≠ x := by
    rintro x hx rfl
    exact h hx
  by_cases hquote : c = '"'
  · subst hquote
    rfl
  by_cases hslash : c = '\\'
  · subst hslash
    rfl
  have hn := hne '\n' (by decide)
  have hr := hne '\r' (by decide)
  have ht := hne '\t' (by decide)
  have h8 : c.toNat ≠ 8 := by omega
  have h12 : c.toNat ≠ 12 := by omega
  simp [Json.escapeChar, Text.quoteChar, hquote, hslash, hn, hr, ht, h8, h12, h]

theorem prepends_escapeChar (c : Char) :
    Prepends (Json.escapeChar c) ((Json.argumentChar c).map Part.ofChar) := by
  unfold Json.argumentChar
  split_ifs with h
  · obtain ⟨x, xs, hc, hx, hxs⟩ := escapeChar_of_control h
    rw [hc]
    exact prepends_letter hx hxs
  · rw [escapeChar_of_not_control h]
    exact prepends_quoteChar c

theorem isQuoted_quoted (s : List Char) : Text.isQuoted (String.ofList (Json.quoted s)) = true := by
  have hlast : (s.flatMap Json.escapeChar ++ ['"']).getLast? = some '"' := by
    rw [List.getLast?_append]
    rfl
  rw [Text.isQuoted, String.toList_ofList, Json.quoted, Text.unquote?, hlast]
  rfl

theorem not_isQuoted {c : Char} {cs : List Char} (h : Text.isQuote c = false) :
    Text.isQuoted (String.ofList (c :: cs)) = false := by
  rw [Text.isQuoted, String.toList_ofList, Text.unquote?, h]
  rfl

/-- Of all values only the strings are quoted in JSON text. -/
theorem isQuoted_text {v : Json} (h : ∀ s, v ≠ .str s) : Text.isQuoted v.text = false := by
  cases v with
  | str s => exact absurd rfl (h s)
  | null => exact not_isQuoted rfl
  | bool b => cases b <;> exact not_isQuoted rfl
  | arr items => exact not_isQuoted rfl
  | obj ms => exact not_isQuoted rfl
  | num n =>
    have hplain : ∀ c ∈ n.chars, Text.isQuote c = false := by
      have hnumeric : ∀ c, Decimal.isNumeric c = true → Text.isQuote c = false := by
        intro c hc
        by_contra hquote
        have : c = '"' ∨ c = '\'' := by
          rw [Bool.not_eq_false, Text.isQuote, Bool.or_eq_true, beq_iff_eq, beq_iff_eq] at hquote
          exact hquote
        rcases this with rfl | rfl <;> exact absurd hc (by decide)
      rcases n.isNumeric_chars with hn | hn
      · exact fun c hc => hnumeric c (hn c hc)
      · simp [hn, Text.isQuote]
    show Text.isQuoted (String.ofList n.chars) = false
    rcases hn : n.chars with _ | ⟨c, cs⟩
    · rfl
    · exact not_isQuoted (hplain c (by rw [hn]; exact List.mem_cons_self))

/-- How the shell reads a value as a parameter. -/
def Json.parts (v : Json) : List Part := v.argument.map Part.ofChar

/-- **A parameter is one complete word.** -/
theorem readWord?_render (v : Json) (rest : List Char) :
    readWord? ((StepKind.shell.render v).toList ++ rest) = some (v.parts, rest) := by
  by_cases hv : ∃ s, v = .str s
  · obtain ⟨s, rfl⟩ := hv
    have hrender : StepKind.shell.render (.str s) = String.ofList (Json.quoted s.toList) := by
      have := isQuoted_quoted s.toList
      simp only [StepKind.render, Json.text, Json.compact, this, if_true]
    have hinside : Prepends (s.toList.flatMap Json.escapeChar)
        ((Json.str s).argument.map Part.ofChar) := by
      have := Prepends.flatMap fun c (_ : c ∈ s.toList) => prepends_escapeChar c
      rwa [← List.map_flatMap] at this
    rw [hrender, String.toList_ofList, Json.quoted, List.cons_append, List.append_assoc]
    exact hinside.readWord?
  · have hv : ∀ s, v ≠ .str s := fun s h => hv ⟨s, h⟩
    have hrender : StepKind.shell.render v = String.ofList (Text.quote v.compact) := by
      rw [StepKind.render, if_neg (by simp [isQuoted_text hv]), Text.quoteText, Json.text,
        String.toList_ofList]
    have hargument : v.argument = v.compact := by
      cases v with
      | str s => exact absurd rfl (hv s)
      | null | bool b | num n | arr items | obj ms => rfl
    have hinside : Prepends (v.compact.flatMap Text.quoteChar) (v.argument.map Part.ofChar) := by
      have := Prepends.flatMap fun c (_ : c ∈ v.compact) => prepends_quoteChar c
      rwa [← List.map_eq_flatMap, ← congrArg (List.map Part.ofChar) hargument] at this
    rw [hrender, String.toList_ofList, Text.quote, List.cons_append, List.append_assoc]
    exact hinside.readWord?

/-! ### Expansions -/

theorem expansion_mem_map_iff {x : Char} {t : List Char} :
    Part.expansion x ∈ t.map Part.ofChar ↔ x ∈ t ∧ isExpanding x = true := by
  rw [List.mem_map]
  constructor
  · rintro ⟨c, hc, h⟩
    unfold Part.ofChar at h
    split_ifs at h with hx
    cases h
    exact ⟨hc, hx⟩
  · rintro ⟨hx, h⟩
    exact ⟨x, hx, by rw [Part.ofChar, if_pos h]⟩

/-- An expanding sign is neither a control character nor a part of an escape. -/
theorem mem_argumentChar_iff {x c : Char} (hx : isExpanding x = true) :
    x ∈ Json.argumentChar c ↔ x = c := by
  unfold Json.argumentChar
  split_ifs with h
  · have hescapable : isEscapable x = true := by simp [isEscapable, hx]
    have hx' : x = '$' ∨ x = '`' := by
      rwa [isExpanding, Bool.or_eq_true, beq_iff_eq, beq_iff_eq] at hx
    obtain ⟨y, ys, hc, hy, hys⟩ := escapeChar_of_control h
    constructor
    · intro hmem
      rw [hc] at hmem
      rcases List.mem_cons.mp hmem with rfl | hmem
      · rcases hx' with hx' | hx' <;> cases hx'
      · rcases List.mem_cons.mp hmem with rfl | hmem
        · rw [hy] at hescapable
          cases hescapable
        · rw [hys x hmem] at hescapable
          cases hescapable
    · rintro rfl
      rcases hx' with rfl | rfl <;> exact absurd h (by decide)
  · exact List.mem_singleton

theorem mem_argument_iff {v : Json} {x : Char} (hx : isExpanding x = true) :
    x ∈ v.argument ↔ x ∈ v.display.toList := by
  cases v with
  | str s =>
    show x ∈ s.toList.flatMap Json.argumentChar ↔ x ∈ s.toList
    simp only [List.mem_flatMap, mem_argumentChar_iff hx, exists_eq_right']
  | null | bool b | num n | arr items | obj ms =>
    show x ∈ Json.compact _ ↔ x ∈ (String.ofList _).toList
    rw [String.toList_ofList]

theorem exists_expansion_iff (v : Json) :
    (∃ sign, Part.expansion sign ∈ v.parts) ↔ '$' ∈ v.display.toList ∨ '`' ∈ v.display.toList := by
  unfold Json.parts
  constructor
  · rintro ⟨x, hx⟩
    obtain ⟨hmem, hexpanding⟩ := expansion_mem_map_iff.mp hx
    rw [mem_argument_iff hexpanding] at hmem
    rw [isExpanding, Bool.or_eq_true, beq_iff_eq, beq_iff_eq] at hexpanding
    rcases hexpanding with rfl | rfl
    · exact .inl hmem
    · exact .inr hmem
  · rintro (h | h)
    · exact ⟨'$', expansion_mem_map_iff.mpr ⟨(mem_argument_iff rfl).mpr h, rfl⟩⟩
    · exact ⟨'`', expansion_mem_map_iff.mpr ⟨(mem_argument_iff rfl).mpr h, rfl⟩⟩

theorem parts_eq_of_forall_not_mem {v : Json} (h : ∀ sign, Part.expansion sign ∉ v.parts) :
    v.parts = v.argument.map .char := by
  refine List.map_congr_left fun c hc => ?_
  rw [Part.ofChar, if_neg]
  intro hx
  exact h c (expansion_mem_map_iff.mpr ⟨hc, hx⟩)

/-! ### Scripts -/

theorem toList_script (command : String) (params : List Json) :
    (Step.script command params).toList =
      command.toList ++ params.flatMap fun v => ' ' :: (StepKind.shell.render v).toList := by
  have hjoin : ∀ (t : List Char) (ts : List (List Char)),
      [' '].intercalate (t :: ts) = t ++ ts.flatMap (' ' :: ·) := by
    intro t ts
    induction ts generalizing t with
    | nil => simp
    | cons t' ts ih =>
      rw [List.intercalate_cons_cons, ih, List.flatMap_cons]
      simp
  show (String.intercalate " " (command :: params.map StepKind.shell.render)).toList = _
  rw [String.toList_intercalate, List.map_cons, show " ".toList = [' '] from rfl, hjoin,
    List.map_map, List.flatMap_map]
  rfl

theorem words_flatMap_render (params : List Json) :
    Words (params.flatMap fun v => ' ' :: (StepKind.shell.render v).toList)
      (params.map Json.parts) := by
  induction params with
  | nil => exact .nil
  | cons v params ih => exact .cons (readWord?_render v _) ih

/-- **Parameters of a script are words.** Every parameter is one complete word in double quotes. The
shell expands something in it exactly if there is a dollar sign or a backquote in the value as it is
displayed; otherwise the word stands for the value as it is displayed, but for the control
characters of a string, which stay escaped. A script is its command with one such word behind a
blank for each of its parameters. -/
theorem parameters_are_words (command : String) (params : List Json) :
    (∀ v : Json, readWord? (StepKind.shell.render v).toList = some (v.parts, []) ∧
      ((∃ sign, Part.expansion sign ∈ v.parts) ↔
        '$' ∈ v.display.toList ∨ '`' ∈ v.display.toList) ∧
      ((∀ sign, Part.expansion sign ∉ v.parts) → v.parts = v.argument.map .char) ∧
      (v.hasControl = false → v.argument = v.display.toList)) ∧
    ∃ t, (Step.script command params).toList = command.toList ++ t ∧
      Words t (params.map Json.parts) := by
  refine ⟨fun v => ⟨?_, exists_expansion_iff v, parts_eq_of_forall_not_mem,
    Json.argument_eq_display⟩, _, toList_script command params, words_flatMap_render params⟩
  have h := readWord?_render v []
  rwa [List.append_nil] at h

/-- A dollar sign is expanded, and a line end arrives as a backslash and a letter: neither parameter
stands for what is displayed. -/
theorem dollar_and_line_end_change :
    readWord? (StepKind.shell.render (.str "$x")).toList ≠
        some ((Json.str "$x").display.toList.map .char, []) ∧
      readWord? (StepKind.shell.render (.str "a\nb")).toList ≠
        some ((Json.str "a\nb").display.toList.map .char, []) := by
  have hdollar := readWord?_render (.str "$x") []
  have hline := readWord?_render (.str "a\nb") []
  rw [List.append_nil] at hdollar hline
  rw [hdollar, hline]
  decide

end CommandChain
