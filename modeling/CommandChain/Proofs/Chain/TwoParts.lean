import CommandChain.Proofs.Chain.Spellings
import CommandChain.Proofs.Expr.Brackets
import CommandChain.Proofs.Expr.Positions

/-!
# Two parts around an arrow

A text `a -> b` is a command and the path of its result, unless `a` is a list of inputs in
parentheses. What tells the two apart are the first and the last character of `a`
(`Arrow.isParenthesized`), and not whether the one is closed by the other. So an arrow function `f`
is kept by `f -> o` exactly if it does not begin with an opening parenthesis or does not end with a
closing one (`arrowFunction_kept_iff`). The function `(a, b) => (a + b)` does both, although it is
not one group in parentheses (`IsGroup`). -/

namespace CommandChain

open Text (Scan)

variable {c o f : String}

/-! ### Both parts -/

/-- The text of two parts. -/
def twoPartText (c o : String) : String := c ++ " -> " ++ o

theorem toList_twoPartText (c o : String) :
    (twoPartText c o).toList = (c.toList ++ [' ']) ++ (['-', '>'] ++ ' ' :: o.toList) := by
  simp [twoPartText]

theorem ofChars_twoPartText (hc : IsPart c) (ho : IsPart o) :
    Arrow.ofChars (twoPartText c o).toList =
      if Arrow.isParenthesized c.toList then ⟨some c.toList, o.toList, none⟩
      else ⟨none, c.toList, some o.toList⟩ := by
  have hshort : Text.splitTop ['-', '>'] (twoPartText c o).toList =
      [c.toList ++ [' '], ' ' :: o.toList] := by
    have hne : ['-', '>'] ≠ [] := List.cons_ne_nil _ _
    rw [toList_twoPartText,
      Text.splitTop_append hne (clears_append_blank (hc.clears hne) hne (by simp))
        (run_append_blank hc.closed),
      ho.splitTop_blank hne (by simp)]
  have hlong : Text.splitTop ['-', '-', '>'] (twoPartText c o).toList =
      [(twoPartText c o).toList] := by
    have hne : ['-', '-', '>'] ≠ [] := List.cons_ne_nil _ _
    rw [Text.splitTop_eq_singleton_iff hne, toList_twoPartText]
    refine Scan.clears_append.mpr
      ⟨clears_append_blank (hc.clears (by simp)).longArrow hne (by simp), ?_⟩
    rw [run_append_blank hc.closed]
    exact ho.clears_out
  have hfirst : Arrow.part (c.toList ++ [' ']) = c.toList := by
    rw [Arrow.part, Text.trim_append_blank (by decide)]
    exact hc.part_eq
  have hsecond : Arrow.part (' ' :: o.toList) = o.toList := by
    rw [Arrow.part, Text.trim_blank_cons (by decide)]
    exact ho.part_eq
  unfold Arrow.ofChars
  rw [hlong, hshort]
  simp only [List.map_cons, List.map_nil, hfirst, hsecond]

/-- **Two parts** are the inputs and the command, or the command and the path of the result. -/
theorem ofJson_twoPartText (hc : IsPart c) (ho : IsPart o) :
    Node.ofJson (.str (twoPartText c o)) = .ok
      (if Arrow.isParenthesized c.toList then .leaf { ins := splitIns c.toList } o
        else .leaf { out := o } c) := by
  have hmode : Mode.ofText "" = .series := by decide
  have hcne : c.toList ≠ [] := fun e => hc.nonempty (String.toList_inj.mp e)
  have hone : o.toList ≠ [] := fun e => ho.nonempty (String.toList_inj.mp e)
  unfold Node.ofJson
  rw [Node.ofCommand, Draft.withArrow]
  simp only [Json.plainText, ofChars_twoPartText hc ho]
  split_ifs
  · simp [Arrow.commandText, hone, Draft.node, Draft.info, Draft.tokens, Draft.outPath, hmode,
      Json.plainText]
  · simp [Arrow.commandText, hcne, Draft.node, Draft.info, Draft.tokens,
      Draft.outPath_str ho.nonempty, hmode, Json.plainText]

/-! ### Words -/

namespace Syntax

open Token (isWordChar isWordStart)

theorem isBlank_of_isWordChar {c : Char} (h : isWordChar c = true) : Text.isBlank c = false := by
  simp only [isWordChar, Char.isAlphanum, Bool.or_eq_true, beq_iff_eq] at h
  rcases h with ((halpha | hdigit) | rfl) | rfl
  · have hlow := le_toNat_of_isAlpha halpha
    have hhigh := toNat_le_of_isAlpha halpha
    exact Text.isBlank_of_visible (by omega) (by omega)
  · exact Text.isBlank_of_isDigit hdigit
  · decide
  · decide

theorem isBlank_of_isSpace {c : Char} (h : Text.isSpace c = true) : Text.isBlank c = true := by
  simp only [Text.isSpace, Bool.or_eq_true, beq_iff_eq] at h
  rcases h with ((rfl | rfl) | rfl) | rfl <;> decide

theorem isQuoted_of_head {t : String} {c : Char} {cs : List Char} (h : t.toList = c :: cs)
    (hc : Text.isQuote c = false) : Text.isQuoted t = false := by
  simp [Text.isQuoted, Text.unquote?, h, hc]

theorem isQuote_of_isWordStart {c : Char} (h : isWordStart c = true) : Text.isQuote c = false := by
  simp only [Text.isQuote, Bool.or_eq_false_iff, beq_eq_false_iff_ne]
  constructor
  · rintro rfl
    exact absurd h (by decide)
  · rintro rfl
    exact absurd h (by decide)

theorem WordRule.isPart (h : WordRule o) : IsPart o := by
  have hchars := h.isWordChar
  obtain ⟨c, cs, htext, hc, -⟩ := id h
  have hnot : '-' ∉ o.toList := fun hmem => absurd (hchars _ hmem) (by decide)
  have htrim : Text.trim o.toList = o.toList :=
    Text.trim_eq_self (Text.isTrimmed_of_forall fun d hd => isBlank_of_isWordChar (hchars d hd))
  exact {
    nonempty := fun e => by simp [e] at htext
    trimmed := by rw [Text.trimmed, htrim, String.ofList_toList]
    closed := Text.Scan.run_of_isNeutral h.isNeutral 0
    single := (Text.splitTop_eq_singleton_iff (List.cons_ne_nil _ _)).mpr
      (Text.Scan.clears_of_not_mem hnot)
    unquoted := isQuoted_of_head htext (isQuote_of_isWordStart hc) }

/-! ### Arrow functions -/

variable {ps : List String} {rest : Option String} {body : Expr}

/-- The leaves begin with the name of a parameter or with an opening parenthesis. -/
def FunctionFront (xs : List Terminal) : Prop :=
  ∃ x ∈ xs.head?, x = .sym .parenL ∨ ∃ w, x = .identifier w

theorem Params.functionFront (ps : Params) (xs : List Terminal) :
    FunctionFront (ps.terminals ++ xs) := by
  cases ps with
  | single w => exact ⟨_, rfl, .inr ⟨w, rfl⟩⟩
  | empty | list => exact ⟨_, rfl, .inl rfl⟩

theorem functionFront (ps : Params) (b : Body) (n : Nat) :
    FunctionFront (functionTerminals ps b n) := by
  cases n with
  | zero => exact ps.functionFront _
  | succ n => exact ⟨_, rfl, .inl rfl⟩

theorem Spelled.eq_nil {xs : List Terminal} {cs : List Char} (h : Spelled xs cs) (hcs : cs = []) :
    xs = [] := by
  cases h with
  | nil => rfl
  | cons hblanks rule more =>
    obtain ⟨c, chars, hchars, -⟩ := rule.exists_head
    simp [hchars] at hcs

theorem exists_head_of_lambda (hf : Expr.parse f = .ok (.lambda ps rest body))
    (htrim : Text.trimmed f = f) :
    ∃ c cs, f.toList = c :: cs ∧ (c = '(' ∨ isWordStart c = true) := by
  obtain ⟨ps, b, n, hspelled⟩ := exists_writesFunction hf
  obtain ⟨x, hx, hfront⟩ := functionFront ps b n
  obtain ⟨c, cs, htext⟩ : ∃ c cs, f.toList = c :: cs := by
    refine List.exists_cons_of_ne_nil fun hnil => ?_
    rw [hspelled.eq_nil hnil] at hx
    cases hx
  refine ⟨c, cs, htext, ?_⟩
  have hfirst : c ∈ f.toList.head? := by rw [htext]; rfl
  rcases hspelled.head hfirst with hspace | ⟨y, hy, hbegins⟩
  · have hends := Text.isTrimmed_trim f.toList
    rw [Text.trim_toList htrim] at hends
    exact absurd (hends.1 c hfirst) (by simp [isBlank_of_isSpace hspace])
  · obtain rfl : x = y := Option.some.inj (hx.symm.trans hy)
    rcases hfront with rfl | ⟨w, rfl⟩
    · exact .inl (Option.some.inj hbegins).symm
    · exact .inr hbegins

/-- An arrow function can stand as the command before an arrow, if no arrow counts in it. -/
theorem isPart_of_lambda (hf : Expr.parse f = .ok (.lambda ps rest body))
    (htrim : Text.trimmed f = f) (hsingle : Text.splitTop ['-', '>'] f.toList = [f.toList]) :
    IsPart f := by
  obtain ⟨c, cs, htext, hc⟩ := exists_head_of_lambda hf htrim
  have hquote : Text.isQuote c = false := by
    rcases hc with rfl | hc
    · decide
    · exact isQuote_of_isWordStart hc
  exact {
    nonempty := fun e => by simp [e] at htext
    trimmed := htrim
    closed := run_bare_of_parse hf 0
    single := hsingle
    unquoted := isQuoted_of_head htext hquote }

end Syntax

/-! ### Arrow functions and the path of their result -/

/-- The text is one group in parentheses: its first character is an opening parenthesis that only
its last character closes. -/
def IsGroup (t : List Char) : Prop :=
  Arrow.isParenthesized t = true ∧ (Scan.bare 1).Covers t.tail ∧ Scan.start.run t = .start

instance (t : List Char) : Decidable (IsGroup t) :=
  inferInstanceAs (Decidable (_ ∧ _ ∧ _))

/-- **When an arrow function is kept.** Take an arrow function in which no arrow of two parts
counts, and a word. The text of both is read as the function and the path of its result exactly if
the function does not both begin with an opening parenthesis and end with a closing one. If it does,
its text is read as a list of inputs, and the word as the command. -/
theorem arrowFunction_kept_iff {ps : List String} {rest : Option String} {body : Expr}
    (hf : Expr.parse f = .ok (.lambda ps rest body)) (htrim : Text.trimmed f = f)
    (hsingle : Text.splitTop ['-', '>'] f.toList = [f.toList]) (ho : Syntax.WordRule o) :
    (Node.ofJson (.str (twoPartText f o)) = .ok (.leaf { out := o } f) ↔
      ¬ (f.toList.head? = some '(' ∧ f.toList.getLast? = some ')')) ∧
    (f.toList.head? = some '(' ∧ f.toList.getLast? = some ')' →
      Node.ofJson (.str (twoPartText f o)) = .ok (.leaf { ins := splitIns f.toList } o)) := by
  have hends : Arrow.isParenthesized f.toList = true ↔
      f.toList.head? = some '(' ∧ f.toList.getLast? = some ')' := by
    simp [Arrow.isParenthesized]
  rw [ofJson_twoPartText (Syntax.isPart_of_lambda hf htrim hsingle) ho.isPart, ← hends]
  split_ifs with hparens
  · refine ⟨iff_of_false (fun h => ?_) (fun h => h hparens), fun _ => rfl⟩
    obtain rfl : o = f := (Node.leaf.inj (Except.ok.inj h)).2
    have hopen : '(' ∈ o.toList := List.mem_of_mem_head? (hends.mp hparens).1
    exact absurd (ho.isWordChar _ hopen) (by decide)
  · exact ⟨iff_of_true rfl hparens, fun h => absurd h hparens⟩

/-- The sum `a + b`. -/
def sumOfTwo : Syntax.Expression :=
  let sum : Syntax.Chain 2 := .level (.ofUnary (.base (.mk (.identifier "a") .nil)) 1)
    (.cons .add rfl (.ofUnary (.base (.mk (.identifier "b") .nil)) 1) .nil)
  .plain (.level (.level (.level (.level sum .nil) .nil) .nil) .nil)

/-- The body in parentheses makes the parameters and the body a list of inputs. -/
theorem parenthesizedBody_lost :
    ¬ IsGroup "(a, b) => (a + b)".toList ∧
      Node.ofJson (.str "(a, b) => (a + b) -> c") =
        .ok (.leaf { ins := ["a", "b) => (a + b"] } "c") := by
  have hparse : Expr.parse "(a, b) => (a + b)" =
      .ok (.lambda ["a", "b"] none (.binary .add (.ident "a") (.ident "b"))) :=
    Syntax.parse_of_lex (d := .lambda (.list (.plain "a") [.plain "b"])
      (.expression (.ofPrimary (.paren sumOfTwo)))) rfl (by decide) rfl
  have hword : Syntax.WordRule "c" := ⟨'c', [], rfl, by decide, by simp⟩
  have htokens : splitIns "(a, b) => (a + b)".toList = ["a", "b) => (a + b"] := by decide
  constructor
  · decide
  · rw [← htokens]
    exact (arrowFunction_kept_iff hparse (by decide) (by decide) hword).2 (by decide)

end CommandChain
