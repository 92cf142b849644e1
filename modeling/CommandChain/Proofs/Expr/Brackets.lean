import CommandChain.Proofs.Expr.Parsing
import CommandChain.Proofs.Text.Cut

/-!
# Brackets of expressions

An expression closes the quotations and the brackets that it opens. So a scan that reads the text of
one comes back to the depth from which it started (`Derives.run_bare`), whatever stands between the
quotation marks.

Of the leaves of a derivation only six symbols change the depth (`Terminal.depth`). The rest is an
induction over derivations, which does not look at the text any more. -/

namespace CommandChain

open Syntax (ContentRule)

/-! ### Inside of quotes -/

namespace Text

/-- What stands between two quotation marks is covered, and leaves the scan inside of them. -/
theorem covers_content {q : Char} {cs : List Char} (h : ContentRule q cs) (n : Nat) :
    (Scan.quoted q n).Covers cs ∧ (Scan.quoted q n).run cs = .quoted q n := by
  induction h with
  | nil => exact ⟨trivial, rfl⟩
  | @plain c cs hmark hslash _ ih =>
    have hnext : (Scan.quoted q n).next c = .quoted q n := by simp [Scan.next, hmark, hslash]
    exact ⟨⟨rfl, by rw [hnext]; exact ih.1⟩, by rw [Scan.run, List.foldl_cons, hnext]; exact ih.2⟩
  | escape c _ ih => exact ⟨⟨rfl, rfl, ih.1⟩, ih.2⟩

/-- Behind its first quotation mark a quotation is covered, and ends outside of quotes. -/
theorem covers_quotation {q : Char} {cs : List Char} (hq : q = '"' ∨ q = '\'')
    (h : ContentRule q cs) (n : Nat) :
    (Scan.quoted q n).Covers (cs ++ [q]) ∧ (Scan.quoted q n).run (cs ++ [q]) = .bare n := by
  obtain ⟨hcovers, hrun⟩ := covers_content h n
  refine ⟨hcovers.append ?_, ?_⟩
  · rw [hrun]
    exact ⟨rfl, trivial⟩
  · rw [Scan.run_append, hrun]
    rcases hq with rfl | rfl <;> rfl

end Text

namespace Syntax

open Text (Scan)
open Text.Scan (isNeutral isNeutral_of_class run_of_isNeutral)

/-! ### Leaves -/

theorem isNeutral_of_isSpace {c : Char} (h : Text.isSpace c = true) : isNeutral c = true :=
  isNeutral_of_class (p := Text.isSpace) (by decide) h

theorem WordRule.isNeutral {w : String} (h : WordRule w) : ∀ c ∈ w.toList, isNeutral c = true :=
  fun c hc => isNeutral_of_class (p := Token.isWordChar) (by decide) (h.isWordChar c hc)

/-- The characters of numbers. -/
def isNumberChar (c : Char) : Bool := c.isDigit || ['.', 'e', 'E', '+', '-'].contains c

theorem isNumberChar_of_isDigit {c : Char} (h : c.isDigit = true) : isNumberChar c = true := by
  simp [isNumberChar, h]

theorem ExponentRule.isNumberChar {e : Exponent} (h : ExponentRule e) :
    ∀ c ∈ e.chars, isNumberChar c = true := by
  refine List.forall_mem_cons.mpr ⟨?_, List.forall_mem_append.mpr ⟨?_, ?_⟩⟩
  · rcases h.mark with hmark | hmark <;> rw [hmark] <;> decide
  · rcases h.sign with hsign | hsign | hsign <;> rw [hsign] <;>
      exact List.all_eq_true.mp (by decide)
  · exact fun c hc => isNumberChar_of_isDigit (h.digits c hc)

theorem NumberRule.isNumberChar {n : Numeral} (h : NumberRule n) :
    ∀ c ∈ n.chars, isNumberChar c = true := by
  refine List.forall_mem_append.mpr ⟨fun c hc => isNumberChar_of_isDigit (h.whole c hc),
    List.forall_mem_append.mpr ⟨?_, ?_⟩⟩
  · unfold Numeral.fractionChars
    split_ifs
    · simp
    · exact List.forall_mem_cons.mpr
        ⟨by decide, fun c hc => isNumberChar_of_isDigit (h.fraction c hc)⟩
  · rcases he : n.exponent with _ | e
    · simp
    · exact (h.exponent e he).isNumberChar

theorem isNeutral_of_isNumberChar {c : Char} (h : isNumberChar c = true) : isNeutral c = true :=
  isNeutral_of_class (p := isNumberChar) (by decide) h

/-- How deep in brackets one is behind a leaf. -/
def Terminal.depth : Nat → Terminal → Nat
  | n, .sym .parenL | n, .sym .bracketL | n, .sym .braceL => n + 1
  | n, .sym .parenR | n, .sym .bracketR | n, .sym .braceR => n - 1
  | n, _ => n

/-- A scan of a leaf goes to its depth. -/
theorem Terminal.Rule.run_bare {x : Terminal} {rest : List Char} (h : x.Rule rest) (n : Nat) :
    (Scan.bare n).run x.chars = .bare (x.depth n) := by
  cases x with
  | number m =>
    exact run_of_isNeutral
      (fun c hc => isNeutral_of_isNumberChar (NumberRule.isNumberChar h c hc)) n
  | string mark raw =>
    have hopen : (Scan.bare n).next mark = .quoted mark n := by
      rcases h.1 with rfl | rfl <;> rfl
    show ((Scan.bare n).next mark).run (raw ++ [mark]) = _
    rw [hopen, (Text.covers_quotation h.1 h.2 n).2]
    rfl
  | keyword w => exact run_of_isNeutral (wordRule_of_mem_keywords h.1).isNeutral n
  | identifier w => exact run_of_isNeutral h.1.isNeutral n
  | property w => exact run_of_isNeutral (WordRule.isNeutral h) n
  | sym s => cases s <;> rfl

/-- How deep in brackets one is behind some leaves. -/
def depth (n : Nat) (xs : List Terminal) : Nat := xs.foldl Terminal.depth n

@[simp] theorem depth_nil (n : Nat) : depth n [] = n := rfl

@[simp] theorem depth_cons (n : Nat) (x : Terminal) (xs : List Terminal) :
    depth n (x :: xs) = depth (x.depth n) xs := rfl

@[simp] theorem depth_append (n : Nat) (xs ys : List Terminal) :
    depth n (xs ++ ys) = depth (depth n xs) ys := List.foldl_append

/-- **A scan of a text goes to the depth of its leaves.** -/
theorem Spelled.run_bare {xs : List Terminal} {cs : List Char} (h : Spelled xs cs) (n : Nat) :
    (Scan.bare n).run cs = .bare (depth n xs) := by
  induction h generalizing n with
  | nil hblanks => exact run_of_isNeutral (fun c hc => isNeutral_of_isSpace (hblanks c hc)) n
  | cons hblanks rule more ih =>
    rw [Scan.run_append, run_of_isNeutral (fun c hc => isNeutral_of_isSpace (hblanks c hc)),
      Scan.run_append, rule.run_bare, ih]
    rfl

/-! ### Derivations -/

theorem depth_optional {s : Punctuation} (hs : ∀ n, (Terminal.sym s).depth n = n) (n : Nat)
    (present : Bool) : depth n (optional s present) = n := by
  cases present
  · rfl
  · exact hs n

theorem Param.depth_terminals (p : Param) (n : Nat) : depth n p.terminals = n := by
  cases p <;> rfl

theorem Param.depth_moreTerminals (ps : List Param) (n : Nat) :
    depth n (Param.moreTerminals ps) = n := by
  induction ps with
  | nil => rfl
  | cons p ps ih => simp [Param.moreTerminals, Terminal.depth, p.depth_terminals, ih]

theorem Params.depth_terminals (ps : Params) (n : Nat) : depth n ps.terminals = n := by
  cases ps with
  | single | empty => rfl
  | list p ps =>
    simp [Params.terminals, Terminal.depth, p.depth_terminals, Param.depth_moreTerminals]

theorem BinaryOp.depth_symbol (op : BinaryOp) (n : Nat) :
    (Terminal.sym op.symbol).depth n = n := by
  cases op <;> rfl

theorem UnaryOp.depth_symbol (op : UnaryOp) (n : Nat) : (Terminal.sym op.symbol).depth n = n := by
  cases op <;> rfl

mutual

theorem Expression.depth_terminals : (e : Expression) → ∀ n, depth n e.terminals = n
  | .lambda ps b, n => by
    simp [Expression.terminals, Terminal.depth, ps.depth_terminals, b.depth_terminals]
  | .plain c, n => c.depth_terminals n
  | .ternary c a b, n => by
    simp [Expression.terminals, Terminal.depth, c.depth_terminals, a.depth_terminals,
      b.depth_terminals]

theorem Body.depth_terminals : (b : Body) → ∀ n, depth n b.terminals = n
  | .block e semicolon, n => by
    simp [Body.terminals, Terminal.depth, e.depth_terminals,
      depth_optional (s := .semicolon) fun _ => rfl]
  | .expression e, n => e.depth_terminals n

theorem Chain.depth_terminals {l : Nat} : (c : Chain l) → ∀ n, depth n c.terminals = n
  | .unary u, n => u.depth_terminals n
  | .level c os, n => by simp [Chain.terminals, c.depth_terminals, os.depth_terminals]

theorem Operands.depth_terminals {l : Nat} : (os : Operands l) → ∀ n, depth n os.terminals = n
  | .nil, n => rfl
  | .cons op _ c os, n => by
    simp [Operands.terminals, BinaryOp.depth_symbol, c.depth_terminals, os.depth_terminals]

theorem Unary.depth_terminals : (u : Unary) → ∀ n, depth n u.terminals = n
  | .op o u, n => by simp [Unary.terminals, UnaryOp.depth_symbol, u.depth_terminals]
  | .base p, n => p.depth_terminals n

theorem Postfix.depth_terminals : (p : Postfix) → ∀ n, depth n p.terminals = n
  | .mk p ss, n => by simp [Postfix.terminals, p.depth_terminals, ss.depth_terminals]

theorem Suffixes.depth_terminals : (ss : Suffixes) → ∀ n, depth n ss.terminals = n
  | .nil, n => rfl
  | .callEmpty ss, n => by simp [Suffixes.terminals, Terminal.depth, ss.depth_terminals]
  | .call e es ss, n => by
    simp [Suffixes.terminals, Terminal.depth, e.depth_terminals, es.depth_terminals,
      ss.depth_terminals]
  | .member _ ss, n => by simp [Suffixes.terminals, Terminal.depth, ss.depth_terminals]
  | .index e ss, n => by
    simp [Suffixes.terminals, Terminal.depth, e.depth_terminals, ss.depth_terminals]

theorem Primary.depth_terminals : (p : Primary) → ∀ n, depth n p.terminals = n
  | .number _, n | .string _ _, n | .boolean _, n | .null, n | .undefined, n
  | .identifier _, n => rfl
  | .emptyArray, n | .emptyObject, n => rfl
  | .array e es trailing, n => by
    simp [Primary.terminals, Terminal.depth, e.depth_terminals, es.depth_terminals,
      depth_optional (s := .comma) fun _ => rfl]
  | .object k e fs trailing, n => by
    cases k <;> simp [Primary.terminals, Key.terminal, Terminal.depth, e.depth_terminals,
      fs.depth_terminals, depth_optional (s := .comma) fun _ => rfl]
  | .paren e, n => by simp [Primary.terminals, Terminal.depth, e.depth_terminals]

theorem Items.depth_terminals : (es : Items) → ∀ n, depth n es.terminals = n
  | .nil, n => rfl
  | .cons e es, n => by
    simp [Items.terminals, Terminal.depth, e.depth_terminals, es.depth_terminals]

theorem Fields.depth_terminals : (fs : Fields) → ∀ n, depth n fs.terminals = n
  | .nil, n => rfl
  | .cons k e fs, n => by
    cases k <;> simp [Fields.terminals, Key.terminal, Terminal.depth, e.depth_terminals,
      fs.depth_terminals]

end

/-- **The text of an expression is closed**: a scan comes back to the depth from which it
started. -/
theorem Derives.run_bare {d : Expression} {t : String} (h : Derives d t) (n : Nat) :
    (Scan.bare n).run t.toList = .bare n := by
  rw [Spelled.run_bare h, d.depth_terminals]

/-- A text that is parsed is closed. -/
theorem run_bare_of_parse {t : String} {e : Expr} (h : Expr.parse t = .ok e) (n : Nat) :
    (Scan.bare n).run t.toList = .bare n := by
  obtain ⟨d, hd, -⟩ := exists_derives_of_ok h
  exact hd.run_bare n

end Syntax

end CommandChain
