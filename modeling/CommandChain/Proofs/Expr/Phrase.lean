import CommandChain.Proofs.Expr.Spelling

/-!
# The leaves of a derivation stand side by side

A `Phrase` is a row of leaves of which each may come right after the one before it, and that may
stand between any two symbols but a point in front. What is added behind a phrase without spoiling
it is a `Tail`. Every derivation is made of the two. -/

namespace CommandChain.Syntax

open Terminal (Joins)

/-- A symbol after which anything may come. -/
def Loose (s : Punctuation) : Prop := ∀ y, (Terminal.sym s).Joins y

/-- Leaves in a row that may come after any symbol but a point and before any symbol. -/
structure Phrase (xs : List Terminal) : Prop where
  nonempty : xs ≠ []
  starts : ∀ x ∈ xs.head?, x.isEqual = false
  ends : ∀ x ∈ xs.getLast?, ∀ s, x.Joins (.sym s)
  joins : xs.IsChain Joins

/-- Leaves that may be added to a phrase. -/
def Tail (xs : List Terminal) : Prop := ∀ p, Phrase p → Phrase (p ++ xs)

theorem joins_of_isEqual {s : Punctuation} (hs : s ≠ .dot) {y : Terminal} (hy : y.isEqual = false) :
    (Terminal.sym s).Joins y := by
  cases s
  case dot => exact absurd rfl hs
  case lt | gt | bang | ne | eq => exact hy
  all_goals trivial

namespace Phrase

variable {xs ys : List Terminal} {x : Terminal} {s : Punctuation}

theorem single (hstarts : x.isEqual = false) (hends : ∀ s, x.Joins (.sym s)) : Phrase [x] where
  nonempty := by simp
  starts := by simpa using hstarts
  ends := by simpa using hends
  joins := .singleton x

theorem append (h : Phrase xs) (h' : Tail ys) : Phrase (xs ++ ys) := h' xs h

/-- A symbol in front. -/
theorem sym_cons (h : Phrase xs) (hs : s ≠ .dot) (hequal : (Terminal.sym s).isEqual = false) :
    Phrase (.sym s :: xs) where
  nonempty := by simp
  starts := by simpa using hequal
  ends := by
    rw [List.getLast?_cons_of_ne_nil h.nonempty]
    exact h.ends
  joins := h.joins.cons fun y hy => joins_of_isEqual hs (h.starts y hy)

/-- A keyword in front. -/
theorem keyword_cons (h : Phrase xs) (w : String) : Phrase (.keyword w :: xs) where
  nonempty := by simp
  starts := by simp [Terminal.isEqual]
  ends := by
    rw [List.getLast?_cons_of_ne_nil h.nonempty]
    exact h.ends
  joins := h.joins.cons fun y hy => trivial

end Phrase

namespace Tail

variable {xs ys : List Terminal} {s : Punctuation}

theorem nil : Tail [] := fun p h => by rwa [List.append_nil]

theorem append (h : Tail xs) (h' : Tail ys) : Tail (xs ++ ys) := fun p hp => by
  rw [← List.append_assoc]
  exact h' _ (h p hp)

/-- A symbol and a phrase after it. -/
theorem phrase (hs : s ≠ .dot) (h : Phrase xs) : Tail (.sym s :: xs) := fun p hp => by
  have hlast : (p ++ .sym s :: xs).getLast? = xs.getLast? := by
    rw [List.getLast?_append_of_ne_nil _ (by simp), List.getLast?_cons_of_ne_nil h.nonempty]
  refine ⟨by simp, ?_, hlast ▸ h.ends, ?_⟩
  · rw [List.head?_append_of_ne_nil _ hp.nonempty]
    exact hp.starts
  · refine hp.joins.append (h.joins.cons fun y hy => joins_of_isEqual hs (h.starts y hy)) ?_
    intro x hx y hy
    obtain rfl : .sym s = y := by simpa using hy
    exact hp.ends x hx s

/-- A single symbol after which anything may come. -/
theorem sym (hs : Loose s) : Tail [.sym s] := fun p hp => by
  refine ⟨by simp, ?_, ?_, ?_⟩
  · rw [List.head?_append_of_ne_nil _ hp.nonempty]
    exact hp.starts
  · intro x hx
    obtain rfl : .sym s = x := by simpa using hx
    exact fun s' => hs _
  · refine hp.joins.append (.singleton _) ?_
    intro x hx y hy
    obtain rfl : .sym s = y := by simpa using hy
    exact hp.ends x hx s

theorem sym_cons (hs : Loose s) (h : Tail xs) : Tail (.sym s :: xs) := (sym hs).append h

/-- A point and the name of a property. -/
theorem member (n : String) : Tail [.sym .dot, .property n] := fun p hp => by
  refine ⟨by simp, ?_, ?_, ?_⟩
  · rw [List.head?_append_of_ne_nil _ hp.nonempty]
    exact hp.starts
  · intro x hx
    obtain rfl : .property n = x := by simpa using hx
    exact fun s => rfl
  · have hpair : [.sym .dot, .property n].IsChain Joins :=
      (List.IsChain.singleton _).cons fun y hy => ⟨n, by simpa using hy.symm⟩
    refine hp.joins.append hpair ?_
    intro x hx y hy
    obtain rfl : .sym .dot = y := by simpa using hy
    exact hp.ends x hx .dot

/-- The end of an enclosed phrase. -/
theorem optional_close {c : Punctuation} (hs : Loose s) (hc : Loose c) (present : Bool) :
    Tail (optional s present ++ [.sym c]) := by
  cases present with
  | false => exact sym hc
  | true => exact sym_cons hs (sym hc)

end Tail

theorem Phrase.empty_brackets {s c : Punctuation} (hequal : (Terminal.sym s).isEqual = false)
    (hs : Loose s) (hc : Loose c) : Phrase [.sym s, .sym c] :=
  (Phrase.single hequal fun _ => hs _).append (.sym hc)

/-! ### Parameters and keys -/

theorem Key.phrase (k : Key) : Phrase [k.terminal] := by
  cases k with
  | string mark raw => exact .single rfl fun s => trivial
  | property n => exact .single rfl fun s => rfl

theorem Param.phrase (p : Param) : Phrase p.terminals := by
  cases p with
  | plain n => exact .single rfl fun s => rfl
  | rest n => exact (Phrase.single (x := .identifier n) rfl fun s => rfl).sym_cons (by decide) rfl

theorem Param.tail_moreTerminals (ps : List Param) : Tail (Param.moreTerminals ps) := by
  induction ps with
  | nil => exact .nil
  | cons p ps ih => exact .phrase (by decide) (p.phrase.append ih)

theorem Params.phrase (ps : Params) : Phrase ps.terminals := by
  cases ps with
  | single n => exact .single rfl fun s => rfl
  | empty => exact Phrase.empty_brackets rfl (fun y => trivial) fun y => trivial
  | list p ps =>
    exact (p.phrase.append ((Param.tail_moreTerminals ps).append
      (.sym (s := .parenR) fun y => trivial))).sym_cons (by decide) rfl

/-! ### Derivations -/

mutual

theorem Expression.phrase : (e : Expression) → Phrase e.terminals
  | .lambda ps b => ps.phrase.append (.phrase (by decide) b.phrase)
  | .plain c => c.phrase
  | .ternary c a b =>
    c.phrase.append (.phrase (by decide) (a.phrase.append (.phrase (by decide) b.phrase)))

theorem Body.phrase : (b : Body) → Phrase b.terminals
  | .block e semicolon =>
    ((e.phrase.append (.optional_close (s := .semicolon) (c := .braceR) (fun _ => trivial)
      (fun _ => trivial) semicolon)).keyword_cons "return").sym_cons (by decide) rfl
  | .expression e => e.phrase

theorem Chain.phrase {l : Nat} : (c : Chain l) → Phrase c.terminals
  | .unary u => u.phrase
  | .level c os => c.phrase.append os.tail

theorem Operands.tail {l : Nat} : (os : Operands l) → Tail os.terminals
  | .nil => .nil
  | .cons op _ c os => .phrase (by cases op <;> decide) (c.phrase.append os.tail)

theorem Unary.phrase : (u : Unary) → Phrase u.terminals
  | .op o u => u.phrase.sym_cons (by cases o <;> decide) (by cases o <;> rfl)
  | .base p => p.phrase

theorem Postfix.phrase : (p : Postfix) → Phrase p.terminals
  | .mk p ss => p.phrase.append ss.tail

theorem Suffixes.tail : (ss : Suffixes) → Tail ss.terminals
  | .nil => .nil
  | .callEmpty ss => .sym_cons (fun _ => trivial) (.sym_cons (fun _ => trivial) ss.tail)
  | .call e es ss =>
    .phrase (by decide) (e.phrase.append (es.tail.append (.sym_cons (fun _ => trivial) ss.tail)))
  | .member n ss => (Tail.member n).append ss.tail
  | .index e ss => .phrase (by decide) (e.phrase.append (.sym_cons (fun _ => trivial) ss.tail))

theorem Primary.phrase : (p : Primary) → Phrase p.terminals
  | .number n => .single rfl fun _ => rfl
  | .string mark raw => .single rfl fun _ => trivial
  | .boolean b => .single rfl fun _ => trivial
  | .null => .single rfl fun _ => trivial
  | .undefined => .single rfl fun _ => trivial
  | .identifier n => .single rfl fun _ => rfl
  | .emptyArray => .empty_brackets rfl (fun _ => trivial) fun _ => trivial
  | .array e es trailing =>
    (e.phrase.append (es.tail.append (.optional_close (s := .comma) (c := .bracketR)
      (fun _ => trivial) (fun _ => trivial) trailing))).sym_cons (by decide) rfl
  | .emptyObject => .empty_brackets rfl (fun _ => trivial) fun _ => trivial
  | .object k e fs trailing =>
    (k.phrase.append (.phrase (by decide) (e.phrase.append (fs.tail.append
      (.optional_close (s := .comma) (c := .braceR) (fun _ => trivial) (fun _ => trivial)
        trailing))))).sym_cons (by decide) rfl
  | .paren e => (e.phrase.append (.sym (s := .parenR) fun _ => trivial)).sym_cons (by decide) rfl

theorem Items.tail : (es : Items) → Tail es.terminals
  | .nil => .nil
  | .cons e es => .phrase (by decide) (e.phrase.append es.tail)

theorem Fields.tail : (fs : Fields) → Tail fs.terminals
  | .nil => .nil
  | .cons k e fs =>
    .phrase (by decide) (k.phrase.append (.phrase (by decide) (e.phrase.append fs.tail)))

end

end CommandChain.Syntax
