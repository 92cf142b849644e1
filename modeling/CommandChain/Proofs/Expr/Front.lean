import CommandChain.Expr.Parser

/-!
# What an expression begins with

An expression that is no arrow function begins with a prefix operator, or with a primary expression
that is followed by nothing or by a symbol that goes on with it (`Goes`). This is what tells an
arrow function from an expression in parentheses, a block from an object, and the end of a list from
a further item. -/

namespace CommandChain.Syntax

/-! ### Leaves that were read -/

namespace Reads

variable {xs ys : List Terminal} {x : Terminal} {ts rest rest' : List Token}

theorem uncons (h : Reads (x :: xs) ts rest) :
    x.Proper ∧ ∃ ts', ts = x.token :: ts' ∧ Reads xs ts' rest :=
  ⟨h.proper x (by simp), xs.map Terminal.token ++ rest, h.tokens, rfl,
    fun y hy => h.proper y (List.mem_cons_of_mem x hy)⟩

theorem split (h : Reads (xs ++ ys) ts rest) : ∃ mid, Reads xs ts mid ∧ Reads ys mid rest :=
  ⟨ys.map Terminal.token ++ rest,
    ⟨by simp [h.tokens], fun x hx => h.proper x (List.mem_append_left ys hx)⟩,
    rfl, fun y hy => h.proper y (List.mem_append_right xs hy)⟩

theorem unique (h : Reads xs ts rest) (h' : Reads xs ts rest') : rest = rest' :=
  List.append_cancel_left (h.tokens.symm.trans h'.tokens)

end Reads

/-! ### The first leaves -/

/-- A symbol that goes on with a primary expression. -/
def goesOn : Punctuation → Bool
  | .dot | .parenL | .bracketL | .question => true
  | s => (binaryOp? s).isSome

/-- Nothing, or a symbol that goes on with a primary expression, comes next. -/
def Goes (xs : List Terminal) : Prop := ∀ x ∈ xs.head?, ∃ s, x = .sym s ∧ goesOn s = true

theorem Goes.nil : Goes [] := by simp [Goes]

theorem Goes.cons {s : Punctuation} (hs : goesOn s = true) (xs : List Terminal) :
    Goes (.sym s :: xs) := by
  simpa [Goes] using hs

theorem Goes.append {xs ys : List Terminal} (h : Goes xs) (h' : Goes ys) : Goes (xs ++ ys) := by
  cases xs with
  | nil => exact h'
  | cons x xs => exact h

theorem Operands.goes {l : Nat} (os : Operands l) : Goes os.terminals := by
  cases os with
  | nil => exact .nil
  | cons op hl c os => exact .cons (by cases op <;> rfl) _

theorem Suffixes.goes (ss : Suffixes) : Goes ss.terminals := by
  cases ss with
  | nil => exact .nil
  | callEmpty | call | member | index => exact .cons rfl _

/-- The leaves are a prefix operator and more, or a primary expression and what goes on with it. -/
def Front (xs : List Terminal) : Prop :=
  (∃ (o : UnaryOp) (ys : List Terminal), xs = .sym o.symbol :: ys) ∨
    ∃ (p : Primary) (ys : List Terminal), xs = p.terminals ++ ys ∧ Goes ys

theorem Front.append {xs ys : List Terminal} (h : Front xs) (hys : Goes ys) : Front (xs ++ ys) := by
  rcases h with ⟨o, zs, rfl⟩ | ⟨p, zs, rfl, hzs⟩
  · exact .inl ⟨o, zs ++ ys, rfl⟩
  · exact .inr ⟨p, zs ++ ys, List.append_assoc .., hzs.append hys⟩

theorem Unary.front (u : Unary) : Front u.terminals := by
  cases u with
  | op o u => exact .inl ⟨o, _, rfl⟩
  | base q =>
    cases q with
    | mk p ss => exact .inr ⟨p, ss.terminals, rfl, ss.goes⟩

theorem Chain.front {l : Nat} : (c : Chain l) → Front c.terminals
  | .unary u => u.front
  | .level c os => c.front.append os.goes

theorem Expression.front (e : Expression) : (∃ ps b, e = .lambda ps b) ∨ Front e.terminals := by
  cases e with
  | lambda ps b => exact .inl ⟨ps, b, rfl⟩
  | plain c => exact .inr c.front
  | ternary c a b => exact .inr (c.front.append (.cons rfl _))

/-! ### What an expression does not begin with -/

/-- The symbols that an expression may begin with. -/
def begins : Punctuation → Bool
  | .bang | .minus | .plus | .parenL | .bracketL | .braceL => true
  | _ => false

/-- Only some symbols come first, and no property; and a name that comes first is not followed by
what goes on with a parameter list. -/
def Lead : List Terminal → Prop
  | [] | .property _ :: _ => False
  | .identifier _ :: ys => ∀ y ∈ ys.head?, ∃ s, y = .sym s ∧ s ≠ .comma ∧ s ≠ .parenR
  | .sym s :: _ => begins s = true
  | _ :: _ => True

theorem Goes.not_comma {xs : List Terminal} (h : Goes xs) :
    ∀ y ∈ xs.head?, ∃ s, y = .sym s ∧ s ≠ .comma ∧ s ≠ .parenR := by
  intro y hy
  obtain ⟨s, rfl, hs⟩ := h y hy
  refine ⟨s, rfl, ?_, ?_⟩
  all_goals
    rintro rfl
    exact absurd hs (by decide)

theorem Front.lead {xs : List Terminal} (h : Front xs) : Lead xs := by
  rcases h with ⟨o, ys, rfl⟩ | ⟨p, ys, rfl, hys⟩
  · cases o <;> rfl
  · cases p
    case identifier n => exact hys.not_comma
    all_goals trivial

theorem Expression.lead (e : Expression) : Lead e.terminals := by
  rcases e.front with ⟨ps, b, rfl⟩ | h
  · cases ps with
    | single n =>
      intro y hy
      obtain rfl : .sym .arrow = y := by simpa using hy
      exact ⟨.arrow, rfl, by decide, by decide⟩
    | empty | list => rfl
  · exact h.lead

theorem Expression.head_ne {e : Expression} {ts rest : List Token} (h : Reads e.terminals ts rest)
    {s : Punctuation} (hs : begins s = false) : ts.head? ≠ some (.sym s) := by
  have hlead := e.lead
  cases hx : e.terminals with
  | nil => exact absurd hx e.terminals_ne_nil
  | cons x xs =>
    rw [hx] at h hlead
    obtain ⟨-, us, rfl, -⟩ := h.uncons
    intro heq
    cases x <;> cases heq
    exact absurd hlead (by simp [Lead, hs])

/-- No closing bracket comes first. -/
theorem Expression.not_closes {e : Expression} {ts rest : List Token}
    (h : Reads e.terminals ts rest) : closes ts = false := by
  unfold closes
  split
  · exact absurd rfl (Expression.head_ne h (s := .parenR) rfl)
  · exact absurd rfl (Expression.head_ne h (s := .bracketR) rfl)
  · exact absurd rfl (Expression.head_ne h (s := .braceR) rfl)
  · rfl

/-! ### No arrow function -/

variable {us rest : List Token}

/-- An expression in parentheses with no arrow behind it is no parameter list with an arrow. -/
theorem not_params_of_lead {xs : List Terminal} (hxs : Lead xs) (hproper : ∀ x ∈ xs, x.Proper)
    (hus : us.head? ≠ some (.sym .arrow)) (p : Param) (ps : List Param)
    (hparams : ∀ x ∈ p.terminals, x.Proper) :
    xs.map Terminal.token ++ .sym .parenR :: us ≠
      (p.terminals ++ Param.moreTerminals ps).map Terminal.token ++
        .sym .parenR :: .sym .arrow :: rest := by
  intro h
  cases xs with
  | nil => exact hxs
  | cons x xs =>
    cases p with
    | rest n =>
      obtain ⟨hx, -⟩ := List.cons.inj h
      cases x <;> cases hx
      exact absurd hxs (by simp [Lead, begins])
    | plain n =>
      have hn : n ∉ keywords := hparams (.identifier n) (by simp [Param.terminals])
      obtain ⟨hx, hrest⟩ := List.cons.inj h
      cases x <;> cases hx
      · exact hn (hproper (.keyword n) (by simp))
      · cases xs with
        | nil =>
          cases ps with
          | nil =>
            obtain ⟨-, rfl⟩ := List.cons.inj hrest
            exact hus rfl
          | cons q ps => exact absurd (List.cons.inj hrest).1 (by simp [Terminal.token])
        | cons y xs =>
          obtain ⟨s, rfl, hcomma, hclose⟩ := hxs y rfl
          cases ps with
          | nil => exact hclose (by simpa [Terminal.token] using (List.cons.inj hrest).1)
          | cons q ps => exact hcomma (by simpa [Terminal.token] using (List.cons.inj hrest).1)
      · exact hxs

/-- A primary expression without an arrow behind it is no parameter list with an arrow. -/
theorem Primary.not_head {p : Primary} {ps : Params} {ts : List Token}
    (hus : us.head? ≠ some (.sym .arrow)) (h : Reads p.terminals ts us) :
    ¬ Reads (ps.terminals ++ [.sym .arrow]) ts rest := by
  intro h'
  have htokens := h.tokens.symm.trans h'.tokens
  cases ps with
  | single n =>
    have hn : n ∉ keywords := h'.proper (.identifier n) (by simp [Params.terminals])
    cases p
    case boolean | null | undefined =>
      obtain ⟨hw, -⟩ := List.cons.inj htokens
      obtain rfl := Token.word.inj hw
      exact hn (h.proper (.keyword _) (List.mem_singleton_self _))
    case identifier m =>
      obtain ⟨-, rfl⟩ := List.cons.inj htokens
      exact hus rfl
    all_goals exact absurd (List.cons.inj htokens).1 (by simp [Terminal.token])
  | empty =>
    cases p
    case paren e =>
      obtain ⟨-, ts', rfl, hinner⟩ := h.uncons
      obtain ⟨mid, he, -⟩ := hinner.split
      obtain ⟨-, rfl⟩ := List.cons.inj h'.tokens
      exact absurd (Expression.not_closes he) (by simp [closes, Terminal.token])
    all_goals exact absurd (List.cons.inj htokens).1 (by simp [Terminal.token])
  | list q qs =>
    cases p
    case paren e =>
      obtain ⟨-, hrest⟩ := List.cons.inj htokens
      have hinner : ∀ x ∈ e.terminals, x.Proper :=
        fun x hx => h.proper x (by simp [Primary.terminals, hx])
      have hparams : ∀ x ∈ q.terminals, x.Proper :=
        fun x hx => h'.proper x (by simp [Params.terminals, hx])
      exact not_params_of_lead e.lead hinner hus q qs hparams
        (by simpa [Terminal.token] using hrest)
    all_goals exact absurd (List.cons.inj htokens).1 (by simp [Terminal.token])

/-- An expression that is no arrow function is none without an arrow behind it either. -/
theorem Front.not_head {xs : List Terminal} {ps : Params} {ts : List Token} (hxs : Front xs)
    (hus : us.head? ≠ some (.sym .arrow)) (h : Reads xs ts us) :
    ¬ Reads (ps.terminals ++ [.sym .arrow]) ts rest := by
  rcases hxs with ⟨o, ys, rfl⟩ | ⟨p, ys, rfl, hys⟩
  · obtain ⟨-, ts', rfl, -⟩ := h.uncons
    intro h'
    have htokens := h'.tokens
    cases ps <;> cases o <;> simp [Params.terminals, Terminal.token, UnaryOp.symbol] at htokens
  · obtain ⟨mid, hp, hmid⟩ := h.split
    refine p.not_head ?_ hp
    cases ys with
    | nil =>
      obtain rfl : mid = us := hmid.tokens
      exact hus
    | cons y ys =>
      obtain ⟨s, rfl, hs⟩ := hys y rfl
      obtain ⟨-, ts', rfl, -⟩ := hmid.uncons
      intro hs'
      obtain rfl : s = .arrow := by simpa [Terminal.token] using hs'
      exact absurd hs (by decide)

/-! ### No block -/

/-- An expression whose tokens begin with a brace and `return` goes on with a colon. -/
theorem Front.readBlock_eq_none {xs : List Terminal} {ts : List Token} (hxs : Front xs)
    (h : Reads xs ts us) : readBlock ts = none := by
  rcases hxs with ⟨o, ys, rfl⟩ | ⟨p, ys, rfl, hys⟩
  · obtain ⟨-, ts', rfl, -⟩ := h.uncons
    cases o <;> rfl
  · obtain ⟨mid, hp, -⟩ := h.split
    rw [hp.tokens]
    cases p
    case object k e fs trailing =>
      cases k
      · rfl
      · unfold readBlock
        exact dif_neg fun hcolon => Bool.false_ne_true hcolon.2
    all_goals rfl

theorem Expression.readBlock_eq_none {e : Expression} {ts : List Token}
    (h : Reads e.terminals ts us) : readBlock ts = none := by
  rcases e.front with ⟨ps, b, rfl⟩ | hfront
  · rw [h.tokens]
    cases ps <;> rfl
  · exact hfront.readBlock_eq_none h

end CommandChain.Syntax
