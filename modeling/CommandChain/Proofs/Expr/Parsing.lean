import CommandChain.Proofs.Expr.Front
import CommandChain.Proofs.Expr.Phrase

/-!
# The parser reads every derivation

What is read is a derivation by its type. Here the converse: the leaves of a derivation are read as
that derivation, whatever comes after them, provided that it does not go on with them (`After`). So
no choice of the parser hides a derivation, and a row of tokens has no more than one. -/

namespace CommandChain.Syntax

/-! ### What may come next -/

/-- How loosely a symbol after an operand binds: the level of a binary operator, above all of them
the question mark, and above that what ends an expression. -/
def weight : Punctuation → Nat
  | .colon | .semicolon | .comma | .parenR | .bracketR | .braceR => 8
  | .question => 7
  | s => ((binaryOp? s).map BinaryOp.level).getD 0

/-- Nothing comes next, or a symbol that binds more loosely than level `l`. -/
def After (l : Nat) (ts : List Token) : Prop := ∀ t ∈ ts.head?, ∃ s, t = .sym s ∧ l < weight s

theorem After.mono {l l' : Nat} (hl : l ≤ l') {ts : List Token} (h : After l' ts) : After l ts :=
  fun t ht => (h t ht).imp fun _ hs => ⟨hs.1, Nat.lt_of_le_of_lt hl hs.2⟩

theorem After.nil (l : Nat) : After l [] := by simp [After]

theorem After.cons {l : Nat} {s : Punctuation} (hs : l < weight s) (ts : List Token) :
    After l (.sym s :: ts) := by
  simpa [After] using hs

theorem weight_symbol (op : BinaryOp) : weight op.symbol = op.level := by cases op <;> rfl

/-- An operator comes next only if it is looser. -/
theorem After.op_level {l : Nat} {s : Punctuation} {ts : List Token} (h : After l (.sym s :: ts))
    {op : BinaryOp} (hop : binaryOp? s = some op) : l < op.level := by
  obtain ⟨s', hs', hlt⟩ := h _ rfl
  obtain rfl := Token.sym.inj hs'
  rwa [binaryOp?_eq_some.mp hop, weight_symbol] at hlt

/-- A closing bracket comes next, perhaps after a comma. -/
def AtEnd (ts : List Token) : Prop :=
  closes ts = true ∨ ∃ us, ts = .sym .comma :: us ∧ closes us = true

theorem after_of_closes {ts : List Token} (h : closes ts = true) : After 7 ts := by
  unfold closes at h
  split at h
  · exact .cons (by decide) _
  · exact .cons (by decide) _
  · exact .cons (by decide) _
  · cases h

theorem AtEnd.after {ts : List Token} (h : AtEnd ts) : After 7 ts := by
  rcases h with h | ⟨us, rfl, -⟩
  · exact after_of_closes h
  · exact .cons (by decide) _

/-! ### Results -/

section Finds

variable {α : Type} {f : α → List Terminal} {xs ys : List Terminal} {ts rest : List Token}

/-- The reader gives this derivation and this rest. -/
def Finds (r : Option (Reading f ts)) (t : α) (rest : List Token) : Prop :=
  ∃ p, r = some p ∧ p.tree = t ∧ p.rest = rest

theorem Finds.of_tree {r : Option (Reading f ts)} {t : α} (h : Reads (f t) ts rest)
    (hr : ∃ p, r = some p ∧ p.tree = t) : Finds r t rest := by
  obtain ⟨p, hp, rfl⟩ := hr
  exact ⟨p, hp, rfl, p.reads.unique h⟩

theorem readSym_finds {s : Punctuation} (h : Reads (.sym s :: xs) ts rest) :
    ∃ p, readSym s ts = some p ∧ Reads xs p.rest rest := by
  obtain ⟨-, us, rfl, htail⟩ := h.uncons
  exact ⟨_, dif_pos rfl, htail⟩

theorem readSym_eq_none {s : Punctuation} (h : ts.head? ≠ some (.sym s)) : readSym s ts = none := by
  unfold readSym
  split
  · next s' ts => exact dif_neg (fun hs => h (by rw [hs]; rfl))
  · rfl

theorem readName_finds {w : String} (h : Reads [.identifier w] ts rest) :
    Finds (readName ts) w rest := by
  refine .of_tree h ?_
  obtain ⟨hw, us, rfl, -⟩ := h.uncons
  exact ⟨_, dif_neg hw, rfl⟩

end Finds

theorem readEnd_finds {s c : Punctuation} (hsc : s ≠ c) {present : Bool} {ts rest : List Token}
    (h : Reads (optional s present ++ [.sym c]) ts rest) : Finds (readEnd s c ts) present rest := by
  refine .of_tree h ?_
  cases present with
  | false =>
    have hs : readSym s ts = none := by
      refine readSym_eq_none ?_
      rw [h.tokens]
      simpa [optional, Terminal.token] using hsc.symm
    obtain ⟨m, hm, -⟩ := readSym_finds h
    simp only [readEnd, hs, hm]
    exact ⟨_, rfl, rfl⟩
  | true =>
    obtain ⟨m, hm, hclose⟩ := readSym_finds h
    obtain ⟨n, hn, -⟩ := readSym_finds hclose
    simp only [readEnd, hm, hn]
    exact ⟨_, rfl, rfl⟩

theorem readKey_finds {k : Key} {ts rest : List Token}
    (h : Reads [k.terminal, .sym .colon] ts rest) : Finds (readKey ts) k rest := by
  refine .of_tree h ?_
  rw [h.tokens]
  cases k <;> exact ⟨_, rfl, rfl⟩

theorem readBlock_finds {ts mid : List Token}
    (h : Reads [.sym .braceL, .keyword "return"] ts mid) (hmid : mid.head? ≠ some (.sym .colon)) :
    Finds (readBlock ts) () mid := by
  refine .of_tree h ?_
  rw [h.tokens]
  unfold readBlock
  exact ⟨_, dif_pos ⟨rfl, Option.isNone_iff_eq_none.mpr (readSym_eq_none hmid)⟩, rfl⟩

/-! ### Parameter lists -/

theorem readParam_finds {p : Param} {ts rest : List Token} (h : Reads p.terminals ts rest) :
    Finds (readParam ts) p rest := by
  refine .of_tree h ?_
  cases p with
  | plain n =>
    obtain ⟨r, hr, rfl, -⟩ := readName_finds h
    unfold readParam
    split
    · next us => exact absurd (List.cons.inj h.tokens).1 (by simp [Terminal.token])
    · exact ⟨_, by rw [hr]; rfl, rfl⟩
  | rest n =>
    obtain ⟨-, us, rfl, htail⟩ := h.uncons
    obtain ⟨r, hr, rfl, -⟩ := readName_finds htail
    simp only [readParam, Terminal.token, hr]
    exact ⟨_, rfl, rfl⟩

theorem readMoreParams_finds {ps : List Param} {ts rest : List Token}
    (h : Reads (Param.moreTerminals ps) ts rest) (hrest : rest.head? ≠ some (.sym .comma)) :
    Finds (readMoreParams ts) ps rest := by
  refine .of_tree h ?_
  induction ps generalizing ts with
  | nil =>
    obtain rfl : ts = rest := h.tokens
    unfold readMoreParams
    split
    · exact absurd rfl hrest
    · exact ⟨_, rfl, rfl⟩
  | cons p ps ih =>
    obtain ⟨-, us, rfl, htail⟩ := h.uncons
    obtain ⟨mid, hp, hps⟩ := htail.split
    obtain ⟨r, hr, rfl, rfl⟩ := readParam_finds hp
    obtain ⟨rs, hrs, rfl⟩ := ih hps
    simp only [readMoreParams, Terminal.token, hr, hrs, Option.bind_eq_bind, Option.bind_some]
    exact ⟨_, rfl, rfl⟩

theorem Param.not_closes {p : Param} {ts rest : List Token} (h : Reads p.terminals ts rest) :
    closes ts = false := by
  rw [h.tokens]
  cases p <;> rfl

theorem readParams_finds {ps : Params} {ts rest : List Token} (h : Reads ps.terminals ts rest) :
    Finds (readParams ts) ps rest := by
  refine .of_tree h ?_
  cases ps with
  | single n =>
    obtain ⟨r, hr, rfl, -⟩ := readName_finds h
    unfold readParams
    split
    · exact absurd (List.cons.inj h.tokens).1 (by simp [Terminal.token])
    · exact absurd (List.cons.inj h.tokens).1 (by simp [Terminal.token])
    · exact ⟨_, by rw [hr]; rfl, rfl⟩
  | empty =>
    obtain ⟨-, us, rfl, htail⟩ := h.uncons
    obtain ⟨-, us, rfl, -⟩ := htail.uncons
    exact ⟨_, rfl, rfl⟩
  | list p ps =>
    obtain ⟨-, us, rfl, htail⟩ := h.uncons
    obtain ⟨mid, hp, hmore⟩ := htail.split
    obtain ⟨mid', hps, hclose⟩ := hmore.split
    obtain ⟨r, hr, rfl, rfl⟩ := readParam_finds hp
    obtain ⟨rs, hrs, rfl, rfl⟩ :=
      readMoreParams_finds hps (by rw [hclose.tokens]; simp [Terminal.token])
    obtain ⟨m, hm, -⟩ := readSym_finds hclose
    have hopen : ∀ us', us = .sym .parenR :: us' → False := by
      rintro us' rfl
      exact absurd (Param.not_closes hp) (by simp [closes])
    simp only [readParams, Terminal.token, hr, hrs, hm, Option.bind_eq_bind, Option.bind_some]
    exact ⟨_, rfl, rfl⟩

theorem readHead_finds {ps : Params} {ts rest : List Token}
    (h : Reads (ps.terminals ++ [.sym .arrow]) ts rest) : Finds (readHead ts) ps rest := by
  refine .of_tree h ?_
  obtain ⟨mid, hps, harrow⟩ := h.split
  obtain ⟨r, hr, rfl, rfl⟩ := readParams_finds hps
  obtain ⟨m, hm, -⟩ := readSym_finds harrow
  simp only [readHead, hr, hm, Option.bind_eq_bind, Option.bind_some]
  exact ⟨_, rfl, rfl⟩

/-! ### Derivations -/

section Next

variable {l : Nat} {s s' : Punctuation} {xs : List Terminal} {ts us rest : List Token}

theorem After.of_reads (h : Reads (.sym s :: xs) ts rest) (hs : l < weight s) : After l ts := by
  obtain ⟨-, us, rfl, -⟩ := h.uncons
  exact .cons hs us

theorem After.head_ne (h : After l ts) (hs : weight s ≤ l) : ts.head? ≠ some (.sym s) := by
  intro ht
  obtain ⟨s', hs', hlt⟩ := h _ ht
  obtain rfl := Token.sym.inj hs'
  omega

/-- An operator at the front stands at a level below what may come next, and so does nothing. -/
theorem Operands.after {os : Operands l} (h : Reads os.terminals ts rest)
    (hrest : After (l + 1) rest) : After l ts := by
  cases os with
  | nil =>
    obtain rfl : ts = rest := h.tokens
    exact hrest.mono (Nat.le_succ l)
  | cons op hl c os => exact .of_reads h (by rw [weight_symbol]; omega)

theorem Items.after {es : Items} (h : Reads es.terminals ts rest) (hrest : AtEnd rest) :
    After 7 ts := by
  cases es with
  | nil =>
    obtain rfl : ts = rest := h.tokens
    exact hrest.after
  | cons e es => exact .of_reads h (by decide)

theorem Fields.after {fs : Fields} (h : Reads fs.terminals ts rest) (hrest : AtEnd rest) :
    After 7 ts := by
  cases fs with
  | nil =>
    obtain rfl : ts = rest := h.tokens
    exact hrest.after
  | cons k e fs => exact .of_reads h (by decide)

theorem After.of_optional (hs : l < weight s) (hs' : l < weight s') {present : Bool}
    (h : Reads (optional s present ++ [.sym s']) ts rest) : After l ts := by
  cases present with
  | false => exact .of_reads h hs'
  | true => exact .of_reads h hs

theorem AtEnd.of_close {c : Punctuation} (hc : closes [.sym c] = true)
    (h : Reads (.sym c :: xs) ts rest) : AtEnd ts := by
  obtain ⟨-, us, rfl, -⟩ := h.uncons
  left
  cases c <;> first | rfl | exact absurd hc (by decide)

theorem AtEnd.of_optional {c : Punctuation} (hc : closes [.sym c] = true) {present : Bool}
    (h : Reads (optional .comma present ++ [.sym c]) ts rest) : AtEnd ts := by
  have hcloses : ∀ us, closes (.sym c :: us) = true := by
    intro us
    cases c <;> first | rfl | exact absurd hc (by decide)
  cases present with
  | false =>
    obtain ⟨-, us, rfl, -⟩ := h.uncons
    exact .inl (hcloses us)
  | true =>
    obtain ⟨-, us, rfl, h₁⟩ := h.uncons
    obtain ⟨-, us, rfl, -⟩ := h₁.uncons
    exact .inr ⟨_, rfl, hcloses us⟩

theorem AtEnd.closes_of_comma (h : AtEnd (.sym .comma :: us)) : closes us = true := by
  rcases h with h | ⟨us', heq, h⟩
  · exact absurd h (by simp [closes])
  · obtain ⟨-, rfl⟩ := List.cons.inj heq
    exact h

theorem Key.not_closes {k : Key} (h : Reads [k.terminal, .sym .colon] ts rest) :
    closes ts = false := by
  rw [h.tokens]
  cases k <;> rfl

theorem Front.readHead_eq_none (hxs : Front xs) (h : Reads xs ts us)
    (hus : us.head? ≠ some (.sym .arrow)) : readHead ts = none :=
  Option.eq_none_iff_forall_ne_some.mpr fun p _ => hxs.not_head hus h p.reads

theorem Postfix.head_ne {p : Postfix} (h : Reads p.terminals ts rest) (o : UnaryOp) :
    ts.head? ≠ some (.sym o.symbol) := by
  cases p with
  | mk p ss =>
    rw [h.tokens]
    cases p <;> cases o <;>
      simp [Postfix.terminals, Primary.terminals, Terminal.token, UnaryOp.symbol]

theorem ofWord?_identifier {w : String} (hw : w ∉ keywords) : ofWord? w = some (.identifier w) := by
  simp only [keywords, List.mem_cons, List.not_mem_nil, or_false, not_or] at hw
  simp [ofWord?, hw]

theorem readPrimary_word {w : String} {p : Primary} (hw : ofWord? w = some p) (us : List Token) :
    ∃ q, readPrimary (.word w :: us) = some q ∧ q.tree = p := by
  rw [readPrimary]
  split
  · next p' hp' =>
    obtain rfl : p = p' := Option.some.inj (hw.symm.trans hp')
    exact ⟨_, rfl, rfl⟩
  · next hp' => cases hw.symm.trans hp'

end Next

mutual

theorem Expression.finds : (e : Expression) → ∀ {ts rest : List Token},
    Reads e.terminals ts rest → After 7 rest → Finds (readExpr ts) e rest
  | .lambda ps b, ts, rest, h, hrest => by
    refine .of_tree h ?_
    have hsplit : Reads ((ps.terminals ++ [.sym .arrow]) ++ b.terminals) ts rest := by
      simpa [Expression.terminals] using h
    obtain ⟨mid, hhead, hbody⟩ := hsplit.split
    obtain ⟨p, hp, rfl, rfl⟩ := readHead_finds hhead
    obtain ⟨q, hq, rfl, -⟩ := b.finds hbody hrest
    rw [readExpr, hp]
    simp only [hq, Option.bind_eq_bind, Option.bind_some]
    exact ⟨_, rfl, rfl⟩
  | .plain c, ts, rest, h, hrest => by
    refine .of_tree h ?_
    have hhead : readHead ts = none :=
      c.front.readHead_eq_none h (hrest.head_ne (by decide))
    obtain ⟨p, hp, rfl, rfl⟩ := c.finds h (hrest.mono (by decide))
    have hquestion := readSym_eq_none (hrest.head_ne (s := .question) (by decide))
    rw [readExpr, hhead]
    simp only [hp, hquestion, Option.bind_eq_bind, Option.bind_some]
    exact ⟨_, rfl, rfl⟩
  | .ternary c a b, ts, rest, h, hrest => by
    refine .of_tree h ?_
    obtain ⟨mid, hc, h₁⟩ := h.split
    have hmid : After 6 mid := .of_reads h₁ (by decide)
    have hhead : readHead ts = none :=
      c.front.readHead_eq_none hc (hmid.head_ne (by decide))
    obtain ⟨p, hp, rfl, rfl⟩ := c.finds hc hmid
    obtain ⟨q, hq, h₂⟩ := readSym_finds h₁
    obtain ⟨mid, ha, h₃⟩ := h₂.split
    obtain ⟨pa, hpa, rfl, rfl⟩ := a.finds ha (.of_reads h₃ (by decide))
    obtain ⟨m, hm, hb⟩ := readSym_finds h₃
    obtain ⟨pb, hpb, rfl, -⟩ := b.finds hb hrest
    rw [readExpr, hhead]
    simp only [hp, hq, hpa, hm, hpb, Option.bind_eq_bind, Option.bind_some]
    exact ⟨_, rfl, rfl⟩

theorem Body.finds : (b : Body) → ∀ {ts rest : List Token},
    Reads b.terminals ts rest → After 7 rest → Finds (readBody ts) b rest
  | .block e semicolon, ts, rest, h, _ => by
    refine .of_tree h ?_
    have hsplit : Reads ([.sym .braceL, .keyword "return"] ++
        (e.terminals ++ (optional .semicolon semicolon ++ [.sym .braceR]))) ts rest := h
    obtain ⟨mid, hopen, h₁⟩ := hsplit.split
    obtain ⟨mid', he, hclose⟩ := h₁.split
    obtain ⟨p, hp, -, rfl⟩ := readBlock_finds hopen (Expression.head_ne he rfl)
    obtain ⟨q, hq, rfl, rfl⟩ := e.finds he (After.of_optional (by decide) (by decide) hclose)
    obtain ⟨m, hm, rfl, -⟩ := readEnd_finds (by decide) hclose
    rw [readBody, hp]
    simp only [hq, hm, Option.bind_eq_bind, Option.bind_some]
    exact ⟨_, rfl, rfl⟩
  | .expression e, ts, rest, h, hrest => by
    refine .of_tree h ?_
    have hblock := Expression.readBlock_eq_none h
    obtain ⟨p, hp, rfl, -⟩ := e.finds h hrest
    rw [readBody, hblock]
    simp only [hp, Option.bind_eq_bind, Option.bind_some]
    exact ⟨_, rfl, rfl⟩

theorem Chain.finds {l : Nat} : (c : Chain l) → ∀ {ts rest : List Token},
    Reads c.terminals ts rest → After l rest → Finds (readChain l ts) c rest
  | .unary u, ts, rest, h, hrest => by
    refine .of_tree h ?_
    obtain ⟨p, hp, rfl, -⟩ := u.finds h hrest
    rw [readChain]
    simp only [hp, Option.bind_eq_bind, Option.bind_some]
    exact ⟨_, rfl, rfl⟩
  | .level c os, ts, rest, h, hrest => by
    refine .of_tree h ?_
    obtain ⟨mid, hc, hos⟩ := h.split
    obtain ⟨p, hp, rfl, rfl⟩ := c.finds hc (Operands.after hos hrest)
    obtain ⟨q, hq, rfl, -⟩ := os.finds hos hrest
    rw [readChain]
    simp only [hp, hq, Option.bind_eq_bind, Option.bind_some]
    exact ⟨_, rfl, rfl⟩

theorem Operands.finds {l : Nat} : (os : Operands l) → ∀ {ts rest : List Token},
    Reads os.terminals ts rest → After (l + 1) rest → Finds (readOperands l ts) os rest
  | .nil, ts, rest, h, hrest => by
    refine .of_tree h ?_
    obtain rfl : ts = rest := h.tokens
    unfold readOperands
    split
    · split
      · next s us op hop =>
        have hlevel := hrest.op_level hop
        exact ⟨_, dif_neg (by omega), rfl⟩
      · exact ⟨_, rfl, rfl⟩
    · exact ⟨_, rfl, rfl⟩
  | .cons op hl c os, ts, rest, h, hrest => by
    refine .of_tree h ?_
    obtain ⟨-, us, rfl, h₁⟩ := h.uncons
    obtain ⟨mid, hc, hos⟩ := h₁.split
    obtain ⟨p, hp, rfl, rfl⟩ := c.finds hc (Operands.after hos hrest)
    obtain ⟨q, hq, rfl, -⟩ := os.finds hos hrest
    have hop : binaryOp? op.symbol = some op := binaryOp?_eq_some.mpr rfl
    unfold readOperands
    dsimp only [Terminal.token]
    split
    · next op' hop' =>
      obtain rfl : op = op' := Option.some.inj (hop.symm.trans hop')
      rw [dif_pos hl]
      simp only [hp, hq, Option.bind_eq_bind, Option.bind_some]
      exact ⟨_, rfl, rfl⟩
    · next hop' => cases hop.symm.trans hop'

theorem Unary.finds : (u : Unary) → ∀ {ts rest : List Token},
    Reads u.terminals ts rest → After 0 rest → Finds (readUnary ts) u rest
  | .op o u, ts, rest, h, hrest => by
    refine .of_tree h ?_
    obtain ⟨-, us, rfl, h₁⟩ := h.uncons
    obtain ⟨p, hp, rfl, -⟩ := u.finds h₁ hrest
    have ho : unaryOp? o.symbol = some o := unaryOp?_eq_some.mpr rfl
    unfold readUnary
    dsimp only [Terminal.token]
    split
    · next o' ho' =>
      obtain rfl : o = o' := Option.some.inj (ho.symm.trans ho')
      simp only [hp, Option.bind_eq_bind, Option.bind_some]
      exact ⟨_, rfl, rfl⟩
    · next ho' => cases ho.symm.trans ho'
  | .base p, ts, rest, h, hrest => by
    refine .of_tree h ?_
    obtain ⟨q, hq, rfl, -⟩ := p.finds h hrest
    unfold readUnary
    split
    · next s us =>
      split
      · next o ho =>
        have hs : s = o.symbol := unaryOp?_eq_some.mp ho
        exact absurd (by simp [hs]) (Postfix.head_ne h o)
      · simp only [hq, Option.bind_eq_bind, Option.bind_some]
        exact ⟨_, rfl, rfl⟩
    · simp only [hq, Option.bind_eq_bind, Option.bind_some]
      exact ⟨_, rfl, rfl⟩

theorem Postfix.finds : (p : Postfix) → ∀ {ts rest : List Token},
    Reads p.terminals ts rest → After 0 rest → Finds (readPostfix ts) p rest
  | .mk p ss, ts, rest, h, hrest => by
    refine .of_tree h ?_
    obtain ⟨mid, hp, hss⟩ := h.split
    obtain ⟨q, hq, rfl, rfl⟩ := p.finds hp
    obtain ⟨r, hr, rfl, -⟩ := ss.finds hss hrest
    rw [readPostfix]
    simp only [hq, hr, Option.bind_eq_bind, Option.bind_some]
    exact ⟨_, rfl, rfl⟩

theorem Suffixes.finds : (ss : Suffixes) → ∀ {ts rest : List Token},
    Reads ss.terminals ts rest → After 0 rest → Finds (readSuffixes ts) ss rest
  | .nil, ts, rest, h, hrest => by
    refine .of_tree h ?_
    obtain rfl : ts = rest := h.tokens
    unfold readSuffixes
    split
    · exact absurd rfl (hrest.head_ne (s := .dot) le_rfl)
    · exact absurd rfl (hrest.head_ne (s := .dot) le_rfl)
    · exact absurd rfl (hrest.head_ne (s := .parenL) le_rfl)
    · exact absurd rfl (hrest.head_ne (s := .parenL) le_rfl)
    · exact absurd rfl (hrest.head_ne (s := .bracketL) le_rfl)
    · exact ⟨_, rfl, rfl⟩
  | .callEmpty ss, ts, rest, h, hrest => by
    refine .of_tree h ?_
    obtain ⟨-, us, rfl, h₁⟩ := h.uncons
    obtain ⟨-, us, rfl, h₂⟩ := h₁.uncons
    obtain ⟨q, hq, rfl, -⟩ := ss.finds h₂ hrest
    simp only [Terminal.token]
    rw [readSuffixes]
    simp only [hq, Option.bind_eq_bind, Option.bind_some]
    exact ⟨_, rfl, rfl⟩
  | .call e es ss, ts, rest, h, hrest => by
    refine .of_tree h ?_
    obtain ⟨-, us, rfl, h₁⟩ := h.uncons
    obtain ⟨mid, he, h₂⟩ := h₁.split
    obtain ⟨mid', hes, h₃⟩ := h₂.split
    have hend : AtEnd mid' := .of_close rfl h₃
    obtain ⟨p, hp, rfl, rfl⟩ := e.finds he (Items.after hes hend)
    obtain ⟨q, hq, rfl, rfl⟩ := es.finds hes hend
    obtain ⟨m, hm, hss⟩ := readSym_finds h₃
    obtain ⟨r, hr, rfl, -⟩ := ss.finds hss hrest
    simp only [Terminal.token]
    rw [readSuffixes]
    · simp only [hp, hq, hm, hr, Option.bind_eq_bind, Option.bind_some]
      exact ⟨_, rfl, rfl⟩
    · rintro us' rfl
      exact Expression.head_ne he (s := .parenR) rfl rfl
  | .member n ss, ts, rest, h, hrest => by
    refine .of_tree h ?_
    obtain ⟨-, us, rfl, h₁⟩ := h.uncons
    obtain ⟨-, us, rfl, h₂⟩ := h₁.uncons
    obtain ⟨q, hq, rfl, -⟩ := ss.finds h₂ hrest
    simp only [Terminal.token]
    rw [readSuffixes]
    simp only [hq, Option.bind_eq_bind, Option.bind_some]
    exact ⟨_, rfl, rfl⟩
  | .index e ss, ts, rest, h, hrest => by
    refine .of_tree h ?_
    obtain ⟨-, us, rfl, h₁⟩ := h.uncons
    obtain ⟨mid, he, h₂⟩ := h₁.split
    obtain ⟨p, hp, rfl, rfl⟩ := e.finds he (.of_reads h₂ (by decide))
    obtain ⟨m, hm, hss⟩ := readSym_finds h₂
    obtain ⟨r, hr, rfl, -⟩ := ss.finds hss hrest
    simp only [Terminal.token]
    rw [readSuffixes]
    simp only [hp, hm, hr, Option.bind_eq_bind, Option.bind_some]
    exact ⟨_, rfl, rfl⟩

theorem Primary.finds : (p : Primary) → ∀ {ts rest : List Token},
    Reads p.terminals ts rest → Finds (readPrimary ts) p rest
  | .number n, ts, rest, h => by
    refine .of_tree h ?_
    obtain ⟨-, us, rfl, h₁⟩ := h.uncons
    simp only [Terminal.token]
    rw [readPrimary]
    exact ⟨_, rfl, rfl⟩
  | .string mark raw, ts, rest, h => by
    refine .of_tree h ?_
    obtain ⟨-, us, rfl, h₁⟩ := h.uncons
    simp only [Terminal.token]
    rw [readPrimary]
    exact ⟨_, rfl, rfl⟩
  | .boolean b, ts, rest, h => by
    refine .of_tree h ?_
    obtain ⟨-, us, rfl, -⟩ := h.uncons
    cases b <;> exact readPrimary_word rfl us
  | .null, ts, rest, h => by
    refine .of_tree h ?_
    obtain ⟨-, us, rfl, -⟩ := h.uncons
    exact readPrimary_word rfl us
  | .undefined, ts, rest, h => by
    refine .of_tree h ?_
    obtain ⟨-, us, rfl, -⟩ := h.uncons
    exact readPrimary_word rfl us
  | .identifier n, ts, rest, h => by
    refine .of_tree h ?_
    obtain ⟨hn, us, rfl, -⟩ := h.uncons
    exact readPrimary_word (ofWord?_identifier hn) us
  | .emptyArray, ts, rest, h => by
    refine .of_tree h ?_
    obtain ⟨-, us, rfl, h₁⟩ := h.uncons
    obtain ⟨-, us, rfl, h₂⟩ := h₁.uncons
    simp only [Terminal.token]
    rw [readPrimary]
    exact ⟨_, rfl, rfl⟩
  | .array e es trailing, ts, rest, h => by
    refine .of_tree h ?_
    obtain ⟨-, us, rfl, h₁⟩ := h.uncons
    obtain ⟨mid, he, h₂⟩ := h₁.split
    obtain ⟨mid', hes, hclose⟩ := h₂.split
    have hend : AtEnd mid' := .of_optional rfl hclose
    obtain ⟨p, hp, rfl, rfl⟩ := e.finds he (Items.after hes hend)
    obtain ⟨q, hq, rfl, rfl⟩ := es.finds hes hend
    obtain ⟨m, hm, rfl, -⟩ := readEnd_finds (by decide) hclose
    simp only [Terminal.token]
    rw [readPrimary]
    · simp only [hp, hq, hm, Option.bind_eq_bind, Option.bind_some]
      exact ⟨_, rfl, rfl⟩
    · rintro us' rfl
      exact Expression.head_ne he (s := .bracketR) rfl rfl
  | .emptyObject, ts, rest, h => by
    refine .of_tree h ?_
    obtain ⟨-, us, rfl, h₁⟩ := h.uncons
    obtain ⟨-, us, rfl, h₂⟩ := h₁.uncons
    simp only [Terminal.token]
    rw [readPrimary]
    exact ⟨_, rfl, rfl⟩
  | .object k e fs trailing, ts, rest, h => by
    refine .of_tree h ?_
    obtain ⟨-, us, rfl, h₁⟩ := h.uncons
    have hsplit : Reads ([k.terminal, .sym .colon] ++ (e.terminals ++
        (fs.terminals ++ (optional .comma trailing ++ [.sym .braceR])))) us rest := h₁
    obtain ⟨mid, hk, h₂⟩ := hsplit.split
    obtain ⟨mid', he, h₃⟩ := h₂.split
    obtain ⟨mid'', hfs, hclose⟩ := h₃.split
    have hend : AtEnd mid'' := .of_optional rfl hclose
    obtain ⟨n, hn, rfl, rfl⟩ := readKey_finds hk
    obtain ⟨p, hp, rfl, rfl⟩ := e.finds he (Fields.after hfs hend)
    obtain ⟨q, hq, rfl, rfl⟩ := fs.finds hfs hend
    obtain ⟨m, hm, rfl, -⟩ := readEnd_finds (by decide) hclose
    simp only [Terminal.token]
    rw [readPrimary]
    · simp only [hn, hp, hq, hm, Option.bind_eq_bind, Option.bind_some]
      exact ⟨_, rfl, rfl⟩
    · rintro us' rfl
      exact absurd hn (by simp [readKey])
  | .paren e, ts, rest, h => by
    refine .of_tree h ?_
    obtain ⟨-, us, rfl, h₁⟩ := h.uncons
    obtain ⟨mid, he, h₂⟩ := h₁.split
    obtain ⟨p, hp, rfl, rfl⟩ := e.finds he (.of_reads h₂ (by decide))
    obtain ⟨m, hm, -⟩ := readSym_finds h₂
    simp only [Terminal.token]
    rw [readPrimary]
    simp only [hp, hm, Option.bind_eq_bind, Option.bind_some]
    exact ⟨_, rfl, rfl⟩

theorem Items.finds : (es : Items) → ∀ {ts rest : List Token},
    Reads es.terminals ts rest → AtEnd rest → Finds (readItems ts) es rest
  | .nil, ts, rest, h, hrest => by
    refine .of_tree h ?_
    obtain rfl : ts = rest := h.tokens
    unfold readItems
    split
    · next us =>
      rw [if_pos hrest.closes_of_comma]
      exact ⟨_, rfl, rfl⟩
    · exact ⟨_, rfl, rfl⟩
  | .cons e es, ts, rest, h, hrest => by
    refine .of_tree h ?_
    obtain ⟨-, us, rfl, h₁⟩ := h.uncons
    obtain ⟨mid, he, hes⟩ := h₁.split
    obtain ⟨p, hp, rfl, rfl⟩ := e.finds he (Items.after hes hrest)
    obtain ⟨q, hq, rfl, -⟩ := es.finds hes hrest
    simp only [Terminal.token]
    rw [readItems, if_neg (by simp [Expression.not_closes he])]
    simp only [hp, hq, Option.bind_eq_bind, Option.bind_some]
    exact ⟨_, rfl, rfl⟩

theorem Fields.finds : (fs : Fields) → ∀ {ts rest : List Token},
    Reads fs.terminals ts rest → AtEnd rest → Finds (readFields ts) fs rest
  | .nil, ts, rest, h, hrest => by
    refine .of_tree h ?_
    obtain rfl : ts = rest := h.tokens
    unfold readFields
    split
    · next us =>
      rw [if_pos hrest.closes_of_comma]
      exact ⟨_, rfl, rfl⟩
    · exact ⟨_, rfl, rfl⟩
  | .cons k e fs, ts, rest, h, hrest => by
    refine .of_tree h ?_
    obtain ⟨-, us, rfl, h₁⟩ := h.uncons
    have hsplit : Reads ([k.terminal, .sym .colon] ++ (e.terminals ++ fs.terminals)) us rest := h₁
    obtain ⟨mid, hk, h₂⟩ := hsplit.split
    obtain ⟨mid', he, hfs⟩ := h₂.split
    have hcloses : closes us = false := Key.not_closes hk
    obtain ⟨n, hn, rfl, rfl⟩ := readKey_finds hk
    obtain ⟨p, hp, rfl, rfl⟩ := e.finds he (Fields.after hfs hrest)
    obtain ⟨q, hq, rfl, -⟩ := fs.finds hfs hrest
    simp only [Terminal.token]
    rw [readFields, if_neg (by simp [hcloses])]
    simp only [hn, hp, hq, Option.bind_eq_bind, Option.bind_some]
    exact ⟨_, rfl, rfl⟩

end

/-! ### Derivations of primary expressions -/

/-- An operand as a chain of any level. -/
def Chain.ofUnary (u : Unary) : (l : Nat) → Chain l
  | 0 => .unary u
  | l + 1 => .level (ofUnary u l) .nil

theorem Chain.terminals_ofUnary (u : Unary) (l : Nat) : (ofUnary u l).terminals = u.terminals := by
  induction l with
  | zero => rfl
  | succ l ih => rw [ofUnary, terminals, ih, Operands.terminals, List.append_nil]

theorem Chain.toExpr_ofUnary (u : Unary) (l : Nat) : (ofUnary u l).toExpr = u.toExpr := by
  induction l with
  | zero => rfl
  | succ l ih => rw [ofUnary, toExpr, ih, Operands.applyTo]

namespace Expression

/-- An operand as an expression. -/
def ofUnary (u : Unary) : Expression := .plain (.ofUnary u 6)

/-- A primary expression as an expression. -/
def ofPrimary (p : Primary) : Expression := ofUnary (.base (.mk p .nil))

@[simp] theorem terminals_ofUnary (u : Unary) : (ofUnary u).terminals = u.terminals :=
  Chain.terminals_ofUnary u 6

@[simp] theorem toExpr_ofUnary (u : Unary) : (ofUnary u).toExpr = u.toExpr :=
  Chain.toExpr_ofUnary u 6

@[simp] theorem terminals_ofPrimary (p : Primary) : (ofPrimary p).terminals = p.terminals := by
  rw [ofPrimary, terminals_ofUnary, Unary.terminals, Postfix.terminals, Suffixes.terminals,
    List.append_nil]

@[simp] theorem toExpr_ofPrimary (p : Primary) : (ofPrimary p).toExpr = p.toExpr := by
  rw [ofPrimary, toExpr_ofUnary, Unary.toExpr, Postfix.toExpr, Suffixes.applyTo]

end Expression

/-! ### Whole texts -/

theorem ofTokens?_eq_some_iff {ts : List Token} {e : Expression} :
    ofTokens? ts = some e ↔ Reads e.terminals ts [] := by
  constructor
  · intro h
    unfold ofTokens? at h
    split at h
    · next p hp =>
      split_ifs at h with hrest
      obtain rfl := Option.some.inj h
      have hreads := p.reads
      rwa [List.isEmpty_iff.mp hrest] at hreads
    · cases h
  · intro h
    obtain ⟨p, hp, rfl, hrest⟩ := e.finds h (.nil 7)
    simp [ofTokens?, hp, hrest]

/-- The derivation `d` derives the text. -/
def Derives (d : Expression) (t : String) : Prop := Spelled d.terminals t.toList

/-- A derivation derives a text just if it is read from its tokens. -/
theorem derives_iff {d : Expression} {t : String} :
    Derives d t ↔ ∃ ts, Token.lex? t.toList = some ts ∧ ofTokens? ts = some d := by
  constructor
  · intro h
    have hjoins := d.phrase.joins
    exact ⟨_, lex?_of_spelled h hjoins,
      ofTokens?_eq_some_iff.mpr ⟨(List.append_nil _).symm, h.proper hjoins⟩⟩
  · rintro ⟨ts, hlex, hd⟩
    have hreads := ofTokens?_eq_some_iff.mp hd
    refine spelled_of_lex? hreads.proper ?_
    rw [← List.append_nil (d.terminals.map _), ← hreads.tokens]
    exact hlex

theorem derives_of_lex {d : Expression} {t : String}
    (hlex : Token.lex? t.toList = some (d.terminals.map Terminal.token))
    (hproper : ∀ x ∈ d.terminals, x.Proper) : Derives d t :=
  derives_iff.mpr
    ⟨_, hlex, ofTokens?_eq_some_iff.mpr ⟨(List.append_nil _).symm, hproper⟩⟩

/-- The characters of the first malformed escape in the string literals of a derivation. -/
def Expression.fault? (d : Expression) : Option (List Char) :=
  (d.terminals.map Terminal.token).findSome? Token.fault?

/-- What a text means that has a derivation. -/
theorem parse_of_derives {d : Expression} {t : String} (h : Derives d t) :
    Expr.parse t =
      match d.fault? with
      | some ds => .error (.escape (String.ofList ds))
      | none => .ok d.toExpr := by
  obtain ⟨ts, hlex, hd⟩ := derives_iff.mp h
  have htokens : ts = d.terminals.map Terminal.token ++ [] := (ofTokens?_eq_some_iff.mp hd).tokens
  rw [List.append_nil] at htokens
  have hfault : d.fault? = ts.findSome? Token.fault? := by rw [Expression.fault?, ← htokens]
  cases h : ts.findSome? Token.fault? with
  | none => simp only [Expr.parse, hlex, hd, hfault, h]
  | some ds => simp only [Expr.parse, hlex, hd, hfault, h]

/-- A text without a derivation is refused for its grammar. -/
theorem parse_of_not_derives {t : String} (h : ∀ d, ¬ Derives d t) :
    Expr.parse t = .error (.grammar t) := by
  unfold Expr.parse
  split
  · rfl
  · next ts hlex =>
    cases hd : ofTokens? ts with
    | none => rfl
    | some d => exact absurd (derives_iff.mpr ⟨ts, hlex, hd⟩) (h d)

/-- A text whose tokens are those of a derivation is parsed as what this derivation denotes. -/
theorem parse_of_lex {t : String} {d : Expression}
    (hlex : Token.lex? t.toList = some (d.terminals.map Terminal.token))
    (hproper : ∀ x ∈ d.terminals, x.Proper) (hfault : d.fault? = none) :
    Expr.parse t = .ok d.toExpr := by
  rw [parse_of_derives (derives_of_lex hlex hproper), hfault]

theorem exists_derives_of_ok {t : String} {e : Expr} (h : Expr.parse t = .ok e) :
    ∃ d, Derives d t ∧ d.toExpr = e := by
  by_cases hd : ∃ d, Derives d t
  · obtain ⟨d, hd⟩ := hd
    rw [parse_of_derives hd] at h
    split at h
    · cases h
    · exact ⟨d, hd, Except.ok.inj h⟩
  · cases h.symm.trans (parse_of_not_derives (not_exists.mp hd))

/-- The parser accepts what the grammar derives, and nothing else: a text is parsed, or refused only
for an escape, just if it has a derivation. Then it has a single one, and the expression is what
this derivation denotes. -/
theorem parse_iff_derives (t : String) :
    ((∃ d, Derives d t) ↔
      (∃ e, Expr.parse t = .ok e) ∨ ∃ ds, Expr.parse t = .error (.escape ds)) ∧
    (∀ d d', Derives d t → Derives d' t → d = d') ∧
    ∀ d, Derives d t → Expr.parse t =
      match d.fault? with
      | some ds => .error (.escape (String.ofList ds))
      | none => .ok d.toExpr := by
  refine ⟨⟨?_, ?_⟩, ?_, fun d hd => parse_of_derives hd⟩
  · rintro ⟨d, hd⟩
    rw [parse_of_derives hd]
    cases d.fault? with
    | none => exact .inl ⟨_, rfl⟩
    | some ds => exact .inr ⟨_, rfl⟩
  · intro hparse
    by_contra hnone
    have herror := parse_of_not_derives (not_exists.mp hnone)
    rcases hparse with ⟨e, he⟩ | ⟨ds, hds⟩
    · cases he.symm.trans herror
    · cases hds.symm.trans herror
  · intro d d' hd hd'
    obtain ⟨ts, hlex, hts⟩ := derives_iff.mp hd
    obtain ⟨ts', hlex', hts'⟩ := derives_iff.mp hd'
    obtain rfl := Option.some.inj (hlex.symm.trans hlex')
    exact Option.some.inj (hts.symm.trans hts')

/-- Subtraction groups to the left, multiplication binds more tightly, and parentheses leave
nothing. -/
example : Expr.parse "a - b - c * (d)" = .ok
    (.binary .sub (.binary .sub (.ident "a") (.ident "b"))
      (.binary .mul (.ident "c") (.ident "d"))) := by
  cbv

end CommandChain.Syntax
