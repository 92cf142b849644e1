import CommandChain.Expr.Syntax
import CommandChain.Wording

/-!
# Parsing expressions

A predictive parser over tokens, which reads derivations of the grammar. A name or a bracketed
parameter list before `=>` begins an arrow function, and `{ return`, if no colon comes next, begins
a block. Every reader hands on its derivation and the rest, with the proof that the leaves of the
derivation and the rest make up what it was given. So the readers end by the number of tokens and,
at equal number, by how far down in the grammar they stand. -/

namespace CommandChain.Syntax

/-! ### Results of reading -/

/-- The role of a word fits: keywords are keywords, and names of variables are none. -/
def Terminal.Proper : Terminal → Prop
  | .keyword w => w ∈ keywords
  | .identifier w => w ∉ keywords
  | _ => True

instance : DecidablePred Terminal.Proper
  | .keyword w => inferInstanceAs (Decidable (w ∈ keywords))
  | .identifier w => inferInstanceAs (Decidable (w ∉ keywords))
  | .number _ | .string .. | .property _ | .sym _ => inferInstanceAs (Decidable True)

/-- The leaves `xs` are read from the front of `ts`, which leaves `rest`. -/
structure Reads (xs : List Terminal) (ts rest : List Token) : Prop where
  tokens : ts = xs.map Terminal.token ++ rest
  proper : ∀ x ∈ xs, x.Proper

namespace Reads

variable {xs ys : List Terminal} {ts mid rest : List Token}

theorem nil : Reads [] ts ts := ⟨rfl, by simp⟩

theorem cons {x : Terminal} (hx : x.Proper) (h : Reads xs ts rest) :
    Reads (x :: xs) (x.token :: ts) rest :=
  ⟨by simp [h.tokens], by simpa [hx] using h.proper⟩

theorem append (h : Reads xs ts mid) (h' : Reads ys mid rest) : Reads (xs ++ ys) ts rest :=
  ⟨by simp [h.tokens, h'.tokens], by
    simpa only [List.forall_mem_append] using ⟨h.proper, h'.proper⟩⟩

theorem le (h : Reads xs ts rest) : rest.length ≤ ts.length := by
  rw [h.tokens, List.length_append]
  omega

theorem lt (h : Reads xs ts rest) (hne : xs ≠ []) : rest.length < ts.length := by
  have := List.length_pos_iff.mpr hne
  rw [h.tokens, List.length_append, List.length_map]
  omega

end Reads

/-- A derivation read from the front of `input`, and what is left of it. -/
structure Reading {α : Type} (terminals : α → List Terminal) (input : List Token) where
  tree : α
  rest : List Token
  reads : Reads (terminals tree) input rest

namespace Reading

variable {α β : Type} {f : α → List Terminal} {input : List Token}

/-- Less is left. -/
theorem shorter (p : Reading f input) (hne : f p.tree ≠ []) : p.rest.length < input.length :=
  p.reads.lt hne

end Reading

/-! ### Symbols and words -/

/-- A given symbol. -/
def readSym (s : Punctuation) : (ts : List Token) → Option (Reading (fun _ : Unit => [.sym s]) ts)
  | .sym s' :: ts =>
    if h : s' = s then some ⟨(), ts, h ▸ Reads.nil.cons (x := .sym s') trivial⟩ else none
  | _ => none

/-- A closing symbol, perhaps after another symbol. -/
def readEnd (s close : Punctuation) (ts : List Token) :
    Option (Reading (fun b => optional s b ++ [.sym close]) ts) :=
  match readSym s ts with
  | some m => do
    let n ← readSym close m.rest
    return ⟨true, n.rest, m.reads.append n.reads⟩
  | none => do
    let n ← readSym close ts
    return ⟨false, n.rest, n.reads⟩

/-- A closing bracket comes next. -/
def closes : List Token → Bool
  | .sym .parenR :: _ | .sym .bracketR :: _ | .sym .braceR :: _ => true
  | _ => false

/-- The name of a variable. -/
def readName : (ts : List Token) → Option (Reading (fun w => [.identifier w]) ts)
  | .word w :: ts =>
    if h : w ∈ keywords then none else some ⟨w, ts, Reads.nil.cons (x := .identifier w) h⟩
  | _ => none

/-- The name of a field and its colon. -/
def readKey : (ts : List Token) → Option (Reading (fun k : Key => [k.terminal, .sym .colon]) ts)
  | .str mark raw :: .sym .colon :: ts =>
    some ⟨.string mark raw, ts,
      (Reads.nil.cons (x := .sym .colon) trivial).cons (x := .string mark raw) trivial⟩
  | .word w :: .sym .colon :: ts =>
    some ⟨.property w, ts,
      (Reads.nil.cons (x := .sym .colon) trivial).cons (x := .property w) trivial⟩
  | _ => none

/-- The opening brace and the `return` of a block. A field named `return` is no block. -/
def readBlock : (ts : List Token) →
    Option (Reading (fun _ : Unit => [.sym .braceL, .keyword "return"]) ts)
  | .sym .braceL :: .word w :: ts =>
    if h : w = "return" ∧ (readSym .colon ts).isNone then
      some ⟨(), ts, h.1 ▸ (Reads.nil.cons (x := .keyword w)
        (by rw [h.1]; simp [Terminal.Proper, keywords])).cons (x := .sym .braceL) trivial⟩
    else none
  | _ => none

/-! ### Parameter lists -/

/-- A parameter. -/
def readParam : (ts : List Token) → Option (Reading Param.terminals ts)
  | .sym .ellipsis :: ts => do
    let n ← readName ts
    return ⟨.rest n.tree, n.rest, n.reads.cons (x := .sym .ellipsis) trivial⟩
  | ts => do
    let n ← readName ts
    return ⟨.plain n.tree, n.rest, n.reads⟩

/-- Parameters after another one. -/
def readMoreParams : (ts : List Token) → Option (Reading Param.moreTerminals ts)
  | .sym .comma :: ts => do
    let p ← readParam ts
    have := p.reads.le
    let ps ← readMoreParams p.rest
    return ⟨p.tree :: ps.tree, ps.rest,
      (p.reads.append ps.reads).cons (x := .sym .comma) trivial⟩
  | ts => some ⟨[], ts, .nil⟩
termination_by ts => ts.length

/-- The parameters of an arrow function. -/
def readParams : (ts : List Token) → Option (Reading Params.terminals ts)
  | .sym .parenL :: .sym .parenR :: ts =>
    some ⟨.empty, ts,
      (Reads.nil.cons (x := .sym .parenR) trivial).cons (x := .sym .parenL) trivial⟩
  | .sym .parenL :: ts => do
    let p ← readParam ts
    let ps ← readMoreParams p.rest
    let m ← readSym .parenR ps.rest
    return ⟨.list p.tree ps.tree, m.rest,
      (p.reads.append (ps.reads.append m.reads)).cons (x := .sym .parenL) trivial⟩
  | ts => do
    let n ← readName ts
    return ⟨.single n.tree, n.rest, n.reads⟩

/-- The parameters of an arrow function and its arrow. -/
def readHead (ts : List Token) :
    Option (Reading (fun ps : Params => ps.terminals ++ [.sym .arrow]) ts) := do
  let ps ← readParams ts
  let m ← readSym .arrow ps.rest
  return ⟨ps.tree, m.rest, ps.reads.append m.reads⟩

/-! ### Expressions -/

/-- The binary operator of a symbol. -/
def binaryOp? : Punctuation → Option BinaryOp
  | .or => some .or
  | .and => some .and
  | .strictEq => some .strictEq
  | .strictNe => some .strictNe
  | .eq => some .eq
  | .ne => some .ne
  | .le => some .le
  | .ge => some .ge
  | .lt => some .lt
  | .gt => some .gt
  | .plus => some .add
  | .minus => some .sub
  | .star => some .mul
  | .slash => some .div
  | .percent => some .mod
  | _ => none

theorem binaryOp?_eq_some {s : Punctuation} {op : BinaryOp} :
    binaryOp? s = some op ↔ s = op.symbol := by
  cases s <;> cases op <;> decide

/-- The prefix operator of a symbol. -/
def unaryOp? : Punctuation → Option UnaryOp
  | .bang => some .not
  | .minus => some .neg
  | .plus => some .plus
  | _ => none

theorem unaryOp?_eq_some {s : Punctuation} {op : UnaryOp} :
    unaryOp? s = some op ↔ s = op.symbol := by
  cases s <;> cases op <;> decide

/-- The primary expression of a word. -/
def ofWord? (w : String) : Option Primary :=
  if w = "true" then some (.boolean true)
  else if w = "false" then some (.boolean false)
  else if w = "null" then some .null
  else if w = "undefined" then some .undefined
  else if w = "return" then none
  else some (.identifier w)

theorem reads_ofWord {w : String} {p : Primary} (h : ofWord? w = some p) (ts : List Token) :
    Reads p.terminals (.word w :: ts) ts := by
  unfold ofWord? at h
  repeat' split at h
  all_goals cases h
  all_goals exact ⟨by simp_all [Primary.terminals, Terminal.token], by
    simp_all [Primary.terminals, Terminal.Proper, keywords]⟩

mutual

/-- An expression: an arrow function or a conditional. -/
def readExpr (ts : List Token) : Option (Reading Expression.terminals ts) :=
  match readHead ts with
  | some ps => do
    have := ps.shorter (by simp)
    let b ← readBody ps.rest
    return ⟨.lambda ps.tree b.tree, b.rest, by
      simpa [Expression.terminals] using ps.reads.append b.reads⟩
  | none => do
    let c ← readChain 6 ts
    have := c.shorter c.tree.terminals_ne_nil
    match readSym .question c.rest with
    | none => return ⟨.plain c.tree, c.rest, c.reads⟩
    | some q =>
      have := q.reads.le
      let a ← readExpr q.rest
      have := a.reads.le
      let m ← readSym .colon a.rest
      have := m.reads.le
      let b ← readExpr m.rest
      return ⟨.ternary c.tree a.tree b.tree, b.rest,
        c.reads.append (q.reads.append (a.reads.append (m.reads.append b.reads)))⟩
termination_by (ts.length, 11)

/-- The body of an arrow function. -/
def readBody (ts : List Token) : Option (Reading Body.terminals ts) :=
  match readBlock ts with
  | some b => do
    have := b.shorter (by simp)
    let e ← readExpr b.rest
    let m ← readEnd .semicolon .braceR e.rest
    return ⟨.block e.tree m.tree, m.rest, b.reads.append (e.reads.append m.reads)⟩
  | none => do
    let e ← readExpr ts
    return ⟨.expression e.tree, e.rest, e.reads⟩
termination_by (ts.length, 12)

/-- Operands of a level with the operators between them. -/
def readChain (l : Nat) (ts : List Token) : Option (Reading (Chain.terminals (l := l)) ts) :=
  match l with
  | 0 => do
    let u ← readUnary ts
    return ⟨.unary u.tree, u.rest, u.reads⟩
  | l + 1 => do
    let c ← readChain l ts
    have := c.shorter c.tree.terminals_ne_nil
    let os ← readOperands l c.rest
    return ⟨.level c.tree os.tree, os.rest, c.reads.append os.reads⟩
termination_by (ts.length, 3 + l)

/-- Operators of level `l + 1`, each with the operand after it. -/
def readOperands (l : Nat) (ts : List Token) :
    Option (Reading (Operands.terminals (l := l)) ts) :=
  match ts with
  | .sym s :: ts =>
    match h : binaryOp? s with
    | some op =>
      if hl : op.level = l + 1 then do
        let c ← readChain l ts
        have := c.reads.le
        let os ← readOperands l c.rest
        return ⟨.cons op hl c.tree os.tree, os.rest,
          binaryOp?_eq_some.mp h ▸ (c.reads.append os.reads).cons (x := .sym s) trivial⟩
      else some ⟨.nil, .sym s :: ts, .nil⟩
    | none => some ⟨.nil, .sym s :: ts, .nil⟩
  | ts => some ⟨.nil, ts, .nil⟩
termination_by (ts.length, 0)

/-- Prefix operators before a postfix expression. -/
def readUnary (ts : List Token) : Option (Reading Unary.terminals ts) :=
  match ts with
  | .sym s :: rest =>
    match h : unaryOp? s with
    | some op => do
      let u ← readUnary rest
      return ⟨.op op u.tree, u.rest, unaryOp?_eq_some.mp h ▸ u.reads.cons (x := .sym s) trivial⟩
    | none => do
      let p ← readPostfix (.sym s :: rest)
      return ⟨.base p.tree, p.rest, p.reads⟩
  | ts => do
    let p ← readPostfix ts
    return ⟨.base p.tree, p.rest, p.reads⟩
termination_by (ts.length, 2)

/-- A primary expression with the calls and accesses after it. -/
def readPostfix (ts : List Token) : Option (Reading Postfix.terminals ts) := do
  let p ← readPrimary ts
  have := p.shorter p.tree.terminals_ne_nil
  let ss ← readSuffixes p.rest
  return ⟨.mk p.tree ss.tree, ss.rest, p.reads.append ss.reads⟩
termination_by (ts.length, 1)

/-- Calls and accesses. -/
def readSuffixes (ts : List Token) : Option (Reading Suffixes.terminals ts) :=
  match ts with
  | .sym .dot :: .word w :: ts => do
    let ss ← readSuffixes ts
    return ⟨.member w ss.tree, ss.rest,
      (ss.reads.cons (x := .property w) trivial).cons (x := .sym .dot) trivial⟩
  | .sym .dot :: _ => none
  | .sym .parenL :: .sym .parenR :: ts => do
    let ss ← readSuffixes ts
    return ⟨.callEmpty ss.tree, ss.rest,
      (ss.reads.cons (x := .sym .parenR) trivial).cons (x := .sym .parenL) trivial⟩
  | .sym .parenL :: ts => do
    let e ← readExpr ts
    have := e.reads.le
    let es ← readItems e.rest
    have := es.reads.le
    let m ← readSym .parenR es.rest
    have := m.reads.le
    let ss ← readSuffixes m.rest
    return ⟨.call e.tree es.tree ss.tree, ss.rest,
      (e.reads.append (es.reads.append (m.reads.append ss.reads))).cons (x := .sym .parenL) trivial⟩
  | .sym .bracketL :: ts => do
    let e ← readExpr ts
    have := e.reads.le
    let m ← readSym .bracketR e.rest
    have := m.reads.le
    let ss ← readSuffixes m.rest
    return ⟨.index e.tree ss.tree, ss.rest,
      (e.reads.append (m.reads.append ss.reads)).cons (x := .sym .bracketL) trivial⟩
  | ts => some ⟨.nil, ts, .nil⟩
termination_by (ts.length, 0)

/-- A literal, a name or an expression in parentheses. -/
def readPrimary (ts : List Token) : Option (Reading Primary.terminals ts) :=
  match ts with
  | .num n :: ts => some ⟨.number n, ts, Reads.nil.cons (x := .number n) trivial⟩
  | .str mark raw :: ts =>
    some ⟨.string mark raw, ts, Reads.nil.cons (x := .string mark raw) trivial⟩
  | .word w :: ts =>
    match h : ofWord? w with
    | some p => some ⟨p, ts, reads_ofWord h ts⟩
    | none => none
  | .sym .bracketL :: .sym .bracketR :: ts =>
    some ⟨.emptyArray, ts,
      (Reads.nil.cons (x := .sym .bracketR) trivial).cons (x := .sym .bracketL) trivial⟩
  | .sym .bracketL :: ts => do
    let e ← readExpr ts
    have := e.reads.le
    let es ← readItems e.rest
    let m ← readEnd .comma .bracketR es.rest
    return ⟨.array e.tree es.tree m.tree, m.rest,
      (e.reads.append (es.reads.append m.reads)).cons (x := .sym .bracketL) trivial⟩
  | .sym .braceL :: .sym .braceR :: ts =>
    some ⟨.emptyObject, ts,
      (Reads.nil.cons (x := .sym .braceR) trivial).cons (x := .sym .braceL) trivial⟩
  | .sym .braceL :: ts => do
    let k ← readKey ts
    have := k.reads.le
    let e ← readExpr k.rest
    have := e.reads.le
    let fs ← readFields e.rest
    let m ← readEnd .comma .braceR fs.rest
    return ⟨.object k.tree e.tree fs.tree m.tree, m.rest,
      (k.reads.append (e.reads.append (fs.reads.append m.reads))).cons (x := .sym .braceL) trivial⟩
  | .sym .parenL :: ts => do
    let e ← readExpr ts
    let m ← readSym .parenR e.rest
    return ⟨.paren e.tree, m.rest, (e.reads.append m.reads).cons (x := .sym .parenL) trivial⟩
  | _ => none
termination_by (ts.length, 0)

/-- Expressions after another one. A comma before a closing bracket belongs to the bracket. -/
def readItems (ts : List Token) : Option (Reading Items.terminals ts) :=
  match ts with
  | .sym .comma :: ts =>
    if closes ts then some ⟨.nil, .sym .comma :: ts, .nil⟩
    else do
      let e ← readExpr ts
      have := e.reads.le
      let es ← readItems e.rest
      return ⟨.cons e.tree es.tree, es.rest,
        (e.reads.append es.reads).cons (x := .sym .comma) trivial⟩
  | ts => some ⟨.nil, ts, .nil⟩
termination_by (ts.length, 0)

/-- Fields after another one. A comma before a closing bracket belongs to the bracket. -/
def readFields (ts : List Token) : Option (Reading Fields.terminals ts) :=
  match ts with
  | .sym .comma :: ts =>
    if closes ts then some ⟨.nil, .sym .comma :: ts, .nil⟩
    else do
      let k ← readKey ts
      have := k.reads.le
      let e ← readExpr k.rest
      have := e.reads.le
      let fs ← readFields e.rest
      return ⟨.cons k.tree e.tree fs.tree, fs.rest,
        (k.reads.append (e.reads.append fs.reads)).cons (x := .sym .comma) trivial⟩
  | ts => some ⟨.nil, ts, .nil⟩
termination_by (ts.length, 0)

end

/-- The derivation of all tokens. -/
def ofTokens? (ts : List Token) : Option Expression :=
  match readExpr ts with
  | some e => if e.rest.isEmpty then some e.tree else none
  | none => none

end CommandChain.Syntax

namespace CommandChain.Expr

/-! ### Whole texts -/

/-- Why a text is no expression. -/
inductive ParseError where
  /-- The text does not follow the grammar. -/
  | grammar (text : String)
  /-- The text follows the grammar, but the characters after some `\u` are no code. -/
  | escape (digits : String)
deriving Repr, DecidableEq

/-- The wording of a parse error. -/
def ParseError.message (e : ParseError) (w : Wording := {}) : String :=
  "Syntax error: " ++
    match e with
    | .grammar text => w.expression text
    | .escape digits => "Invalid unicode escape '\\u" ++ digits ++ "'"

/-- The expression of a text. A text that does not follow the grammar is refused for that, whatever
its escapes. -/
def parse (t : String) : Except ParseError Expr :=
  match Token.lex? t.toList with
  | none => .error (.grammar t)
  | some ts =>
    match Syntax.ofTokens? ts with
    | none => .error (.grammar t)
    | some e =>
      match ts.findSome? Token.fault? with
      | some ds => .error (.escape (String.ofList ds))
      | none => .ok e.toExpr

end CommandChain.Expr
