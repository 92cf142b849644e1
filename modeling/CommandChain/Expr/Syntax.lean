import CommandChain.Expr.Basic
import CommandChain.Expr.Token

/-!
# The grammar of expressions

The derivations of the expression language, one type for each rule:

    expression     = lambda | chain 6 ("?" expression ":" expression)?
    lambda         = params "=>" body
    params         = identifier | "(" (param ("," param)*)? ")"
    param          = "..." identifier | identifier
    body           = "{" "return" expression ";"? "}" | expression
    chain (l + 1)  = chain l (operator of level l + 1, chain l)*
    chain 0        = unary
    unary          = ("!" | "-" | "+") unary | postfix
    postfix        = primary suffix*
    suffix         = "(" (expression ("," expression)*)? ")" | "." property | "[" expression "]"
    primary        = number | string | "true" | "false" | "null" | "undefined" | identifier
                   | "[" (expression ("," expression)* ","?)? "]"
                   | "{" (key ":" expression ("," key ":" expression)* ","?)? "}"
                   | "(" expression ")"
    key            = string | property

`terminals` are the leaves of a derivation from left to right, and `toExpr` is the expression that
it denotes. -/

namespace CommandChain

/-- The level of a binary operator: one of a higher level binds less tightly. -/
def BinaryOp.level : BinaryOp → Nat
  | .or => 6
  | .and => 5
  | .strictEq | .strictNe | .eq | .ne => 4
  | .le | .ge | .lt | .gt => 3
  | .add | .sub => 2
  | .mul | .div | .mod => 1

/-- The symbol of a binary operator. -/
def BinaryOp.symbol : BinaryOp → Punctuation
  | .or => .or
  | .and => .and
  | .strictEq => .strictEq
  | .strictNe => .strictNe
  | .eq => .eq
  | .ne => .ne
  | .le => .le
  | .ge => .ge
  | .lt => .lt
  | .gt => .gt
  | .add => .plus
  | .sub => .minus
  | .mul => .star
  | .div => .slash
  | .mod => .percent

/-- The symbol of a prefix operator. -/
def UnaryOp.symbol : UnaryOp → Punctuation
  | .not => .bang
  | .neg => .minus
  | .plus => .plus

namespace Syntax

/-- The words that are no names of variables. -/
def keywords : List String := ["true", "false", "null", "undefined", "return"]

/-- A leaf of a derivation. A word is there as a keyword, as the name of a variable or parameter, or
as the name of a property. -/
inductive Terminal where
  | number (n : Numeral)
  | string (mark : Char) (raw : List Char)
  | keyword (w : String)
  | identifier (w : String)
  | property (w : String)
  | sym (s : Punctuation)
deriving Repr, DecidableEq

/-- The token that a leaf is read from. -/
def Terminal.token : Terminal → Token
  | .number n => .num n
  | .string mark raw => .str mark raw
  | .keyword w | .identifier w | .property w => .word w
  | .sym s => .sym s

/-! ### Parameters and keys -/

/-- A parameter of an arrow function; a rest parameter takes all further arguments. -/
inductive Param where
  | plain (name : String)
  | rest (name : String)
deriving Repr, DecidableEq

namespace Param

/-- The leaves of a parameter. -/
def terminals : Param → List Terminal
  | plain n => [.identifier n]
  | rest n => [.sym .ellipsis, .identifier n]

/-- The name of a plain parameter. -/
def plain? : Param → Option String
  | plain n => some n
  | rest _ => none

/-- The name of a rest parameter. -/
def rest? : Param → Option String
  | plain _ => none
  | rest n => some n

/-- The leaves of parameters that stand after another one. -/
def moreTerminals : List Param → List Terminal
  | [] => []
  | p :: ps => .sym .comma :: (p.terminals ++ moreTerminals ps)

end Param

/-- The parameters of an arrow function: a single name, or a list in parentheses. -/
inductive Params where
  | single (name : String)
  | empty
  | list (first : Param) (more : List Param)
deriving Repr, DecidableEq

namespace Params

/-- The leaves of a parameter list. -/
def terminals : Params → List Terminal
  | single n => [.identifier n]
  | empty => [.sym .parenL, .sym .parenR]
  | list p ps => .sym .parenL :: (p.terminals ++ (Param.moreTerminals ps ++ [.sym .parenR]))

/-- All parameters in order. -/
def params : Params → List Param
  | single n => [.plain n]
  | empty => []
  | list p ps => p :: ps

/-- The names of the plain parameters. -/
def names (ps : Params) : List String := ps.params.filterMap Param.plain?

/-- The name for all further arguments; of several rest parameters the last one counts. -/
def rest? (ps : Params) : Option String := (ps.params.filterMap Param.rest?).getLast?

end Params

/-- The name of a field of an object. -/
inductive Key where
  | string (mark : Char) (raw : List Char)
  | property (name : String)
deriving Repr, DecidableEq

namespace Key

/-- The leaf of a key. -/
def terminal : Key → Terminal
  | string mark raw => .string mark raw
  | property n => .property n

/-- The name that a key stands for. -/
def name : Key → String
  | string _ raw => Token.content raw
  | property n => n

end Key

/-! ### Derivations -/

mutual

/-- An arrow function or a conditional. -/
inductive Expression : Type where
  | lambda (params : Params) (body : Body)
  | plain (test : Chain 6)
  | ternary (test : Chain 6) (consequent alternate : Expression)

/-- The body of an arrow function: a block, perhaps with a semicolon, or an expression. -/
inductive Body : Type where
  | block (value : Expression) (semicolon : Bool)
  | expression (value : Expression)

/-- Operands of one level with binary operators of that level between them. -/
inductive Chain : Nat → Type where
  | unary (operand : Unary) : Chain 0
  | level {l : Nat} (first : Chain l) (more : Operands l) : Chain (l + 1)

/-- Binary operators of level `l + 1`, each with the operand after it. -/
inductive Operands : Nat → Type where
  | nil {l : Nat} : Operands l
  | cons {l : Nat} (op : BinaryOp) (at_level : op.level = l + 1) (right : Chain l)
      (more : Operands l) : Operands l

/-- Prefix operators before a postfix expression. -/
inductive Unary : Type where
  | op (op : UnaryOp) (operand : Unary)
  | base (value : Postfix)

/-- A primary expression with the calls and accesses after it. -/
inductive Postfix : Type where
  | mk (base : Primary) (suffixes : Suffixes)

/-- Calls and accesses. -/
inductive Suffixes : Type where
  | nil
  | callEmpty (more : Suffixes)
  | call (first : Expression) (others : Items) (more : Suffixes)
  | member (property : String) (more : Suffixes)
  | index (key : Expression) (more : Suffixes)

/-- A literal, a name or an expression in parentheses. -/
inductive Primary : Type where
  | number (n : Numeral)
  | string (mark : Char) (raw : List Char)
  | boolean (b : Bool)
  | null
  | undefined
  | identifier (name : String)
  | emptyArray
  | array (first : Expression) (others : Items) (trailing : Bool)
  | emptyObject
  | object (key : Key) (first : Expression) (others : Fields) (trailing : Bool)
  | paren (value : Expression)

/-- Expressions after another one, each with the comma before it. -/
inductive Items : Type where
  | nil
  | cons (value : Expression) (more : Items)

/-- Fields after another one, each with the comma before it. -/
inductive Fields : Type where
  | nil
  | cons (key : Key) (value : Expression) (more : Fields)

end

/-! ### Leaves -/

/-- A symbol that may be left out. -/
def optional (s : Punctuation) (present : Bool) : List Terminal := if present then [.sym s] else []

mutual

/-- The leaves of an expression. -/
def Expression.terminals : Expression → List Terminal
  | .lambda ps b => ps.terminals ++ .sym .arrow :: b.terminals
  | .plain c => c.terminals
  | .ternary c a b =>
    c.terminals ++ .sym .question :: (a.terminals ++ .sym .colon :: b.terminals)

/-- The leaves of the body of an arrow function. -/
def Body.terminals : Body → List Terminal
  | .block e semicolon =>
    .sym .braceL :: .keyword "return" ::
      (e.terminals ++ (optional .semicolon semicolon ++ [.sym .braceR]))
  | .expression e => e.terminals

/-- The leaves of operands of one level. -/
def Chain.terminals {l : Nat} : Chain l → List Terminal
  | .unary u => u.terminals
  | .level c os => c.terminals ++ os.terminals

/-- The leaves of the operands after the first. -/
def Operands.terminals {l : Nat} : Operands l → List Terminal
  | .nil => []
  | .cons op _ c os => .sym op.symbol :: (c.terminals ++ os.terminals)

/-- The leaves of a unary expression. -/
def Unary.terminals : Unary → List Terminal
  | .op o u => .sym o.symbol :: u.terminals
  | .base p => p.terminals

/-- The leaves of a postfix expression. -/
def Postfix.terminals : Postfix → List Terminal
  | .mk p ss => p.terminals ++ ss.terminals

/-- The leaves of calls and accesses. -/
def Suffixes.terminals : Suffixes → List Terminal
  | .nil => []
  | .callEmpty ss => .sym .parenL :: .sym .parenR :: ss.terminals
  | .call e es ss =>
    .sym .parenL :: (e.terminals ++ (es.terminals ++ .sym .parenR :: ss.terminals))
  | .member n ss => .sym .dot :: .property n :: ss.terminals
  | .index e ss => .sym .bracketL :: (e.terminals ++ .sym .bracketR :: ss.terminals)

/-- The leaves of a primary expression. -/
def Primary.terminals : Primary → List Terminal
  | .number n => [.number n]
  | .string mark raw => [.string mark raw]
  | .boolean b => [.keyword (if b then "true" else "false")]
  | .null => [.keyword "null"]
  | .undefined => [.keyword "undefined"]
  | .identifier n => [.identifier n]
  | .emptyArray => [.sym .bracketL, .sym .bracketR]
  | .array e es trailing =>
    .sym .bracketL ::
      (e.terminals ++ (es.terminals ++ (optional .comma trailing ++ [.sym .bracketR])))
  | .emptyObject => [.sym .braceL, .sym .braceR]
  | .object k e fs trailing =>
    .sym .braceL :: k.terminal :: .sym .colon ::
      (e.terminals ++ (fs.terminals ++ (optional .comma trailing ++ [.sym .braceR])))
  | .paren e => .sym .parenL :: (e.terminals ++ [.sym .parenR])

/-- The leaves of further expressions. -/
def Items.terminals : Items → List Terminal
  | .nil => []
  | .cons e es => .sym .comma :: (e.terminals ++ es.terminals)

/-- The leaves of further fields. -/
def Fields.terminals : Fields → List Terminal
  | .nil => []
  | .cons k e fs => .sym .comma :: k.terminal :: .sym .colon :: (e.terminals ++ fs.terminals)

end

/-! ### Denotations -/

mutual

/-- The expression that a derivation denotes. -/
def Expression.toExpr : Expression → Expr
  | .lambda ps b => .lambda ps.names ps.rest? b.toExpr
  | .plain c => c.toExpr
  | .ternary c a b => .ternary c.toExpr a.toExpr b.toExpr

/-- The expression of the body of an arrow function. -/
def Body.toExpr : Body → Expr
  | .block e _ => e.toExpr
  | .expression e => e.toExpr

/-- The expression of operands of one level. -/
def Chain.toExpr {l : Nat} : Chain l → Expr
  | .unary u => u.toExpr
  | .level c os => os.applyTo c.toExpr

/-- Operators are applied from left to right, each to all that stands before it. -/
def Operands.applyTo {l : Nat} : Operands l → Expr → Expr
  | .nil, left => left
  | .cons op _ c os, left => os.applyTo (.binary op left c.toExpr)

/-- The expression of a unary expression. -/
def Unary.toExpr : Unary → Expr
  | .op o u => .unary o u.toExpr
  | .base p => p.toExpr

/-- The expression of a postfix expression. -/
def Postfix.toExpr : Postfix → Expr
  | .mk p ss => ss.applyTo p.toExpr

/-- Calls and accesses are applied from left to right. -/
def Suffixes.applyTo : Suffixes → Expr → Expr
  | .nil, left => left
  | .callEmpty ss, left => ss.applyTo (.call left [])
  | .call e es ss, left => ss.applyTo (.call left (e.toExpr :: es.toExprs))
  | .member n ss, left => ss.applyTo (.member left n)
  | .index e ss, left => ss.applyTo (.index left e.toExpr)

/-- The expression of a primary expression; parentheses leave nothing. -/
def Primary.toExpr : Primary → Expr
  | .number n => .num n.value
  | .string _ raw => .str (Token.content raw)
  | .boolean b => .bool b
  | .null => .null
  | .undefined => .null
  | .identifier n => .ident n
  | .emptyArray => .list []
  | .array e es _ => .list (e.toExpr :: es.toExprs)
  | .emptyObject => .obj []
  | .object k e fs _ => .obj ((k.name, e.toExpr) :: fs.toFields)
  | .paren e => e.toExpr

/-- The expressions of further items. -/
def Items.toExprs : Items → List Expr
  | .nil => []
  | .cons e es => e.toExpr :: es.toExprs

/-- The names and expressions of further fields. -/
def Fields.toFields : Fields → List (String × Expr)
  | .nil => []
  | .cons k e fs => (k.name, e.toExpr) :: fs.toFields

end

/-! ### No derivation is empty -/

theorem Primary.terminals_ne_nil (p : Primary) : p.terminals ≠ [] := by
  cases p <;> simp [Primary.terminals]

theorem Postfix.terminals_ne_nil (p : Postfix) : p.terminals ≠ [] := by
  cases p with
  | mk p ss => simp [Postfix.terminals, p.terminals_ne_nil]

theorem Unary.terminals_ne_nil (u : Unary) : u.terminals ≠ [] := by
  cases u with
  | op o u => simp [Unary.terminals]
  | base p => simpa only [Unary.terminals] using p.terminals_ne_nil

theorem Chain.terminals_ne_nil {l : Nat} : (c : Chain l) → c.terminals ≠ []
  | .unary u => by simpa only [Chain.terminals] using u.terminals_ne_nil
  | .level c os => by simp [Chain.terminals, c.terminals_ne_nil]

theorem Expression.terminals_ne_nil (e : Expression) : e.terminals ≠ [] := by
  cases e with
  | lambda ps b => simp [Expression.terminals]
  | plain c => simpa only [Expression.terminals] using c.terminals_ne_nil
  | ternary c a b => simp [Expression.terminals]

end Syntax

end CommandChain
