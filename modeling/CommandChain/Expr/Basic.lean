/-!
# Expressions

The syntax trees of the expression language: literals, variables, members, calls, operators,
conditionals and arrow functions. -/

namespace CommandChain

/-- The operators between two operands. -/
inductive BinaryOp where
  | and | or | eq | ne | strictEq | strictNe | lt | le | gt | ge | add | sub | mul | div | mod
deriving Repr, DecidableEq

/-- The operators in front of one operand. -/
inductive UnaryOp where
  | not | neg | plus
deriving Repr, DecidableEq

/-- An expression. An object keeps its fields as they are written, with repetitions. An arrow
function has named parameters and perhaps one name for all further arguments. -/
inductive Expr where
  | null
  | bool (b : Bool)
  | num (x : Float)
  | str (s : String)
  | list (items : List Expr)
  | obj (fields : List (String × Expr))
  | ident (name : String)
  | member (object : Expr) (property : String)
  | index (object key : Expr)
  | call (callee : Expr) (args : List Expr)
  | unary (op : UnaryOp) (operand : Expr)
  | binary (op : BinaryOp) (left right : Expr)
  | ternary (condition consequent alternate : Expr)
  | lambda (params : List String) (rest : Option String) (body : Expr)
deriving Repr, Inhabited

end CommandChain
