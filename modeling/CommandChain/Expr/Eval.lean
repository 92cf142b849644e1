import CommandChain.Expr.Parser
import CommandChain.Expr.Value
import CommandChain.Json.Reader

/-!
# Evaluation of expressions

`evalWith` computes the value of an expression by recursion on the expression; how a function is
called is a parameter. `Value.call` calls a function by recursion on the number of calls that may
still be nested, and evaluates the body with itself one level lower. So every evaluation ends: on
the way down either the expression gets smaller or the room for calls does. -/

namespace CommandChain

/-- Why an expression has no value. -/
inductive EvalError where
  | undefinedName (name : String)
  | propertyOfNull (property : String)
  | notFunction (kind : String)
  | callDepth
  /-- `JSON.parse` was given a text that is no JSON value. -/
  | badJson (text : String)
deriving Repr, DecidableEq

/-- The wording of an evaluation error. -/
def EvalError.message (e : EvalError) (w : Wording := {}) : String :=
  match e with
  | .undefinedName name => name ++ " is not defined"
  | .propertyOfNull property =>
    "Cannot read properties of null (reading '" ++ property ++ "')"
  | .notFunction kind => kind ++ " is not a function"
  | .callDepth => "Maximum call depth exceeded"
  | .badJson text => "JSON.parse: " ++ w.json text

/-- How a function is called: the address of the body's evaluation, the function, the arguments. -/
abbrev Caller := Address → Value → List Value → Except EvalError Value

namespace Value

/-! ### Names, members and items -/

/-- The value of a name that every expression knows. -/
def ofGlobal? (name : String) : Option Value :=
  if name == "String" then some (.builtin .string)
  else if name == "Number" then some (.builtin .number)
  else if name == "Boolean" then some (.builtin .boolean)
  else if name == "JSON" then
    some (.obj [("parse", .builtin .jsonParse), ("stringify", .builtin .jsonStringify)])
  else if name == "NaN" then some (.num Double.nan)
  else if name == "Infinity" then some (.num Double.infinity)
  else none

/-- The value of a name: a variable, or else a name that every expression knows. -/
def ofName (scope : Scope) (name : String) : Except EvalError Value :=
  match Members.get? name scope with
  | some v => .ok v
  | none =>
    match ofGlobal? name with
    | some v => .ok v
    | none => .error (.undefinedName name)

/-- A property of a value: the length of arrays and strings, the members of objects. Any other
property is null, and null has none. -/
def property (v : Value) (name : String) : Except EvalError Value :=
  match v with
  | .null => .error (.propertyOfNull name)
  | .list items => .ok (if name == "length" then .num (Double.ofInt items.length) else .null)
  | .str s => .ok (if name == "length" then .num (Double.ofInt s.length) else .null)
  | .obj ms => .ok ((Members.get? name ms).getD .null)
  | _ => .ok .null

/-- The position that a key names, if it is a natural number. -/
def position? (key : Value) : Option Nat :=
  let x := key.toNumber
  if x ≥ 0.0 && Double.isWhole x then some (Double.toInt x).toNat else none

/-- The item of an array, the character of a string, or a property. -/
def item (v key : Value) : Except EvalError Value :=
  match v, position? key with
  | .list items, some i => .ok (items[i]?.getD .null)
  | .str s, some i => .ok ((s.toList[i]?.map fun c => Value.str (String.ofList [c])).getD .null)
  | v, _ => property v key.toText

end Value

/-- The value of a builtin function; it looks at its first argument only. -/
def Builtin.apply (f : Builtin) (args : List Value) : Except EvalError Value :=
  match f, args.head? with
  | .string, v => .ok (.str ((v.map Value.toText).getD ""))
  | .number, v => .ok (.num ((v.map Value.toNumber).getD 0.0))
  | .boolean, v => .ok (.bool ((v.map Value.isTruthy).getD false))
  | .jsonStringify, none => .ok .null
  | .jsonStringify, some v => .ok (if v.isCallable then .null else .str v.toJson.text)
  | .jsonParse, v =>
    let text := (v.map Value.toText).getD ""
    match Json.parse? text with
    | some j => .ok (.ofJson j)
    | none => .error (.badJson text)

/-- The value of an operator whose operands both have a value. -/
def BinaryOp.apply (op : BinaryOp) (a b : Value) : Value :=
  match op with
  | .and => if a.isTruthy then b else a
  | .or => if a.isTruthy then a else b
  | .eq => .bool (a.looseEq b)
  | .ne => .bool (!a.looseEq b)
  | .strictEq => .bool (a.strictEq b)
  | .strictNe => .bool (!a.strictEq b)
  | .lt => .bool (a.order b == some .lt)
  | .le => .bool (a.order b == some .lt || a.order b == some .eq)
  | .gt => .bool (a.order b == some .gt)
  | .ge => .bool (a.order b == some .gt || a.order b == some .eq)
  | .add => a.sum b
  | .sub => .num (a.toNumber - b.toNumber)
  | .mul => .num (a.toNumber * b.toNumber)
  | .div => .num (a.toNumber / b.toNumber)
  | .mod => .num (Double.remainder a.toNumber b.toNumber)

/-- The left operand alone decides: it is false before `&&` or true before `||`. -/
def BinaryOp.decided (op : BinaryOp) (a : Value) : Bool :=
  match op with
  | .and => !a.isTruthy
  | .or => a.isTruthy
  | _ => false

/-- The value of an operator in front of its operand. -/
def UnaryOp.apply (op : UnaryOp) (v : Value) : Value :=
  match op with
  | .not => .bool (!v.isTruthy)
  | .neg => .num (-v.toNumber)
  | .plus => .num v.toNumber

namespace Scope

/-- Bind parameters to arguments in order; a parameter without an argument is null. -/
def bindPlain : List String → List Value → Scope → Scope
  | [], _, s => s
  | p :: ps, [], s => bindPlain ps [] ((p, .null) :: s)
  | p :: ps, a :: as, s => bindPlain ps as ((p, a) :: s)

/-- Bind the parameters of an arrow function: the plain ones, and the rest parameter to the list of
the arguments beyond their number. -/
def bind (params : List String) (rest : Option String) (args : List Value) (s : Scope) : Scope :=
  match rest with
  | none => bindPlain params args s
  | some r => (r, .list (args.drop params.length)) :: bindPlain params args s

end Scope

namespace Expr

mutual

/-- The value of an expression. Operands are evaluated from left to right; `&&`, `||` and the
conditional leave out what does not matter. -/
def evalWith (caller : Caller) (here : Address) (scope : Scope) : Expr → Except EvalError Value
  | .null => .ok .null
  | .bool b => .ok (.bool b)
  | .num x => .ok (.num x)
  | .str s => .ok (.str s)
  | .list items => do return .list (← evalItems caller here 0 scope items)
  | .obj fields => do return .obj (← evalFields caller here 0 scope [] fields)
  | .ident name => Value.ofName scope name
  | .member object name => do (← evalWith caller (0 :: here) scope object).property name
  | .index object key => do
    let v ← evalWith caller (0 :: here) scope object
    v.item (← evalWith caller (1 :: here) scope key)
  | .call callee args => do
    let f ← evalWith caller (0 :: here) scope callee
    caller (1 :: here) f (← evalItems caller here 2 scope args)
  | .unary op e => do return op.apply (← evalWith caller (0 :: here) scope e)
  | .binary op l r => do
    let a ← evalWith caller (0 :: here) scope l
    if op.decided a then return a else return op.apply a (← evalWith caller (1 :: here) scope r)
  | .ternary c a b => do
    if (← evalWith caller (0 :: here) scope c).isTruthy then evalWith caller (1 :: here) scope a
    else evalWith caller (2 :: here) scope b
  | .lambda params rest body => .ok (.closure here params rest body scope)

/-- The values of expressions from left to right, the first of them being part number `i`. -/
def evalItems (caller : Caller) (here : Address) (i : Nat) (scope : Scope) :
    List Expr → Except EvalError (List Value)
  | [] => .ok []
  | e :: es => do
    let v ← evalWith caller (i :: here) scope e
    return v :: (← evalItems caller here (i + 1) scope es)

/-- The members of an object after fields evaluated from left to right; the last field of a name
wins. -/
def evalFields (caller : Caller) (here : Address) (i : Nat) (scope : Scope) (ms : Members Value) :
    List (String × Expr) → Except EvalError (Members Value)
  | [] => .ok ms
  | (k, e) :: fs => do
    let v ← evalWith caller (i :: here) scope e
    evalFields caller here (i + 1) scope (Members.insert k v ms) fs

end

end Expr

/-- How deep calls may be nested. -/
def maxCalls : Nat := 64

/-- Call a function, with room for `room` calls inside each other. -/
def Value.call (room : Nat) (here : Address) (f : Value) (args : List Value) :
    Except EvalError Value :=
  match f with
  | .closure _ params rest body captured =>
    match room with
    | 0 => .error .callDepth
    | room + 1 =>
      Expr.evalWith (Value.call room) here (Scope.bind params rest args captured) body
  | .builtin b => b.apply args
  | v => .error (.notFunction v.typeName)

namespace Expr

/-- The value of an expression, with room for `room` nested calls. -/
def evalIn (room : Nat) (here : Address) (scope : Scope) (e : Expr) : Except EvalError Value :=
  evalWith (Value.call room) here scope e

/-- The value of an expression among some variables. -/
def eval (scope : Scope) (e : Expr) : Except EvalError Value := evalIn maxCalls [0] scope e

/-- Why a text has no value. -/
inductive Error where
  | parse (e : ParseError)
  | eval (e : EvalError)
deriving Repr, DecidableEq

/-- The wording of an error. -/
def Error.message (e : Error) (w : Wording := {}) : String :=
  match e with
  | .parse e => e.message w
  | .eval e => e.message w

/-- The value of a text among some variables. -/
def evaluate (t : String) (scope : Scope) : Except Error Value :=
  match parse t with
  | .error e => .error (.parse e)
  | .ok e => (eval scope e).mapError .eval

/-- Apply the function that a text writes to JSON arguments. -/
def applyText (t : String) (args : List Json) : Except Error Json := do
  let f ← evaluate t []
  if f.isCallable then
    match f.call maxCalls [1] (Value.ofItems args) with
    | .error e => .error (.eval e)
    | .ok v => return v.toJson
  else .error (.eval (.notFunction f.typeName))

end Expr

end CommandChain
