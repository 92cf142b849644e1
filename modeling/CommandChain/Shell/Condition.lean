import CommandChain.Number.Decimal
import CommandChain.Shell.Arithmetic

/-!
# Conditions

The words of a condition are read from left to right: operands, operators with one operand or two,
negation, `-a` and `-o`, and parentheses. A word that has the form of an operator is an operand
where there is no room for an operator. -/

namespace CommandChain.Shell

/-- The operators of a condition. -/
inductive TestOp where
  /-- An operator with one operand, by its letter. -/
  | unary (letter : Char)
  | binary (sign : String)
  | not | and | or | parenL | parenR
deriving Repr, DecidableEq

namespace TestOp

/-- The letters of the operators with one operand. -/
def unaryLetters : List Char := "rwxefdcbpugkstznhLOGS".toList

/-- The operators with two operands. -/
def binarySigns : List String :=
  ["=", "!=", "<", ">", "-eq", "-ne", "-ge", "-gt", "-le", "-lt", "-nt", "-ot", "-ef"]

/-- The operator that a word writes. -/
def ofWord? (w : List Char) : Option TestOp :=
  let t := String.ofList w
  if binarySigns.contains t then some (.binary t)
  else
    match w with
    | ['!'] => some .not
    | ['('] => some .parenL
    | [')'] => some .parenR
    | ['-', 'a'] => some .and
    | ['-', 'o'] => some .or
    | ['-', c] => if unaryLetters.contains c then some (.unary c) else none
    | _ => none

/-- The operator has two operands. -/
def isBinary : TestOp → Bool
  | .binary _ => true
  | _ => false

end TestOp

/-- What stands at the front of the words of a condition. -/
inductive TestToken where
  | finish
  | operand
  | op (o : TestOp)
deriving Repr, DecidableEq

/-- The first of some words. An operator with one operand that has none is an operand, and so is one
that has an operator between itself and another word. -/
def testToken : List (List Char) → TestToken
  | [] => .finish
  | w :: ws =>
    match TestOp.ofWord? w with
    | none => .operand
    | some (.unary c) =>
      let isOperand :=
        match ws with
        | [] => true
        | [_] => false
        | o :: _ => (TestOp.ofWord? o).any TestOp.isBinary
      if isOperand then .operand else .op (.unary c)
    | some .parenL => if ws.isEmpty then .operand else .op .parenL
    | some o => .op o

/-- A whole number in decimal digits, with a sign or none and spaces around it. -/
def decimalInteger? (cs : List Char) : Option Int :=
  let (negative, ds) := Decimal.readSign (cs.dropWhile Arithmetic.isSpace)
  let ns := ds.takeWhile Char.isDigit
  let n : Int := Nat.ofDigitChars 10 ns 0
  let n := if negative then -n else n
  if !ns.isEmpty && (ds.drop ns.length).all Arithmetic.isSpace && Arithmetic.fits n then
    some n
  else none

/-- Complain about a number. -/
def illegalNumber {α : Type} (cs : List Char) : Action α :=
  Action.fail (ofText "Illegal number: " ++ cs)

/-- A whole number, or a complaint. -/
def wholeNumber (cs : List Char) : Action Int :=
  match decimalInteger? cs with
  | some n => return n
  | none => illegalNumber cs

/-- A natural number of 31 bits, or a complaint. -/
def naturalNumber (cs : List Char) : Action Nat := do
  let n ← wholeNumber cs
  if 0 ≤ n && n < 2147483648 then return n.toNat else illegalNumber cs

/-- A condition with one operand. -/
def unaryTest (letter : Char) (operand : List Char) : Action Bool := do
  let e := (← get).find? operand
  match letter with
  | 'n' => return !operand.isEmpty
  | 'z' => return operand.isEmpty
  | 'e' | 'r' | 'w' | 'O' | 'G' => return e.isSome
  | 'd' => return e == some .directory
  | 'f' => return e.isSome && e != some .directory
  | 's' =>
    match e with
    | some (.file content _) => return !content.isEmpty
    | some .directory => return true
    | none => return false
  | 'x' =>
    match e with
    | some (.file _ isExecutable) => return isExecutable
    | some .directory => return true
    | none => return false
  | 't' => do
    let _ ← wholeNumber operand
    return false
  | _ => return false

/-- A condition with two operands. -/
def binaryTest (sign : String) (a b : List Char) : Action Bool := do
  let numbers (f : Int → Int → Bool) : Action Bool := do
    return f (← wholeNumber a) (← wholeNumber b)
  match sign with
  | "=" => return a == b
  | "!=" => return a != b
  | "<" => return a < b
  | ">" => return b < a
  | "-eq" => numbers (· == ·)
  | "-ne" => numbers (· != ·)
  | "-lt" => numbers (· < ·)
  | "-le" => numbers (· ≤ ·)
  | "-gt" => numbers (fun a b => b < a)
  | "-ge" => numbers (fun a b => b ≤ a)
  | "-ef" => do
    let s ← get
    match s.locate a, s.locate b with
    | .ok p, .ok q => return p == q && (s.files.find? p).isSome
    | _, _ => return false
  | _ => return false

/-- A condition that is read word by word. The first word that is left is the one read last. -/
abbrev Condition := StateT (List (List Char)) Action

namespace Condition

/-- Pass over so many words, and tell what is at the front. -/
def advance (n : Nat) : Condition TestToken :=
  modifyGet fun ws => (testToken (ws.drop n), ws.drop n)

/-- What is behind the first word. -/
def ahead : Condition TestToken := return testToken (← get).tail

/-- The first word. -/
def word : Condition (List Char) := return (← get).headD []

/-- There are no words left for an operator. -/
def missing {α : Type} (op : List Char) : Condition α :=
  Action.fail (op ++ ofText ": argument expected")

mutual

/-- Conditions joined by `-o`; `token` is at the front. -/
def disjunction (token : TestToken) : Nat → Condition Bool
  | 0 => return false
  | fuel + 1 => do
    let a ← conjunction token fuel
    if (← ahead) = .op .or then
      let b ← disjunction (← advance 2) fuel
      return a || b
    else return a

/-- Conditions joined by `-a`. -/
def conjunction (token : TestToken) : Nat → Condition Bool
  | 0 => return false
  | fuel + 1 => do
    let a ← negation token fuel
    if (← ahead) = .op .and then
      let b ← conjunction (← advance 2) fuel
      return a && b
    else return a

/-- A condition, or its negation. -/
def negation (token : TestToken) : Nat → Condition Bool
  | 0 => return false
  | fuel + 1 => do
    if token = .op .not then
      let t ← ahead
      if t != .finish then let _ ← advance 1
      return !(← negation t fuel)
    else primary token fuel

/-- A condition without connectives. -/
def primary (token : TestToken) : Nat → Condition Bool
  | 0 => return false
  | fuel + 1 => do
    match token with
    | .finish => return false
    | .op .parenL =>
      let t ← advance 1
      if t = .op .parenR then return false
      else
        let a ← disjunction t fuel
        if (← advance 1) = .op .parenR then return a
        else Action.fail (ofText "closing paren expected")
    | .op (.unary c) =>
      let op ← word
      if (← advance 1) = .finish then missing op else unaryTest c (← word)
    | _ =>
      match ← ahead with
      | .op (.binary sign) =>
        let a ← word
        let _ ← advance 1
        let op ← word
        if (← advance 1) = .finish then missing op else binaryTest sign a (← word)
      | _ => return !(← word).isEmpty

end

/-- A condition as a whole, whose first word is an operand if `isOperand`. -/
def whole (isOperand : Bool) : Condition Bool := do
  let ws ← get
  let result ← disjunction (if isOperand then .operand else testToken ws) (4 * ws.length + 8)
  match ← get with
  | w :: _ :: _ =>
    Action.fail
      (if w.isEmpty then ofText "unexpected operator" else w ++ ofText ": unexpected operator")
  | _ => return result

end Condition

/-- A condition of a few words is read by its form: an operator in the middle of three words is one,
and parentheses and a negation are taken off; `fuel` bounds the number of words. -/
def holds (isNegated : Bool) : Nat → List (List Char) → Action Bool
  | 0, _ => return false
  | fuel + 1, ws => do
    let plain (isOperand : Bool) (ws : List (List Char)) : Action Bool := do
      return (← (Condition.whole isOperand).run' ws) != isNegated
    let byForm : Action Bool :=
      if ws.head? == some ['('] && ws.getLast? == some [')'] then plain false ws.tail.dropLast
      else if ws.head? == some ['!'] then holds true fuel ws.tail
      else plain false ws
    match ws with
    | [] => return isNegated
    | [_, o, _] => if (TestOp.ofWord? o).any TestOp.isBinary then plain true ws else byForm
    | [_, _, _, _] => byForm
    | _ => plain false ws

/-- Test a condition. -/
def test (ws : List (List Char)) : Action Unit := do
  Action.exitWith (if ← holds false (ws.length + 1) ws then 0 else 1)

/-- Test a condition between brackets. -/
def bracketTest (ws : List (List Char)) : Action Unit := do
  match ws.getLast? with
  | some (']' :: _) => test ws.dropLast
  | _ => Action.fail (ofText "missing ]")

end CommandChain.Shell
