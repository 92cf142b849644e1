import CommandChain.Number.Word
import CommandChain.Shell.Session

/-!
# Arithmetic of the shell

Whole numbers of 64 bits with the usual operators and assignments. A name stands for the number that
its variable holds, or for 0. Truth is 1 and falsehood 0. A term is calculated while it is read; the
part of a choice or connective that does not count is read without effect. -/

namespace CommandChain.Shell.Arithmetic

/-- Wrap a number around to 64 bits with a sign. -/
def wrap (n : Int) : Int := n.bmod Number.wordLimit.toNat

/-- What is done to two numbers. -/
inductive Operator where
  | mul | div | rem | add | sub | shiftLeft | shiftRight | less | lessEqual | greater | greaterEqual
  | equal | notEqual | bitAnd | bitXor | bitOr
deriving Repr, DecidableEq

/-- A part of a term. -/
inductive Token where
  | number (n : Int)
  | name (cs : List Char)
  | op (o : Operator)
  /-- The assignment of what an operator makes of the old value, or of the new value alone. -/
  | assign (o : Option Operator)
  | andThen | orElse | not | bitNot | question | colon | parenL | parenR | bad
deriving Repr, DecidableEq

/-- The signs by their spelling; a longer one goes before its own beginnings. -/
def signs : List (String × Token) :=
  [("<<=", .assign (some .shiftLeft)), (">>=", .assign (some .shiftRight)),
    ("&&", .andThen), ("||", .orElse), ("<<", .op .shiftLeft), (">>", .op .shiftRight),
    ("<=", .op .lessEqual), (">=", .op .greaterEqual), ("==", .op .equal), ("!=", .op .notEqual),
    ("*=", .assign (some .mul)), ("/=", .assign (some .div)), ("%=", .assign (some .rem)),
    ("+=", .assign (some .add)), ("-=", .assign (some .sub)), ("&=", .assign (some .bitAnd)),
    ("^=", .assign (some .bitXor)), ("|=", .assign (some .bitOr)),
    ("*", .op .mul), ("/", .op .div), ("%", .op .rem), ("+", .op .add), ("-", .op .sub),
    ("<", .op .less), (">", .op .greater), ("&", .op .bitAnd), ("^", .op .bitXor),
    ("|", .op .bitOr), ("=", .assign none), ("!", .not), ("~", .bitNot), ("?", .question),
    (":", .colon), ("(", .parenL), (")", .parenR)]

/-- How loosely an operator binds. -/
def Operator.level : Operator → Nat
  | .mul | .div | .rem => 0
  | .add | .sub => 1
  | .shiftLeft | .shiftRight => 2
  | .less | .lessEqual | .greater | .greaterEqual => 3
  | .equal | .notEqual => 4
  | .bitAnd => 5
  | .bitXor => 6
  | .bitOr => 7

/-- One for truth and 0 for falsehood. -/
def truth (b : Bool) : Int := if b then 1 else 0

/-- An operation on the bits of two numbers. -/
def onBits (f : UInt64 → UInt64 → UInt64) (a b : Int) : Int :=
  wrap (f (UInt64.ofInt a) (UInt64.ofInt b)).toNat

/-- What an operator makes of two numbers; nothing is divided by zero. -/
def Operator.apply? (o : Operator) (a b : Int) : Option Int :=
  let shift := (b % 64).toNat
  match o with
  | .mul => some (wrap (a * b))
  | .div => if b = 0 then none else some (wrap (a.tdiv b))
  | .rem => if b = 0 then none else some (a.tmod b)
  | .add => some (wrap (a + b))
  | .sub => some (wrap (a - b))
  | .shiftLeft => some (wrap (a * Nat.pow 2 shift))
  | .shiftRight => some (a.fdiv (Nat.pow 2 shift))
  | .less => some (truth (a < b))
  | .lessEqual => some (truth (a ≤ b))
  | .greater => some (truth (b < a))
  | .greaterEqual => some (truth (b ≤ a))
  | .equal => some (truth (a == b))
  | .notEqual => some (truth (a != b))
  | .bitAnd => some (onBits (· &&& ·) a b)
  | .bitXor => some (onBits (· ^^^ ·) a b)
  | .bitOr => some (onBits (· ||| ·) a b)

/-! ### Reading numbers -/

/-- A character that separates nothing: a blank or an end of a line. -/
def isSpace (c : Char) : Bool := c == ' ' || ('\t' ≤ c && c ≤ '\r')

/-- The value of a digit or letter in numbers of greater bases. -/
def digitValue? (c : Char) : Option Nat :=
  if c.isDigit then some (c.toNat - 48)
  else if 'a' ≤ c && c ≤ 'z' then some (c.toNat - 87)
  else if 'A' ≤ c && c ≤ 'Z' then some (c.toNat - 55)
  else none

/-- A character is a digit of a base. -/
def isDigitOf (base : Nat) (c : Char) : Bool :=
  match digitValue? c with
  | some n => n < base
  | none => false

/-- The number that digits of a base write. -/
def ofDigits (base : Nat) (ds : List Char) : Nat :=
  ds.foldl (fun n c => n * base + (digitValue? c).getD 0) 0

/-- The natural number at the front of a text, written in decimal digits, in octal ones after a
zero, or in hexadecimal ones after a zero and an `x`, and the rest; nothing if there is no digit. -/
def readNatural? (cs : List Char) : Option (Nat × List Char) :=
  let inBase (base : Nat) (cs : List Char) : Nat × List Char :=
    (ofDigits base (cs.takeWhile (isDigitOf base)), cs.dropWhile (isDigitOf base))
  match cs with
  | [] => none
  | '0' :: rest =>
    match rest with
    | x :: d :: more =>
      if (x == 'x' || x == 'X') && isDigitOf 16 d then some (inBase 16 (d :: more))
      else some (inBase 8 cs)
    | _ => some (inBase 8 cs)
  | c :: _ => if c.isDigit then some (inBase 10 cs) else none

/-- The whole number at the front of a text, after spaces and perhaps a sign, and the rest. -/
def readInteger? (cs : List Char) : Option (Int × List Char) :=
  match cs.dropWhile isSpace with
  | '-' :: ds => (readNatural? ds).map fun (n, rest) => (-(n : Int), rest)
  | '+' :: ds => (readNatural? ds).map fun (n, rest) => ((n : Int), rest)
  | ds => (readNatural? ds).map fun (n, rest) => ((n : Int), rest)

/-- A number fits into 64 bits with a sign. -/
def fits (n : Int) : Bool := -Number.integerLimit ≤ n && n < Number.integerLimit

/-- The number that a variable holds; a text of spaces is 0. -/
def numberOf? (cs : List Char) : Option Int :=
  match readInteger? cs with
  | some (n, rest) => if fits n && rest.all isSpace then some n else none
  | none => if cs.all isSpace then some 0 else none

/-- The parts of a term, where `skip` more characters belong to the last one. -/
def tokens : Nat → List Char → List Token
  | _, [] => []
  | skip + 1, _ :: cs => tokens skip cs
  | 0, c :: cs =>
    if c == ' ' || c == '\t' || c == '\n' then tokens 0 cs
    else if isNameStart c then
      let name := c :: cs.takeWhile isNameChar
      .name name :: tokens (name.length - 1) cs
    else
      match readNatural? (c :: cs) with
      | some (n, rest) =>
        .number (min n (Number.integerLimit - 1)) :: tokens (cs.length - rest.length) cs
      | none =>
        match signs.find? fun s => s.1.toList.isPrefixOf (c :: cs) with
        | some (spelling, t) => t :: tokens (spelling.length - 1) cs
        | none => [.bad]

/-! ### Calculating -/

/-- A calculation on what is left of a term. -/
abbrev Calculation := StateT (List Token) Action

/-- The term is no term; `term` is its text. -/
def refuse {α : Type} (term : List Char) (reason : String) : Calculation α :=
  Action.fail (ofText ("arithmetic expression: " ++ reason ++ ": \"") ++ term ++ ['"'])

/-- Take the first part. -/
def next : Calculation (Option Token) :=
  modifyGet fun ts => (ts.head?, ts.tail)

/-- Take the first part if it is the given one. -/
def take (t : Token) : Calculation Bool :=
  modifyGet fun ts => if ts.head? = some t then (true, ts.tail) else (false, ts)

/-- The number of a variable. -/
def valueOf (name : List Char) : Calculation Int := do
  let value := ((← getThe Session).lookup? name).getD []
  match numberOf? value with
  | some n => return n
  | none => Action.fail (ofText "Illegal number: " ++ value)

/-- A number in decimal digits. -/
def text (n : Int) : List Char := if n < 0 then '-' :: digits n.natAbs else digits n.natAbs

/-- What an operator makes of two numbers. -/
def operate (term : List Char) (o : Operator) (a b : Int) : Calculation Int :=
  match o.apply? a b with
  | some n => return n
  | none => refuse term "division by zero"

section
variable (term : List Char)

mutual

/-- A number, a name, a term in parentheses or a sign before one of them. Without `counts` nothing
is looked up or set. -/
def primary (counts : Bool) : Nat → Calculation Int
  | 0 => refuse term "expecting primary"
  | fuel + 1 => do
    match ← next with
    | some (.number n) => return n
    | some (.name cs) => if counts then valueOf cs else return 0
    | some (.op .add) => primary counts fuel
    | some (.op .sub) => return wrap (-(← primary counts fuel))
    | some .not => return truth ((← primary counts fuel) == 0)
    | some .bitNot => return -(← primary counts fuel) - 1
    | some .parenL =>
      let n ← assignment counts fuel
      if ← take .parenR then return n else refuse term "expecting ')'"
    | _ => refuse term "expecting primary"

/-- The operators behind a number that bind more tightly than `level`. -/
def operators (counts : Bool) (level : Nat) (left : Int) : Nat → Calculation Int
  | 0 => return left
  | fuel + 1 => do
    match (← get).head? with
    | some (.op o) =>
      if o.level < level then
        let _ ← next
        let first ← primary counts fuel
        let right ← operators counts o.level first fuel
        let n ← if counts then operate term o left right else pure right
        operators counts level n fuel
      else return left
    | _ => return left

/-- Terms joined by "and". -/
def conjunction (counts : Bool) : Nat → Calculation Int
  | 0 => return 0
  | fuel + 1 => do
    let first ← primary counts fuel
    let a ← operators counts 8 first fuel
    if ← take .andThen then
      let b ← conjunction (counts && a != 0) fuel
      return truth (a != 0 && b != 0)
    else return a

/-- Terms joined by "or". -/
def disjunction (counts : Bool) : Nat → Calculation Int
  | 0 => return 0
  | fuel + 1 => do
    let a ← conjunction counts fuel
    if ← take .orElse then
      let b ← disjunction (counts && a == 0) fuel
      return truth (a != 0 || b != 0)
    else return a

/-- A choice between two terms, or one term. -/
def choice (counts : Bool) : Nat → Calculation Int
  | 0 => return 0
  | fuel + 1 => do
    let a ← disjunction counts fuel
    if ← take .question then
      let b ← assignment (counts && a != 0) fuel
      if ← take .colon then
        let c ← choice (counts && a == 0) fuel
        return if a != 0 then b else c
      else refuse term "expecting ':'"
    else return a

/-- An assignment, or a term without one. -/
def assignment (counts : Bool) : Nat → Calculation Int
  | 0 => return 0
  | fuel + 1 => do
    match ← get with
    | .name cs :: .assign o :: rest =>
      set rest
      let n ← assignment counts fuel
      if !counts then return n
      else
        let n ←
          match o with
          | none => pure n
          | some o => operate term o (← valueOf cs) n
        Action.assign cs (text n)
        return n
    | _ => choice counts fuel

end

end

/-- The value of a term. -/
def eval (term : List Char) : Action Int := do
  let ts := tokens 0 term
  let (n, rest) ← (assignment term true (8 * ts.length + 8)).run ts
  if rest.isEmpty then return n
  else (refuse term "expecting EOF" : Calculation Int).run' []

end CommandChain.Shell.Arithmetic
