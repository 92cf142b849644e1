import CommandChain.Json.Printer
import CommandChain.Json.Reader
import CommandChain.Text.Quoted

/-!
# The store of variables

A run keeps its variables in a store. A variable is named by a path of segments with dots between
them, which descends through objects and, when reading, through arrays. `lookup` reads a path and
`set` writes one, making objects of whatever stands in the way. What is written passes `coerce`:
strings are trimmed and decoded as JSON if they can be. -/

namespace CommandChain

/-! ### Values on their way into the store -/

namespace Json

mutual

/-- The value with every whole double of at most 53 bits as a whole number. -/
def wholeNumbers : Json → Json
  | .num (.float x) => ofDouble x
  | .num (.int i) => .num (.int i)
  | .arr items => .arr (wholeItems items)
  | .obj ms => .obj (wholeMembers ms)
  | .null => .null
  | .bool b => .bool b
  | .str s => .str s

/-- `wholeNumbers` of every item. -/
def wholeItems : List Json → List Json
  | [] => []
  | v :: vs => wholeNumbers v :: wholeItems vs

/-- `wholeNumbers` of every member. -/
def wholeMembers : List (String × Json) → List (String × Json)
  | [] => []
  | (k, v) :: ms => (k, wholeNumbers v) :: wholeMembers ms

end


/-- What is stored for a value: the value that a string writes in JSON, or else the trimmed string;
anything but a string as it is. -/
def coerce : Json → Json
  | .str s =>
    let t := Text.trim s.toList
    match parseChars? t with
    | some v => v.wholeNumbers
    | none => .str (String.ofList t)
  | v => v

/-! ### Paths inside a value -/

/-- The number that a segment writes in decimal digits, perhaps after a plus sign. -/
def index? (segment : String) : Option Nat :=
  let ds :=
    match segment.toList with
    | '+' :: cs => cs
    | cs => cs
  if !ds.isEmpty && ds.all Char.isDigit then some (Decimal.ofDigits ds) else none

/-- The part of a value that one segment names: a member of an object or an item of an array. -/
def child? (v : Json) (segment : String) : Option Json :=
  match v with
  | .obj ms => Members.get? segment ms
  | .arr items => (index? segment).bind fun i => items[i]?
  | _ => none

/-- The part of a value that some segments lead to. -/
def descend? (v : Json) : List String → Option Json
  | [] => some v
  | s :: path => (v.child? s).bind fun w => w.descend? path

end Json

/-- Members with a value written at the path `segment :: path`. Objects on the way are kept, and
anything else on the way gives place to an object. -/
def Members.write (segment : String) : List String → Json → Members Json → Members Json
  | [], v, ms => Members.insert segment v ms
  | s :: path, v, ms =>
    let inner := ((Members.get? segment ms).map Json.members).getD []
    Members.insert segment (.obj (Members.write s path v inner)) ms

/-! ### The store -/

/-- The variables of a run. -/
structure Store where
  vars : Members Json
deriving Inhabited

namespace Store

/-- The first segment of a path. -/
def root (path : String) : String := ((Text.fieldsText '.' path).head?).getD ""

/-- The value at a path. -/
def lookup (s : Store) (path : String) : Option Json :=
  match Text.fieldsText '.' path with
  | [] => none
  | k :: rest => (Members.get? k s.vars).bind fun v => v.descend? rest

/-- The value at a path, or 0. -/
def get (s : Store) (path : String) : Json := (s.lookup path).getD .zero

/-- There is a variable of exactly this name, dots and all. -/
def contains (s : Store) (name : String) : Bool := Members.contains name s.vars

/-- The value that an input token stands for: a quoted token is JSON text, or else the text itself;
any other token is a path. -/
def literal (s : Store) (token : String) : Json :=
  match Text.unquote? token.toList with
  | some inner => (Json.parseChars? inner).getD (.str (String.ofList inner))
  | none => s.get token

/-- Bind a variable of exactly this name to a value as it is. -/
def insert (s : Store) (name : String) (v : Json) : Store := ⟨Members.insert name v s.vars⟩

/-- Write a value at a path. -/
def set (s : Store) (path : String) (v : Json) : Store :=
  match Text.fieldsText '.' path with
  | [] => s
  | k :: rest => ⟨Members.write k rest v.coerce s.vars⟩

/-! ### The error signal -/

/-- The variable that stops a run once it is true. -/
def errorFlag : String := "_error"

/-- The variable that says why. -/
def errorMessage : String := "_error_message"

/-- The error flag is up. -/
def errorRaised (s : Store) : Bool := ((s.lookup errorFlag).map Json.isTruthy).getD false

/-- The message beside the error flag. Null, an empty string and a zero are no message. -/
def raisedMessage? (s : Store) : Option String :=
  match s.lookup errorMessage with
  | none | some .null => none
  | some (.str t) => if t.isEmpty then none else some t
  | some (.num n) => if n.toDouble == 0.0 then none else some (Json.num n).text
  | some v => some v.text

end Store

end CommandChain
