import CommandChain.Step.Capability

/-!
# Sample capabilities

A few functions to try chains out with. They show every way in which a call may end. -/

namespace CommandChain.Samples

/-- The signed whole number of a value. -/
def int? : Json → Option Int
  | .num n => n.toInt64?
  | _ => none

/-- The sum of the arguments that are whole numbers. -/
def add (args : List Json) : CapabilityOutput :=
  .ok (.num (.int ((args.filterMap int?).foldl (· + ·) 0)))

/-- The arguments as a list. -/
def args (vs : List Json) : CapabilityOutput := .ok (.arr vs)

/-- The first argument. -/
def first (vs : List Json) : CapabilityOutput := { result := vs.head? }

/-- A failure with the first argument as its message. -/
def fail (vs : List Json) : CapabilityOutput :=
  match vs with
  | .str s :: _ => .failed s
  | _ => .failed ""

/-- A failure that still has a result. -/
def gaveUp (vs : List Json) : CapabilityOutput :=
  { result := vs.head?, success := some false, message := some "gave up" }

/-- The first argument in capitals. -/
def upper (vs : List Json) : CapabilityOutput :=
  match vs with
  | .str s :: _ => .ok (.str (String.ofList (s.toList.map Char.toUpper)))
  | _ => .failed "upper expects a string"

/-- Minus the first argument. -/
def neg (vs : List Json) : CapabilityOutput :=
  .ok (.num (.int (-((vs.head?.bind int?).getD 0))))

/-- All samples by name. -/
def registry : Registry :=
  [("add", .function add), ("args", .function args), ("fail", .function fail),
    ("first", .function first), ("noop", .function fun _ => {}), ("partial", .function gaveUp),
    ("silent", .function fun _ => { success := some false }),
    ("text", .group [("deep", .group [("ops", .group [("neg", .function neg)])]),
      ("upper", .function upper)])]

end CommandChain.Samples
