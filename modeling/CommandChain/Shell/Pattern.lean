import CommandChain.Files

/-!
# Patterns

A pattern is a row of atoms: a star for any text, a question mark for any character, a bracket for
one character of a set, and every other character for itself. It is written with signs, characters
that are active or stand for themselves; an active backslash makes the next one stand for itself. -/

namespace CommandChain.Shell

/-- A part of a pattern. -/
inductive Atom where
  | anything
  | one
  | set (negated : Bool) (ranges : List (Char × Char))
  | char (c : Char)
deriving Repr, DecidableEq

/-- A character, and whether it may have a meaning in a pattern. -/
abbrev PatternSign := Char × Bool

namespace Pattern

/-- The named classes of a set, as ranges. -/
def classes : List (String × List (Char × Char)) :=
  [("alnum", [('0', '9'), ('A', 'Z'), ('a', 'z')]), ("alpha", [('A', 'Z'), ('a', 'z')]),
    ("blank", [('\t', '\t'), (' ', ' ')]), ("cntrl", [('\x00', '\x1f'), ('\x7f', '\x7f')]),
    ("digit", [('0', '9')]), ("graph", [('!', '~')]), ("lower", [('a', 'z')]),
    ("print", [(' ', '~')]),
    ("punct", [('!', '/'), (':', '@'), ('[', Char.ofNat 0x60), ('\x7b', '~')]),
    ("space", [('\t', '\r'), (' ', ' ')]), ("upper", [('A', 'Z')]),
    ("xdigit", [('0', '9'), ('A', 'F'), ('a', 'f')])]

/-- A named class behind the bracket and the colon that open it, and the number of signs it
takes. -/
def class? (ss : List PatternSign) : Option (List (Char × Char) × Nat) :=
  let name := (ss.map (·.1)).takeWhile Char.isAlpha
  match (ss.drop name.length).map (·.1) with
  | ':' :: ']' :: _ => (classes.lookup (String.ofList name)).map (·, name.length + 2)
  | _ => none

/-- The ranges between brackets, where `skip` more signs belong to the last one, and the number of
signs up to the closing bracket; a bracket at the front does not close. -/
def ranges? (isFirst : Bool) : Nat → List PatternSign → Option (List (Char × Char) × Nat)
  | _, [] => none
  | skip + 1, _ :: ss => (ranges? false skip ss).map fun (rs, n) => (rs, n + 1)
  | 0, (c, active) :: ss =>
    let more (rs : List (Char × Char)) (rest : Option (List (Char × Char) × Nat)) :=
      rest.map fun (rs', n) => (rs ++ rs', n + 1)
    let single := more [(c, c)]
    if c == ']' && !isFirst then some ([], 1)
    else if c == '\\' && active then
      match ss with
      | (d, _) :: _ => more [(d, d)] (ranges? false 1 ss)
      | [] => none
    else
      match ss with
      | (':', _) :: rest =>
        match (if c == '[' then class? rest else none) with
        | some (rs, n) => more rs (ranges? false (n + 1) ss)
        | none => single (ranges? false 0 ss)
      | ('-', true) :: (d, _) :: _ =>
        if d == ']' then single (ranges? false 0 ss) else more [(c, d)] (ranges? false 2 ss)
      | _ => single (ranges? false 0 ss)

/-- The set behind an opening bracket, and how many signs it takes. -/
def set? (ss : List PatternSign) : Option (Atom × Nat) :=
  match ss with
  | ('!', true) :: rest => (ranges? true 0 rest).map fun (rs, n) => (.set true rs, n + 1)
  | _ => (ranges? true 0 ss).map fun (rs, n) => (.set false rs, n)

/-- The atoms of a pattern, where `skip` more signs belong to the last atom. -/
def atoms : Nat → List PatternSign → List Atom
  | _, [] => []
  | skip + 1, _ :: ss => atoms skip ss
  | 0, (c, active) :: ss =>
    if !active then .char c :: atoms 0 ss
    else if c == '*' then .anything :: atoms 0 ss
    else if c == '?' then .one :: atoms 0 ss
    else if c == '[' then
      match set? ss with
      | some (a, n) => a :: atoms n ss
      | none => .char c :: atoms 0 ss
    else if c == '\\' then
      match ss with
      | (d, _) :: _ => .char d :: atoms 1 ss
      | [] => [.char c]
    else .char c :: atoms 0 ss

/-- All ends of a text, the longest first. -/
def tails : List Char → List (List Char)
  | [] => [[]]
  | c :: cs => (c :: cs) :: tails cs

/-- A text has the form of some atoms. -/
def fits : List Atom → List Char → Bool
  | [], cs => cs.isEmpty
  | .anything :: as, cs => (tails cs).any (fits as)
  | .one :: as, cs =>
    match cs with
    | [] => false
    | _ :: cs => fits as cs
  | .set negated rs :: as, cs =>
    match cs with
    | [] => false
    | c :: cs => (rs.any fun r => r.1 ≤ c && c ≤ r.2) != negated && fits as cs
  | .char a :: as, cs =>
    match cs with
    | [] => false
    | c :: cs => a == c && fits as cs

/-- How long the front of a text is that has the form of a pattern. -/
def frontLength? (longest : Bool) (as : List Atom) (cs : List Char) : Option Nat :=
  let cuts := List.range (cs.length + 1)
  (if longest then cuts.reverse else cuts).find? fun n => fits as (cs.take n)

/-- How much of a text is in front of the back that has the form of a pattern. -/
def backStart? (longest : Bool) (as : List Atom) (cs : List Char) : Option Nat :=
  let cuts := List.range (cs.length + 1)
  (if longest then cuts else cuts.reverse).find? fun n => fits as (cs.drop n)

/-! ### Files -/

/-- A sign that makes a pattern of a text. -/
def isActive (s : PatternSign) : Bool := s.2 && (s.1 == '*' || s.1 == '?' || s.1 == '[')

/-- The text of a pattern in which no sign has a meaning. -/
def plain : List Atom → List Char
  | [] => []
  | .char c :: as => c :: plain as
  | _ :: as => plain as

/-- The parts of a pattern between slashes. -/
def components : List PatternSign → List (List PatternSign)
  | [] => [[]]
  | s :: ss =>
    match components ss with
    | [] => [[s]]
    | p :: ps => if s.1 == '/' then [] :: p :: ps else (s :: p) :: ps

end Pattern

end CommandChain.Shell
