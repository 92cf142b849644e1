import CommandChain.Json.Printer
import CommandChain.Text.Quoted

/-!
# Listings of variables

A listing has one line for every variable, cut to 500 characters. An object or array whose text has
more than 250 characters is listed part by part on the lines below, two blanks further in. -/

namespace CommandChain.Listing

/-- The most characters of a value on its line. -/
def lineLimit : Nat := 500

/-- The most characters of an object or array that is not taken apart. -/
def nestThreshold : Nat := 250

/-- A text that is taken apart. -/
def isLong (t : String) : Bool := nestThreshold < t.length

mutual

/-- The lines of a named value. -/
def entry (indent key : String) : Json → List String
  | .obj ms =>
    if isLong (Json.obj ms).text then (indent ++ key ++ " :") :: entries (indent ++ "  ") ms
    else [indent ++ key ++ " : " ++ Text.truncate (Json.obj ms).text lineLimit]
  | .arr vs =>
    if isLong (Json.arr vs).text then (indent ++ key ++ " :") :: items (indent ++ "  ") 0 vs
    else [indent ++ key ++ " : " ++ Text.truncate (Json.arr vs).text lineLimit]
  | .null => [indent ++ key ++ " : " ++ Text.truncate Json.null.display lineLimit]
  | .bool b => [indent ++ key ++ " : " ++ Text.truncate (Json.bool b).display lineLimit]
  | .num n => [indent ++ key ++ " : " ++ Text.truncate (Json.num n).display lineLimit]
  | .str s => [indent ++ key ++ " : " ++ Text.truncate (Json.str s).display lineLimit]

/-- The lines of named values. -/
def entries (indent : String) : List (String × Json) → List String
  | [] => []
  | (key, v) :: ms => entry indent key v ++ entries indent ms

/-- The lines of the items of an array, which are named by their numbers. -/
def items (indent : String) (i : Nat) : List Json → List String
  | [] => []
  | v :: vs => entry indent (toString i) v ++ items indent (i + 1) vs

end

/-- The listing of some variables. -/
def ofMembers (ms : Members Json) : String := String.intercalate "\n" (entries "  " ms)

end CommandChain.Listing
