import CommandChain.Text.Split

/-!
# Quotation marks around a text

A text is quoted when it begins and ends with the same quotation mark. `quote` wraps a text in
double quotes and puts a backslash before each double quote and backslash. -/

namespace CommandChain.Text

/-- The text between one pair of equal quotation marks at its ends, if there is one. -/
def unquote? : List Char → Option (List Char)
  | [] => none
  | q :: t => if isQuote q && t.getLast? == some q then some t.dropLast else none

/-- The text begins and ends with the same quotation mark. -/
def isQuoted (t : String) : Bool := (unquote? t.toList).isSome

/-- The text without one pair of quotation marks, or as it is. -/
def unquote (t : List Char) : List Char := (unquote? t).getD t

/-- `unquote` on strings. -/
def unquoteText (t : String) : String := String.ofList (unquote t.toList)

/-- A character as it stands between double quotes. -/
def quoteChar (c : Char) : List Char := if c == '"' || c == '\\' then ['\\', c] else [c]

/-- The text in double quotes. -/
def quote (t : List Char) : List Char := '"' :: (t.flatMap quoteChar ++ ['"'])

/-- `quote` on strings. -/
def quoteText (t : String) : String := String.ofList (quote t.toList)

/-- The text cut to `max` characters, with three dots where something was cut off. -/
def truncate (t : String) (max : Nat) : String :=
  let cs := t.toList
  if max < cs.length then String.ofList (cs.take max ++ ['.', '.', '.']) else t

end CommandChain.Text
