import CommandChain.Shell.Command

/-!
# Tokens of a script

Words, reserved words, the signs between commands, and the signs that redirect a stream. A script
that is not well formed is refused with a `ScriptFault`, which names the token that does not fit. -/

namespace CommandChain.Shell

/-- The reserved words. -/
inductive Keyword where
  | bang | caseOf | doBegin | doEnd | elseIf | otherwise | caseEnd | ifEnd | forEach | ifBegin
  | among | thenDo | untilHolds | whileHolds | braceL | braceR
deriving Repr, DecidableEq

/-- The spelling of a reserved word. -/
def Keyword.text : Keyword → String
  | .bang => "!"
  | .caseOf => "case"
  | .doBegin => "do"
  | .doEnd => "done"
  | .elseIf => "elif"
  | .otherwise => "else"
  | .caseEnd => "esac"
  | .ifEnd => "fi"
  | .forEach => "for"
  | .ifBegin => "if"
  | .among => "in"
  | .thenDo => "then"
  | .untilHolds => "until"
  | .whileHolds => "while"
  | .braceL => "\x7b"
  | .braceR => "\x7d"

/-- All reserved words. -/
def Keyword.all : List Keyword :=
  [.bang, .caseOf, .doBegin, .doEnd, .elseIf, .otherwise, .caseEnd, .ifEnd, .forEach,
    .ifBegin, .among, .thenDo, .untilHolds, .whileHolds, .braceL, .braceR]

/-- The signs between commands. -/
inductive Sign where
  | finish | newline | semicolon | ampersand | andThen | orElse | pipe | parenL | parenR | clauseEnd
deriving Repr, DecidableEq

/-- A sign as a complaint names it. -/
def Sign.name : Sign → String
  | .finish => "end of file"
  | .newline => "newline"
  | .semicolon => "\";\""
  | .ampersand => "\"&\""
  | .andThen => "\"&&\""
  | .orElse => "\"||\""
  | .pipe => "\"|\""
  | .parenL => "\"(\""
  | .parenR => "\")\""
  | .clauseEnd => "\";;\""

/-- A token. -/
inductive Token where
  | sign (s : Sign)
  | keyword (k : Keyword)
  /-- A word, and whether there is a quotation mark in it. -/
  | word (w : Word) (hasQuotes : Bool)
  /-- A redirection, whose target is the next word. The text below a command may have its tabulators
  stripped. -/
  | redirect (stream : Nat) (kind : RedirectKind) (stripTabs : Bool)
deriving Repr

namespace Token

/-- The token is a sign. -/
def isSign (s : Sign) : Token → Bool
  | .sign t => s = t
  | _ => false

/-- The token is a reserved word. -/
def isKeyword (k : Keyword) : Token → Bool
  | .keyword l => k = l
  | _ => false

/-- A token as a complaint names it. -/
def name : Token → String
  | .sign s => s.name
  | .keyword k => "\"" ++ k.text ++ "\""
  | .word .. => "word"
  | .redirect .. => "redirection"

/-- The tokens that end a list of commands. -/
def endsList : Token → Bool
  | .sign s => s = .finish || s = .parenR || s = .clauseEnd
  | .keyword k =>
    [Keyword.doBegin, .doEnd, .elseIf, .otherwise, .caseEnd, .ifEnd, .thenDo, .braceR].contains k
  | _ => false

/-- A word as a reserved word, if it is one. -/
def withKeyword : Token → Token
  | .word w false =>
    match Word.bare? w with
    | some cs =>
      match Keyword.all.find? fun k => k.text.toList == cs with
      | some k => .keyword k
      | none => .word w false
    | none => .word w false
  | t => t

end Token

/-- Why a script is not well formed. -/
inductive ScriptFault where
  | openQuotation
  | openBackquotes
  | openBraces
  | openArithmetic
  /-- A token that does not fit, and what is expected in its place. -/
  | unexpected (found : String) (expected : Option String)
  | loopVariable
  | functionName
deriving Repr, DecidableEq

/-- The wording of a fault. -/
def ScriptFault.message : ScriptFault → String
  | .openQuotation => "Unterminated quoted string"
  | .openBackquotes => "EOF in backquote substitution"
  | .openBraces => "Missing '\x7d'"
  | .openArithmetic => "Missing '))'"
  | .unexpected found none => found ++ " unexpected"
  | .unexpected found (some expected) => found ++ " unexpected (expecting " ++ expected ++ ")"
  | .loopVariable => "Bad for loop variable"
  | .functionName => "Bad function name"

end CommandChain.Shell
