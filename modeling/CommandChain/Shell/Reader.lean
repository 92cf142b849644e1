import CommandChain.Shell.Source

/-!
# Reading scripts

A script is read command by command. A word is read character by character into a `WordDraft`, which
knows in which quotation marks, braces and parentheses the place stands. A script inside a word is
read like any other, to find its end; the word keeps its text. All readers that call each other are
bounded by `fuel`; `readCommandLine` gives them enough. -/

namespace CommandChain.Shell

/-! ### Words under construction -/

/-- How characters are taken. -/
inductive Mode where
  | base
  | double
  | single
  | arithmetic
deriving Repr, DecidableEq

/-- The marks around a place, back to the last change of the mode by an expansion. -/
structure Frame where
  mode : Mode := .base
  /-- The place stands in double marks, even if single ones or none are open there. -/
  isDouble : Bool := false
  /-- How many parameters in braces are open. -/
  braces : Nat := 0
  /-- How many of them were opened in double marks. -/
  doubleBraces : Nat := 0
  /-- Double marks are open inside the innermost braces. -/
  innerDouble : Bool := false
  parens : Nat := 0
  /-- The frame ends with its braces. -/
  endsWithBraces : Bool := false
deriving Repr

/-- An expansion whose argument is being read. -/
inductive Opening where
  | param (name : List Char) (op : ParamOp) (quoted : Bool)
  | arithmetic (quoted : Bool)
deriving Repr

/-- The piece of an expansion with its argument. -/
def Opening.piece (argument : List Piece) : Opening → Piece
  | .param name op quoted => .param name op (Word.withHome false argument) quoted
  | .arithmetic quoted => .arithmetic argument quoted

/-- The expansion stands in quotation marks. -/
def Opening.isQuoted : Opening → Bool
  | .param _ _ quoted => quoted
  | .arithmetic quoted => quoted

/-- A word under construction. -/
structure WordDraft where
  frame : Frame := {}
  outer : List Frame := []
  /-- The pieces of the innermost expansion, the last first. -/
  pieces : List Piece := []
  /-- The open expansions with the pieces before them. -/
  opened : List (Opening × List Piece) := []
  /-- Quotation marks are open in the innermost expansion. -/
  isQuoted : Bool := false
  hasQuotes : Bool := false
  /-- More expansions were ended than begun: all that follows is left out. -/
  isOver : Bool := false
  /-- The word is a text below a command. -/
  isDocument : Bool := false
  /-- The word ends a text below a command: it has no expansions. -/
  isMark : Bool := false

namespace WordDraft

/-- Add a piece, unless the word is over. -/
def add (d : WordDraft) (p : Piece) : WordDraft :=
  if d.isOver then d else { d with pieces := p :: d.pieces }

/-- Add a character. -/
def put (d : WordDraft) (c : Char) : WordDraft :=
  d.add (.text [c] (d.isDocument || d.frame.mode != .base))

/-- Add a character that was behind a backslash. -/
def putEscaped (d : WordDraft) (c : Char) : WordDraft := d.add (.text [c] true)

/-- Go on in another mode. -/
def inMode (d : WordDraft) (mode : Mode) : WordDraft := { d with frame := { d.frame with mode } }

/-- Pass over a quotation mark. Marks around all arguments and nothing else leave no trace. -/
def mark (d : WordDraft) : WordDraft :=
  if d.isDocument then d
  else
    let d := { d with isQuoted := !d.isQuoted }
    match d.pieces with
    | .param ['@'] .value [] true :: .text [] true :: before =>
      if d.isOver then d else { d with pieces := .param ['@'] .value [] true :: before }
    | _ => d.add (.text [] true)

/-- Pass over a double mark. -/
def doubleMark (d : WordDraft) : WordDraft :=
  if d.frame.braces = 0 then d.mark
  else { d.mark with frame := { d.frame with innerDouble := !d.frame.innerDouble } }

/-- A quotation mark that may end a quotation. -/
def endQuotation (d : WordDraft) (c : Char) : WordDraft :=
  if d.isDocument && d.frame.braces = 0 then d.put c
  else
    let d := { d with hasQuotes := true }
    let d :=
      if d.frame.doubleBraces = 0 then
        { d with frame := { d.frame with mode := .base, isDouble := false } }
      else d
    if c == '"' then d.doubleMark else d.mark

/-- Begin an expansion. -/
def openWith (d : WordDraft) (o : Opening) : WordDraft :=
  { d with pieces := [], opened := (o, d.pieces) :: d.opened, isQuoted := false }

/-- End the innermost expansion. -/
def close (d : WordDraft) : WordDraft :=
  match d.opened with
  | [] => { d with isOver := true }
  | (o, before) :: rest =>
    let pieces := if d.isOver then before else o.piece d.pieces.reverse :: before
    { d with pieces, opened := rest, isQuoted := o.isQuoted }

/-- Go back to the frame around this one. -/
def leaveFrame (d : WordDraft) : WordDraft :=
  match d.outer with
  | [] => d
  | f :: fs => { d with frame := f, outer := fs }

/-- Begin arithmetic. -/
def openArithmetic (d : WordDraft) : WordDraft :=
  let d := d.openWith (.arithmetic d.isQuoted)
  { d with frame := { mode := .arithmetic, isDouble := true }, outer := d.frame :: d.outer }

/-- Begin the text in front of a closing brace. Patterns are read like words of their own. -/
def openBraces (d : WordDraft) (isPattern : Bool) : WordDraft :=
  let f := d.frame
  let mode := if isPattern then .base else if f.mode = .arithmetic then .double else f.mode
  if mode != f.mode || f.innerDouble then
    let isDouble := mode != .base
    { d with
      frame := { mode, isDouble, braces := 1, doubleBraces := if isDouble then 1 else 0,
                 endsWithBraces := true }
      outer := f :: d.outer }
  else
    { d with frame := { f with
        braces := f.braces + 1
        doubleBraces := if f.isDouble then f.doubleBraces + 1 else f.doubleBraces } }

/-- A closing brace: it ends a parameter, if one is open here. -/
def closeBrace (d : WordDraft) : WordDraft :=
  let f := d.frame
  if f.innerDouble || f.braces = 0 then d.put '\x7d'
  else
    let d := d.close
    if f.braces = 1 && f.endsWithBraces then d.leaveFrame
    else { d with frame := { f with braces := f.braces - 1, doubleBraces := f.doubleBraces - 1 } }

/-- What is missing at the end of the text, if anything is. -/
def fault? (d : WordDraft) : Option ScriptFault :=
  if d.frame.mode = .arithmetic then some .openArithmetic
  else if d.frame.mode != .base && !d.isDocument then some .openQuotation
  else if d.frame.braces != 0 then some .openBraces
  else none

/-- The word ends in front of a character. -/
def endsAt (d : WordDraft) (c : Char) : Bool :=
  d.frame.mode = .base && d.frame.braces = 0 && (c == '\n' || isMeta c)

end WordDraft

/-! ### Parameters -/

/-- What follows the front of a parameter. -/
inductive ParamTail where
  | nothing
  | argument
  | pattern
  /-- A text that belongs to the word around the parameter, up to a closing brace. -/
  | loose
deriving Repr, DecidableEq

/-- A parameter behind its dollar sign: its name, what is done to its value, and what follows. -/
structure ParamHead where
  name : List Char
  op : ParamOp
  tail : ParamTail := .argument

/-- Go on behind the front of a parameter. -/
def WordDraft.openParam (d : WordDraft) (head : ParamHead) : WordDraft :=
  let value : Piece := .param head.name head.op [] d.isQuoted
  let opening : Opening := .param head.name head.op d.isQuoted
  match head.tail with
  | .nothing => d.add value
  | .argument => (d.openWith opening).openBraces false
  | .pattern => (d.openWith opening).openBraces true
  | .loose => (d.add value).openBraces false

namespace Reader

/-- No parameter that is known. -/
def unknownParam : ParamHead := ⟨[], .unknown, .argument⟩

/-- The next character of the front of a parameter, where line ends are not counted. -/
def nextUncounted : Reader (Option Char) := do
  let line := (← get).line
  let c ← next
  if c = some '\n' then modify fun s => { s with line } else pure ()
  return c

/-- The operation behind the name of a parameter in braces, given its first character. -/
def readOperation (name : List Char) (c : Option Char) : Reader ParamHead := do
  let (evenEmpty, c) ← if c = some ':' then do pure (true, ← nextUncounted) else pure (false, c)
  match c with
  | some '}' => return { name, op := .value, tail := if evenEmpty then .loose else .nothing }
  | some '-' => return { name, op := .orElse evenEmpty }
  | some '+' => return { name, op := .ifSet evenEmpty }
  | some '?' => return { name, op := .orFail evenEmpty }
  | some '=' => return { name, op := .orAssign evenEmpty }
  | some '#' =>
    if evenEmpty then return { name, op := .unknown }
    else return { name, op := .dropFront (← take '#'), tail := .pattern }
  | some '%' =>
    if evenEmpty then return { name, op := .unknown }
    else return { name, op := .dropBack (← take '%'), tail := .pattern }
  | _ => return { name, op := .unknown }

/-- The rest of a name or number after its first character. -/
def readNameFrom (fuel : Nat) (c : Char) : Reader (List Char) := do
  return c :: (← takeWhile (if c.isDigit then Char.isDigit else isNameChar) fuel)

/-- A parameter in braces that begins with a number sign: the length of another one, or the number
of the arguments. -/
def readLength (fuel : Nat) : Reader ParamHead := do
  match ← nextUncounted with
  | none => readOperation ['#'] none
  | some c =>
    if isNameChar c then
      let name ← readNameFrom fuel c
      let s ← get
      let isLength ← take '\x7d'
      set s
      return if isLength then { name, op := .length } else unknownParam
    else
      let s ← get
      if c != '\x7d' && (← take '\x7d') then
        set s
        return if isSpecial c then { name := [c], op := .length } else unknownParam
      else
        readOperation ['#'] (some c)

/-- A parameter behind an opening brace. -/
def readBraced (fuel : Nat) : Reader ParamHead := do
  let s ← get
  match ← nextUncounted with
  | none => return unknownParam
  | some c =>
    if c == '\x7d' then
      set s
      return unknownParam
    else if isNameChar c then
      let name ← readNameFrom fuel c
      readOperation name (← nextUncounted)
    else if c == '#' then readLength fuel
    else if isSpecial c then readOperation [c] (← nextUncounted)
    else return unknownParam

/-! ### Scripts in words -/

/-- The text up to the closing backquote, without the backslashes before signs; `fuel` bounds its
length. -/
def readBackquoted (isDouble : Bool) : Nat → Reader (List Char)
  | 0 => fail .openBackquotes
  | fuel + 1 => do
    match ← next with
    | none => fail .openBackquotes
    | some c =>
      if c == backquote then return []
      else if c == '\\' then
        match ← nextPlain with
        | none => fail .openBackquotes
        | some e =>
          let rest ← readBackquoted isDouble fuel
          if e == '\\' || e == backquote || e == '$' || (isDouble && e == '"') then return e :: rest
          else return c :: e :: rest
      else return c :: (← readBackquoted isDouble fuel)

/-! ### Signs -/

/-- How a token is read. -/
structure Flags where
  /-- Line ends are passed over. -/
  skipsLines : Bool := false
  hasKeywords : Bool := false
  /-- The word ends a text below a command. -/
  isMark : Bool := false

/-- The flags in front of a command. -/
def Flags.command : Flags := { skipsLines := true, hasKeywords := true }

/-- A sign, if there is one at the front. -/
def readSign? : Reader (Option Token) := do
  let s ← get
  let sign (t : Sign) : Reader (Option Token) := return some (.sign t)
  match ← next with
  | none => sign .finish
  | some '\n' => sign .newline
  | some '&' => if ← take '&' then sign .andThen else sign .ampersand
  | some '|' => if ← take '|' then sign .orElse else sign .pipe
  | some ';' => if ← take ';' then sign .clauseEnd else sign .semicolon
  | some '(' => sign .parenL
  | some ')' => sign .parenR
  | some _ =>
    set s
    return none

/-- Announce a text below the command. -/
def announce : Reader Nat :=
  modifyGet fun s => (s.announced, { s with announced := s.announced + 1 })

/-- A redirection at its sign. -/
def readRedirect (stream : Option Nat) : Reader Token := do
  let kind (default : Nat) (k : RedirectKind) : Token := .redirect (stream.getD default) k false
  match ← next with
  | some '>' =>
    if ← take '>' then return kind 1 .append
    else if ← take '|' then return kind 1 .output
    else if ← take '&' then return kind 1 .duplicate
    else return kind 1 .output
  | _ =>
    if ← take '<' then
      let stripTabs ← take '-'
      return .redirect (stream.getD 0) (.document (← announce)) stripTabs
    else if ← take '&' then return kind 0 .duplicate
    else if ← take '>' then return kind 0 .both
    else return kind 0 .input

/-- The number of a stream in front of a redirection: a digit or nothing. -/
def streamOf? (d : WordDraft) : Option (Option Nat) :=
  if d.hasQuotes then none
  else
    match d.pieces with
    | [] => some none
    | [.text [c] false] => if c.isDigit then some (some (c.toNat - 48)) else none
    | _ => none

/-- An assignment, if a word is one. -/
def assignment? (w : Word) : Option (List Char × Word) :=
  let name := w.takeWhile fun p =>
    match p with
    | .text [c] false => isNameChar c
    | _ => false
  match Word.bare? name, w.drop name.length with
  | some cs, .text ['='] false :: value => if isName cs then some (cs, value) else none
  | _, _ => none

/-- The names that no function may have. -/
def reservedNames : List String :=
  [".", ":", "break", "continue", "eval", "exec", "exit", "export", "readonly", "return", "set",
    "shift", "times", "trap", "unset"]

/-! ### Words, tokens and commands -/

/-- One command behind another, if there is one. -/
def joined (a : Option Command) (b : Command) : Command :=
  match a with
  | none => b
  | some a => .seq a b

/-- A command with redirections. A subshell has one list of them: the last one. -/
def redirected (line : Nat) (a : Command) (rs : List Redirect) : Command :=
  match a, rs with
  | a, [] => a
  | .redirected inner (.subshell b) _, rs => .redirected inner (.subshell b) rs
  | a, rs => .redirected line a rs

/-- A command in a pipe with those behind it. -/
def piped (a : Command) : List Command → Command
  | [] => a
  | b :: bs => .pipe a (piped b bs)

mutual

/-- The pieces of a word, from a place in it on. -/
def readPieces (fuel : Nat) (d : WordDraft) : Reader WordDraft :=
  match fuel with
  | 0 => return d
  | fuel + 1 => do
    let s ← get
    match ← (if d.frame.mode = .single then nextPlain else next) with
    | none => return d
    | some c =>
      if d.endsAt c then
        set s
        return d
      else if d.frame.mode = .single then
        readPieces fuel (if c == '\'' then d.endQuotation c else d.put c)
      else if c == '\\' then
        match ← nextPlain with
        | none => readPieces fuel (d.putEscaped c)
        | some e =>
          let braces := d.frame.braces != 0
          let isSign := e == '\\' || e == backquote || e == '$' || (e == '\x7d' && braces) ||
            (e == '"' && (!d.isDocument || braces))
          let d := if d.frame.isDouble && !isSign then d.putEscaped c else d
          readPieces fuel { d.putEscaped e with hasQuotes := true }
      else if c == '$' then readPieces fuel (← readDollar fuel d)
      else if c == backquote then
        if d.isMark then readPieces fuel { d.put c with hasQuotes := true }
        else readPieces fuel (← readBackquotes fuel d)
      else if c == '\x7d' then readPieces fuel d.closeBrace
      else
        match d.frame.mode with
        | .base =>
          if c == '\'' then readPieces fuel (d.inMode .single).mark
          else if c == '"' then
            readPieces fuel
              { d with frame := { d.frame with mode := .double, isDouble := true } }.doubleMark
          else readPieces fuel (d.put c)
        | .double => readPieces fuel (if c == '"' then d.endQuotation c else d.put c)
        | .arithmetic =>
          if c == '(' then
            readPieces fuel { d.put c with frame := { d.frame with parens := d.frame.parens + 1 } }
          else if c == ')' then
            if d.frame.parens != 0 then
              readPieces fuel
                { d.put c with frame := { d.frame with parens := d.frame.parens - 1 } }
            else if ← take ')' then readPieces fuel d.close.leaveFrame
            else readPieces fuel (d.put c)
          else readPieces fuel (d.put c)
        | .single => return d

/-- What a dollar sign begins. -/
def readDollar (fuel : Nat) (d : WordDraft) : Reader WordDraft :=
  match fuel with
  | 0 => return d
  | fuel + 1 => do
    let s ← get
    let plain : Reader WordDraft := do
      set s
      return d.put '$'
    if d.isMark then plain
    else
      match ← next with
      | none => plain
      | some c =>
        if c == '(' then
          if ← take '(' then return d.openArithmetic else readSubstitution fuel d
        else if c == '\x7b' then
          return d.openParam (← readBraced fuel)
        else if isNameStart c then
          return d.add (.param (← readNameFrom fuel c) .value [] d.isQuoted)
        else if isSpecial c then return d.add (.param [c] .value [] d.isQuoted)
        else plain

/-- A script in parentheses. -/
def readSubstitution (fuel : Nat) (d : WordDraft) : Reader WordDraft :=
  match fuel with
  | 0 => return d
  | fuel + 1 => do
    let start ← get
    set { start with awaited := [] }
    let _ ← readList fuel false true none
    let t ← readToken fuel {}
    if t.isSign .parenR then
      let script ← textSince start
      modify fun s => { s with awaited := start.awaited }
      return d.add (.command script start.line d.isQuoted)
    else unexpected t (some (.sign .parenR))

/-- A script in backquotes, as far as its commands go. -/
def readBackquotes (fuel : Nat) (d : WordDraft) : Reader WordDraft :=
  match fuel with
  | 0 => return d
  | fuel + 1 => do
    let text ← readBackquoted d.frame.isDouble fuel
    let outside ← get
    let inside : Source := { text }
    set inside
    let _ ← readList fuel false true none
    let script ← textSince inside
    set outside
    return d.add (.command script 1 d.isQuoted)

/-- The texts below the commands of a line that has ended. -/
def readDocuments (fuel : Nat) : Reader Unit :=
  match fuel with
  | 0 => return
  | fuel + 1 => do
    let s ← get
    match s.awaited with
    | [] => return
    | a :: rest =>
      let (body, lines, n) := Source.takeDocument a false (Text.fields '\n' s.text)
      let outside : Source :=
        { s with text := ['\n'].intercalate lines, line := s.line + n, awaited := rest }
      let word ←
        if a.isPlain then pure [Piece.text body true]
        else do
          set { text := body, line := s.line : Source }
          let frame : Frame := { mode := .double, isDouble := true }
          let d ← readPieces fuel { frame, isQuoted := true, isDocument := true }
          match d.fault? with
          | some f => do
            set outside
            fail f
          | none => pure d.pieces.reverse
      set { outside with documents := (a.number, word) :: outside.documents }
      readDocuments fuel

/-- A word or a redirection. -/
def readWord (fuel : Nat) (isMark : Bool) : Reader Token :=
  match fuel with
  | 0 => return .sign .finish
  | fuel + 1 => do
    let d ← readPieces fuel { isMark }
    match d.fault? with
    | some f => fail f
    | none =>
      let s ← get
      let c ← next
      set s
      match streamOf? d with
      | some stream =>
        if c = some '<' || c = some '>' then readRedirect stream
        else return .word d.pieces.reverse false
      | none => return .word d.pieces.reverse d.hasQuotes

/-- The next token. -/
def readToken (fuel : Nat) (flags : Flags) : Reader Token :=
  match fuel with
  | 0 => return .sign .finish
  | fuel + 1 => do
    let s ← get
    let t ←
      match s.pushed with
      | some t => do
        set { s with pushed := none }
        pure t
      | none => do
        let (text, line) := Source.skipBlanks s.text s.line
        set { s with text, line, before := text }
        match ← readSign? with
        | some t => pure t
        | none => readWord fuel flags.isMark
    if flags.skipsLines && t.isSign .newline then
      readDocuments fuel
      readToken fuel flags
    else return if flags.hasKeywords then t.withKeyword else t

/-- Commands up to a token that ends a list, or up to the end of the line. A list inside another
command has at least one command, unless it may be empty. -/
def readList (fuel : Nat) (isLine mayEnd : Bool) (before : Option Command) :
    Reader (Option Command) :=
  match fuel with
  | 0 => return before
  | fuel + 1 => do
    let t ← readToken fuel { skipsLines := !isLine, hasKeywords := true }
    if t.isSign .newline then
      readDocuments fuel
      return before
    else if t.isSign .finish then
      readDocuments fuel
      push t
      return before
    else
      push t
      if mayEnd && !isLine && t.endsList then return before
      else
        let a ← readAndOr fuel
        let t ← readToken fuel {}
        let all := joined before (if t.isSign .ampersand then .background a else a)
        match t with
        | .sign .finish =>
          readDocuments fuel
          push t
          return some all
        | .sign .newline =>
          push t
          readList fuel isLine true (some all)
        | .sign .ampersand | .sign .semicolon => readList fuel isLine true (some all)
        | t =>
          if isLine then unexpected t none
          else
            push t
            return some all

/-- Pipelines joined by conditions. -/
def readAndOr (fuel : Nat) : Reader Command :=
  match fuel with
  | 0 => return .skip
  | fuel + 1 => do readMoreAndOr fuel (← readPipeline fuel {})

/-- What is joined to a command by conditions. -/
def readMoreAndOr (fuel : Nat) (left : Command) : Reader Command :=
  match fuel with
  | 0 => return left
  | fuel + 1 => do
    let t ← readToken fuel {}
    if t.isSign .andThen then readMoreAndOr fuel (.andThen left (← readPipeline fuel .command))
    else if t.isSign .orElse then readMoreAndOr fuel (.orElse left (← readPipeline fuel .command))
    else
      push t
      return left

/-- Commands joined by pipes, perhaps after a negation. -/
def readPipeline (fuel : Nat) (flags : Flags) : Reader Command :=
  match fuel with
  | 0 => return .skip
  | fuel + 1 => do
    let t ← readToken fuel flags
    if t.isKeyword .bang then
      let a ← readCommand fuel { hasKeywords := true }
      return .negate (piped a (← readPipes fuel))
    else
      push t
      let a ← readCommand fuel {}
      return piped a (← readPipes fuel)

/-- The commands behind the pipes. -/
def readPipes (fuel : Nat) : Reader (List Command) :=
  match fuel with
  | 0 => return []
  | fuel + 1 => do
    let t ← readToken fuel {}
    if t.isSign .pipe then
      let a ← readCommand fuel .command
      return a :: (← readPipes fuel)
    else
      push t
      return []

/-- A command with the redirections behind it. -/
def readCommand (fuel : Nat) (flags : Flags) : Reader Command :=
  match fuel with
  | 0 => return .skip
  | fuel + 1 => do
    let line := (← get).line
    let t ← readToken fuel flags
    match t with
    | .keyword .ifBegin => withRedirects fuel line (← readChoice fuel)
    | .keyword .whileHolds => withRedirects fuel line (← readRepeat fuel true)
    | .keyword .untilHolds => withRedirects fuel line (← readRepeat fuel false)
    | .keyword .forEach => withRedirects fuel line (← readForEach fuel line)
    | .keyword .caseOf => withRedirects fuel line (← readSelect fuel line)
    | .sign .parenL =>
      let a ← readList fuel false false none
      expect fuel (.sign .parenR)
      withRedirects fuel line (.subshell (a.getD .skip))
    | .keyword .braceL =>
      let a ← readList fuel false false none
      expect fuel (.keyword .braceR)
      withRedirects fuel line (a.getD .skip)
    | .word .. | .redirect .. =>
      push t
      readSimple fuel (← get).line {}
    | t => unexpected t none

/-- Pass over a token that has to stand here. -/
def expect (fuel : Nat) (token : Token) : Reader Unit :=
  match fuel with
  | 0 => return
  | fuel + 1 => do
    let t ← readToken fuel {}
    if t.name == token.name then return else unexpected t (some token)

/-- The redirections behind a command. -/
def withRedirects (fuel line : Nat) (a : Command) : Reader Command :=
  match fuel with
  | 0 => return a
  | fuel + 1 => do
    let rs ← readRedirects fuel { hasKeywords := true }
    return redirected line a rs

/-- Redirections one after the other. What follows them is no reserved word. -/
def readRedirects (fuel : Nat) (flags : Flags) : Reader (List Redirect) :=
  match fuel with
  | 0 => return []
  | fuel + 1 => do
    let t ← readToken fuel flags
    match t with
    | .redirect stream kind stripTabs =>
      let r ← readTarget fuel stream kind stripTabs
      return r :: (← readRedirects fuel {})
    | t =>
      push t
      return []

/-- The target of a redirection. -/
def readTarget (fuel stream : Nat) (kind : RedirectKind) (stripTabs : Bool) : Reader Redirect :=
  match fuel with
  | 0 => return ⟨stream, kind, []⟩
  | fuel + 1 => do
    let isMark :=
      match kind with
      | .document _ => true
      | _ => false
    match ← readToken fuel { isMark } with
    | .word w hasQuotes =>
      match kind with
      | .document number =>
        let a : Awaited := ⟨number, Word.plainText w, hasQuotes, stripTabs⟩
        modify fun s => { s with awaited := s.awaited ++ [a] }
      | _ => pure ()
      return ⟨stream, kind, w⟩
    | t => unexpected t none

/-- A choice behind its first word, up to its last one. -/
def readChoice (fuel : Nat) : Reader Command :=
  match fuel with
  | 0 => return .skip
  | fuel + 1 => do
    let cond ← readList fuel false false none
    expect fuel (.keyword .thenDo)
    let yes ← readList fuel false false none
    let choose (no : Command) : Command := .choose (cond.getD .skip) (yes.getD .skip) no
    let t ← readToken fuel {}
    if t.isKeyword .elseIf then return choose (← readChoice fuel)
    else if t.isKeyword .otherwise then
      let no ← readList fuel false false none
      expect fuel (.keyword .ifEnd)
      return choose (no.getD .skip)
    else
      push t
      expect fuel (.keyword .ifEnd)
      return choose .skip

/-- The body of a loop between its reserved words. -/
def readBody (fuel : Nat) (flags : Flags) : Reader Command :=
  match fuel with
  | 0 => return .skip
  | fuel + 1 => do
    let t ← readToken fuel flags
    if t.isKeyword .doBegin then
      let a ← readList fuel false false none
      expect fuel (.keyword .doEnd)
      return a.getD .skip
    else unexpected t (some (.keyword .doBegin))

/-- A loop with a condition behind its first word. -/
def readRepeat (fuel : Nat) (holds : Bool) : Reader Command :=
  match fuel with
  | 0 => return .skip
  | fuel + 1 => do
    let cond ← readList fuel false false none
    return .repeatWhile holds (cond.getD .skip) (← readBody fuel {})

/-- A loop over words behind its first word. -/
def readForEach (fuel line : Nat) : Reader Command :=
  match fuel with
  | 0 => return .skip
  | fuel + 1 => do
    match ← readToken fuel {} with
    | .word w false =>
      match Word.bare? w with
      | none => fail .loopVariable
      | some name =>
        if !isName name then fail .loopVariable
        else
          let t ← readToken fuel .command
          if t.isKeyword .among then
            let words ← readWords fuel
            let t ← readToken fuel {}
            if t.isSign .newline || t.isSign .semicolon then
              return .forEach line name (some words) (← readBody fuel .command)
            else unexpected t none
          else
            if !t.isSign .semicolon then push t
            return .forEach line name none (← readBody fuel .command)
    | _ => fail .loopVariable

/-- Words one after the other. -/
def readWords (fuel : Nat) : Reader (List Word) :=
  match fuel with
  | 0 => return []
  | fuel + 1 => do
    match ← readToken fuel {} with
    | .word w _ => return w :: (← readWords fuel)
    | t =>
      push t
      return []

/-- A choice by patterns behind its first word. -/
def readSelect (fuel line : Nat) : Reader Command :=
  match fuel with
  | 0 => return .skip
  | fuel + 1 => do
    match ← readToken fuel {} with
    | .word w _ =>
      let t ← readToken fuel .command
      if t.isKeyword .among then return .select line w (← readClauses fuel)
      else unexpected t (some (.keyword .among))
    | t => unexpected t (some (.word [] false))

/-- The clauses of a choice by patterns, and the word behind them. -/
def readClauses (fuel : Nat) : Reader (List (List Word × Command)) :=
  match fuel with
  | 0 => return []
  | fuel + 1 => do
    let t ← readToken fuel .command
    if t.isKeyword .caseEnd then return []
    else
      let t ← if t.isSign .parenL then readToken fuel {} else pure t
      let patterns ← readPatterns fuel t
      expect fuel (.sign .parenR)
      let body ← readList fuel false true none
      let t ← readToken fuel .command
      if t.isKeyword .caseEnd then return [(patterns, body.getD .skip)]
      else if t.isSign .clauseEnd then
        return (patterns, body.getD .skip) :: (← readClauses fuel)
      else unexpected t (some (.sign .clauseEnd))

/-- The patterns of a clause, given the token of the first. -/
def readPatterns (fuel : Nat) (t : Token) : Reader (List Word) :=
  match fuel with
  | 0 => return []
  | fuel + 1 => do
    let w :=
      match t with
      | .word w _ => w
      | .keyword k => Word.ofText k.text.toList
      | _ => []
    let next ← readToken fuel {}
    if next.isSign .pipe then return w :: (← readPatterns fuel (← readToken fuel {}))
    else
      push next
      return [w]

/-- The parts of a simple command, of which some were read. A name with parentheses behind it is the
name of a function. -/
def readSimple (fuel line : Nat) (c : Simple) : Reader Command :=
  match fuel with
  | 0 => return .simple line c
  | fuel + 1 => do
    let t ← readToken fuel {}
    match t with
    | .word w _ =>
      match (if c.words.isEmpty then assignment? w else none) with
      | some a => readSimple fuel line { c with assignments := c.assignments ++ [a] }
      | none => readSimple fuel line { c with words := c.words ++ [w] }
    | .redirect stream kind stripTabs =>
      let r ← readTarget fuel stream kind stripTabs
      readSimple fuel line { c with redirects := c.redirects ++ [r] }
    | .sign .parenL =>
      match c with
      | ⟨[], [w], []⟩ => readFunction fuel w
      | c =>
        push t
        return .simple line c
    | t =>
      push t
      return .simple line c

/-- A function behind the parenthesis after its name. -/
def readFunction (fuel : Nat) (w : Word) : Reader Command :=
  match fuel with
  | 0 => return .skip
  | fuel + 1 => do
    expect fuel (.sign .parenR)
    let name := (Word.bare? w).getD []
    if isName name && !reservedNames.contains (String.ofList name) then
      let start ← get
      let _ ← readCommand fuel .command
      return .define name (← textSince start) start.line
    else fail .functionName

end

/-- The commands of the next line of a script; nothing at its end. -/
def readCommandLine : Reader (Option (Option Command)) := do
  modify fun s => { s with pushed := none, awaited := [] }
  let a ← readList (16 * (← get).text.length + 64) true true none
  return match a, (← get).pushed with
    | none, some _ => none
    | a, _ => some a

end Reader

end CommandChain.Shell
