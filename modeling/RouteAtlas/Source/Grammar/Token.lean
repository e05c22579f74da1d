import RouteAtlas.Source.Language
import RouteAtlas.Source.Node

/-!
# Reading tokens

A reader walks over the characters of a source and builds nodes. A token absorbs the gap of white
space and comments before it; the reader stands right behind the last token, so that the place
where a statement ends without a semicolon can be told. A reader that fails leaves no trace, so
alternatives are tried in order.
-/

namespace RouteAtlas.Source.Grammar

open Node

/-- What is left to read, its byte offset, and where the last token ended. -/
structure Cursor where
  rest : List Char
  pos : Nat
  last : Nat
  deriving Repr

abbrev Read := StateT Cursor Option

abbrev Rule := Read (List Node)

/-! ## Gaps -/

variable (c : Char)

def isGapChar : Bool :=
  Text.isBlank c || c == '\uFEFF' || c == '\u2060' || c == '\u200b'

def isLineEnd : Bool := c == '\n' || c == '\r' || c == '\u2028' || c == '\u2029'

/-- Where a reader of a gap stands. -/
inductive GapState where
  /-- Between comments. -/
  | plain
  /-- Inside a comment that ends with its line. -/
  | line
  /-- Inside a comment that ends with a star and a slash; whether a star was just read. -/
  | block (star : Bool)

/-- The rest behind a gap, and its offset. -/
def gapFrom : GapState → List Char → Nat → List Char × Nat
  | _, [], pos => ([], pos)
  | .plain, '/' :: '/' :: cs, pos => gapFrom .line cs (pos + 2)
  | .plain, '/' :: '*' :: cs, pos => gapFrom (.block false) cs (pos + 2)
  | .plain, c :: cs, pos =>
    if isGapChar c then gapFrom .plain cs (pos + c.utf8Size) else (c :: cs, pos)
  | .line, c :: cs, pos =>
    if isLineEnd c then gapFrom .plain cs (pos + c.utf8Size)
    else gapFrom .line cs (pos + c.utf8Size)
  | .block star, c :: cs, pos =>
    if star && c == '/' then gapFrom .plain cs (pos + 1)
    else gapFrom (.block (c == '*')) cs (pos + c.utf8Size)

/-- The comments of a gap, as byte ranges in order; `start` is the start of the comment being
read. -/
def commentsFrom : GapState → List Char → (start pos : Nat) → List (Nat × Nat)
  | .plain, [], _, _ => []
  | _, [], start, pos => [(start, pos)]
  | .plain, '/' :: '/' :: cs, _, pos => commentsFrom .line cs pos (pos + 2)
  | .plain, '/' :: '*' :: cs, _, pos => commentsFrom (.block false) cs pos (pos + 2)
  | .plain, c :: cs, start, pos => commentsFrom .plain cs start (pos + c.utf8Size)
  | .line, c :: cs, start, pos =>
    if isLineEnd c then (start, pos) :: commentsFrom .plain cs start (pos + c.utf8Size)
    else commentsFrom .line cs start (pos + c.utf8Size)
  | .block star, c :: cs, start, pos =>
    if star && c == '/' then (start, pos + 1) :: commentsFrom .plain cs start (pos + 1)
    else commentsFrom (.block (c == '*')) cs start (pos + c.utf8Size)

/-- A line ends inside the gap. -/
def breaksLine : GapState → List Char → Bool
  | _, [] => false
  | .plain, '/' :: '/' :: cs => breaksLine .line cs
  | .plain, '/' :: '*' :: cs => breaksLine (.block false) cs
  | .plain, c :: cs => if isGapChar c then isLineEnd c || breaksLine .plain cs else false
  | .line, c :: cs => isLineEnd c || breaksLine .line cs
  | .block star, c :: cs =>
    if star && c == '/' then breaksLine .plain cs
    else isLineEnd c || breaksLine (.block (c == '*')) cs

/-! ## Readers -/

def gap : Read Unit := modify fun c =>
  let (rest, pos) := gapFrom .plain c.rest c.pos
  { c with rest, pos }

/-- What comes behind the gap in front, without moving. -/
abbrev ahead : Read (List Char) := do
  let c ← get
  return (gapFrom .plain c.rest c.pos).1

/-- The next token stands on a later line. -/
abbrev newLine : Read Bool := do
  let c ← get
  return breaksLine .plain c.rest

def guardRead (b : Bool) : Read Unit := if b then pure () else failure

def opt (p : Read α) : Read (Option α) := (some <$> p) <|> pure none

abbrev maybe (p : Rule) : Rule := p <|> pure []

/-- Runs a reader and goes back to where it started. -/
def lookahead (p : Read α) : Read α := do
  let c ← get
  let a ← p
  set c
  return a

/-- The reader succeeds at this place; nothing is read. -/
abbrev follows (p : Read α) : Read Bool := (do let _ ← lookahead p; return true) <|> pure false

/-- The rule again and again, at most `fuel` times. -/
def manyUpTo : (fuel : Nat) → Rule → Rule
  | 0, _ => pure []
  | fuel + 1, p => do
    match ← opt p with
    | none => return []
    | some xs => return xs ++ (← manyUpTo fuel p)

/-- An upper bound for the number of tokens that are left. -/
abbrev budget : Read Nat := do
  let c ← get
  return c.rest.length + 1

def many (p : Rule) : Rule := do manyUpTo (← budget) p

/-- Takes characters of the given number of bytes as one token of the given form. -/
def takeToken (bytes : Nat) (rest : List Char) (make : Nat → Nat → Node) : Read Node := do
  let c ← get
  set { rest, pos := c.pos + bytes, last := c.pos + bytes : Cursor }
  return make c.pos (c.pos + bytes)

/-! ## Symbols and words -/

/-- The tokens made of punctuation, longer ones first. -/
def symbols : List String :=
  [">>>=", "...", "===", "!==", "**=", "<<=", ">>=", ">>>", "&&=", "||=", "??=",
   "=>", "==", "!=", "<=", ">=", "&&", "||", "??", "?.", "++", "--", "+=", "-=", "*=", "/=", "%=",
   "&=", "|=", "^=", "<<", ">>", "**",
   "(", ")", "[", "]", "\x7b", "\x7d", ";", ",", "<", ">", "=", "+", "-", "*", "/", "%", "&", "|",
   "^", "!", "~", "?", ":", ".", "@", "#"]

/-- The symbol in front; `?.` before a digit is a question mark. -/
def symbolAt? (cs : List Char) : Option String :=
  match symbols.find? fun s => (Text.stripList? s.toList cs).isSome with
  | some "?." =>
    if ((cs.drop 2).head?.map Char.isDigit).getD false then some "?" else some "?."
  | found => found

def symbol (s : String) : Read Node := do
  gap
  let c ← get
  guardRead (symbolAt? c.rest == some s)
  takeToken s.utf8ByteSize (c.rest.drop s.length) (token s)

/-- The next characters are the given ones, whatever follows them. -/
def raw (s : String) : Read Node := do
  gap
  let c ← get
  match Text.stripList? s.toList c.rest with
  | some rest => takeToken s.utf8ByteSize rest (token s)
  | none => failure

/-- A character that cannot be part of a name. -/
def isPunctuation : Bool :=
  c.toNat < 0x20 || isGapChar c || ":;\x60\"'@#.,|^&<=>+-*/\\%?!~()[]\x7b\x7d".toList.contains c

def isNameStart : Bool := !isPunctuation c && !c.isDigit

def isNameChar : Bool := !isPunctuation c

/-- The characters of a name in front; a backslash starts an escaped character of it. -/
def nameChars : List Char → List Char
  | '\\' :: 'u' :: '{' :: cs =>
    '\\' :: 'u' :: '{' :: braced cs
  | '\\' :: 'u' :: cs => '\\' :: 'u' :: nameChars cs
  | c :: cs => if isNameChar c then c :: nameChars cs else []
  | [] => []
where
  /-- The rest of an escape in braces, and the name behind it. -/
  braced : List Char → List Char
    | '}' :: cs => '}' :: nameChars cs
    | c :: cs => c :: braced cs
    | [] => []

def nameAt? (cs : List Char) : Option (List Char) :=
  match cs with
  | c :: _ => if isNameStart c || c == '\\' then some (nameChars cs) else none
  | [] => none

/-- The word in front, without moving. -/
abbrev peekWord : Read (Option String) := do
  return (nameAt? (← ahead)).map String.ofList

/-- The symbol in front, without moving. -/
abbrev peekSymbol : Read (Option String) := do
  return symbolAt? (← ahead)

def word (s : String) : Read Node := do
  gap
  let c ← get
  match nameAt? c.rest with
  | some name =>
    guardRead (String.ofList name == s)
    takeToken s.utf8ByteSize (c.rest.drop name.length) (token s)
  | none => failure

variable (kind : Kind)

def anyName : Read Node := do
  gap
  let c ← get
  match nameAt? c.rest with
  | some name =>
    guardRead !name.isEmpty
    takeToken (Text.byteLength name) (c.rest.drop name.length) (leaf kind)
  | none => failure

def namedWord (s : String) : Read Node := do
  let n ← word s
  return leaf kind n.start n.stop

/-- Words that are never names of values. -/
def reserved : List String :=
  ["break", "case", "catch", "class", "const", "continue", "debugger", "default", "delete", "do",
   "else", "extends", "finally", "for", "function", "if", "import", "in", "instanceof", "new",
   "return", "super", "switch", "this", "throw", "try", "typeof", "var", "void", "while", "with",
   "null", "true", "false", "enum"]

def valueName : Read Node := do
  match ← peekWord with
  | some w => guardRead !(reserved.contains w)
  | none => failure
  anyName kind

/-! ## Building nodes -/

def node (p : Rule) : Rule := do
  let xs ← p
  return [spanning kind xs]

/-- A node over the nodes of a rule that may end behind its last child, where a statement without a
semicolon ends. -/
def statement (p : Rule) : Rule := do
  let xs ← p
  let c ← get
  return [mk (.named kind) none ((xs.head?.map start).getD c.last) c.last xs]

def part (role : Role) (p : Rule) : Rule := do
  return (← p).map (withRole role)

def one (p : Read Node) : Rule := do return [← p]

-- Among rules, a reader stands for its one node and a text for the symbol.
instance : Coe (Read Node) Rule := ⟨one⟩

instance : Coe String Rule := ⟨fun s => one (symbol s)⟩

def sole (p : Rule) : Read Node := do
  match ← p with
  | [n] => return n
  | _ => failure

def inOrder : List Rule → Rule
  | [] => pure []
  | p :: ps => do
    let xs ← p
    return xs ++ (← inOrder ps)

/-- A node over what some rules read one after the other. -/
abbrev group (ps : List Rule) : Rule := node kind (inOrder ps)

def firstOf : List Rule → Rule
  | [] => failure
  | p :: ps => p <|> firstOf ps

def commaList (item : Rule) : Rule := do
  let first ← item
  let more ← many (inOrder [",", item])
  return first ++ more

/-- Items between commas, any of which may be missing. -/
def sparseList (item : Rule) : Rule := do
  let first ← maybe item
  let more ← many (inOrder [",", maybe item])
  return first ++ more

/-! ## Ends of statements -/

/-- Behind a line end, a statement goes on where the next characters could not start another one.
Brackets continue a value but not a type. -/
def endsBeforeNextLine (typed afterValue : Bool) (cs : List Char) : Bool :=
  match cs with
  | [] => true
  | '(' :: _ | '[' :: _ => typed && !afterValue
  | '.' :: c :: _ => !typed && c.isDigit
  | '+' :: c :: _ => c == '+'
  | '-' :: c :: _ => c == '-'
  | '!' :: c :: _ => c != '='
  | 'i' :: _ =>
    match nameAt? cs with
    | some name => String.ofList name ≠ "in" ∧ String.ofList name ≠ "instanceof"
    | none => true
  | c :: _ => !("\x60,:;*%><=?^|&/.+-!".toList.contains c)

/-- A statement may end in front of these characters, which stand right behind its last token. -/
def endsHere (typed afterValue : Bool) : List Char → Bool
  | [] => true
  | '}' :: _ => true
  | '\n' :: cs | '\u2028' :: cs | '\u2029' :: cs =>
    endsBeforeNextLine typed afterValue (gapFrom .plain cs 0).1
  | '/' :: cs =>
    if breaksLine .plain ('/' :: cs) then
      match (gapFrom .plain ('/' :: cs) 0).1 with
      | [] => true
      | '}' :: _ => true
      | c :: _ => !afterValue && c != ',' && c != '=' && c != '/'
    else
      match (gapFrom .plain ('/' :: cs) 0).1 with
      | [] => true
      | '}' :: _ => true
      | _ => false
  | c :: cs => if isGapChar c then endsHere typed afterValue cs else false

/-- Moves behind the next comment, if only blanks of the same line stand before it. -/
def passComment : Read Unit := do
  let c ← get
  match commentsFrom .plain c.rest c.pos c.pos with
  | (start, stop) :: _ =>
    let blanks := c.rest.takeWhile fun ch => isGapChar ch && !isLineEnd ch
    guardRead (c.pos + Text.byteLength blanks == start)
    set { rest := Text.dropBytes (stop - c.pos) c.rest, pos := stop, last := stop : Cursor }
  | [] => failure

/-- The end of a statement without a semicolon, behind at most `fuel` comments. -/
def lineEnd (typed afterValue : Bool) : (fuel : Nat) → Read Unit
  | 0 => failure
  | fuel + 1 => do
    let c ← get
    if endsHere typed afterValue c.rest then set { c with last := c.pos }
    else
      passComment
      lineEnd typed afterValue fuel

/-- The end of a statement: a semicolon, or a place where one may be left out. -/
def semicolon (language : Language) (afterValue : Bool) : Rule :=
  one (symbol ";") <|> do
    lineEnd language.isTyped afterValue 8
    return []

end RouteAtlas.Source.Grammar
