import RouteAtlas.Source.Grammar.Token

/-!
# Literals

Numbers, strings, regular expressions and the plain parts of template strings. Their inner parts
are read character by character, without gaps.
-/

namespace RouteAtlas.Source.Grammar

def digitRun (cs : List Char) : List Char := cs.takeWhile fun c => c.isDigit || c == '_'

def fractionRun : List Char → List Char
  | '.' :: cs => '.' :: digitRun cs
  | _ => []

def exponentRun : List Char → List Char
  | e :: cs =>
    if e == 'e' || e == 'E' then
      match cs with
      | s :: d :: rest =>
        if (s == '+' || s == '-') && d.isDigit then e :: s :: digitRun (d :: rest)
        else if s.isDigit then e :: digitRun (s :: d :: rest)
        else []
      | [d] => if d.isDigit then [e, d] else []
      | [] => []
    else []
  | [] => []

def numberChars (cs : List Char) : List Char :=
  match cs with
  | '0' :: x :: rest =>
    if "xXoObB".toList.contains x then
      '0' :: x :: rest.takeWhile fun c => c.isAlphanum || c == '_'
    else decimal cs
  | _ => decimal cs
where
  /-- A decimal number, perhaps with the mark of a big integer. -/
  decimal (cs : List Char) : List Char :=
    let whole := digitRun cs
    let rest := cs.drop whole.length
    let frac := fractionRun rest
    let rest := rest.drop frac.length
    let exp := exponentRun rest
    let rest := rest.drop exp.length
    whole ++ frac ++ exp ++ (if rest.head? == some 'n' then ['n'] else [])

def startsNumber : List Char → Bool
  | '.' :: c :: _ => c.isDigit
  | c :: _ => c.isDigit
  | [] => false

def number : Rule := one do
  gap
  let c ← get
  guardRead (startsNumber c.rest)
  let cs := numberChars c.rest
  takeToken (Text.byteLength cs) (c.rest.drop cs.length) (Node.leaf .number)

/-- The characters of an escape in front, with its backslash. -/
def escapeChars : List Char → List Char
  | '\\' :: 'x' :: cs => '\\' :: 'x' :: cs.take 2
  | '\\' :: 'u' :: '{' :: cs =>
    '\\' :: 'u' :: '{' :: cs.take ((cs.takeWhile (· != '}')).length + 1)
  | '\\' :: 'u' :: cs => '\\' :: 'u' :: cs.take 4
  | '\\' :: '\r' :: '\n' :: _ => ['\\', '\r', '\n']
  | '\\' :: c :: cs =>
    let isOctal (c : Char) := '0' ≤ c && c ≤ '7'
    if isOctal c then '\\' :: c :: (cs.take 2).takeWhile isOctal else ['\\', c]
  | cs => cs.take 1

/-- Takes the characters in front as one leaf, without a gap. -/
def takeLeaf (kind : Kind) (front : List Char → List Char) : Rule := one do
  let c ← get
  let cs := front c.rest
  guardRead !cs.isEmpty
  takeToken (Text.byteLength cs) (c.rest.drop cs.length) (Node.leaf kind)

/-- Takes the given characters as one token, without a gap. -/
def takeSymbol (s : String) : Rule := one do
  let c ← get
  match Text.stripList? s.toList c.rest with
  | some rest => takeToken s.utf8ByteSize rest (Node.token s)
  | none => failure

abbrev escape : Rule := do
  let c ← get
  guardRead (c.rest.head? == some '\\')
  takeLeaf .escapeSequence escapeChars

def quoted (q : Char) : Rule := node .string do
  let opening ← one (raw (String.singleton q))
  let fragment := takeLeaf .stringFragment (List.takeWhile fun ch => ch != q && ch != '\\')
  let inner ← many (fragment <|> escape)
  let closing ← takeSymbol (String.singleton q)
  return opening ++ inner ++ closing

abbrev stringLiteral : Rule := quoted '"' <|> quoted '\''

/-- The characters of a regular expression up to its closing slash, which may stand inside a class
of characters or behind a backslash. -/
def patternChars : (inClass : Bool) → List Char → List Char
  | _, [] => []
  | inClass, '\\' :: c :: cs => '\\' :: c :: patternChars inClass cs
  | _, '[' :: cs => '[' :: patternChars true cs
  | _, ']' :: cs => ']' :: patternChars false cs
  | false, '/' :: _ => []
  | inClass, c :: cs => if c == '\n' then [] else c :: patternChars inClass cs

def regex : Rule := node .regex do
  let opening ← one (raw "/")
  let pattern ← part .pattern (takeLeaf .regexPattern (patternChars false))
  let closing ← takeSymbol "/"
  let flags ← maybe (part .flags (takeLeaf .regexFlags (List.takeWhile Char.isAlpha)))
  return opening ++ pattern ++ closing ++ flags

/-- The plain characters of a template string in front. -/
def templateChars : List Char → List Char
  | [] => []
  | '\x60' :: _ => []
  | '\\' :: _ => []
  | '$' :: '{' :: _ => []
  | c :: cs => c :: templateChars cs

/-- A template string whose substitutions are read by the given rule. -/
def template (kind : Kind) (substitution : Rule) : Rule := node kind do
  let opening ← one (raw "\x60")
  let fragment := takeLeaf .stringFragment templateChars
  let inner ← many (fragment <|> escape <|> substitution)
  let closing ← takeSymbol "\x60"
  return opening ++ inner ++ closing

end RouteAtlas.Source.Grammar
