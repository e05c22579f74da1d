import RouteAtlas.Text.Bytes

/-!
# Globs

A glob is a pattern of paths. It is read into tokens and matched against the bytes of a path: a
question mark takes one byte and a star any number of bytes, but never a slash; two stars between
slashes take any number of directories; classes take one byte, and alternatives in braces may hold
anything. A backslash takes away the meaning of the next character.
-/

namespace RouteAtlas.Ignore

/-- A piece of a glob. -/
inductive Token where
  | byte (b : Nat)
  /-- One byte other than a slash. -/
  | any
  /-- Any bytes other than slashes. -/
  | anyName
  /-- Any directories in front. -/
  | leadingDirs
  /-- Everything below a directory. -/
  | allBelow
  /-- A slash, or any directories between two slashes. -/
  | innerDirs
  /-- One byte that is, or is not, in one of the ranges. -/
  | oneOf (negated : Bool) (ranges : List (Nat × Nat))
  | alternatives (choices : List (List Token))

def slash : Nat := 47

/-! ## Reading -/

/-- Why a text is no glob. -/
inductive GlobError where
  | unclosedClass
  | badRange
  | unclosedBrace
  | unopenedBrace
  | danglingEscape
  deriving DecidableEq, Repr

/-- What has been read: the tokens of the innermost choice, last one first, and for each open brace
the choices before and the tokens in front of the brace. -/
structure GlobState where
  tokens : List Token := []
  braces : List (List (List Token) × List Token) := []
  /-- A bracket without an end was found, so brackets stand for themselves. -/
  plainBrackets : Bool := false

/-- The bytes of a character as tokens, last one first. -/
def charTokens (c : Char) : List Token :=
  ((Text.utf8Bytes (String.singleton c)).map Token.byte).reverse

variable (s : GlobState)

def GlobState.putChar (c : Char) : GlobState :=
  { s with tokens := charTokens c ++ s.tokens }

def GlobState.put (ts : List Token) : GlobState :=
  { s with tokens := ts.reverse ++ s.tokens }

/-- The state with the last token replaced by a token for directories, which swallows a like one. -/
def GlobState.putDirs (t : Token) : GlobState :=
  match s.tokens with
  | .leadingDirs :: _ => s
  | .allBelow :: _ => s
  | _ :: rest => { s with tokens := t :: rest }
  | [] => { s with tokens := [t] }

/-- The characters of a class up to its closing bracket, as ranges, the last one first. -/
def classRanges : (first dash : Bool) → List (Char × Char) → List Char →
    Except GlobError (List (Char × Char) × List Char)
  | _, _, _, [] => .error .unclosedClass
  | true, _, ranges, ']' :: cs => classRanges false false ((']', ']') :: ranges) cs
  | false, dash, ranges, ']' :: cs =>
    .ok (if dash then ('-', '-') :: ranges else ranges, cs)
  | true, _, ranges, '-' :: cs => classRanges false false (('-', '-') :: ranges) cs
  | false, false, ranges, '-' :: cs => classRanges false true ranges cs
  | _, true, (lo, _) :: ranges, c :: cs =>
    if c < lo then .error .badRange else classRanges false false ((lo, c) :: ranges) cs
  | _, _, ranges, c :: cs => classRanges false false ((c, c) :: ranges) cs

def byteRanges (lo hi : Char) : List (Nat × Nat) :=
  let a := Text.utf8Bytes (String.singleton lo)
  let b := Text.utf8Bytes (String.singleton hi)
  if lo = hi then a.map fun x => (x, x)
  else (a.dropLast.map fun x => (x, x)) ++
    [(a.getLast?.getD 0, b.head?.getD 0)] ++ (b.drop 1).map fun x => (x, x)

def classToken (cs : List Char) : Except GlobError (Token × List Char) := do
  let (negated, body) := match cs with
    | '!' :: rest => (true, rest)
    | '^' :: rest => (true, rest)
    | _ => (false, cs)
  let (ranges, rest) ← classRanges true false [] body
  return (.oneOf negated (ranges.reverse.flatMap fun (lo, hi) => byteRanges lo hi), rest)

/-- Two stars, with the character before them: what they become and the rest behind them. -/
def doubleStar (before : Option Char) (rest : List Char) : GlobState × List Char :=
  let plain := (s.put [.anyName, .anyName], rest)
  if s.tokens.isEmpty then
    match rest with
    | [] => (s.put [.leadingDirs], [])
    | '/' :: rest => (s.put [.leadingDirs], rest)
    | _ => plain
  else if before ≠ some '/' &&
      (s.braces.isEmpty || (before ≠ some ',' && before ≠ some '{')) then plain
  else
    match rest with
    | [] => (s.putDirs .allBelow, [])
    | '/' :: rest => (s.putDirs .innerDirs, rest)
    | c :: _ =>
      if (c == ',' || c == '}') && !s.braces.isEmpty then (s.putDirs .allBelow, rest) else plain

/-- Reads a glob from the given state on. `literalBrackets` says whether a bracket without an end
stands for itself. -/
def readGlob (literalBrackets : Bool) :
    (fuel : Nat) → (before : Option Char) → GlobState → List Char → Except GlobError GlobState
  | 0, _, s, _ => .ok s
  | _ + 1, _, s, [] => .ok s
  | fuel + 1, before, s, c :: cs =>
    let next (s : GlobState) (cs : List Char) := readGlob literalBrackets fuel (some c) s cs
    if c = '?' then next (s.put [.any]) cs
    else if c = '*' then
      match cs with
      | '*' :: rest =>
        let (s, after) := doubleStar s before rest
        let last := if after.length < rest.length then '/' else '*'
        readGlob literalBrackets fuel (some last) s after
      | _ => next (s.put [.anyName]) cs
    else if c = '[' && !s.plainBrackets then
      match classToken cs with
      | .ok (t, rest) => readGlob literalBrackets fuel (some ']') (s.put [t]) rest
      | .error .unclosedClass =>
        if literalBrackets then next { s.putChar '[' with plainBrackets := true } cs
        else .error .unclosedClass
      | .error e => .error e
    else if c = '{' then
      next { s with tokens := [], braces := ([], s.tokens) :: s.braces } cs
    else if c = '}' then
      match s.braces with
      | [] => .error .unopenedBrace
      | (choices, outer) :: braces =>
        let all := (s.tokens.reverse :: choices).reverse
        next { s with tokens := .alternatives all :: outer, braces } cs
    else if c = ',' then
      match s.braces with
      | [] => next (s.putChar ',') cs
      | (choices, outer) :: braces =>
        next { s with tokens := [], braces := (s.tokens.reverse :: choices, outer) :: braces } cs
    else if c = '\\' then
      match cs with
      | [] => .error .danglingEscape
      | d :: rest => readGlob literalBrackets fuel (some d) (s.putChar d) rest
    else next (s.putChar c) cs

def parseGlob (literalBrackets : Bool) (glob : String) : Except GlobError (List Token) := do
  let cs := glob.toList
  let s ← readGlob literalBrackets (cs.length + 1) none {} cs
  if s.braces.isEmpty then return s.tokens.reverse else throw .unclosedBrace

/-! ## Matching -/

def afterSlashes : List Nat → List (List Nat)
  | [] => []
  | b :: bs => if b = slash then bs :: afterSlashes bs else afterSlashes bs

/-- What is left when any bytes are taken. -/
def afterAny : List Nat → List (List Nat)
  | [] => [[]]
  | b :: bs => (b :: bs) :: afterAny bs

/-- What is left when a run of bytes other than slashes is taken, for each length of the run. -/
def afterNames : List Nat → List (List Nat)
  | [] => [[]]
  | b :: bs => if b = slash then [b :: bs] else (b :: bs) :: afterNames bs

def inRanges (ranges : List (Nat × Nat)) (b : Nat) : Bool :=
  ranges.any fun (lo, hi) => lo ≤ b && b ≤ hi

mutual

/-- What can be left behind a token. -/
def Token.rests : Token → List Nat → List (List Nat)
  | .byte b, bs =>
    match bs with
    | c :: cs => if c = b then [cs] else []
    | [] => []
  | .any, bs =>
    match bs with
    | c :: cs => if c = slash then [] else [cs]
    | [] => []
  | .anyName, bs => afterNames bs
  | .leadingDirs, bs => bs :: afterSlashes bs
  | .allBelow, bs =>
    match bs with
    | c :: cs => if c = slash then afterAny cs else []
    | [] => []
  | .innerDirs, bs =>
    match bs with
    | c :: cs => if c = slash then cs :: afterSlashes cs else []
    | [] => []
  | .oneOf negated ranges, bs =>
    match bs with
    | c :: cs => if inRanges ranges c != negated then [cs] else []
    | [] => []
  | .alternatives choices, bs =>
    if choices.all List.isEmpty then [bs] else restsOfChoices choices bs

def restsOfAll : List Token → List Nat → List (List Nat)
  | [], bs => [bs]
  | t :: ts, bs => (t.rests bs).flatMap (restsOfAll ts)

/-- What can be left behind one of the choices that are not empty. -/
def restsOfChoices : List (List Token) → List Nat → List (List Nat)
  | [], _ => []
  | [] :: choices, bs => restsOfChoices choices bs
  | (t :: ts) :: choices, bs => restsOfAll (t :: ts) bs ++ restsOfChoices choices bs

end

/-- The tokens take the whole path; leading directories alone take everything. -/
def acceptsGlob (tokens : List Token) (path : String) : Bool :=
  match tokens with
  | [.leadingDirs] => true
  | _ => (restsOfAll tokens (Text.utf8Bytes path)).any List.isEmpty

end RouteAtlas.Ignore
