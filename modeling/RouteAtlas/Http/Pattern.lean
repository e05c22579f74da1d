import RouteAtlas.Text.Blank
import RouteAtlas.Text.Split

/-!
# Path patterns

A pattern is a list of segments between slashes: literal segments, parameters and wildcards. This
module joins patterns below a mount point, reads the brace form of parameters, and decides whether
a request path belongs to a pattern.
-/

namespace RouteAtlas.Http.Pattern

/-- The non-empty parts of a path between its slashes. -/
def segments (raw : String) : List String := (Text.pieces '/' raw).filter (· ≠ "")

/-- A pattern below a mount point: both are trimmed, one slash stands between them, and the result
starts with a slash. -/
def join (mount suffix : String) : String :=
  let left := (Text.trim mount).toList
  let right := (Text.trim suffix).toList
  let left := if left.head? == some '/' then left else '/' :: left
  let left := Text.trimRightBy (· == '/') left
  let right := right.dropWhile (· == '/')
  if left.isEmpty then String.ofList ('/' :: right)
  else if right.isEmpty then String.ofList left
  else String.ofList (left ++ '/' :: right)

theorem length_lt_of_dropWhile {p : Char → Bool} {cs rest : List Char} {c : Char}
    (h : cs.dropWhile p = c :: rest) : rest.length < cs.length := by
  have := (List.dropWhile_sublist (l := cs) p).length_le
  rw [h, List.length_cons] at this
  omega

/-- The brace form with a colon for each `{name}`: a name ends at the first closing brace. An
opening brace without a name or without an end stays, and so does the text after it; the closing
brace of an empty name is dropped. -/
def colonForm (cs : List Char) : List Char :=
  match cs with
  | [] => []
  | c :: cs =>
    if c ≠ '{' then c :: colonForm cs
    else
      let name := cs.takeWhile (· != '}')
      match h : cs.dropWhile (· != '}') with
      | [] => '{' :: name
      | _ :: rest =>
        have := length_lt_of_dropWhile h
        if name.isEmpty then '{' :: colonForm rest else ':' :: (name ++ colonForm rest)
termination_by cs.length

/-- A path written with braces around its parameters, in the router's own form. -/
def ofBraces (raw : String) : String := String.ofList (colonForm raw.toList)

/-- What one segment of a pattern stands for. -/
inductive Segment where
  | wildcard
  /-- A parameter, which may be absent when it is optional. -/
  | param (isOptional : Bool)
  | literal (text : String)
  deriving DecidableEq, Repr

/-- A parameter is optional if a question mark ends its name or its constraint in braces. -/
def optionalParam (param : List Char) : Bool :=
  let name := param.takeWhile (· ≠ '{')
  name.getLast? == some '?' || param.getLast? == some '?'

def Segment.ofText (text : String) : Segment :=
  if text = "*" then .wildcard
  else match text.toList with
    | ':' :: name => .param (optionalParam name)
    | _ => .literal text

/-- The path segments belong to the pattern: a final wildcard takes anything, another one takes at
least one segment. -/
def matchSegments : List Segment → List String → Bool
  | [], path => path.isEmpty
  | [.wildcard], _ => true
  | .wildcard :: _ :: _, [] => false
  | .wildcard :: s :: rest, _ :: path =>
    matchSegments (s :: rest) path || matchSegments (.wildcard :: s :: rest) path
  | .param true :: rest, [] => matchSegments rest []
  | .param true :: rest, p :: path => matchSegments rest (p :: path) || matchSegments rest path
  | .param false :: _, [] => false
  | .param false :: rest, _ :: path => matchSegments rest path
  | .literal _ :: _, [] => false
  | .literal text :: rest, p :: path => text == p && matchSegments rest path
termination_by pattern path => pattern.length + path.length

def accepts (pattern path : String) : Bool :=
  matchSegments ((segments pattern).map Segment.ofText) (segments path)

end RouteAtlas.Http.Pattern
