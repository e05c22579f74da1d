import RouteAtlas.Files.Tree
import RouteAtlas.Ignore.Glob
import RouteAtlas.Text.Blank
import RouteAtlas.Text.Lines

/-!
# Ignore rules

A list of rules below a directory says which paths are ignored and which are kept all the same. A
rule is a line with a glob; an exclamation mark keeps what it matches, a slash in front binds it to
the directory, a slash behind to directories. The last rule that matches decides. The same rules,
turned round, are used to include paths: then a path that no rule includes is left out.
-/

namespace RouteAtlas.Ignore

open Text

/-- What rules say of a path. -/
inductive Verdict where
  | none
  | ignored
  | kept
  deriving DecidableEq, Repr

/-- The first verdict that says something. -/
def Verdict.or (a b : Verdict) : Verdict := if a = .none then b else a

def Verdict.inverted : Verdict → Verdict
  | .none => .none
  | .ignored => .kept
  | .kept => .ignored

/-- One rule: what it matches, and whether it keeps that and is for directories only. -/
structure Rule where
  tokens : List Token
  keeps : Bool
  onlyDirs : Bool

/-- The glob of a line, whether the line keeps what it matches, and whether it is for directories
only. -/
def readLine (line : List Char) : List Char × Bool × Bool :=
  let (line, keeps, bound) := match line with
    | '\\' :: '!' :: _ => (line.drop 1, false, false)
    | '\\' :: '#' :: _ => (line.drop 1, false, false)
    | '!' :: '/' :: rest => (rest, true, true)
    | '!' :: rest => (rest, true, false)
    | '/' :: rest => (rest, false, true)
    | _ => (line, false, false)
  let onlyDirs := line.getLast? == some '/'
  let line := if onlyDirs then line.dropLast else line
  let line := if onlyDirs && line.getLast? == some '\\' then line.dropLast else line
  let glob :=
    if bound || line.contains '/' || line == ['*', '*'] then line else '*' :: '*' :: '/' :: line
  let glob :=
    if (stripList? ['*', '*', '/'] glob.reverse).isSome then glob ++ ['/', '*'] else glob
  (glob, keeps, onlyDirs)

/-- The rule of a line; `none` for a comment and an empty line. -/
def Rule.ofLine? (literalBrackets : Bool) (line : String) : Except GlobError (Option Rule) := do
  let cs := line.toList
  let line :=
    if (stripList? [' ', '\\'] cs.reverse).isSome then cs
    else trimRightBy isBlank cs
  if line.head? == some '#' || line.isEmpty then return none
  let (glob, keeps, onlyDirs) := readLine line
  return some ⟨← parseGlob literalBrackets (String.ofList glob), keeps, onlyDirs⟩

/-- The rules for the paths below a directory. -/
structure Rules where
  root : Path := ⟨""⟩
  rules : List Rule := []

namespace Rules

/-- The rules of the lines of a text below a directory; lines that cannot be read are passed over.
-/
def ofText (root : Path) (text : String) : Rules :=
  let lines := match lines text with
    | first :: rest => String.ofList (first.toList.dropWhile (· == '\uFEFF')) :: rest
    | [] => []
  ⟨root, lines.filterMap fun line => (Rule.ofLine? true line).toOption.join⟩

/-- The lines of bytes, with an empty one at the end if the last byte ends a line. -/
def byteLines : List UInt8 → List (List UInt8)
  | [] => [[]]
  | b :: bs =>
    if b = 10 then [] :: byteLines bs
    else match byteLines bs with
      | line :: lines => (b :: line) :: lines
      | [] => [[b]]

/-- The rules in a file; none if there is no such file. Lines behind broken text do not count. -/
def ofFile (t : Files.Tree) (root file : Path) : Rules :=
  match t.bytes? file with
  | none => ⟨root, []⟩
  | some bytes =>
    match utf8? ⟨bytes.toArray⟩ with
    | some text => ofText root text
    | none =>
      let lines := byteLines bytes
      let sound := (lines.map fun l => utf8? ⟨l.toArray⟩).takeWhile Option.isSome
      ofText root ("\n".intercalate (sound.filterMap id))

def isEmpty (r : Rules) : Bool := r.rules.isEmpty

variable (r : Rules)

/-- The text of a path below the rules' directory. -/
def strip (path : String) : String :=
  let path := (stripStart? "./" path).getD path
  if !path.toList.contains '/' then path
  else match stripStart? r.root.text path with
    | some rest => (stripStart? "/" rest).getD rest
    | none => path

def verdictOf (rel : String) (isDir : Bool) : Verdict :=
  match r.rules.reverse.find? fun rule =>
    (!rule.onlyDirs || isDir) && acceptsGlob rule.tokens rel with
  | some rule => if rule.keeps then .kept else .ignored
  | none => .none

def verdict (path : Path) (isDir : Bool) : Verdict :=
  if r.isEmpty then .none else r.verdictOf (r.strip path.text) isDir

/-- What the rules say about a path or, if nothing, about the nearest directory above it. -/
def verdictBelow (path : Path) (isDir : Bool) : Verdict :=
  if r.isEmpty then .none
  else
    let rel : Path := ⟨r.strip path.text⟩
    let above := rel.ancestors.drop 1
    above.foldl (fun v dir => v.or (r.verdictOf dir.text true)) (r.verdictOf rel.text isDir)

/-- What rules say that include paths: a file that no rule includes is ignored, if there is a rule
that includes any. -/
def overrides (path : Path) (isDir : Bool) : Verdict :=
  if r.isEmpty then .none
  else match (r.verdict path isDir).inverted with
    | .none => if r.rules.any (!·.keeps) && !isDir then .ignored else .none
    | v => v

end Rules

end RouteAtlas.Ignore
