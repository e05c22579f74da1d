import RouteAtlas.Files.Tree
import RouteAtlas.Json.Reader

/-!
# Package entries

The file that stands for a whole package, as its `package.json` names it. Type declarations come
before the exports, these before the module and main entries.
-/

namespace RouteAtlas.Modules

open Files

/-- The conditions under which an export is taken, the best first. -/
def exportConditions : List String := ["types", "import", "default", "require"]

mutual

/-- The entry that an export names: a text, or the first condition that gives one. The root of the
package may be named by a dot. -/
def exportedFile? : Json → Option String
  | .string entry => some entry
  | .object members =>
    match fileOfRoot? members with
    | some root => root
    | none => exportConditions.findSome? fun key => (entriesOf members).lookup key |>.join
  | _ => none

/-- The entry under the dot, if there is one: its own conditions are looked at once more, without
the dot. -/
def fileOfRoot? : List (String × Json) → Option (Option String)
  | [] => none
  | (key, value) :: members => if key = "." then some (fileUnderDot? value) else fileOfRoot? members

/-- The entry of what stands under the dot. -/
def fileUnderDot? : Json → Option String
  | .string entry => some entry
  | .object members =>
    exportConditions.findSome? fun key => (entriesOf members).lookup key |>.join
  | _ => none

def entriesOf : List (String × Json) → List (String × Option String)
  | [] => []
  | (key, value) :: members => (key, exportedFile? value) :: entriesOf members

end

def packageMain? (t : Tree) (dir : Path) : Option Path := do
  let text ← t.text? (dir.join "package.json")
  let manifest ← Json.read? text
  let entry ← (["types", "typings"].findSome? (Json.stringAt? · manifest))
    <|> (manifest.get? "exports").bind exportedFile?
    <|> ["module", "main"].findSome? (Json.stringAt? · manifest)
  return (dir.join entry).clean

end RouteAtlas.Modules
