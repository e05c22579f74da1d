import RouteAtlas.Digest.Blake3
import RouteAtlas.Files.Walk
import RouteAtlas.Source.Language

/-!
# The sources of a project

Which files below a root are sources, in which language and with which digest; which compiled files
have a source map beside them.
-/

namespace RouteAtlas.Source

open Files

/-- A source of a project. -/
structure SourceEntry where
  relPath : String
  path : Path
  digest : String
  language : Language

variable (t : Tree)

/-- The entry of a path, if it is a source that can be read. -/
def entryAt? (root path : Path) : Option SourceEntry := do
  let language ← Language.ofPath? path
  let bytes ← t.bytes? path
  return ⟨Path.shownFrom root path, path, Digest.Blake3.hexDigest bytes, language⟩

variable (root : Path)

/-- The sources of a project in order of their paths. -/
def catalog (sel : Selection) : Except BadGlob (List SourceEntry) :=
  (walk t root sel).map fun paths =>
    sortBy (fun a b => a.relPath ≤ b.relPath) (paths.filterMap (entryAt? t root))

/-- All files of a walk; none if it fails. -/
def walked (sel : Selection) : List Path :=
  (walk t root sel).toOption.getD []

/-- The sources among which functions are looked for; ignore files do not count. -/
def candidates : List Path :=
  (walked t root { noIgnore := true }).filter fun path => (Language.ofPath? path).isSome

def mapPath (path : Path) : Path := ⟨path.text ++ ".map"⟩

def isCompiled (path : Path) : Bool :=
  match path.extension? with
  | some ext => ["js", "mjs", "cjs"].contains ext
  | none => false

/-- The compiled files with a source map beside them, build output included. -/
def mappedFiles : List Path :=
  (walked t root { noIgnore := true, buildOutput := true }).filter fun path =>
    isCompiled path && t.isFile (mapPath path)

end RouteAtlas.Source
