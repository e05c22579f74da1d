import RouteAtlas.Ignore.Rules

/-!
# Walking a file tree

The files below a directory in order of their names, directory by directory. Ignore files say what
is left out, those of nearer directories first; dependencies and version control are always left
out, build output unless it is asked for. Globs may limit the walk to what they include. Links are
not followed.
-/

namespace RouteAtlas.Files

open Ignore

/-- Directories that hold no sources of the project itself. -/
def skippedDirs : List String :=
  ["node_modules", ".git", "dist", "build", "out", ".wrangler", ".next", ".turbo", "coverage"]

/-- Which files a walk takes. -/
structure Selection where
  noIgnore : Bool := false
  /-- Globs of the paths to take; everything if there are none. -/
  includes : List String := []
  /-- Build output is taken too. -/
  buildOutput : Bool := false

/-- The ignore rules of one directory, the strongest first. -/
structure DirRules where
  own : Rules
  git : Rules
  exclude : Rules

def DirRules.at (t : Tree) (dir : Path) : DirRules :=
  { own := .ofFile t dir (dir.join ".ignore")
    git := .ofFile t dir (dir.join ".gitignore")
    exclude := .ofFile t dir (dir.join ".git/info/exclude") }

/-- The first of the rules that say something. -/
def firstVerdict (rules : List Rules) (path : Path) (isDir : Bool) : Verdict :=
  rules.foldl (fun v r => v.or (r.verdict path isDir)) .none

/-- What the rules of directories say, the nearest directory first; a kind of rules counts only
where no stronger kind says anything. -/
def dirsVerdict (dirs : List DirRules) (path : Path) (isDir : Bool) : Verdict :=
  ((firstVerdict (dirs.map (·.own)) path isDir).or
    (firstVerdict (dirs.map (·.git)) path isDir)).or
    (firstVerdict (dirs.map (·.exclude)) path isDir)

def isSkippedDir (buildOutput : Bool) (name : String) : Bool :=
  name = "node_modules" || name = ".git" || (!buildOutput && skippedDirs.contains name)

def leavesOut (sel : Selection) (included : Rules) (dirs : List DirRules) (path : Path)
    (name : String) (isDir : Bool) : Bool :=
  ((included.overrides path isDir).or (dirsVerdict dirs path isDir)) = .ignored ||
    (isDir && isSkippedDir sel.buildOutput name)

/-- The files of a directory; `dirs` holds the rules of the directories above it. At most `fuel`
levels are entered. -/
def walkDir (t : Tree) (sel : Selection) (included : Rules) :
    (fuel : Nat) → (dirs : List DirRules) → Path → Place → List Path
  | 0, _, _, _ => []
  | fuel + 1, dirs, dir, place =>
    let dirs := if sel.noIgnore then dirs else .at t dir :: dirs
    (t.names place).flatMap fun (name, entry) =>
      let path := dir.join name
      let isDir := entry == .directory
      if leavesOut sel included dirs path name isDir then []
      else match entry with
        | .file _ => [path]
        | .directory => walkDir t sel included fuel dirs path (place ++ [name])
        | .link _ => []

/-- An include glob that cannot be read. -/
structure BadGlob where
  glob : String

def includeRules (root : Path) (globs : List String) : Except BadGlob Rules := do
  let rules ← globs.mapM fun glob =>
    match Rule.ofLine? false glob with
    | .ok rule => .ok rule.toList
    | .error _ => .error (BadGlob.mk glob)
  return ⟨root, rules.flatten⟩

def rulesAbove (t : Tree) (root : Path) : List DirRules :=
  (((t.canonical? root).getD root).ancestors.drop 1).map (DirRules.at t)

def walk (t : Tree) (root : Path) (sel : Selection) : Except BadGlob (List Path) := do
  let included ← includeRules root sel.includes
  match t.at? root, t.real? root with
  | some .directory, some place =>
    let above := if sel.noIgnore then [] else rulesAbove t root
    return walkDir t sel included (t.entries.length + 1) above root place
  | some (.file _), _ => return [root]
  | _, _ => return []

end RouteAtlas.Files
