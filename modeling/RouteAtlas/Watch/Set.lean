import RouteAtlas.Files.Walk
import RouteAtlas.Modules.Config
import RouteAtlas.Source.Language

/-!
# What is watched

Which paths below a project matter when they change: configuration files, and sources that the root
configuration includes (without one, those under `src` and in the root itself) and no ignore file
leaves out.
-/

namespace RouteAtlas.Watch

open Files Ignore

/-- Files that say how modules are found. -/
def configFiles : List String := ["tsconfig.json", "jsconfig.json", "package.json"]

def isConfigFile (path : Path) : Bool :=
  match path.fileName? with
  | some name => configFiles.contains name
  | none => false

/-- The paths of a project that are watched. Ignore files are read when a path in their directory is
first asked for, and kept. -/
structure WatchSet where
  root : Path
  noIgnore : Bool
  included : Option Rules
  exclude : Rules
  known : List (Path × Rules) := []

/-- A text without all the `./` at its front. -/
def dropDotSlash (glob : String) : String :=
  String.ofList (Text.stripStartAll ['.', '/'] glob.toList)

/-- The glob for an included path; a plain name stands for the whole directory. -/
def includeGlob (glob : String) : String :=
  if glob.toList.contains '*' || glob.toList.contains '.' then dropDotSlash glob
  else String.ofList (Text.trimRightBy (· == '/') (dropDotSlash glob).toList) ++ "/**"

/-- The rules of the paths that the root configuration includes; globs that cannot be read are
passed over. -/
def includedBy? (t : Tree) (root : Path) : Option Rules := do
  let config ← (Modules.Config.load t (root.join Modules.configName)).toOption
  let rules : Rules := ⟨root, config.includes.filterMap fun glob =>
    (Rule.ofLine? false (includeGlob glob)).toOption.join⟩
  if rules.isEmpty then none else some rules

namespace WatchSet

def ofRoot (t : Tree) (root : Path) (noIgnore : Bool) : WatchSet :=
  { root, noIgnore
    included := includedBy? t root
    exclude := if noIgnore then ⟨root, []⟩ else .ofFile t root (root.join ".git/info/exclude") }

variable (w : WatchSet)

def hasIncludeGlobs : Bool := w.included.isSome

/-- The directories from the root down to the one that holds a path. -/
def dirsTo (path : Path) : List Path :=
  let above := (path.ancestors.drop 1).takeWhile (Path.isBelow w.root)
  let (inside, rest) := above.span fun dir => !dir.same w.root
  (inside ++ rest.take 1).reverse

/-- The ignore rules of a directory, and the set with them kept. -/
def rulesFor (t : Tree) (dir : Path) : Rules × WatchSet :=
  match w.known.find? fun (d, _) => d.same dir with
  | some (_, rules) => (rules, w)
  | none =>
    let rules := Rules.ofFile t dir (dir.join ".gitignore")
    (rules, { w with known := (dir, rules) :: w.known })

def lastVerdict (vs : List Verdict) : Verdict := vs.foldl (fun a b => b.or a) .none

/-- Ignore files leave the path out. -/
def isIgnored (t : Tree) (path : Path) : Bool × WatchSet :=
  if w.noIgnore then (false, w)
  else
    let isDir := t.isDir path
    let (verdicts, w) := (w.dirsTo path).foldl
      (fun (vs, w) dir =>
        let (rules, w) := rulesFor w t dir
        (vs ++ [rules.verdictBelow path isDir], w))
      ([w.exclude.verdictBelow path isDir], w)
    (lastVerdict verdicts = .ignored, w)

/-- A source is among those that are included. -/
def includes (path : Path) (rel : List Path.Component) : Bool :=
  match w.included with
  | some rules => rules.overrides path false = .kept
  | none => rel.head? == some (.name "src") || rel.length = 1

/-- A change of the path matters. -/
def contains (t : Tree) (path : Path) : Bool × WatchSet :=
  match Path.below? w.root path with
  | none => (false, w)
  | some rel =>
    let names := rel.map Path.Component.text
    if names.contains ".git" then (false, w)
    else if names.any skippedDirs.contains && !w.noIgnore then (false, w)
    else if isConfigFile path then (true, w)
    else if (Source.Language.ofPath? path).isNone || !w.includes path rel then (false, w)
    else
      let (ignored, w) := w.isIgnored t path
      (!ignored, w)

end WatchSet

end RouteAtlas.Watch
