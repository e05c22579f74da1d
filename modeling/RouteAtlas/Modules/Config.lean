import RouteAtlas.Files.Tree
import RouteAtlas.Json.Reader
import RouteAtlas.Json.Record
import RouteAtlas.Modules.Alias
import RouteAtlas.Modules.Jsonc

/-!
# Compiler configurations

The parts of a `tsconfig.json` that say how modules are found: the base directory, the aliases and
the included files. A configuration may extend another one, whose settings count where it has none
of its own; a configuration to extend that cannot be loaded is passed over.
-/

namespace RouteAtlas.Modules

open Files Json

/-- Why a module or a configuration could not be had. -/
inductive ResolveError where
  | notFound (specifier : String) (importer : Path)
  | invalidConfig (path : Path)
  | unreadable (path : Path)

def ResolveError.message : ResolveError → String
  | .notFound specifier importer => "cannot resolve '" ++ specifier ++ "' from " ++ importer.text
  | .invalidConfig path => "invalid tsconfig " ++ path.text
  | .unreadable path => "cannot read " ++ path.text

/-- The aliases and the base directory as they are written. -/
structure WrittenOptions where
  baseUrl : Option String := none
  paths : Option (List Alias) := none

/-- What a configuration file says by itself. -/
structure WrittenConfig where
  parent : Option Json := none
  options : Option WrittenOptions := none
  includes : Option (List String) := none

/-- Aliases in order of their patterns; of two with one pattern the last one counts. -/
def aliases? : Json → Option (List Alias)
  | .object members => do
    let lists ← members.mapM fun (key, value) =>
      (stringList? value).map fun targets => (key, ofStrings targets)
    match ofMembers lists with
    | .object members => members.mapM fun (key, value) => (stringList? value).map (Alias.mk key)
    | _ => none
  | _ => none

def WrittenOptions.ofJson? (j : Json) : Option WrittenOptions :=
  match fields? ["baseUrl", "paths"] j with
  | some [base, paths] => do
    return ⟨← optional? string? base, ← optional? aliases? paths⟩
  | _ => none

def WrittenConfig.ofJson? (j : Json) : Option WrittenConfig :=
  match fields? ["extends", "compilerOptions", "include"] j with
  | some [parent, options, includes] => do
    return ⟨← optional? some parent, ← optional? WrittenOptions.ofJson? options,
      ← optional? stringList? includes⟩
  | _ => none

/-- A configuration with everything that it takes from those it extends. -/
structure Config where
  path : Path
  baseUrl : Option Path := none
  aliases : List Alias := []
  /-- The directory from which the targets of aliases count. -/
  aliasBase : Path
  includes : List String := []

namespace Config

def dirOf (path : Path) : Path := path.parent?.getD ⟨"/"⟩

def dir (c : Config) : Path := dirOf c.path

/-- The most configurations that are extended one after the other. -/
def longestChain : Nat := 5

def readWritten (t : Tree) (path : Path) : Except ResolveError WrittenConfig :=
  match t.text? path with
  | none => .error (.unreadable path)
  | some text =>
    match (readWritten? (stripJsonc text)).bind WrittenConfig.ofJson? with
    | none => .error (.invalidConfig path)
    | some written => .ok written

/-- The name of the configuration that is extended; of several the last one. -/
def parentName? (written : WrittenConfig) : Option String :=
  match written.parent with
  | some (.string name) => some name
  | some (.array names) => names.getLast?.bind string?
  | _ => none

def parentPath (dir : Path) (name : String) : Path :=
  if Text.startsWith "." name || Text.startsWith "/" name then
    let path := dir.join name
    if path.extension?.isNone then path.addExtension "json" else path
  else (dir.join "node_modules").join name

/-- The settings of a file put over those that it extends. -/
def override (base : Config) (path : Path) (written : WrittenConfig) : Config :=
  let dir := dirOf path
  let options := written.options.getD {}
  let base := { base with path }
  let base := match options.baseUrl with
    | some url =>
      let url := (dir.join url).clean
      { base with baseUrl := some url, aliasBase := url }
    | none => base
  let base := match options.paths with
    | some aliases =>
      { base with aliases, aliasBase := if base.baseUrl.isNone then dir else base.aliasBase }
    | none => base
  { base with includes := written.includes.getD base.includes }

def unset (path : Path) : Config := { path, aliasBase := dirOf path }

/-- The configuration in a file, with at most so many extended after one another. -/
def loadUpTo (t : Tree) : (links : Nat) → Path → Except ResolveError Config
  | 0, path => do
    let written ← readWritten t path
    return (unset path).override path written
  | links + 1, path => do
    let written ← readWritten t path
    let base := match parentName? written with
      | some name => (loadUpTo t links (parentPath (dirOf path) name)).toOption.getD (unset path)
      | none => unset path
    return base.override path written

def load (t : Tree) (path : Path) : Except ResolveError Config := loadUpTo t longestChain path

/-- The paths that a specifier may stand for by the aliases, the best first. -/
def aliasTargets (c : Config) (specifier : String) : List Path :=
  aliasCandidates c.aliases c.aliasBase specifier

/-- The path that a specifier stands for below the base directory. -/
def baseTarget? (c : Config) (specifier : String) : Option Path :=
  c.baseUrl.map (·.join specifier)

end Config

def configName : String := "tsconfig.json"

/-- The directories that are searched for something that holds for a directory: it and those above,
up to `stop` if it lies there. -/
def searchedDirs (start stop : Path) : List Path :=
  if Path.isBelow stop start then
    let (inside, rest) := start.ancestors.span fun dir => !dir.same stop
    inside ++ rest.take 1
  else start.ancestors

/-- The nearest configuration file for a directory, not above `stop` if the directory lies there. -/
def nearestConfig? (t : Tree) (start stop : Path) : Option Path :=
  ((searchedDirs start stop).map (·.join configName)).find? t.isFile

end RouteAtlas.Modules
