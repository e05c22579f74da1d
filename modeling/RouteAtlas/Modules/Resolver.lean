import RouteAtlas.Modules.Config
import RouteAtlas.Modules.Entry
import RouteAtlas.Modules.Package
import RouteAtlas.Modules.Specifier
import RouteAtlas.Source.Language

/-!
# Finding modules

The file that a specifier in a source file stands for. A bare specifier is looked for by the aliases
and the base directory of the nearest configuration, then in the dependency directories from the
importing file upwards; other specifiers are paths. An extension may be left out, a directory stands
for its package entry or its index file. Configurations are kept per directory.
-/

namespace RouteAtlas.Modules

open Files

/-- The extensions that may be left out, in the order in which they are tried. -/
def implicitExtensions : List String :=
  ["ts", "tsx", "d.ts", "mts", "cts", "js", "jsx", "mjs", "cjs"]

/-- The extensions of sources by the extensions of what they are compiled to. -/
def sourceExtensions : List (String × List String) :=
  [(".js", ["ts", "tsx"]), (".jsx", ["tsx"]), (".mjs", ["mts"]), (".cjs", ["cts"])]

/-- The sources that a path may be compiled from. -/
def sourcesOfCompiled (path : Path) : List Path :=
  sourceExtensions.flatMap fun (compiled, exts) =>
    match Text.stripEnd? compiled path.text with
    | some stem => exts.map fun ext => ⟨stem ++ "." ++ ext⟩
    | none => []

/-- The files that a path may stand for, the best first; the path itself comes first if it has a
language, and last otherwise. -/
def fileForms (path : Path) : List Path :=
  (if (Source.Language.ofPath? path).isSome then [path] else []) ++ sourcesOfCompiled path ++
    implicitExtensions.map (fun ext => ⟨path.text ++ "." ++ ext⟩) ++ [path]

variable (t : Tree)

/-- The file that a path stands for by itself. -/
def fileAt? (path : Path) : Option Path := (fileForms path).find? t.isFile

/-- The index file of a directory. -/
def indexOf? (dir : Path) : Option Path :=
  (implicitExtensions.map fun ext => dir.join ("index." ++ ext)).find? t.isFile

/-- The file that a directory stands for: its package entry, or its index file. -/
def fileOfDirectory? (dir : Path) : Option Path :=
  if t.isDir dir then
    ((packageMain? t dir).bind fun entry => fileAt? t entry <|> indexOf? t entry) <|> indexOf? t dir
  else none

/-- The file that a path stands for, as a file before it is taken for a directory. -/
def fileOrDirectory? (path : Path) : Option Path :=
  fileAt? t path <|> fileOfDirectory? t path

/-- The file of a package in the dependencies of one directory. -/
def dependencyIn? (package : String) (inside : Option String) (dir : Path) : Option Path :=
  let place := (dir.join "node_modules").join package
  if dir.fileName? == some "node_modules" || !t.isDir place then none
  else match inside with
    | some sub => fileOrDirectory? t (place.join sub)
    | none => fileOfDirectory? t place

/-- The file that a bare specifier stands for in the dependencies of a directory or of one above. -/
def dependency? (specifier : String) (start : Path) : Option Path :=
  let (package, inside) := splitBare specifier
  if package = "" then none else start.ancestors.findSome? (dependencyIn? t package inside)

/-- A resolver for a project, with the configurations that were looked up. -/
structure Resolver where
  root : Path
  known : List (Path × Option Config) := []

namespace Resolver

/-- The configuration for a directory as the files give it; one that cannot be loaded is no
configuration. -/
def lookUp (r : Resolver) (t : Tree) (dir : Path) : Option Config :=
  (nearestConfig? t dir r.root).bind fun path => (Config.load t path).toOption

variable (t : Tree)

/-- The configuration for a directory; it is looked up once. -/
def configFor (dir : Path) : StateM Resolver (Option Config) := do
  let r ← get
  match r.known.find? fun (d, _) => d.same dir with
  | some (_, config) => return config
  | none =>
    let config := r.lookUp t dir
    set { r with known := (dir, config) :: r.known }
    return config

/-- The resolver without what was looked up. -/
def forget (r : Resolver) : Resolver := { r with known := [] }

/-- Where a package that is linked into the dependencies really stands, if that is in the project;
other files stay where they were found. -/
def settle (r : Resolver) (t : Tree) (found : Path) : Path :=
  if !found.inNodeModules then found
  else match t.canonical? found with
    | some real => if Path.isBelow r.root real && !real.inNodeModules then real else found
    | none => found

/-- The paths that a bare specifier stands for by a configuration. -/
def configTargets (config : Config) (specifier : String) : List Path :=
  config.aliasTargets specifier ++ (config.baseTarget? specifier).toList

/-- The file that a bare specifier stands for, given the configuration. -/
def bareFile? (config : Option Config) (specifier : String) (dir : Path) : Option Path :=
  ((config.elim [] (configTargets · specifier)).findSome? (fileOrDirectory? t)) <|>
    dependency? t specifier dir

variable (specifier : String)

/-- The file that a specifier stands for that is a path. -/
def pathFile? (dir : Path) : Option Path :=
  fileOrDirectory? t (dir.join specifier).clean

/-- The file that a specifier in a source file stands for. -/
def resolve? (importer : Path) : StateM Resolver (Option Path) := do
  match importer.parent? with
  | none => return none
  | some dir =>
    let found ←
      if isBare specifier then
        let config ← configFor t dir
        pure (bareFile? t config specifier dir)
      else pure (pathFile? t specifier dir)
    return found.map ((← get).settle t)

/-- The file that a specifier in a source file stands for, or why there is none. -/
def resolve (importer : Path) :
    StateM Resolver (Except ResolveError Path) := do
  match ← resolve? t specifier importer with
  | some path => return .ok path
  | none => return .error (.notFound specifier importer)

end Resolver

end RouteAtlas.Modules
