import RouteAtlas.Path.Basic

/-!
# Package names

The package that a file belongs to, read off its path: the one or two names after the last
`node_modules`. A package manager may keep packages in a store directory, whose entries are a name,
an `@` and a version, with `+` for the slash after a scope.
-/

namespace RouteAtlas.Modules

/-- The package that an entry of the store holds: the text before the `@` that starts the version,
its first `+` read as a slash. An `@` at the very start belongs to the scope. -/
def nameInStore? (entry : String) : Option String :=
  let (scope, rest) := match entry.toList with
    | '@' :: cs => (['@'], cs)
    | cs => ([], cs)
  match rest.span (· != '@') with
  | (_, []) => none
  | (name, _ :: _) =>
    let full := scope ++ name
    if full.isEmpty then none else some (Text.replaceFirst '+' "/" (String.ofList full))

def pathNames (path : Path) : List String :=
  path.components.filterMap fun
    | .name text => some text
    | _ => none

/-- What follows the last occurrence of an item; `none` if there is none. -/
def afterLast? [BEq α] (a : α) : List α → Option (List α)
  | [] => none
  | b :: bs =>
    match afterLast? a bs with
    | some rest => some rest
    | none => if b == a then some bs else none

/-- The package that a path below `node_modules` belongs to. -/
def packageOf? (path : Path) : Option String := do
  let rest ← afterLast? "node_modules" (pathNames path)
  match rest with
  | [] => none
  | ".pnpm" :: rest => rest.head?.bind nameInStore?
  | first :: rest =>
    if Text.startsWith "@" first then rest.head?.map fun second => first ++ "/" ++ second
    else some first

end RouteAtlas.Modules
