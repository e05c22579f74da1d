import RouteAtlas.Text.Split

/-!
# Import specifiers

A specifier is relative, absolute or bare. A bare one names a package, with a scope in front if it
starts with `@`, and perhaps a path inside the package.
-/

namespace RouteAtlas.Modules

/-- The specifier names a package rather than a file. -/
def isBare (specifier : String) : Bool :=
  !(Text.startsWith "./" specifier || Text.startsWith "../" specifier || specifier == "."
    || specifier == ".." || Text.startsWith "/" specifier)

/-- The package of a bare specifier and the path inside it. -/
def splitBare (specifier : String) : String × Option String :=
  match Text.cutAt? '/' specifier with
  | none => if Text.startsWith "@" specifier then (specifier ++ "/", none) else (specifier, none)
  | some (first, rest) =>
    if Text.startsWith "@" first then
      match Text.cutAt? '/' rest with
      | none => (first ++ "/" ++ rest, none)
      | some (second, sub) => (first ++ "/" ++ second, some sub)
    else (first, some rest)

end RouteAtlas.Modules
