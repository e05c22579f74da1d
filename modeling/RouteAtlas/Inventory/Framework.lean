import RouteAtlas.Http.Method
import RouteAtlas.Inventory.Binding

/-!
# The router framework

Which expressions make a router and which calls register something on one. Without an import from
the framework its class names are taken at their word.
-/

namespace RouteAtlas.Inventory

open Source

def routerClasses : List String := ["Hono", "OpenAPIHono"]

def isFrameworkModule (specifier : String) : Bool :=
  specifier == "hono" || Text.startsWith "hono/" specifier || specifier == "@hono/zod-openapi"

def registrationNames : List String :=
  ["get", "post", "put", "delete", "patch", "options", "all", "use", "on", "openapi"]

def methodOf? (name : String) : Option String :=
  if name = "use" || name = "all" then some Http.Method.all
  else if Http.Method.isVerbName name then Http.Method.parse? name
  else none

/-- What the router classes are called in a file. -/
structure RouterNames where
  classes : List String
  namespaces : List String

/-- The names of the router classes under the given imports. -/
def RouterNames.ofBindings (bindings : List Binding) : RouterNames :=
  let own := bindings.filter fun b => isFrameworkModule b.specifier
  { classes :=
      if own.isEmpty then routerClasses
      else (own.filter fun b => b.kind == .named && routerClasses.contains b.imported).map
        (·.localName)
    namespaces := (own.filter (·.kind == .namespace)).map (·.localName) }

/-- What a call does to a router. -/
inductive Role where
  | construction
  | route (name : String)
  | mount
  /-- Puts a path in front of later registrations. -/
  | basePath
  /-- Calls a method whose name is computed. -/
  | dynamic
  | other
  deriving DecidableEq, Repr

def RouterNames.makesRouter (names : RouterNames) (source : String) (n : Node) : Bool :=
  match n.target? with
  | none => false
  | some target =>
    if target.is .identifier then names.classes.contains (target.text source)
    else match target.memberParts? source with
      | some (object, property) =>
        object.is .identifier && names.namespaces.contains (object.text source) &&
          routerClasses.contains property
      | none => false

def callRole (source : String) (n : Node) : Role :=
  match n.target? with
  | none => .other
  | some target =>
    if target.is .subscriptExpression then
      if (target.child? .object).isSome then .dynamic else .other
    else match target.memberParts? source with
      | none => .other
      | some (_, property) =>
        if property = "route" then .mount
        else if property = "basePath" then .basePath
        else if registrationNames.contains property then .route property
        else .other

def RouterNames.roleOf (names : RouterNames) (source : String) (n : Node) : Role :=
  if n.is .newExpression then if names.makesRouter source n then .construction else .other
  else if n.is .callExpression then callRole source n
  else .other

end RouteAtlas.Inventory
