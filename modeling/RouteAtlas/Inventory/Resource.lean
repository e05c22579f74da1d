import RouteAtlas.Source.Node

/-!
# Resources

What an inventory lists: routes and middleware with the functions that handle them, and what was
noticed on the way. Everything here is a plain record with a JSON form.
-/

namespace RouteAtlas.Inventory

open Source

/-- A route answers a request; middleware runs before one does. -/
inductive ResourceKind where
  | route
  | middleware
  deriving DecidableEq, Repr

def ResourceKind.name : ResourceKind → String
  | .route => "route"
  | .middleware => "middleware"

def ResourceKind.tag : ResourceKind → String
  | .route => "ROUTE"
  | .middleware => "MIDDLEWARE"

/-- How a resource came to be known. -/
inductive Origin where
  | discovered
  | custom
  | imported
  deriving DecidableEq, Repr

def Origin.name : Origin → String
  | .discovered => "discovered"
  | .custom => "custom"
  | .imported => "imported"

/-- How a handler is written. -/
inductive HandlerKind where
  | inline
  | identifier
  | factory
  | other
  deriving DecidableEq, Repr

def HandlerKind.name : HandlerKind → String
  | .inline => "inline"
  | .identifier => "identifier"
  | .factory => "factory"
  | .other => "other"

/-- A handler as it stands in its file. -/
structure Handler where
  text : String
  kind : HandlerKind
  file : Option String := none
  span : Option Span := none
  callSite : Option String := none
  deriving DecidableEq, Repr

def optionalMember (key : String) (f : α → Json) (a : Option α) : List (String × Json) :=
  (a.map fun a => (key, f a)).toList

def Handler.toJson (h : Handler) : Json :=
  .object ([("text", .string h.text), ("kind", .string h.kind.name)] ++
    optionalMember "file" .string h.file ++ optionalMember "span" Span.toJson h.span ++
    optionalMember "callSite" .string h.callSite)

/-- A route or a piece of middleware, numbered in the order of registration. -/
structure Resource where
  id : String
  method : String
  path : String
  kind : ResourceKind
  origin : Origin
  handler : Handler
  order : Nat
  deriving DecidableEq, Repr

/-- Two resources answer the same requests in the same way. -/
def Resource.sameIdentity (a b : Resource) : Bool :=
  a.method == b.method && a.path == b.path && a.kind == b.kind

def Resource.toJson (r : Resource) : Json :=
  .object [("id", .string r.id), ("method", .string r.method), ("path", .string r.path),
    ("kind", .string r.kind.name), ("origin", .string r.origin.name),
    ("handler", r.handler.toJson), ("order", .ofNat r.order)]

/-- A construct for which there is no rule, and where it stands. -/
structure Unsupported where
  file : String
  line : Nat
  column : Nat
  kind : String
  text : String
  deriving DecidableEq, Repr

def Unsupported.toJson (u : Unsupported) : Json :=
  .object [("file", .string u.file), ("line", .ofNat u.line), ("column", .ofNat u.column),
    ("kind", .string u.kind), ("text", .string u.text)]

/-- Something that may not be what was meant. -/
inductive Warning where
  /-- Middleware comes after the route for the same requests, so it never runs. -/
  | ambiguousOrder (method path routeId middlewareId : String)
  /-- No router was found for a mount. -/
  | unresolvedMount (file : String) (line : Nat) (target : String)
  deriving DecidableEq, Repr

def Warning.toJson : Warning → Json
  | .ambiguousOrder method path routeId middlewareId =>
    .object [("type", .string "ambiguousOrder"), ("method", .string method),
      ("path", .string path), ("routeId", .string routeId),
      ("middlewareId", .string middlewareId)]
  | .unresolvedMount file line target =>
    .object [("type", .string "unresolvedMount"), ("file", .string file), ("line", .ofNat line),
      ("target", .string target)]

/-- The inventory of a project. -/
structure Analysis where
  resources : List Resource
  errors : List Unsupported
  warnings : List Warning
  deriving DecidableEq, Repr

def Analysis.routes (a : Analysis) : List Resource := a.resources.filter (·.kind == .route)

def Analysis.toJson (a : Analysis) : Json :=
  .object ([("resources", .array (a.resources.map Resource.toJson)),
      ("errorCount", .ofNat a.errors.length),
      ("errors", .array (a.errors.map Unsupported.toJson))] ++
    if a.warnings.isEmpty then []
    else [("warnings", .array (a.warnings.map Warning.toJson))])

end RouteAtlas.Inventory
