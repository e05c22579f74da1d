import RouteAtlas.Inventory.Findings

/-!
# Registrations

What the calls of a chain register on the router at its root. A call gives entries and errors; a
path that is not known without running the program is an error.
-/

namespace RouteAtlas.Inventory

open Source

/-- What a call gives. -/
structure Outcome where
  entries : List Entry := []
  errors : List Unsupported := []

def Outcome.error (e : Unsupported) : Outcome := { errors := [e] }

def Outcome.append (a b : Outcome) : Outcome := ⟨a.entries ++ b.entries, a.errors ++ b.errors⟩

def handlerKind (n : Node) : HandlerKind :=
  if n.kindIs Kind.isFunctionValue then .inline
  else if n.isOneOf [.identifier, .memberExpression] then .identifier
  else if n.is .callExpression then .factory
  else .other

namespace Reading

variable (r : Reading)

variable (n : Node)

def handler : Handler :=
  let kind := handlerKind n.unwrapped
  let text := n.source r.source
  ⟨text, kind, some r.file.relPath, some (n.span r.source),
    if kind == .factory then some text else none⟩

def draft (method path : String) (kind : ResourceKind) (n : Node) : Entry :=
  .resource ⟨kind.tag ++ ":" ++ r.file.relPath ++ "@" ++ toString n.start, method,
    Http.Pattern.join "" path, kind, r.handler n⟩

def path : Except Unsupported String :=
  match r.constant? n with
  | some value => .ok value
  | none => .error (r.unsupported n.unwrapped n.unwrapped.kindName)

/-- The first argument of a call is a path rather than a handler. -/
def isPath : Bool :=
  let inner := n.unwrapped
  inner.isOneOf [.string, .templateString] ||
    (inner.isOneOf [.identifier, .binaryExpression] && (r.constant? n).isSome)

def middleware (call : Node) (path : String) (handlers : List Node) : Outcome :=
  if handlers.isEmpty then .error (r.unsupported call "missing_handler")
  else { entries := handlers.map (r.draft Http.Method.all path .middleware) }

/-- For each method the handlers of a route: the last one is the route, those before it are
middleware. -/
def routes (call : Node) (path : String) (methods : List String) (handlers : List Node) : Outcome :=
  match handlers.getLast? with
  | none => .error (r.unsupported call "missing_handler")
  | some last =>
    { entries := methods.flatMap fun method =>
        handlers.dropLast.map (r.draft method path .middleware) ++
          [r.draft method path .route last] }

variable (base : String)

/-- Middleware, for a path if the first argument is one. -/
def useOutcome (call : Node) (args : List Node) : Outcome :=
  match args with
  | first :: rest =>
    if r.isPath first then
      match r.path first with
      | .ok path => r.middleware call (joinBase base path) rest
      | .error e => .error e
    else r.middleware call (joinBase base "*") args
  | [] => r.middleware call (joinBase base "*") args

/-- The paths of a route: a list of them, or one. -/
def paths (n : Node) : Except Unsupported (List String) :=
  if n.is .array then
    match r.constants.texts? r.source n with
    | some paths => .ok paths
    | none => .error (r.unsupported n "array")
  else (r.path n).map ([·])

def onOutcome (call : Node) (args : List Node) : Outcome :=
  match args with
  | methodsNode :: pathsNode :: handlers =>
    match r.constants.texts? r.source methodsNode with
    | none => .error (r.unsupported methodsNode methodsNode.kindName)
    | some raw =>
      let methods := raw.filterMap Http.Method.parse?
      if methods.isEmpty then .error (r.unsupported methodsNode "unsupported_method")
      else match r.paths pathsNode with
        | .error e => .error e
        | .ok paths =>
          (paths.map fun path => r.routes call (joinBase base path) methods handlers).foldl
            .append {}
  | _ => .error (r.unsupported call "missing_argument")

/-- The object that describes a route: the argument of the call that makes the description. -/
def description? : Option Node := do
  let inner := n.unwrapped
  let call ←
    if inner.is .identifier then r.constants.lookup (r.textOf n)
    else if inner.is .callExpression then some inner
    else none
  guard (call.is .callExpression)
  let config ← call.arguments.head?
  guard (config.is .object)
  return config

def describedOutcome (call : Node) (args : List Node) : Outcome :=
  match args with
  | [] => .error (r.unsupported call "missing_argument")
  | first :: handlers =>
    match r.description? first with
    | none => .error (r.unsupported first first.kindName)
    | some config =>
      let method := do
        Http.Method.parse? (← (← config.propertyValue? "method" r.source).stringValue? r.source)
      let path := do r.constant? (← config.propertyValue? "path" r.source)
      match method, path with
      | some method, some path =>
        r.routes call (joinBase base (Http.Pattern.ofBraces path)) [method] handlers
      | _, _ => .error (r.unsupported config "openapi_route_config")

def verbOutcome (base name : String) (call : Node) (args : List Node) : Outcome :=
  match methodOf? name with
  | none => {}
  | some method =>
    match args with
    | [] => .error (r.unsupported call "missing_argument")
    | first :: handlers =>
      match r.path first with
      | .ok path => r.routes call (joinBase base path) [method] handlers
      | .error e => .error e

def routeOutcome (base name : String) (call : Node) : Outcome :=
  if name = "use" then r.useOutcome base call call.arguments
  else if name = "on" then r.onOutcome base call call.arguments
  else if name = "openapi" then r.describedOutcome base call call.arguments
  else r.verbOutcome base name call call.arguments

def mountTarget? (x : Findings) (n : Node) : Option MountTarget :=
  if n.is .identifier then
    match x.lookup? (r.textOf n) n.start with
    | some handle => x.targetOf? handle.router
    | none => (findBinding? r.bindings (r.textOf n)).map fun b => .imported b.specifier b.imported
  else if n.is .callExpression then x.factoryTarget? r n
  else if n.is .memberExpression then r.moduleMember? n
  else if n.is .newExpression then (x.owner? n.start).bind x.targetOf?
  else none

/-- What a mounting call gives. A path that is not known is an error, but the mount stays. -/
def mountOutcome (x : Findings) (base : String) (call : Node) : Outcome :=
  match call.arguments with
  | pathNode :: targetNode :: _ =>
    let (path, pathErrors) := match r.path pathNode with
      | .ok path => (path, [])
      | .error e => ("", [e])
    let inner := targetNode.unwrapped
    match r.mountTarget? x inner with
    | none => ⟨[], pathErrors ++ [r.unsupported inner inner.kindName]⟩
    | some target =>
      let at_ := call.position r.source
      ⟨[.mount ⟨joinBase base path, target, at_.line + 1, at_.character + 1, r.textOf call, false⟩],
        pathErrors⟩
  | _ => .error (r.unsupported call "missing_argument")

/-- What one call of a chain gives, and the base path of the calls behind it. -/
def callOutcome (x : Findings) (base : String) (call : Node) : Outcome × String :=
  match r.roleOf call with
  | .basePath =>
    match call.arguments.head? with
    | none => (.error (r.unsupported call "missing_argument"), base)
    | some arg =>
      match r.constant? arg with
      | some path => ({}, joinBase base path)
      | none => (.error (r.unsupported arg arg.kindName), base)
  | .route name => (r.routeOutcome base name call, base)
  | .mount => (r.mountOutcome x base call, base)
  | .dynamic =>
    let kind := (call.target?.map Node.kindName).getD Kind.subscriptExpression.name
    (.error (r.unsupported call kind), base)
  | .construction | .other => ({}, base)

/-- What the calls of a chain give, one after another. -/
def callsOutcome (x : Findings) : (base : String) → List Node → Outcome
  | _, [] => {}
  | base, call :: calls =>
    let (outcome, next) := r.callOutcome x base call
    outcome.append (callsOutcome x next calls)

end Reading

def Findings.chainStart? (x : Findings) (r : Reading) (outer : Node) : Option Handle :=
  let root := chainRoot outer
  if root.is .identifier then x.lookup? (r.textOf root) root.start
  else if root.isOneOf [.newExpression, .callExpression] then
    (x.owner? root.start).map fun i => ⟨i, ""⟩
  else none

def Findings.withChain (x : Findings) (r : Reading) (outer : Node) : Findings :=
  match x.chainStart? r outer with
  | none => x
  | some handle =>
    let outcome := r.callsOutcome x handle.base (chainCalls outer)
    (x.register handle.router outcome.entries).report outcome.errors

def Findings.withRegistrations (x : Findings) (r : Reading) : Findings :=
  let outermost := r.file.tree.sites.filter fun s => s.node.is .callExpression && isOutermostCall s
  outermost.foldl (fun x s => x.withChain r s.node) x

end RouteAtlas.Inventory
