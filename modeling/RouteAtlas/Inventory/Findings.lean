import RouteAtlas.Inventory.Chain
import RouteAtlas.Inventory.Constant
import RouteAtlas.Inventory.Contribution
import RouteAtlas.Inventory.Framework
import RouteAtlas.Http.Pattern
import RouteAtlas.Source.File

/-!
# Routers and their names

Which routers a file makes and under which names they are known where. A name is visible in the
function that declares it; where several declarations are visible the one with the smallest scope
counts. A name may also stand for a router behind a base path.
-/

namespace RouteAtlas.Inventory

open Source

/-- A file under analysis: its names from other modules and its constants. -/
structure Reading where
  file : File
  bindings : List Binding
  names : RouterNames
  constants : Constants

namespace Reading

def ofFile (file : File) (bindings : List Binding) : Reading :=
  ⟨file, bindings, .ofBindings bindings, constantsOf file.text file.tree⟩

variable (r : Reading)

def source : String := r.file.text

def textOf (n : Node) : String := n.text r.source

def constant? (n : Node) : Option String := r.constants.text? r.source n

def roleOf (n : Node) : Role := r.names.roleOf r.source n

/-- How long the text of an error may be, in bytes. -/
def errorLimit : Nat := 200

def unsupported (n : Node) (kind : String) : Unsupported :=
  let at_ := n.position r.source
  ⟨r.file.relPath, at_.line + 1, at_.character + 1, kind, Text.truncate (r.textOf n) errorLimit⟩

end Reading

/-- A router as it is seen from a name: which one, and the base path on the way to it. -/
structure Handle where
  router : Nat
  base : String
  deriving DecidableEq, Repr

/-- A name for a router and the bytes in which it is visible. -/
structure RouterName where
  name : String
  scope : Nat × Nat
  handle : Handle
  deriving DecidableEq, Repr

/-- The routers of a file and how they are known. -/
structure Findings where
  routers : List Router := []
  names : List RouterName := []
  /-- The routers made or returned by the expressions that start at an offset. -/
  owners : List (Nat × Nat) := []
  factories : List (String × Handle) := []
  exports : List (String × MountTarget) := []
  errors : List Unsupported := []

def joinBase (base path : String) : String :=
  if base.isEmpty then path else Http.Pattern.join base path

/-- The first item that is at most as large as every other. -/
def firstLeast (f : α → Nat) : List α → Option α
  | [] => none
  | a :: as => match firstLeast f as with
    | some b => if f b < f a then some b else some a
    | none => some a

namespace Findings

variable (x : Findings)

def lookup? (name : String) (offset : Nat) : Option Handle :=
  let visible := x.names.filter fun b =>
    b.name == name && b.scope.1 ≤ offset && offset ≤ b.scope.2
  (firstLeast (fun b => b.scope.2 - b.scope.1) visible).map (·.handle)

def owner? (offset : Nat) : Option Nat := x.owners.lookup offset

def keyOf? (router : Nat) : Option RouterKey := (x.routers[router]?).map (·.key)

def targetOf? (router : Nat) : Option MountTarget := (x.keyOf? router).map .router

/-- A further router, made where a node stands. -/
def addRouter (r : Reading) (name : String) (n : Node) (fromFactory : Bool)
    (entries : List Entry) : Findings :=
  let at_ := n.position r.source
  { x with routers := x.routers ++
      [⟨⟨r.file.path, n.start⟩, name, at_.line + 1, at_.character + 1, fromFactory, entries⟩] }

def bind (name : String) (site : Site) (handle : Handle) : Findings :=
  { x with names := x.names ++ [⟨name, site.scope, handle⟩] }

def own (offset router : Nat) : Findings := { x with owners := (offset, router) :: x.owners }

def giveOut (name : String) (target : Option MountTarget) : Findings :=
  match target with
  | some target => { x with exports := setNamed name target x.exports }
  | none => x

def register (router : Nat) (entries : List Entry) : Findings :=
  { x with routers := x.routers.modify router fun t => { t with entries := t.entries ++ entries } }

def report (errors : List Unsupported) : Findings := { x with errors := x.errors ++ errors }

end Findings

/-! ## Constructions -/

variable (x : Findings) (r : Reading)

/-- The base paths along a chain, one behind another. -/
def Reading.chainBase (value : Node) : String :=
  (chainCalls value).foldl (fun base call =>
    if r.roleOf call == .basePath then
      match call.arguments.head?.bind r.constant? with
      | some path => joinBase base path
      | none => base
    else base) ""

/-- An expression that makes a router, and the declaration whose value starts with it. -/
structure Construction where
  expression : Site
  declarator : Option Site

/-- The construction at the start of a declared value, or a construction itself. -/
def Reading.constructionAt? (s : Site) : Option Construction :=
  if s.node.is .variableDeclarator then do
    let value ← s.node.child? .value
    let root := chainRoot value.unwrapped
    guard (root.is .newExpression && r.roleOf root == .construction)
    return ⟨⟨root, []⟩, some s⟩
  else if s.node.is .newExpression && r.roleOf s.node == .construction then some ⟨s, none⟩
  else none

def anonymous : String := "<anonymous>"

def Findings.withConstruction (c : Construction) : Findings :=
  let offset := c.expression.node.start
  if (x.owner? offset).isSome then x
  else
    let router := x.routers.length
    match c.declarator with
    | some site =>
      let name := ((site.node.child? .name).map r.textOf).getD anonymous
      let base := ((site.node.child? .value).map fun v => r.chainBase v.unwrapped).getD ""
      ((x.addRouter r name site.node false []).bind name site ⟨router, base⟩).own offset router
    | none =>
      let y := (x.addRouter r anonymous c.expression.node false []).own offset router
      if c.expression.isDefaultExport then y.giveOut "default" (y.targetOf? router) else y

/-- The routers that a file makes. -/
def Reading.constructions : Findings :=
  (r.file.tree.sites.filterMap r.constructionAt?).foldl (·.withConstruction r ·) {}

/-! ## Functions that make routers -/

def Findings.routerOf? (expr : Node) : Option Handle :=
  let root := chainRoot expr
  if root.is .identifier then x.lookup? (r.textOf root) root.start
  else if root.is .newExpression then (x.owner? root.start).map fun i => ⟨i, ""⟩
  else none

def Findings.returned? (function : Node) : Option Handle := do
  let body ← function.child? .body
  if body.is .statementBlock then
    (body.ownNodes.filter (·.is .returnStatement)).findSome? fun n =>
      n.named.head?.bind fun expr => x.routerOf? r expr.unwrapped
  else x.routerOf? r body.unwrapped

/-- A function with the name under which it can be called. -/
structure NamedFunction where
  name : String
  function : Node
  isDefault : Bool

/-- The function that a node declares, or is the default export of. -/
def Reading.functionAt? (s : Site) : Option NamedFunction :=
  if s.node.kindIs Kind.isFunctionDeclaration then do
    let name ← s.node.child? .name
    return ⟨r.textOf name, s.node, s.isDefaultExport⟩
  else if s.node.is .variableDeclarator then do
    let name ← s.node.child? .name
    let value ← s.node.child? .value
    guard (name.is .identifier && value.kindIs Kind.isFunctionValue)
    return ⟨r.textOf name, value, false⟩
  else if s.node.isOneOf [.functionExpression, .arrowFunction] && s.isDefaultExport then
    some ⟨"default", s.node, true⟩
  else none

def Findings.withFunction (f : NamedFunction) : Findings :=
  match x.returned? r f.function with
  | none => x
  | some handle =>
    let y := if f.isDefault then x.giveOut "default" (x.targetOf? handle.router) else x
    { y with factories := (f.name, handle) :: y.factories }

def Findings.withFunctions : Findings :=
  (r.file.tree.sites.filterMap r.functionAt?).foldl (·.withFunction r ·) x

/-! ## Further names -/

/-- A name of a module that is imported as a whole. -/
def Reading.moduleMember? (n : Node) : Option MountTarget := do
  let (object, property) ← n.memberParts? r.source
  guard (object.is .identifier)
  let binding ← findBinding? r.bindings (r.textOf object)
  guard (binding.kind == .namespace)
  return .imported binding.specifier property

/-- The router that a call of a function makes. -/
def Findings.factoryTarget? (call : Node) : Option MountTarget := do
  let function ← call.target?
  if function.is .identifier then
    match x.factories.lookup (r.textOf function) with
    | some handle => x.targetOf? handle.router
    | none =>
      let binding ← findBinding? r.bindings (r.textOf function)
      guard !(isFrameworkModule binding.specifier)
      return .imported binding.specifier binding.imported
  else if function.is .memberExpression then r.moduleMember? function
  else none

/-- The findings with the name that a declaration gives to a router, or to what a function returns.
-/
def Findings.withAlias (site : Site) : Findings :=
  match site.node.child? .name, site.node.child? .value with
  | some nameNode, some value =>
    let name := r.textOf nameNode
    let value := value.unwrapped
    let root := chainRoot value
    if !nameNode.is .identifier then x
    else if root.is .identifier then
      match x.lookup? (r.textOf root) root.start with
      | none => x
      | some handle =>
        if (chainCalls value).isEmpty then x.bind name site handle
        else x.bind name site ⟨handle.router, joinBase handle.base (r.chainBase value)⟩
    else if root.is .callExpression then
      match x.factoryTarget? r root with
      | none => x
      | some target =>
        let at_ := root.position r.source
        let mount : Mount :=
          ⟨"", target, at_.line + 1, at_.character + 1, r.textOf root, true⟩
        let router := x.routers.length
        ((x.addRouter r name site.node true [.mount mount]).own root.start router).bind name site
          ⟨router, r.chainBase value⟩
    else x
  | _, _ => x

def Findings.withAliases : Findings :=
  (r.file.tree.sites.filter (·.node.is .variableDeclarator)).foldl (·.withAlias r ·) x

def Reading.routers : Findings :=
  (r.constructions.withFunctions r).withAliases r

end RouteAtlas.Inventory
