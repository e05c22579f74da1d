import RouteAtlas.Source.Shape

/-!
# Names from other modules

The names that a file takes from other modules or passes on: imports, re-exports, and calls of
`require` at the top of a file.
-/

namespace RouteAtlas.Inventory

open Source

/-- What an import takes from a module. -/
inductive BindingKind where
  | default
  | named
  /-- The whole module under one name. -/
  | namespace
  /-- Passed on to the modules that import this one. -/
  | reExport
  deriving DecidableEq, Repr

def BindingKind.name : BindingKind → String
  | .default => "default"
  | .named => "named"
  | .namespace => "namespace"
  | .reExport => "reExport"

/-- A name taken from another module: what it is called here and there. A star stands for all of a
module. -/
structure Binding where
  localName : String
  imported : String
  specifier : String
  kind : BindingKind
  deriving DecidableEq, Repr

def withoutQuotes (s : String) : String :=
  String.ofList (Text.trimBy (fun c => c == '"' || c == '\'') s.toList)

variable (source : String)

/-- What an item of a list of names is called there and here. -/
def specifierNames? (item : Node) : Option (String × String) := do
  let name ← item.child? .name
  let imported := withoutQuotes (name.text source)
  return (imported, ((item.child? .alias).map (·.text source)).getD imported)

def clauseBindings (source specifier : String) (part : Node) : List Binding :=
  if part.is .identifier then [⟨part.text source, "default", specifier, .default⟩]
  else if part.is .namespaceImport then
    ((part.named.find? (·.is .identifier)).map fun n =>
      ⟨n.text source, "*", specifier, .namespace⟩).toList
  else if part.is .namedImports then
    (part.named.filter (·.is .importSpecifier)).filterMap fun item => do
      let (imported, localName) ← specifierNames? source item
      let kind := if imported = "default" then BindingKind.default else .named
      return ⟨localName, imported, specifier, kind⟩
  else []

def importBindings (n : Node) : List Binding :=
  match n.moduleSource? source with
  | none => []
  | some specifier =>
    (n.named.filter (·.is .importClause)).flatMap fun clause =>
      clause.named.flatMap (clauseBindings source specifier)

/-- The names that one part of an export passes on; `none` if it names nothing. -/
def passedOn? (source specifier : String) (part : Node) : Option (List Binding) :=
  if part.is .exportClause then
    some ((part.named.filter (·.is .exportSpecifier)).filterMap fun item => do
      let (imported, localName) ← specifierNames? source item
      return ⟨localName, imported, specifier, .reExport⟩)
  else if part.is .namespaceExport then
    some ((part.named.getLast?.map fun n =>
      ⟨withoutQuotes (n.text source), "*", specifier, .namespace⟩).toList)
  else none

/-- The names that an export passes on; all of them if it names none. -/
def exportBindings (n : Node) : List Binding :=
  match n.moduleSource? source with
  | none => []
  | some specifier =>
    let parts := n.named.filterMap (passedOn? source specifier)
    if parts.isEmpty then [⟨"*", "*", specifier, .reExport⟩] else parts.flatten

def requiredModule? (value : Node) : Option String := do
  guard (value.is .callExpression)
  let target ← value.target?
  guard (target.is .identifier && target.text source == "require")
  (← value.arguments.head?).stringValue? source

/-- The names that one part of an object pattern takes from a module. -/
def patternBinding? (source specifier : String) (part : Node) : Option Binding :=
  if part.is .shorthandPropertyIdentifierPattern then
    some ⟨part.text source, part.text source, specifier, .named⟩
  else if part.is .pairPattern then do
    let key ← part.child? .key
    let value ← part.child? .value
    guard (value.is .identifier)
    return ⟨value.text source, key.text source, specifier, .named⟩
  else none

/-- The names that a variable takes from a module. -/
def requireBindings (declarator : Node) : List Binding :=
  match declarator.child? .name, declarator.child? .value with
  | some name, some value =>
    match requiredModule? source value with
    | none => []
    | some specifier =>
      if !declarator.is .variableDeclarator then []
      else if name.is .identifier then [⟨name.text source, "default", specifier, .default⟩]
      else if name.is .objectPattern then name.named.filterMap (patternBinding? source specifier)
      else []
  | _, _ => []

/-- The names that a file takes from other modules, in source order. -/
def bindingsOf (root : Node) : List Binding :=
  root.named.flatMap fun n =>
    if n.is .importStatement then importBindings source n
    else if n.is .exportStatement then exportBindings source n
    else if n.isOneOf [.lexicalDeclaration, .variableDeclaration] then
      n.named.flatMap (requireBindings source)
    else []

/-- The name in the other module that a binding passes on under a name of this one. A star passes on
everything but the default. -/
def Binding.forwards? (b : Binding) (name : String) : Option String :=
  if b.kind != .reExport then none
  else if b.localName == name then some b.imported
  else if b.localName == "*" && name != "default" then some name
  else none

/-- The first name of a file that is bound to something of another module. -/
def findBinding? (bindings : List Binding) (localName : String) : Option Binding :=
  bindings.find? fun b => b.kind ≠ .reExport && b.localName == localName

end RouteAtlas.Inventory
