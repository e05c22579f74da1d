import RouteAtlas.Expansion.Declaration
import RouteAtlas.Finder.Locate
import RouteAtlas.Modules.Resolver
import RouteAtlas.Rpc.Registry
import RouteAtlas.Scope.Free

/-!
# Expanding a function

Every name that a function uses from outside is looked up: as an import, followed through the
modules that pass it on; as a declaration of the same file; and, if there is one, by a language
server. A function that is found this way is expanded in turn, each once, down to a given depth. A
name without a definition stays in the context as unresolved.
-/

namespace RouteAtlas.Expansion

open Files Source Inventory Modules Rpc

/-- What stands for the text of code that is not the project's own. -/
def thirdPartyText : String := "#third-party-library-code"

/-- How often exports may be followed from module to module, the first one included. -/
def exportHops : Nat := 9

/-- The file that a binding leads to, unless it is a dependency. -/
def ownTarget? (t : Tree) (m : Module) (b : Binding) : StateM Resolver (Option Path) := do
  return (← Resolver.resolve? t b.specifier m.path).filter (!·.inNodeModules)

/-- The first declaration that the modules of re-exports give out for a name, if `next` looks there.
-/
def reExported? (t : Tree) (next : Path → String → StateM Resolver (Option Declaration))
    (m : Module) (name : String) : StateM Resolver (Option Declaration) :=
  m.bindings.findSomeM? fun b => do
    match b.forwards? name with
    | none => return none
    | some forwarded =>
      match ← ownTarget? t m b with
      | none => return none
      | some path => next path forwarded

/-- The declaration behind a name of a module that it gives out under another name: its own, or that
of the module from which it imports the name. -/
def exportedAs? (t : Tree) (next : Path → String → StateM Resolver (Option Declaration))
    (m : Module) (own name : String) : StateM Resolver (Option Declaration) := do
  match m.declaration? own with
  | some d => return some d
  | none =>
    match (findBinding? m.bindings own).filter (·.kind ≠ .namespace) with
    | none => reExported? t next m name
    | some b =>
      match ← ownTarget? t m b with
      | none => reExported? t next m name
      | some path => next path b.imported

/-- The declaration that a module gives out under a name; names are followed through at most `hops`
modules. -/
def exported? (t : Tree) : (hops : Nat) → Path → String → StateM Resolver (Option Declaration)
  | 0, _, _ => return none
  | hops + 1, path, name => do
    match Module.load? t path with
    | none => return none
    | some m =>
      let next := exported? t hops
      if name = "default" then
        match m.defaultExport with
        | .statement d => return some d
        | .name own => exportedAs? t next m own name
        | .missing => reExported? t next m name
      else exportedAs? t next m ((m.localName? name).getD name) name

/-- What is kept from one expansion to the next. -/
structure Expander (σ : Type) where
  resolver : Resolver
  /-- The functions that were expanded or passed over, by file and name. -/
  visited : List (Path × String) := []
  /-- The language servers, if they may be asked. -/
  servers : Option (Registry σ) := none
  /-- No language server could be started. -/
  serverless : Bool := false

section Expanding

variable {σ : Type} (t : Tree) (root : Path)

def withResolver (look : StateM Resolver α) : StateM (Expander σ) α := do
  let e ← get
  let (found, resolver) := look.run e.resolver
  set { e with resolver }
  return found

/-- Notes that a function is met; says whether for the first time. -/
def firstVisit (path : Path) (name : String) : StateM (Expander σ) Bool := do
  let e ← get
  if e.visited.any fun (p, n) => p.same path && n = name then return false
  set { e with visited := (path, name) :: e.visited }
  return true

def definitionAt (path : Path) (range : Range) (text : String) : Definition :=
  ⟨path.uri, Path.shownFrom root path, range, text⟩

/-- How the function of a declaration is expanded, if it may be. -/
abbrev Nested (σ : Type) := Option (Module → Node → StateM (Expander σ) (List ContextEntry))

variable (nested : Nested σ) (m : Module)

def entryFor (name : String) (position : Position) (d : Declaration) :
    StateM (Expander σ) ContextEntry := do
  let range := d.statement.range d.file.text
  let definition := definitionAt root d.file.path range (d.statement.source d.file.text)
  let context ← match d.function with
    | none => pure []
    | some function =>
      if ← firstVisit d.file.path d.name then
        match nested with
        | some expand => expand d.file function
        | none => pure []
      else pure []
  return { name, kind := d.kind, position, definition := some definition, context }

def thirdPartyEntry (name : String) (position : Position) (path : Path) (range : Range) :
    ContextEntry :=
  { name, position
    definition := some (definitionAt root path range thirdPartyText)
    package := packageOf? path }

def zeroRange : Range := ⟨⟨0, 0⟩, ⟨0, 0⟩⟩

def wholeRange : Range := ⟨⟨0, 0⟩, ⟨0xffffffff, 0xffffffff⟩⟩

/-- The entry of a name that could not be imported: that of a package has at least its name. -/
def missedImport? (b : Binding) (position : Position) : Option ContextEntry :=
  if isBare b.specifier then
    some { name := b.localName, position, package := some (splitBare b.specifier).1 }
  else none

/-- The entry of a name that is imported from a file. -/
def fromTarget? (b : Binding) (position : Position) (target : Path) :
    StateM (Expander σ) (Option ContextEntry) := do
  if target.inNodeModules then
    return some (thirdPartyEntry root b.localName position target zeroRange)
  else if b.kind = .namespace then
    return (t.text? target).map fun text =>
      { name := b.localName, position
        definition := some (definitionAt root target wholeRange text) }
  else
    match ← withResolver (exported? t exportHops target b.imported) with
    | none => return none
    | some d => return some (← entryFor root nested b.localName position d)

/-- The entry of an imported name. -/
def fromImport? (b : Binding) (position : Position) :
    StateM (Expander σ) (Option ContextEntry) := do
  match ← withResolver (Resolver.resolve? t b.specifier m.path) with
  | none => return missedImport? b position
  | some target => fromTarget? t root nested b position target

/-- What the language server says about a name. -/
inductive ServerAnswer where
  | entry (entry : ContextEntry)
  /-- The name is part of the language or its environment. -/
  | global
  | nothing

/-- A declaration file of the language itself or of its environment. -/
def isLibrary (path : Path) : Bool :=
  Text.endsWith ".d.ts" path.text &&
    (packageOf? path).any fun package => package = "typescript" || Text.startsWith "@types/" package

variable (name : Scope.FreeName)

/-- The first location that the language server gives for a name. -/
def askServer : StateM (Expander σ) (Option Location) := do
  let e ← get
  match e.servers with
  | none => return none
  | some registry =>
    if e.serverless then return none
    match registry.start t root with
    | (.error _, registry) =>
      set { e with servers := some registry, serverless := true }
      return none
    | (.ok number, registry) =>
      match registry.session? number with
      | none => return none
      | some session =>
        let at_ := name.position
        let column := Text.utf16Column m.text at_.line at_.character
        let (found, session) := session.definition t m.path ⟨at_.line, column⟩
        set { e with servers := some (registry.update session) }
        return found.toOption.bind List.head?

/-- What is known of a name from the location that the language server gives. -/
def fromLocation (location : Location) : StateM (Expander σ) ServerAnswer := do
  match Path.ofUri? location.uri with
  | none => return .nothing
  | some path =>
    if path.inNodeModules then
      if isLibrary path then return .global
      else return .entry (thirdPartyEntry root name.name name.position path location.range)
    else if !Path.isBelow root path && Text.endsWith ".d.ts" path.text then return .global
    else
      match Module.load? t path with
      | none => return .nothing
      | some target =>
        let start := location.range.start
        let column := Text.byteColumn target.text start.line start.character
        match target.around? ⟨start.line, column⟩ with
        | none => return .nothing
        | some d => return .entry (← entryFor root nested name.name name.position d)

/-- The entry of a name by the language server; none if it is global, an unresolved one if nothing
is known. -/
def fromServer? : StateM (Expander σ) (Option ContextEntry) := do
  let answer ← match ← askServer t root m name with
    | none => pure .nothing
    | some location => fromLocation t root nested name location
  match answer with
  | .entry entry => return some entry
  | .global => return none
  | .nothing => return some { name := name.name, position := name.position, unresolved := true }

/-- The entry of a name that a function of a module uses from outside. -/
def explain? : StateM (Expander σ) (Option ContextEntry) := do
  match findBinding? m.bindings name.name with
  | some b =>
    match ← fromImport? t root nested m b name.position with
    | some entry => return some entry
    | none => fromServer? t root nested m name
  | none =>
    match m.declaration? name.name with
    | some d => return some (← entryFor root nested name.name name.position d)
    | none => fromServer? t root nested m name

/-- The entries of the names that a function uses from outside. -/
def entriesFor (function : Node) : StateM (Expander σ) (List ContextEntry) := do
  let entries ← (Scope.freeNames m.text function).mapM (explain? t root nested m)
  return entries.filterMap id

/-- The context of a function, with further functions expanded down to so many levels below it. -/
def contextFor : (levels : Nat) → Module → Node → StateM (Expander σ) (List ContextEntry)
  | 0, m, function => entriesFor t root none m function
  | levels + 1, m, function => entriesFor t root (some (contextFor levels)) m function

/-- Finds the function with a given text and expands it. -/
def expand (maxDepth : Nat) (text : String) (options : Finder.LocateOptions) :
    StateM (Expander σ) (Option ExpandedFunction) := do
  match Finder.locate? t root text options with
  | none => return none
  | some found =>
    match Module.load? t found.file with
    | none => return none
    | some m =>
      let context ← match nodeWithin? m.tree found.start found.stop with
        | some function => contextFor t root (maxDepth - 1) m function
        | none => pure []
      return some ⟨found.file, found.span, found.text, context⟩

end Expanding

end RouteAtlas.Expansion
