import RouteAtlas.Expansion.Context
import RouteAtlas.Files.Tree
import RouteAtlas.Inventory.Binding
import RouteAtlas.Source.Parse

/-!
# Declarations of a module

The declarations at the top of a module, the names under which it gives them out, and the
declaration around a place.
-/

namespace RouteAtlas.Expansion

open Files Source Inventory

/-- A source file that was read. -/
structure Module where
  path : Path
  text : String
  tree : Node
  bindings : List Binding

/-- Reads a module; without a known extension it is taken for TypeScript. -/
def Module.load? (t : Tree) (path : Path) : Option Module :=
  (t.text? path).map fun text =>
    let tree := parse ((Language.ofPath? path).getD .typescript) text
    ⟨path, text, tree, bindingsOf text tree⟩

/-- A declaration: its name, the statement that makes it, and the function that it is, if any. -/
structure Declaration where
  file : Module
  name : String
  statement : Node
  kind : DefinitionKind
  function : Option Node := none

namespace Module

variable (m : Module)

def statements : List Node := m.tree.named

def textOf (n : Node) : String := n.text m.text

variable (name : String)

def declares (n : Node) : Bool :=
  match n.child? .name with
  | some child => m.textOf child = name
  | none => false

def declarator? (statement inner : Node) : Option Declaration := do
  let declarator ← inner.named.find? fun d => d.is .variableDeclarator && m.declares name d
  match (declarator.child? .value).map Node.unwrapped with
  | some value =>
    if value.kindIs Kind.isFunctionValue then some ⟨m, name, statement, .function, some value⟩
    else some ⟨m, name, statement, .unknown, none⟩
  | none => some ⟨m, name, statement, .unknown, none⟩

variable (statement : Node)

/-- What a statement declares: itself, or for an export the declaration in it. -/
def inner? : Option Node :=
  if statement.is .exportStatement then statement.child? .declaration else some statement

def declarationIn? (statement : Node) : Option Declaration := do
  let inner ← inner? statement
  if inner.kindIs Kind.isFunctionDeclaration && m.declares name inner then
    some ⟨m, name, statement, .function, some inner⟩
  else if inner.isOneOf [.lexicalDeclaration, .variableDeclaration] then
    m.declarator? name statement inner
  else if inner.isOneOf [.typeAliasDeclaration, .interfaceDeclaration, .enumDeclaration] &&
      m.declares name inner then
    some ⟨m, name, statement, .type, none⟩
  else if inner.isOneOf [.classDeclaration, .abstractClassDeclaration] && m.declares name inner then
    some ⟨m, name, statement, .unknown, none⟩
  else none

/-- The first declaration of a name at the top of the module. -/
def declaration? : Option Declaration :=
  m.statements.findSome? (m.declarationIn? name)

variable (exported : String)

/-- The name in this module that an item of an export list gives out under another one. -/
def listedName? (item : Node) : Option String := do
  let own ← item.child? .name
  let own := m.textOf own
  let given := ((item.child? .alias).map m.textOf).getD own
  if given = exported then some own else none

/-- The name in this module that an export statement with a list gives out under another one. -/
def exportedName? (statement : Node) : Option String :=
  if statement.is .exportStatement && (statement.child? .source).isNone then
    (statement.named.filter (·.is .exportClause)).findSome? fun clause =>
      clause.named.findSome? (m.listedName? exported)
  else none

/-- The name in this module of what it gives out under a name. -/
def localName? : Option String :=
  m.statements.findSome? (m.exportedName? exported)

/-- What the default export of a module is. -/
inductive DefaultExport where
  | name (own : String)
  | statement (declaration : Declaration)
  | missing

/-- The declaration that a statement with a default export makes by itself. -/
def anonymousDefault : Declaration :=
  let function :=
    statement.named.find? (·.kindIs fun k => k.isFunctionValue || k.isFunctionDeclaration)
  ⟨m, "default", statement, if function.isSome then .function else .unknown, function⟩

def defaultIn? : Option DefaultExport :=
  if !statement.is .exportStatement then none
  else if !statement.hasToken "default" then (m.exportedName? "default" statement).map .name
  else
    match (statement.child? .declaration).bind (·.child? .name) with
    | some name => some (.name (m.textOf name))
    | none =>
      match statement.child? .value with
      | some value =>
        if value.is .identifier then some (.name (m.textOf value))
        else some (.statement (m.anonymousDefault statement))
      | none => some (.statement (m.anonymousDefault statement))

def defaultExport : DefaultExport := (m.statements.findSome? m.defaultIn?).getD .missing

def atOrBefore (p q : Position) : Bool :=
  p.line < q.line || (p.line = q.line && p.character ≤ q.character)

def holds (at_ : Position) (statement : Node) : Bool :=
  let r := statement.range m.text
  atOrBefore r.start at_ && !atOrBefore r.stop at_

/-- The name by which a statement is known: that of its declaration, or of its first declarator. -/
def statementName? : Option String :=
  let inner := (inner? statement).getD statement
  match inner.child? .name with
  | some name => some (m.textOf name)
  | none => do
    let first ← inner.named.find? (·.is .variableDeclarator)
    return m.textOf (← first.child? .name)

/-- The declaration at the top of the module around a position. -/
def around? (at_ : Position) : Option Declaration := do
  let statement ← m.statements.find? (m.holds at_)
  m.declarationIn? (← m.statementName? statement) statement

end Module

mutual

/-- The nodes from this one down to the smallest one that holds the given bytes. -/
def pathWithin (start stop : Nat) : Node → List Node
  | .mk label role nodeStart nodeStop children =>
    .mk label role nodeStart nodeStop children :: pathAmong start stop children

/-- The nodes from one of several down to the smallest one that holds the given bytes. -/
def pathAmong (start stop : Nat) : List Node → List Node
  | [] => []
  | n :: ns =>
    if n.stop < stop || n.stop ≤ start then pathAmong start stop ns
    else if start < n.start then []
    else pathWithin start stop n

end

/-- The node of exactly the given bytes; of several a function, and then the innermost. -/
def nodeWithin? (tree : Node) (start stop : Nat) : Option Node :=
  let exact :=
    ((pathWithin start stop tree).filter fun n => n.start = start && n.stop = stop).reverse
  exact.find? (·.kindIs Kind.isFunction) <|> exact.head?

end RouteAtlas.Expansion
