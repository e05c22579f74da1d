import RouteAtlas.Source.Node

/-!
# Shapes of syntax

What the analyses ask of a syntax tree: the parts of calls, members and objects, the value inside
wrappers that do not change it, and the nodes of a tree in the order of the source, each with the
nodes around it.
-/

namespace RouteAtlas.Source

def Kind.isFunctionValue (k : Kind) : Bool :=
  k == .functionExpression || k == .arrowFunction || k == .generatorFunction

def Kind.isFunctionDeclaration (k : Kind) : Bool :=
  k == .functionDeclaration || k == .generatorFunctionDeclaration

/-- Functions and methods of every form. -/
def Kind.isFunction (k : Kind) : Bool :=
  k.isFunctionValue || k.isFunctionDeclaration || k == .methodDefinition

/-- The text between the quotes around it, if there are any. -/
def unquote? (raw : String) : Option String :=
  match (Text.trim raw).toList with
  | first :: rest =>
    if (first == '"' || first == '\'' || first == '\x60') && rest.getLast? == some first then
      some (String.ofList rest.dropLast)
    else none
  | [] => none

namespace Node

def kindIs (p : Kind → Bool) (n : Node) : Bool := n.kind?.any p

mutual

def size : Node → Nat
  | mk _ _ _ _ children => sizeAll children + 1

def sizeAll : List Node → Nat
  | [] => 0
  | n :: ns => n.size + sizeAll ns

end

/-- Steps from node to node, at most `fuel` of them. -/
def followUpTo (step : Node → Option Node) : (fuel : Nat) → Node → Node
  | 0, n => n
  | fuel + 1, n => match step n with
    | some m => followUpTo step fuel m
    | none => n

/-- The last node that steps into a tree reach. -/
def follow (step : Node → Option Node) (n : Node) : Node := followUpTo step n.size n

/-! ## Parts -/

variable (n : Node)

/-- What a call calls or a new object is made by. -/
def target? : Option Node := n.child? .function <|> n.child? .constructor

def arguments : List Node :=
  match n.child? .arguments with
  | some args => args.named.filter (!·.is .comment)
  | none => []

variable (source : String)

def memberParts? : Option (Node × String) := do
  guard (n.is .memberExpression)
  let object ← n.child? .object
  let property ← n.child? .property
  return (object, property.text source)

/-- The node inside a wrapper that does not change its value: parentheses, a wait, or a statement
about its type. -/
def unwrapStep? : Option Node :=
  if n.isOneOf [.parenthesizedExpression, .awaitExpression, .nonNullExpression] then n.named.head?
  else if n.isOneOf [.asExpression, .satisfiesExpression, .typeAssertion] then
    n.named.find? fun c => !Text.contains "type" c.kindName
  else none

/-- The value without wrappers that do not change it. -/
def unwrapped : Node := n.follow unwrapStep?

def stringValue? : Option String :=
  if n.is .string then unquote? (n.text source) else none

def propertyValue? (key source : String) : Option Node := do
  let isKey (pair : Node) : Bool :=
    match pair.child? .key with
    | some k =>
      pair.is .pair && Text.trimChar '\'' (Text.trimChar '"' (k.text source)) == key
    | none => false
  let pair ← n.named.find? isKey
  pair.child? .value

/-- The module that an import or an export names. -/
def moduleSource? : Option String := do
  (← n.child? .source).stringValue? source

end Node

/-! ## Nodes in order -/

/-- A node with the nodes around it, the nearest one first. -/
structure Site where
  node : Node
  above : List Node

mutual

/-- The named nodes of a tree in source order, each before its children. -/
def Node.sitesBelow (above : List Node) : Node → List Site
  | .mk label role start stop children =>
    let n := Node.mk label role start stop children
    ⟨n, above⟩ :: sitesOfAll (n :: above) children

def sitesOfAll (above : List Node) : List Node → List Site
  | [] => []
  | n :: ns =>
    if n.isNamed then n.sitesBelow above ++ sitesOfAll above ns else sitesOfAll above ns

end

def Node.sites (n : Node) : List Site := n.sitesBelow []

mutual

/-- The named nodes of a tree in source order, without what is inside other functions. -/
def Node.ownNodes : Node → List Node
  | .mk label role start stop children =>
    .mk label role start stop children :: ownNodesOfAll children

def ownNodesOfAll : List Node → List Node
  | [] => []
  | n :: ns =>
    if n.isNamed && !n.kindIs (fun k => k.isFunctionValue || k.isFunctionDeclaration) then
      n.ownNodes ++ ownNodesOfAll ns
    else ownNodesOfAll ns

end

namespace Site

def parent? (s : Site) : Option Node := s.above.head?

/-- The bytes of the innermost function around a node, or of the whole source. -/
def scope (s : Site) : Nat × Nat :=
  match s.above.find? (·.kindIs Kind.isFunction) <|> s.above.getLast? with
  | some n => (n.start, n.stop)
  | none => (s.node.start, s.node.stop)

/-- The node is the value of a default export, or the start of a chain that is. -/
def isDefaultExport (s : Site) : Bool :=
  let chain : List Kind := [.callExpression, .memberExpression, .parenthesizedExpression]
  match s.above.find? (!·.isOneOf chain) with
  | some n => n.is .exportStatement && n.hasToken "default"
  | none => false

end Site

end RouteAtlas.Source
