import RouteAtlas.Source.Shape

/-!
# Free names

The names that a function uses and does not bind. Bindings are block scoped, apart from those of
`var`, which belong to the function around them; so a name that is bound in one block does not hide
a free use elsewhere. Names that every program has are never free.
-/

namespace RouteAtlas.Scope

open Source

def globals : List String :=
  ["AbortController", "Array", "ArrayBuffer", "Awaited", "BigInt", "Blob", "Boolean", "Buffer",
   "Date", "Error", "Exclude", "Extract", "FormData", "Headers", "Infinity", "JSON", "Map",
   "Math", "NaN", "NonNullable", "Number", "Object", "Omit", "Parameters", "Partial", "Pick",
   "Promise", "RangeError", "ReadableStream", "Readonly", "Record", "Reflect", "RegExp",
   "Request", "Required", "Response", "ReturnType", "Set", "String", "Symbol", "SyntaxError",
   "TextDecoder", "TextEncoder", "TypeError", "URL", "URLSearchParams", "Uint8Array", "WeakMap",
   "WeakSet", "arguments", "atob", "btoa", "clearInterval", "clearTimeout", "console", "crypto",
   "decodeURIComponent", "encodeURIComponent", "exports", "fetch", "globalThis", "module",
   "parseFloat", "parseInt", "process", "queueMicrotask", "require", "setInterval",
   "setTimeout", "structuredClone", "undefined"]

/-! ## What is bound -/

mutual

def patternNames (source : String) : Node → List String
  | .mk (.token _) _ _ _ _ => []
  | .mk (.named kind) role start stop children =>
    match kind with
    | .identifier | .shorthandPropertyIdentifierPattern =>
      [(Node.mk (.named kind) role start stop children).text source]
    | .requiredParameter | .optionalParameter => namesOfPart source .pattern children
    | .assignmentPattern | .objectAssignmentPattern => namesOfPart source .left children
    | .pairPattern => namesOfPart source .value children
    | .objectPattern | .arrayPattern | .restPattern => namesOfPatterns source children
    | _ => []

/-- The names that the first pattern with the given part binds. -/
def namesOfPart (source : String) (role : Role) : List Node → List String
  | [] => []
  | n :: ns => if n.role == some role then patternNames source n else namesOfPart source role ns

def namesOfPatterns (source : String) : List Node → List String
  | [] => []
  | n :: ns => patternNames source n ++ namesOfPatterns source ns

end

def nameDeclarations : List Kind :=
  [.functionDeclaration, .generatorFunctionDeclaration, .classDeclaration,
   .abstractClassDeclaration, .interfaceDeclaration, .typeAliasDeclaration, .enumDeclaration]

variable (source : String)

/-- The names that a statement binds for the block around it. -/
def declaredNames (statement : Node) : List String :=
  if statement.isOneOf [.lexicalDeclaration, .variableDeclaration] then
    statement.named.flatMap fun declarator =>
      ((declarator.child? .name).map (patternNames source)).getD []
  else if statement.isOneOf nameDeclarations then
    ((statement.child? .name).map fun n => [n.text source]).getD []
  else []

mutual

/-- The names of the `var` declarations in a function's body, outside inner functions. -/
def hoistedNames (source : String) : Node → List String
  | .mk label role start stop children =>
    let n := Node.mk label role start stop children
    (if n.is .variableDeclaration then declaredNames source n else []) ++
      hoistedOfAll source children

/-- The names of the `var` declarations in a list of nodes that are not functions. -/
def hoistedOfAll (source : String) : List Node → List String
  | [] => []
  | n :: ns =>
    if n.isNamed && !n.kindIs Kind.isFunction then hoistedNames source n ++ hoistedOfAll source ns
    else hoistedOfAll source ns

end

/-- The names that a function binds for its own parts: its name, its parameters, the parameters of
its types, and the variables of its body. -/
def functionNames (n : Node) : List String :=
  let own := match n.child? .name with
    | some name => if name.is .identifier then [name.text source] else []
    | none => []
  let params := ((n.child? .parameters).map fun ps =>
    ps.named.flatMap (patternNames source)).getD []
  let param := ((n.child? .parameter).map (patternNames source)).getD []
  let types := ((n.child? .typeParameters).map fun ps =>
    ps.named.filterMap fun p => (p.child? .name).map (·.text source)).getD []
  let hoisted := ((n.child? .body).map (hoistedNames source)).getD []
  own ++ params ++ param ++ types ++ hoisted

/-- The names that a node binds for its parts, if it opens a scope. -/
def scopeNames? (n : Node) : Option (List String) :=
  if n.kindIs Kind.isFunction then some (functionNames source n)
  else if n.isOneOf [.statementBlock, .switchBody] then
    some (n.named.flatMap (declaredNames source))
  else if n.is .forStatement then
    some (((n.child? .initializer).map (declaredNames source)).getD [])
  else if n.is .forInStatement then
    some (if (n.child? .kind).isSome then
      ((n.child? .left).map (patternNames source)).getD [] else [])
  else if n.is .catchClause then
    some (((n.child? .parameter).map (patternNames source)).getD [])
  else none

/-! ## What is used -/

/-- A name and where it is used. -/
structure Use where
  name : String
  byte : Nat
  deriving DecidableEq, Repr

def isReference (k : Kind) : Bool :=
  k == .identifier || k == .shorthandPropertyIdentifier || k == .typeIdentifier

/-- Nodes whose own names are labels. -/
def holdsLabel (k : Kind) : Bool :=
  k == .labeledStatement || k == .breakStatement || k == .continueStatement

def isFree (scopes : List (List String)) (name : String) : Bool :=
  !(scopes.any (·.contains name) || globals.contains name)

mutual

/-- The free uses in a tree under the given scopes, in source order. -/
def uses (source : String) (scopes : List (List String)) (label : Bool) : Node → List Use
  | .mk (.token _) _ _ _ _ => []
  | .mk (.named kind) role start stop children =>
    let n := Node.mk (.named kind) role start stop children
    if isReference kind then
      let name := n.text source
      if isFree scopes name && !label then [⟨name, start⟩] else []
    else if kind == .shorthandPropertyIdentifierPattern then []
    else
      let scopes := match scopeNames? source n with
        | some names => names :: scopes
        | none => scopes
      usesOfAll source scopes (holdsLabel kind) children

def usesOfAll (source : String) (scopes : List (List String)) (label : Bool) :
    List Node → List Use
  | [] => []
  | n :: ns => uses source scopes label n ++ usesOfAll source scopes label ns

end

def firstUses : (seen : List String) → List Use → List Use
  | _, [] => []
  | seen, u :: us =>
    if seen.contains u.name then firstUses seen us else u :: firstUses (u.name :: seen) us

/-- A free name and where it is first used. -/
structure FreeName where
  name : String
  position : Position
  byte : Nat
  deriving DecidableEq, Repr

/-- The names that a function uses and does not bind, in order of first use. The function's own name
is bound. -/
def freeNames (function : Node) : List FreeName :=
  let own := match function.child? .name with
    | some name => [name.text source]
    | none => []
  (firstUses [] (uses source [own] false function)).map fun u =>
    ⟨u.name, positionAt source u.byte, u.byte⟩

end RouteAtlas.Scope
