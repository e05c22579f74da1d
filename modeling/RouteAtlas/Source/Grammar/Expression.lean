import RouteAtlas.Source.Grammar.Class
import RouteAtlas.Source.Grammar.Markup

/-!
# Values

Values are read from the inside out: a primary value, the accesses and calls behind it, unary
operators in front, binary operators by their level, conditions, and assignments and arrow
functions at the outside. A type ascription binds looser than every binary operator.
-/

namespace RouteAtlas.Source.Grammar

open Node

/-! ## Primary values -/

/-- Words that stand behind a whole value, or start a statement and not a value. -/
def wordsBehindValue : List String :=
  ["as", "satisfies", "const", "var", "if", "for", "while", "do", "switch", "try", "throw",
    "return", "break", "continue", "debugger", "export", "enum", "else", "case", "default"]

/-- Nothing comes next that could be the operand of an operator. -/
def noOperand : Read Bool := do
  match ← ahead with
  | [] => return true
  | c :: _ =>
    match ← peekWord with
    | some w => return wordsBehindValue.contains w
    | none => return ";,)]\x7d:=?&|".toList.contains c

variable (g : Context)

def bareTypeArguments : Rule := do
  let args ← g.whenTyped (part .typeArguments (typeArguments g))
  guardRead (← noOperand)
  return args

variable (inner : Read Node)

def newObject : Rule := do
  let keyword ← word "new"
  if (← peekSymbol) == some "." then
    let dot ← symbol "."
    let target ← word "target"
    return [spanning .metaProperty [keyword, dot, target]]
  let maker ← inner
  let args ← maybe (inOrder
    [maybe (g.whenTyped (part .typeArguments (typeArguments g))), part .arguments (arguments g)] <|>
    bareTypeArguments g)
  return [spanning .newExpression (keyword :: maker.withRole .constructor :: args)]

/-- The module system as a value. -/
def importValue : Rule := do
  let keyword ← namedWord .importKeyword "import"
  if (← peekSymbol) == some "." then
    let dot ← symbol "."
    let target ← word "meta"
    return [spanning .metaProperty [token "import" keyword.start keyword.stop, dot, target]]
  else return [keyword]

def wordValues : List (String × Kind) :=
  [("this", .thisValue), ("super", .superValue), ("true", .trueValue), ("false", .falseValue),
   ("null", .nullValue), ("undefined", .undefinedValue)]

/-- A value that starts with a word. -/
def worded : Rule := do
  match ← peekWord with
  | none => failure
  | some w =>
    match wordValues.lookup w with
    | some kind => one (namedWord kind w)
    | none =>
      if w == "function" then functionExpression g
      else if w == "class" then classExpression g
      else if w == "new" then newObject g inner
      else if w == "import" then importValue
      else if w == "async" then functionExpression g <|> one (valueName .identifier)
      else one (valueName .identifier)

/-- A value without operators, accesses and calls. `inner` reads what makes a new object. -/
def primary : Rule := do
  match ← ahead with
  | [] => failure
  | '(' :: _ => parenthesized g
  | '[' :: _ => array g
  | '{' :: _ => object g
  | '"' :: _ => stringLiteral
  | '\'' :: _ => stringLiteral
  | '\x60' :: _ => templateString g
  | '/' :: _ => regex
  | '<' :: _ => if g.language.hasMarkup then g.rule .element else failure
  | '#' :: _ => privateName
  | '@' :: _ => classExpression g
  | cs => if startsNumber cs then number else worded g inner

/-! ## Accesses and calls -/

def optionalMark : Rule := one do
  let n ← symbol "?."
  return (leaf .optionalChain n.start n.stop).withRole .optionalChain

def memberAccess (link : Rule) (n : Node) : Read Node := do
  let link ← link
  let name ← one (anyName .propertyIdentifier) <|> privateName
  return spanning .memberExpression (n.withRole .object :: link ++ name.map (withRole .property))

def indexAccess (link : Rule) (n : Node) : Read Node := do
  let rest ← inOrder [link, "[", part .index (expressions g), "]"]
  return spanning .subscriptExpression (n.withRole .object :: rest)

def call (link : Rule) (n : Node) : Read Node := do
  let rest ← inOrder [link, maybe (g.whenTyped (part .typeArguments (typeArguments g))),
     part .arguments (arguments g)]
  return spanning .callExpression (n.withRole .function :: rest)

variable (n : Node)

def tagged : Read Node := do
  let text ← part .arguments (templateString g)
  return spanning .callExpression (n.withRole .function :: text)

def assured : Read Node := do
  guardRead (g.language.isTyped && !(← newLine))
  let mark ← symbol "!"
  return spanning .nonNullExpression [n, mark]

def instantiated : Read Node := do
  let args ← bareTypeArguments g
  return spanning .instantiationExpression (n :: args)

/-- One access or call behind a value; calls only if `calls` is set. -/
def access (calls : Bool) (n : Node) : Read Node := do
  match ← ahead with
  | '.' :: _ => memberAccess (one (symbol ".")) n
  | '[' :: _ => indexAccess g (pure []) n
  | '!' :: _ => assured g n
  | '?' :: _ =>
    guardRead calls
    indexAccess g optionalMark n <|> call g optionalMark n <|> memberAccess optionalMark n
  | '(' :: _ => guardRead calls; call g (pure []) n
  | '<' :: _ => guardRead calls; call g (pure []) n <|> instantiated g n
  | '\x60' :: _ => guardRead calls; tagged g n
  | _ => failure

/-- A value with all accesses behind it, at most `fuel`. -/
def accesses (g : Context) (calls : Bool) : (fuel : Nat) → Node → Read Node
  | 0, n => pure n
  | fuel + 1, n => do
    match ← opt (access g calls n) with
    | some longer => accesses g calls fuel longer
    | none => pure n

/-- What makes a new object: a value with members behind it, which may be a new object itself. -/
def maker (g : Context) : (fuel : Nat) → Read Node
  | 0 => failure
  | fuel + 1 => do
    let n ← sole (primary g (maker g fuel))
    accesses g false (← budget) n

def chain : Rule := one do
  let n ← sole (primary g (maker g (← budget)))
  accesses g true (← budget) n

/-! ## Operators -/

def unarySymbols : List String := ["!", "~", "-", "+"]

def unaryWords : List String := ["typeof", "void", "delete"]

abbrev unary : Rule := group .unaryExpression [part .operator (firstOf
    (unarySymbols.map (fun s => one (symbol s)) ++ unaryWords.map (fun w => one (word w)))),
  part .argument (g.rule .operand)]

abbrev awaited : Rule := group .awaitExpression [word "await", g.rule .operand]

abbrev stepOperator : Rule := part .operator (one (symbol "++") <|> one (symbol "--"))

/-- A variable that is stepped before or after it is read, or a plain value. -/
def stepped : Rule :=
  group .updateExpression [stepOperator, part .argument (g.rule .operand)] <|> do
    let value ← chain g
    let isStep : Bool ← follows stepOperator
    if isStep && !(← newLine) then
      return [spanning .updateExpression (value.map (withRole .argument) ++ (← stepOperator))]
    else return value

abbrev typeAssertion : Rule := do
  guardRead (g.language.isTyped && !g.language.hasMarkup)
  group .typeAssertion [typeArguments g, g.rule .operand]

abbrev operand : Rule := firstOf [unary g, awaited g, stepped g, typeAssertion g]

def binaryLevel? (op : String) : Option Nat :=
  if op == "??" then some 1
  else if op == "||" then some 2
  else if op == "&&" then some 3
  else if op == "|" then some 4
  else if op == "^" then some 5
  else if op == "&" then some 6
  else if ["==", "===", "!=", "!=="].contains op then some 7
  else if ["<", "<=", ">", ">=", "in", "instanceof"].contains op then some 8
  else if ["<<", ">>", ">>>"].contains op then some 9
  else if ["+", "-"].contains op then some 10
  else if ["*", "/", "%"].contains op then some 11
  else if op == "**" then some 12
  else none

/-- The binary operator in front and its level, without moving. -/
def peekOperator : Read (Option (Read Node × Nat × Bool)) := do
  match ← peekSymbol with
  | some s => return (binaryLevel? s).map fun level => (symbol s, level, s == "**")
  | none =>
    match ← peekWord with
    | some w => return (binaryLevel? w).map fun level => (word w, level, false)
    | none => return none

/-- The value that starts with `left` and goes on with operators of at least the given level; at
most `fuel` of them. -/
def climb (g : Context) : (fuel least : Nat) → Node → Read Node
  | 0, _, left => pure left
  | fuel + 1, least, left => do
    match ← peekOperator with
    | none => pure left
    | some (op, level, groupsRight) =>
      if level < least then return left
      let op ← op
      let first ← sole (g.rule .operand)
      let right ← climb g fuel (if groupsRight then level else level + 1) first
      climb g fuel least (spanning .binaryExpression
        [left.withRole .left, op.withRole .operator, right.withRole .right])

def ascription : Read Node := do
  guardRead (g.language.isTyped && !(← newLine))
  match ← peekWord with
  | some "as" =>
    let keyword ← word "as"
    let type ← one (word "const") <|> g.type
    return spanning .asExpression (n :: keyword :: type)
  | some "satisfies" =>
    let keyword ← word "satisfies"
    let type ← g.type
    return spanning .satisfiesExpression (n :: keyword :: type)
  | _ => failure

/-- Ascriptions behind a value and the operators behind them, at most `fuel`. -/
def ascribed (g : Context) : (fuel : Nat) → Node → Read Node
  | 0, n => pure n
  | fuel + 1, n => do
    match ← opt (ascription g n) with
    | some longer => ascribed g fuel (← climb g (← budget) 0 longer)
    | none => pure n

def binary : Rule := one do
  let first ← sole (g.rule .operand)
  let fuel ← budget
  ascribed g fuel (← climb g fuel 0 first)

/-- A value that depends on a condition, or one that does not. -/
def conditional : Rule := do
  let condition ← binary g
  if (← peekSymbol) == some "?" then
    let rest ← inOrder ["?", part .consequence g.expression, ":", part .alternative g.expression]
    return [spanning .ternaryExpression (condition.map (withRole .condition) ++ rest)]
  else return condition

/-! ## Assignments -/

def changeOperators : List String :=
  ["+=", "-=", "*=", "/=", "%=", "^=", "&=", "|=", ">>=", ">>>=", "<<=", "**=", "&&=", "||=", "??="]

def destructuringAssignment : Rule := do
  match ← ahead with
  | '[' :: _ => pure ()
  | '{' :: _ => pure ()
  | _ => failure
  group .assignmentExpression [part .left (destructuring g true), "=", part .right g.expression]

def yielded : Rule := node .yieldExpression do
  let keyword ← word "yield"
  if ← newLine then return [keyword]
  let rest ← maybe (inOrder ["*", g.expression] <|> g.expression)
  return keyword :: rest

def assignment : Rule := do
  let left ← conditional g
  match ← peekSymbol with
  | some "=" =>
    let rest ← inOrder ["=", part .right g.expression]
    return [spanning .assignmentExpression (left.map (withRole .left) ++ rest)]
  | some s =>
    if changeOperators.contains s then
      let rest ← inOrder [part .operator (one (symbol s)), part .right g.expression]
      return [spanning .augmentedAssignmentExpression (left.map (withRole .left) ++ rest)]
    else return left
  | none => return left

/-- An arrow function can start here: with its parameters, or with a name in front of an arrow. -/
def startsArrow : Read Bool := do
  match ← ahead with
  | '(' :: _ => return true
  | '<' :: _ => return g.language.isTyped
  | cs =>
    if (nameAt? cs).map String.ofList == some "async" then return true
    follows do
      let _ ← valueName .identifier
      symbol "=>"

abbrev expression : Rule := do
  if ← startsArrow g then
    arrowFunction g <|> assignment g
  else
    firstOf [yielded g, destructuringAssignment g, assignment g]

end RouteAtlas.Source.Grammar
