import RouteAtlas.Source.Grammar.Type

/-!
# Functions, objects and argument lists

The parts of values that hold other values: functions with their bodies, methods, the properties
of an object, the items of a list, and the arguments of a call.
-/

namespace RouteAtlas.Source.Grammar

/-- The word in front of a function that may wait, on the line of what follows it. -/
def asyncWord : Rule := one do
  let n ← word "async"
  guardRead !(← newLine)
  return n

variable (g : Context)

/-- A function written with its keyword: `plain` or, behind a star, `generator`. -/
def functionAs (plain generator : Kind) (name : Rule) : Rule := do
  let head ← inOrder [maybe asyncWord, word "function"]
  let star ← maybe "*"
  let tail ← inOrder [part .name name, callSignature g, part .body g.block]
  return [Node.spanning (if star.isEmpty then plain else generator) (head ++ star ++ tail)]

abbrev functionExpression : Rule :=
  functionAs g .functionExpression .generatorFunction (maybe (valueName .identifier))

abbrev functionDeclaration : Rule :=
  functionAs g .functionDeclaration .generatorFunctionDeclaration (one (valueName .identifier))

abbrev functionSignature : Rule := statement .functionSignature (inOrder
  [maybe asyncWord, word "function", part .name (valueName .identifier),
   callSignature g, semicolon g.language false])

def arrowBody : Rule := do
  if (← peekSymbol) == some "\x7b" then g.block else g.expression

def arrowFunction : Rule := node .arrowFunction do
  let head : Rule :=
    callSignature g <|> part .parameter (valueName .identifier)
  let arrow : Rule := do
    guardRead !(← newLine)
    one (symbol "=>")
  let start ← inOrder [asyncWord, head, arrow] <|> inOrder [head, arrow]
  return start ++ (← part .body (arrowBody g))

def methodDefinition : Rule :=
  group .methodDefinition [if g.language.isTyped then memberModifiers
       else inOrder [decorators g, maybe (modifier "static")], maybe (modifier "async"),
     maybe (firstOf [modifier "get", modifier "set", "*"]),
     part .name (propertyName g), maybe (g.whenTyped (one (symbol "?"))),
     callSignature g, part .body g.block]

abbrev spread : Rule := group .spreadElement ["...", g.expression]

abbrev property : Rule := firstOf [spread g, group .pair
    [part .key (propertyName g), ":", part .value g.expression], methodDefinition g,
  valueName .shorthandPropertyIdentifier]

abbrev object : Rule := group .object ["\x7b", sparseList (property g), "\x7d"]

abbrev array : Rule := group .array ["[", sparseList (spread g <|> g.expression), "]"]

abbrev arguments : Rule := group .arguments ["(", sparseList (spread g <|> g.expression), ")"]

end RouteAtlas.Source.Grammar
