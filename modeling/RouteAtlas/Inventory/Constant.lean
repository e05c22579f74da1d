import RouteAtlas.Source.Shape

/-!
# Constant texts

The value of an expression that is known without running the program: strings, numbers, templates,
sums, and names of variables whose first declaration has such a value. What cannot be known inside a
template stays as it is written.
-/

namespace RouteAtlas.Inventory

open Source

abbrev Constants := List (String × Node)

/-- How often names and sums may be followed. -/
def constantDepth : Nat := 9

def constantOf? (source : String) (n : Node) : Option (String × Node) := do
  guard (n.is .variableDeclarator)
  let name ← n.child? .name
  let value ← n.child? .value
  guard (name.is .identifier)
  return (name.text source, value.unwrapped)

/-- The variables of a file with their values, the first declaration of a name first. -/
def constantsOf (source : String) (root : Node) : Constants :=
  root.sites.filterMap fun s => constantOf? source s.node

/-- The text between the substitutions of a template, with a value for each of them. -/
def fillTemplate (source : String) (value : Node → Option String) (stop : Nat) :
    (cursor : Nat) → List Node → String
  | cursor, [] => Text.slice source cursor stop
  | cursor, part :: parts =>
    Text.slice source cursor part.start ++ (value part).getD (part.source source) ++
      fillTemplate source value stop part.stop parts

/-- The value of an expression, if names and sums are followed at most `depth` times. -/
def Constants.textAt? (constants : Constants) (source : String) :
    (depth : Nat) → Node → Option String
  | 0, _ => none
  | depth + 1, n =>
    let n := n.unwrapped
    if n.is .string then n.stringValue? source
    else if n.is .number then some (n.text source)
    else if n.is .templateString then
      let inner (part : Node) : Option String := do
        textAt? constants source depth (← part.named.head?)
      some (fillTemplate source inner (max (n.stop - 1) (n.start + 1)) (n.start + 1)
        (n.named.filter (·.is .templateSubstitution)))
    else if n.is .identifier then do
      textAt? constants source depth (← constants.lookup (n.text source))
    else if n.is .binaryExpression then do
      guard ((← n.child? .operator).text source == "+")
      let left ← textAt? constants source depth (← n.child? .left)
      let right ← textAt? constants source depth (← n.child? .right)
      return left ++ right
    else none

def Constants.text? (constants : Constants) (source : String) (n : Node) : Option String :=
  constants.textAt? source constantDepth n

/-- The values of the items of a list, or the one value of another expression. -/
def Constants.texts? (constants : Constants) (source : String) (n : Node) : Option (List String) :=
  let n := n.unwrapped
  if n.is .array then n.named.mapM (constants.text? source)
  else (constants.text? source n).map ([·])

end RouteAtlas.Inventory
