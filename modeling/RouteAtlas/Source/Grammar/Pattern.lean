import RouteAtlas.Source.Grammar.Context

/-!
# Patterns

What a value is bound to: a name, or a pattern of names that takes the value apart. Where values
are assigned rather than bound, members of other values are allowed too.
-/

namespace RouteAtlas.Source.Grammar

variable (g : Context)

/-- A part of a pattern with a value to use when there is none. -/
def withDefault (kind : Kind) (left : Rule) : Rule := do
  let left ← left
  match ← opt (symbol "=") with
  | none => return left
  | some eq =>
    let right ← part .right g.expression
    return [Node.spanning kind (left.map (Node.withRole .left) ++ eq :: right)]

variable (targets : Bool)

/-- A pattern inside a list, perhaps with a default. -/
abbrev element : Rule :=
  withDefault g .assignmentPattern (g.rule (.pattern targets))

abbrev restPattern : Rule := group .restPattern ["...", g.rule (.pattern targets)]

abbrev objectPart : Rule := firstOf [restPattern g targets, group .pairPattern
    [part .key (propertyName g), ":", part .value (element g targets)],
  withDefault g .objectAssignmentPattern (one (anyName .shorthandPropertyIdentifierPattern))]

abbrev objectPattern : Rule := group .objectPattern
  ["\x7b", sparseList (objectPart g targets), "\x7d"]

abbrev arrayPattern : Rule := group .arrayPattern
  ["[", sparseList (element g targets), "]"]

abbrev destructuring : Rule :=
  objectPattern g targets <|> arrayPattern g targets

/-- Members behind a name that is assigned to; at most `fuel` of them. -/
def members (g : Context) : (fuel : Nat) → Node → Read Node
  | 0, n => pure n
  | fuel + 1, n => do
    match ← peekSymbol with
    | some "." =>
      let dot ← symbol "."
      let name ← one (anyName .propertyIdentifier) <|> privateName
      members g fuel (Node.spanning .memberExpression
        (n.withRole .object :: dot :: name.map (Node.withRole .property)))
    | some "[" =>
      let opening ← symbol "["
      let index ← part .index (expressions g)
      let closing ← symbol "]"
      members g fuel (Node.spanning .subscriptExpression
        (n.withRole .object :: opening :: index ++ [closing]))
    | _ => pure n

/-- A name, or a member if members are allowed. -/
def target : Rule := one do
  let n ← valueName .identifier <|> (if targets then namedWord .thisValue "this" else failure)
  if targets then members g (← budget) n else return n

def pattern : Rule :=
  firstOf [destructuring g targets, restPattern g targets, target g targets]

end RouteAtlas.Source.Grammar
