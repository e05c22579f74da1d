import RouteAtlas.Source.Grammar.Literal

/-!
# The grammar's recursion

The rules of the grammar call each other through a context, which also says which language is
read. Each rule is a plain function of the context; the knot is tied once, where the whole grammar
is put together.
-/

namespace RouteAtlas.Source.Grammar

/-- The parts of the grammar that rules ask each other for. -/
inductive Goal where
  /-- One value, without a comma. -/
  | expression
  /-- The operand of a unary operator. -/
  | operand
  /-- A value with calls and member accesses behind it. -/
  | chain
  | statement
  | block
  /-- What a value is bound or, if `targets` is set, assigned to. -/
  | pattern (targets : Bool)
  | type
  | classBody
  | element

/-- What a rule knows: the language, and the other rules. -/
structure Context where
  language : Language
  rule : Goal → Rule

namespace Context

variable (g : Context)

abbrev expression : Rule := g.rule .expression

abbrev block : Rule := g.rule .block

abbrev type : Rule := g.rule .type

/-- Fails unless the language has types. -/
abbrev whenTyped (p : Rule) : Rule := if g.language.isTyped then p else failure

end Context

variable (g : Context)

/-- Values with commas between them make one value. -/
def expressions : Rule := do
  let first ← g.expression
  let more ← many (inOrder [",", g.expression])
  if more.isEmpty then return first
  else return [Node.spanning .sequenceExpression (first ++ more)]

abbrev parenthesized : Rule := group .parenthesizedExpression ["(", expressions g, ")"]

abbrev initial : Rule := inOrder ["=", part .value g.expression]

abbrev computedName : Rule := group .computedPropertyName ["[", g.expression, "]"]

def privateName : Rule := one do
  gap
  let c ← get
  match c.rest with
  | '#' :: cs =>
    match nameAt? cs with
    | some name =>
      takeToken (1 + Text.byteLength name) (cs.drop name.length)
        (Node.leaf .privatePropertyIdentifier)
    | none => failure
  | _ => failure

abbrev propertyName : Rule :=
  firstOf [anyName .propertyIdentifier, privateName, stringLiteral, number, computedName g]

abbrev templateSubstitution : Rule :=
  group .templateSubstitution [takeSymbol "$\x7b", expressions g, "\x7d"]

abbrev templateString : Rule := template .templateString (templateSubstitution g)

end RouteAtlas.Source.Grammar
