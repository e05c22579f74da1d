import RouteAtlas.Source.Grammar.Type

/-!
# Markup

Elements with attributes and children inside a program. An element without a name is a fragment.
White space with a line end in it, between two children, is not a child.
-/

namespace RouteAtlas.Source.Grammar

def dashedName (kind : Kind) : Rule := one do
  gap
  let c ← get
  match c.rest with
  | ch :: _ =>
    guardRead (isNameStart ch)
    let name := c.rest.takeWhile fun ch => isNameChar ch || ch == '-'
    takeToken (Text.byteLength name) (c.rest.drop name.length) (Node.leaf kind)
  | [] => failure

/-- Members behind the name of an element; at most `fuel` of them. -/
def tagMembers : (fuel : Nat) → List Node → Rule
  | 0, ns => pure ns
  | fuel + 1, ns => do
    if (← peekSymbol) == some "." then
      let dot ← symbol "."
      let name ← anyName .propertyIdentifier
      tagMembers fuel [Node.spanning .memberExpression
        (ns.map (Node.withRole .object) ++ [dot, name.withRole .property])]
    else return ns

def tagName : Rule :=
  group .jsxNamespaceName [dashedName .identifier, raw ":", dashedName .identifier] <|> do
      tagMembers (← budget) (← dashedName .identifier)

variable (g : Context)

abbrev markupExpression : Rule := group .jsxExpression ["\x7b",
  maybe (group .spreadElement ["...", g.expression] <|> expressions g), "\x7d"]

/-- The characters of a named or numbered character in front, none if there is no such one. -/
def referenceChars : List Char → List Char
  | '&' :: cs =>
    let name := cs.takeWhile fun c => c.isAlphanum || c == '#'
    if !name.isEmpty && (cs.drop name.length).head? == some ';' then '&' :: name ++ [';'] else []
  | _ => []

abbrev characterReference : Rule := takeLeaf .htmlCharacterReference referenceChars

/-- The plain characters up to one that `stops`, or a named character. -/
def plainChars (stops : Char → Bool) : List Char → List Char
  | [] => []
  | c :: cs =>
    if stops c || !(referenceChars (c :: cs)).isEmpty then [] else c :: plainChars stops cs

/-- The string value of an attribute, which has no escapes. -/
def markupString (q : Char) : Rule := node .string do
  let opening ← one (raw (String.singleton q))
  let fragment := takeLeaf .stringFragment (plainChars (· == q))
  let inner ← many (fragment <|> characterReference)
  let closing ← takeSymbol (String.singleton q)
  return opening ++ inner ++ closing

abbrev markupAttribute : Rule := group .jsxAttribute [group .jsxNamespaceName
  [dashedName .identifier, raw ":", dashedName .identifier]
  <|> dashedName .propertyIdentifier, maybe (inOrder [raw "=",
   firstOf [markupString '"', markupString '\'', markupExpression g, g.rule .element]])]

abbrev markupAttributes : Rule :=
  many (part .attribute (markupAttribute g <|> markupExpression g))

/-- The name of a tag and the types it is used at. -/
abbrev tagHead : Rule :=
  inOrder [part .name tagName, maybe (g.whenTyped (part .typeArguments (typeArguments g)))]

/-- White space that holds a line end shows nothing. -/
def showsNothing (cs : List Char) : Bool :=
  cs.all Text.isBlank && cs.any isLineEnd

/-- The characters between tags in front. -/
def textChars : List Char → List Char :=
  plainChars fun ch => ch == '<' || ch == '{' || ch == '}' || ch == '>'

def markupText : Rule := do
  let c ← get
  let cs := textChars c.rest
  guardRead !cs.isEmpty
  if showsNothing cs then
    set { c with rest := c.rest.drop cs.length, pos := c.pos + Text.byteLength cs }
    return []
  else takeLeaf .jsxText textChars

abbrev markupChild : Rule :=
  firstOf [markupText, characterReference, g.rule .element, markupExpression g]

def markup : Rule :=
  group .jsxSelfClosingElement [raw "<", tagHead g, markupAttributes g, raw "/", raw ">"] <|>
  group .jsxElement [part .openTag (group .jsxOpeningElement
       [raw "<", maybe (inOrder [tagHead g, markupAttributes g]), raw ">"]),
     many (markupChild g), part .closeTag (group .jsxClosingElement
       [raw "<", raw "/", maybe (part .name tagName), raw ">"])]

end RouteAtlas.Source.Grammar
