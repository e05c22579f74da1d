import RouteAtlas.Source.Grammar.Function

/-!
# Classes

Classes as declarations and as values. The name of a class is a type's name where there are types.
-/

namespace RouteAtlas.Source.Grammar

variable (g : Context)

abbrev className : Rule :=
  part .name (if g.language.isTyped then typeName else one (valueName .identifier))

abbrev classHeritage : Rule := node .classHeritage
  (if g.language.isTyped then
    let extending : Rule := group .extendsClause [word "extends", part .value (g.rule .chain),
       maybe (part .typeArguments (typeArguments g))]
    let implementing : Rule := group .implementsClause [word "implements", commaList g.type]
    inOrder [extending, maybe implementing] <|> implementing
  else inOrder [word "extends", g.rule .chain])

abbrev classTail (name : Rule) : Rule := inOrder
  [word "class", name, maybe (g.whenTyped (typeParameters g)), maybe (classHeritage g),
   part .body (g.rule .classBody)]

abbrev classDeclaration : Rule := group .classDeclaration [decorators g, classTail g (className g)]

abbrev abstractClass : Rule := group .abstractClassDeclaration
  [decorators g, word "abstract", classTail g (className g)]

abbrev classExpression : Rule := group .classExpression [decorators g, classTail g (maybe do
  guardRead ((← peekWord) != some "implements")
  className g)]

abbrev staticBlock : Rule := group .classStaticBlock [word "static", part .body g.block]

abbrev plainField : Rule := group .fieldDefinition
  [decorators g, maybe (modifier "static"), part .property (propertyName g), maybe (initial g)]

abbrev typedField : Rule := group .publicFieldDefinition
  [decorators g, maybe (modifier "declare"), maybe accessibility, maybe (modifier "declare"),
   maybe (modifier "static"), maybe overriding, maybe (modifier "abstract"),
   maybe (modifier "readonly"), maybe (modifier "abstract"), maybe (modifier "accessor"),
   part .name (propertyName g), maybe (one (symbol "?") <|> one (symbol "!")),
   maybe (part .type (typeMark g)), maybe (initial g)]

abbrev abstractMethod : Rule := group .abstractMethodSignature
  [maybe accessibility, word "abstract", maybe overriding,
   maybe (firstOf [modifier "get", modifier "set", "*"]),
   part .name (propertyName g), maybe "?", callSignature g]

abbrev fieldEnd (field : List Node) : Rule := one (symbol ",") <|>
  semicolon g.language (field.any fun n => (n.child? .value).isSome)

abbrev plainMember : Rule := firstOf
  [";", part .member (staticBlock g), part .member (methodDefinition g), do
     let field ← part .member (plainField g)
     return field ++ (← fieldEnd g field)]

abbrev typedMember : Rule := firstOf [";", staticBlock g, methodDefinition g,
  inOrder [abstractMethod g, fieldEnd g []], inOrder [methodSignature g, fieldEnd g []],
  inOrder [indexSignature g, fieldEnd g []], do
    let field ← typedField g
    return field ++ (← fieldEnd g field), decorator g]

def classBody : Rule :=
  group .classBody ["\x7b", many (if g.language.isTyped then typedMember g else plainMember g),
     "\x7d"]

end RouteAtlas.Source.Grammar
