import RouteAtlas.Source.Grammar.Pattern

/-!
# Types, parameters and signatures

The types of the typed languages, and with them the parameters and signatures of functions, which
functions, methods and function types share. In the untyped language a parameter is a bare pattern.
-/

namespace RouteAtlas.Source.Grammar

open Node

/-! ## Annotations and parameters -/

variable (g : Context)

/-- `: T`, as it stands behind names. -/
abbrev typeMark : Rule := group .typeMark [":", g.type]

/-- A type by its name. -/
abbrev typeName : Rule := one (valueName .typeIdentifier)

/-- `<T, U>`. -/
abbrev typeArguments : Rule := group .typeArguments [raw "<", commaList g.type, maybe ",", raw ">"]

/-- A word in front of a name, and not the name itself. -/
def modifier (s : String) : Rule := one do
  let n ← word s
  match ← ahead with
  | c :: cs =>
    guardRead (isNameStart c || c == '"' || c == '\'' || c == '[' || c == '#' || c == '*'
      || c == '{' || c.isDigit || (c == '.' && cs.head? == some '.'))
    return n
  | [] => failure

/-- A modifier as a named node around its word. -/
abbrev namedModifier (kind : Kind) (words : List String) : Rule :=
  node kind (firstOf (words.map modifier))

/-- Who may use a member. -/
abbrev accessibility : Rule :=
  namedModifier .accessibilityModifier ["public", "private", "protected"]

abbrev overriding : Rule := namedModifier .overrideModifier ["override"]

/-- `T extends U = V`. -/
abbrev typeParameter : Rule := group .typeParameter
  [maybe (modifier "const"), maybe (modifier "in"), maybe (modifier "out"),
   part .name (anyName .typeIdentifier),
   maybe (part .constraint (group .constraint [word "extends", g.type])),
   maybe (part .value (group .defaultType ["=", g.type]))]

/-- `<T, U>`, where they are declared. -/
abbrev typeParameters : Rule := part .typeParameters (group .typeParameters
  [raw "<", commaList (typeParameter g), maybe ",", raw ">"])

/-- A value, perhaps called or with members behind it, in front of a class or parameter. -/
abbrev decorator : Rule := group .decorator ["@", g.rule .chain]

abbrev decorators : Rule := many (part .decorator (decorator g))

/-- A parameter with its marks, such as `private x?: T`. -/
def typedParameter : Rule := do
  let head ← inOrder
    [decorators g, maybe accessibility, maybe overriding, maybe (modifier "readonly"),
     part .pattern (one (namedWord .thisValue "this") <|> g.rule (.pattern false))]
  let mark ← maybe "?"
  let tail ← inOrder [maybe (part .type (typeMark g)), maybe (initial g)]
  let kind := if mark.isEmpty then Kind.requiredParameter else Kind.optionalParameter
  return [spanning kind (head ++ mark ++ tail)]

/-- A parameter in either language. -/
abbrev parameter : Rule :=
  if g.language.isTyped then typedParameter g else element g false

/-- `(x, y)`. -/
abbrev formalParameters : Rule := group .formalParameters
  ["(", maybe (inOrder [commaList (parameter g), maybe ","]), ")"]

/-- `x is T`. -/
abbrev typePredicate : Rule := group .typePredicate
  [part .name (one (namedWord .thisValue "this") <|> one (anyName .identifier)),
   word "is", part .type g.type]

/-- `asserts x is T`. -/
def assertion : Rule := node .asserts do
  let head ← word "asserts"
  guardRead !(← newLine)
  let rest ← firstOf [typePredicate g, namedWord .thisValue "this", valueName .identifier]
  return head :: rest

/-- `: T` behind parameters. -/
abbrev returnMark : Rule := part .returnType (firstOf
  [group .assertsMark [":", assertion g], group .predicateMark [":", typePredicate g], typeMark g])

/-- `<T>(x: T): U`. -/
def callSignature : Rule := inOrder
  [maybe (g.whenTyped (typeParameters g)), part .parameters (formalParameters g),
   maybe (g.whenTyped (returnMark g))]

/-! ## Members of object types -/

/-- How many parameters a mapped property keeps optional, and its type. -/
abbrev propertyMark : Rule := part .type (firstOf
  [group .omittingMark [raw "-?:", g.type], group .addingMark [raw "+?:", g.type],
   group .optingMark [raw "?:", g.type], typeMark g])

/-- `K in T as U`. -/
abbrev mappedClause : Rule := group .mappedTypeClause
  [part .name (anyName .typeIdentifier), word "in", part .type g.type,
   maybe (inOrder [word "as", part .alias g.type])]

/-- `[key: K]: T`, or with a mapped clause. -/
abbrev indexSignature : Rule := group .indexSignature
  [maybe (inOrder [maybe (part .sign (one (symbol "-") <|> one (symbol "+"))), word "readonly"]),
   "[", mappedClause g <|> inOrder [part .name (anyName .identifier), ":", part .indexType g.type],
   "]", propertyMark g]

/-- The words in front of a member. -/
abbrev memberModifiers : Rule := inOrder
  [maybe accessibility, maybe (modifier "static"), maybe overriding, maybe (modifier "readonly")]

/-- The words in front of a method. -/
abbrev methodModifiers : Rule := inOrder
  [memberModifiers, maybe (modifier "async"), maybe (firstOf [modifier "get", modifier "set", "*"])]

/-- `m?(x): T`. -/
abbrev methodSignature : Rule := group .methodSignature
  [methodModifiers, part .name (propertyName g), maybe "?", callSignature g]

/-- `p?: T`. -/
abbrev propertySignature : Rule := group .propertySignature
  [memberModifiers, part .name (propertyName g), maybe "?", maybe (part .type (typeMark g))]

/-- `new (x): T`. -/
abbrev constructSignature : Rule := group .constructSignature
  [maybe (modifier "abstract"), word "new", maybe (typeParameters g),
   part .parameters (formalParameters g), maybe (part .type (typeMark g))]

/-- A member of an object type. -/
abbrev typeMember : Rule := firstOf
  [indexSignature g, constructSignature g, node .callSignature (callSignature g),
   methodSignature g, propertySignature g]

/-- What ends a member. -/
abbrev memberEnd : Rule := one (symbol ",") <|> semicolon g.language false

/-- Members in braces, as a node of a kind. -/
def objectTypeAs (kind : Kind) : Rule :=
  group kind ["\x7b", many (inOrder [typeMember g, memberEnd g]), "\x7d"]

/-! ## Types -/

/-- The types that are words of the language. -/
def predefinedTypes : List String :=
  ["any", "number", "boolean", "string", "symbol", "void", "unknown", "never", "object"]

/-- A type that is a word of the language, and no name with members. -/
def predefinedType : Rule := do
  let unique : Rule := group .predefinedType [word "unique", word "symbol"]
  let plain : Rule := node .predefinedType (firstOf (predefinedTypes.map fun w => one (word w)))
  let xs ← unique <|> plain
  guardRead ((← peekSymbol) != some ".")
  return xs

/-- `(x: T) => U`. -/
abbrev functionType : Rule := group .functionType
  [maybe (typeParameters g), part .parameters (formalParameters g), "=>",
   part .returnType (firstOf [assertion g, typePredicate g, g.type])]

/-- `new (x: T) => U`. -/
abbrev constructorType : Rule := group .constructorType
  [maybe (word "abstract"), word "new", maybe (typeParameters g),
   part .parameters (formalParameters g), "=>", part .type g.type]

/-- Names with dots between them, in front of the last one; at most `fuel` of them. -/
def qualified : (fuel : Nat) → Node → Read Node
  | 0, n => pure n
  | fuel + 1, n => do
    let isInner : Bool ← follows do
      let _ ← symbol "."
      let _ ← anyName .identifier
      symbol "."
    if isInner then
      let dot ← symbol "."
      let name ← anyName .propertyIdentifier
      qualified fuel (spanning .nestedIdentifier [n.withRole .object, dot, name.withRole .property])
    else return n

/-- A type by its name, perhaps `a.b.T`. -/
def typeReference : Rule := do
  let isQualified : Bool ← follows do
    let _ ← valueName .identifier
    symbol "."
  if isQualified then
    let head ← qualified (← budget) (← valueName .identifier)
    let dot ← symbol "."
    let name ← anyName .typeIdentifier
    return [spanning .nestedTypeIdentifier [head.withRole .module, dot, name.withRole .name]]
  else typeName

/-- A type by its name, perhaps with arguments. -/
def namedType : Rule := do
  let name ← typeReference
  if (← ahead).head? == some '<' && !(← newLine) then
    let args ← typeArguments g
    return [spanning .genericType (name.map (withRole .name) ++ args.map (withRole .typeArguments))]
  else return name

/-- Members behind the value of a type query; at most `fuel` of them. -/
def queryMembers : (fuel : Nat) → Node → Read Node
  | 0, n => pure n
  | fuel + 1, n => do
    match ← peekSymbol with
    | some "." =>
      let dot ← symbol "."
      let name ← one (anyName .propertyIdentifier) <|> privateName
      queryMembers fuel (spanning .memberExpression
        (n.withRole .object :: dot :: name.map (withRole .property)))
    | some "[" =>
      let isIndex : Bool ← follows (inOrder
        ["[", firstOf [predefinedType, stringLiteral, number], "]"])
      if isIndex then
        let opening ← symbol "["
        let index ← part .index (firstOf [predefinedType, stringLiteral, number])
        let closing ← symbol "]"
        queryMembers fuel (spanning .subscriptExpression
          (n.withRole .object :: opening :: index ++ [closing]))
      else return n
    | _ => pure n

/-- `import("m")`. -/
def importCall : Read Node := do
  let keyword ← namedWord .importKeyword "import"
  let args ← group .arguments ["(", g.expression, ")"]
  return spanning .callExpression (keyword.withRole .function :: args.map (withRole .arguments))

/-- `typeof x`. -/
def typeQuery : Rule := node .typeQuery do
  let keyword ← word "typeof"
  let head ← namedWord .thisValue "this" <|> importCall g <|> valueName .identifier
  let value ← queryMembers (← budget) head
  if (← ahead).head? == some '<' && !(← newLine) then
    let args ← typeArguments g
    return [keyword, spanning .instantiationExpression
      (value :: args.map (withRole .typeArguments))]
  else return [keyword, value]

/-- `import("m").T`. -/
def importType : Rule := one do
  queryMembers (← budget) (← importCall g)

/-- `-1`. -/
abbrev signedNumber : Rule := group .unaryExpression
  [part .operator (one (symbol "-") <|> one (symbol "+")), part .argument number]

/-- A value as a type. -/
abbrev literalType : Rule := node .literalType (firstOf
  [signedNumber, number, stringLiteral, namedWord .trueValue "true",
   namedWord .falseValue "false", namedWord .nullValue "null",
   namedWord .undefinedValue "undefined"])

/-- A template with types in it. -/
abbrev templateType : Rule :=
  template .templateLiteralType (group .templateType [takeSymbol "$\x7b", g.type, "\x7d"])

/-- `x?: T` or `...T`, for example. -/
abbrev tupleItem : Rule := firstOf
  [group .requiredParameter
    [part .name (group .restPattern ["...", anyName .identifier]), part .type (typeMark g)],
   group .requiredParameter [part .name (anyName .identifier), part .type (typeMark g)],
   group .optionalParameter [part .name (anyName .identifier), "?", part .type (typeMark g)],
   group .restType ["...", g.type], group .optionalType [g.type, "?"], g.type]

/-- `[T, U]`. -/
abbrev tupleType : Rule := group .tupleType ["[", maybe (commaList (tupleItem g)), maybe ",", "]"]

/-- A type that needs no parentheses. -/
abbrev plainType : Rule := firstOf
  [group .parenthesizedType ["(", g.type, ")"], objectTypeAs g .objectType, tupleType g,
   literalType, templateType g, typeQuery g, importType g, namedWord .thisType "this",
   predefinedType, namedType g]

/-- Brackets behind a type; at most `fuel` pairs of them. -/
def indexed (g : Context) : (fuel : Nat) → Node → Read Node
  | 0, n => pure n
  | fuel + 1, n => do
    if (← peekSymbol) == some "[" && !(← newLine) then
      let opening ← symbol "["
      let inner ← maybe g.type
      let closing ← symbol "]"
      let kind := if inner.isEmpty then Kind.arrayType else Kind.lookupType
      indexed g fuel (spanning kind (n :: opening :: inner ++ [closing]))
    else return n

/-- A type with brackets behind it. -/
def indexedType : Rule := one do
  let n ← sole (plainType g)
  indexed g (← budget) n

/-- A type with a word in front, or a plain one. -/
def prefixedType : Rule := firstOf
  [group .indexTypeQuery [word "keyof", indexedType g],
   group .readonlyType [modifier "readonly", g.type],
   group .inferType [word "infer", anyName .typeIdentifier, maybe do
     let bound ← inOrder [word "extends", indexedType g]
     guardRead ((← peekSymbol) != some "?")
     return bound],
   indexedType g]

/-- Types with an operator between them, grouped from the left; at most `fuel` operators. -/
def joined (s : String) (kind : Kind) (operand : Rule) : (fuel : Nat) → Node → Read Node
  | 0, n => pure n
  | fuel + 1, n => do
    match ← opt (symbol s) with
    | none => pure n
    | some op =>
      let right ← operand
      joined s kind operand fuel (spanning kind (n :: op :: right))

/-- Types with an operator between them, and perhaps one in front. -/
def operatorType (s : String) (kind : Kind) (operand : Rule) : Rule := one do
  let lead ← opt (symbol s)
  let n ← sole operand
  let first := match lead with
    | some op => spanning kind [op, n]
    | none => n
  joined s kind operand (← budget) first

/-- A type without a condition. -/
abbrev unionType : Rule :=
  operatorType "|" .unionType (operatorType "&" .intersectionType
    (firstOf [functionType g, constructorType g, prefixedType g]))

/-- A type that depends on a condition, or one that does not. -/
def type : Rule := do
  let left ← unionType g
  let condition ← maybe (inOrder
    [word "extends", part .right (unionType g), "?", part .consequence g.type, ":",
     part .alternative g.type])
  if condition.isEmpty then return left
  else return [spanning .conditionalType (left.map (withRole .left) ++ condition)]

end RouteAtlas.Source.Grammar
