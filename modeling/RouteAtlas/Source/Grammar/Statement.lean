import RouteAtlas.Source.Grammar.Expression

/-!
# Statements

Statements and declarations. A statement that lacks its semicolon ends where its last token does.
-/

namespace RouteAtlas.Source.Grammar

/-! ## Variables -/

variable (g : Context)

abbrev declarator : Rule := group .variableDeclarator
  [part .name (destructuring g false <|> one (valueName .identifier)),
   maybe (g.whenTyped (inOrder [maybe "!", part .type (typeMark g)])), maybe (initial g)]

def variableList (kind : Kind) (keyword : Rule) : Rule := statement kind do
  let head ← keyword
  let items ← commaList (declarator g)
  let hasValue := (items.getLast?.bind (·.child? .value)).isSome
  return head ++ items ++ (← semicolon g.language hasValue)

abbrev lexicalDeclaration : Rule :=
  variableList g .lexicalDeclaration (part .kind (one (word "const") <|> one (word "let")))

abbrev variableDeclaration : Rule :=
  variableList g .variableDeclaration (one (word "var"))

/-! ## Declarations of types -/

abbrev typeAlias : Rule := statement .typeAliasDeclaration (inOrder
  [word "type", part .name typeName, maybe (typeParameters g), "=",
   part .value g.type, semicolon g.language false])

abbrev interfaceDeclaration : Rule := group .interfaceDeclaration
  [word "interface", part .name typeName, maybe (typeParameters g),
   maybe (group .extendsTypeClause [word "extends", commaList (part .type (namedType g))]),
   part .body (objectTypeAs g .interfaceBody)]

abbrev enumItem : Rule := group .enumAssignment [part .name (propertyName g), initial g]
  <|> part .name (propertyName g)

abbrev enumDeclaration : Rule := group .enumDeclaration
  [maybe (word "const"), word "enum", part .name (valueName .identifier),
   part .body (group .enumBody ["\x7b", maybe (commaList (enumItem g)), maybe ",", "\x7d"])]

def moduleName : Rule :=
  stringLiteral <|> one do
    let head ← valueName .identifier
    if (← peekSymbol) == some "." then
      let inner ← qualified (← budget) head
      let dot ← symbol "."
      let name ← anyName .propertyIdentifier
      return Node.spanning .nestedIdentifier [inner.withRole .object, dot, name.withRole .property]
    else return head

abbrev internalModule : Rule := group .internalModule
  [word "namespace", part .name moduleName, maybe (part .body g.block)]

abbrev moduleDeclaration : Rule := group .moduleDeclaration
  [word "module", part .name moduleName, maybe (part .body g.block)]

abbrev importAlias : Rule := statement .importAlias (inOrder
  [word "import", valueName .identifier, "=", moduleName, semicolon g.language false])

/-! ## Declarations -/

/-- A declaration that the untyped language has too. -/
def plainDeclaration : Rule :=
  firstOf [functionDeclaration g, classDeclaration g, lexicalDeclaration g, variableDeclaration g]

/-- A declaration of the typed languages alone, apart from those that are declared elsewhere. -/
def typedDeclaration : Rule :=
  g.whenTyped (firstOf
    [functionSignature g, abstractClass g, enumDeclaration g, interfaceDeclaration g,
     typeAlias g, internalModule g, moduleDeclaration g, importAlias g])

abbrev ambientDeclaration : Rule := g.whenTyped (group .ambientDeclaration [word "declare",
  firstOf [inOrder [word "global", g.block], enumDeclaration g, plainDeclaration g,
     typedDeclaration g]])

def declaration : Rule :=
  firstOf [g.whenTyped (enumDeclaration g), plainDeclaration g, typedDeclaration g,
     ambientDeclaration g]

/-! ## Statements -/

abbrev block : Rule := group .statementBlock ["\x7b", many (g.rule .statement), "\x7d"]

abbrev expressionStatement : Rule :=
  statement .expressionStatement (inOrder [expressions g, semicolon g.language true])

abbrev ifStatement : Rule := group .ifStatement
  [word "if", part .condition (parenthesized g), part .consequence (g.rule .statement),
   maybe (part .alternative (group .elseClause [word "else", g.rule .statement]))]

abbrev switchCase : Rule := group .switchCase [word "case", part .value (expressions g), ":",
     many (part .body (g.rule .statement))] <|>
  group .switchDefault [word "default", ":", many (part .body (g.rule .statement))]

abbrev switchStatement : Rule := group .switchStatement
  [word "switch", part .value (parenthesized g), part .body (group .switchBody
     ["\x7b", many (switchCase g), "\x7d"])]

/-- What a loop over items binds or sets. -/
abbrev loopTarget : Rule := inOrder [part .kind (firstOf [word "var", word "let", word "const"]),
     part .left (destructuring g false <|> one (valueName .identifier)),
     maybe (inOrder ["=", part .value g.expression])] <|>
  part .left (destructuring g true <|> target g true <|> parenthesized g)

abbrev forInStatement : Rule := group .forInStatement
  [word "for", maybe (word "await"), "(", loopTarget g,
   part .operator (one (word "in") <|> one (word "of")), part .right (expressions g),
   ")", part .body (g.rule .statement)]

abbrev emptyStatement : Rule := node .emptyStatement (one (symbol ";"))

abbrev forStatement : Rule := group .forStatement [word "for", "(", firstOf
    [part .initializer (lexicalDeclaration g), part .initializer (variableDeclaration g),
     inOrder [part .initializer (expressions g), ";"], part .initializer emptyStatement],
  inOrder [part .condition (expressions g), ";"]
    <|> part .condition emptyStatement, maybe (part .increment (expressions g)), ")",
  part .body (g.rule .statement)]

abbrev whileStatement : Rule :=
  group .whileStatement
    [word "while", part .condition (parenthesized g), part .body (g.rule .statement)]

abbrev doStatement : Rule :=
  statement .doStatement (inOrder [word "do", part .body (g.rule .statement), word "while",
     part .condition (parenthesized g), maybe (semicolon g.language true)])

abbrev catchClause : Rule := group .catchClause [word "catch", maybe (inOrder
  ["(", part .parameter (destructuring g false <|> one (valueName .identifier)),
   maybe (g.whenTyped (part .type (typeMark g))), ")"]), part .body g.block]

abbrev tryStatement : Rule := group .tryStatement
  [word "try", part .body g.block, maybe (part .handler (catchClause g)),
   maybe (part .finalizer (group .finallyClause [word "finally", part .body g.block]))]

abbrev withStatement : Rule :=
  group .withStatement [word "with", part .object (parenthesized g), part .body (g.rule .statement)]

/-- A jump, perhaps to a label on the same line. -/
abbrev jump (kind : Kind) (keyword : String) : Rule := statement kind (inOrder [word keyword,
  maybe do
    guardRead !(← newLine)
    part .label (valueName .statementIdentifier), semicolon g.language false])

abbrev returnStatement : Rule :=
  statement .returnStatement (inOrder [word "return",
     semicolon g.language false <|> inOrder [expressions g, semicolon g.language true]])

abbrev throwStatement : Rule :=
  statement .throwStatement (inOrder [word "throw", expressions g, semicolon g.language true])

abbrev debuggerStatement : Rule :=
  statement .debuggerStatement (inOrder [word "debugger", semicolon g.language false])

abbrev labeledStatement : Rule :=
  group .labeledStatement [part .label (valueName .statementIdentifier), ":",
     part .body (g.rule .statement)]

/-- A module inside a file as a statement of its own. -/
abbrev moduleStatement : Rule := g.whenTyped (statement .expressionStatement (inOrder
  [internalModule g, semicolon g.language true]))

def keywordStatement (w : String) : Rule :=
  match w with
  | "if" => ifStatement g
  | "switch" => switchStatement g
  | "for" => forInStatement g <|> forStatement g
  | "while" => whileStatement g
  | "do" => doStatement g
  | "try" => tryStatement g
  | "with" => withStatement g
  | "break" => jump g .breakStatement "break"
  | "continue" => jump g .continueStatement "continue"
  | "return" => returnStatement g
  | "throw" => throwStatement g
  | "debugger" => debuggerStatement g
  | "namespace" => moduleStatement g
  | _ => failure

/-- A statement that is neither an import nor an export. -/
def plainStatement : Rule := do
  match ← ahead with
  | '{' :: _ => g.block
  | ';' :: _ => emptyStatement
  | cs =>
    let w := ((nameAt? cs).map String.ofList).getD ""
    firstOf [keywordStatement g w, declaration g, labeledStatement g, expressionStatement g]

end RouteAtlas.Source.Grammar
