import RouteAtlas.Source.Grammar.Statement

/-!
# Imports and exports

How a file names what it takes from other modules and what it gives to them.
-/

namespace RouteAtlas.Source.Grammar

variable (g : Context)

/-- A word that marks names as types, in front of what is named. -/
def typeWord : Rule :=
  g.whenTyped (firstOf [modifier "type" <|> one (do
        let n ← word "type"
        guardRead ((← peekSymbol) == some "*")
        return n), modifier "typeof"])

abbrev exportName : Rule := one (anyName .identifier) <|> stringLiteral

/-- One of the names in an import or export, and what it is called on this or the other side. -/
def specifier (kind : Kind) : Rule :=
  let renamed : Rule := inOrder [part .name exportName, word "as", part .alias exportName]
  let plain : Rule := part .name exportName
  let closed (p : Rule) : Rule := do
    let xs ← p
    let next ← peekSymbol
    guardRead (next == some "," || next == some "\x7d")
    return xs
  node kind (firstOf [closed renamed, closed plain, closed (inOrder [typeWord g, renamed]),
     closed (inOrder [typeWord g, plain])])

abbrev specifiers (list item : Kind) : Rule := node list (inOrder
  ["\x7b", maybe (commaList (specifier g item)), maybe ",", "\x7d"])

abbrev fromClause : Rule := inOrder [word "from", part .source stringLiteral]

abbrev importAttribute : Rule := group .importAttribute
  [one (word "with") <|> one (word "assert"), object g]

abbrev namespaceImport : Rule := group .namespaceImport ["*", word "as", valueName .identifier]

abbrev importClause : Rule :=
  let group : Rule := namespaceImport <|> specifiers g .namedImports .importSpecifier
  node .importClause (group <|> inOrder [valueName .identifier, maybe (inOrder [",", group])])

abbrev importRequire : Rule := group .importRequireClause
  [valueName .identifier, "=", word "require", "(", part .source stringLiteral, ")"]

abbrev importStatement : Rule :=
  let clause : Rule := inOrder [importClause g, fromClause]
  let body : Rule := g.whenTyped importRequire <|> clause
  statement .importStatement (inOrder [word "import",
     firstOf [inOrder [typeWord g, body], body, part .source stringLiteral],
     maybe (importAttribute g), semicolon g.language false])

abbrev namespaceExport : Rule := group .namespaceExport ["*", word "as", exportName]

/-- Names passed on from another module, or given out from this one. -/
abbrev exportNames : Rule :=
  let clause : Rule := specifiers g .exportClause .exportSpecifier
  inOrder [maybe (typeWord g), firstOf
       [inOrder [namespaceExport, fromClause], inOrder ["*", fromClause],
        inOrder [clause, fromClause], clause],
     maybe (importAttribute g), semicolon g.language false]

abbrev defaultDeclaration : Rule := part .declaration (firstOf
  [functionDeclaration g, classDeclaration g, g.whenTyped (abstractClass g),
   g.whenTyped (interfaceDeclaration g)])

abbrev exportDefault : Rule := inOrder [word "default", defaultDeclaration g <|>
  inOrder [part .value g.expression, semicolon g.language true]]

/-- A value as the whole of a module, or the name of the module. -/
abbrev exportWhole : Rule := g.whenTyped (firstOf
  [inOrder ["=", expressions g, semicolon g.language true], inOrder
     [word "as", word "namespace", valueName .identifier, semicolon g.language false]])

def exportStatement : Rule :=
  statement .exportStatement (inOrder [decorators g, word "export", firstOf
       [exportDefault g, exportNames g, part .declaration (declaration g), exportWhole g]])

def statementRule : Rule := do
  match ← peekWord with
  | some "import" => firstOf [importStatement g, plainStatement g]
  | some "export" => exportStatement g
  | _ =>
    if (← peekSymbol) == some "@" then exportStatement g <|> plainStatement g
    else plainStatement g

end RouteAtlas.Source.Grammar
