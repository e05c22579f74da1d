/-!
# Kinds of syntax nodes

The kinds of the nodes of a source's syntax tree and the roles that children play in their parents.
Both have fixed names, which appear in reports.
-/

namespace RouteAtlas.Source

/-- What a named node of a syntax tree is. -/
inductive Kind where
  -- Files and trivia
  | program | hashBangLine | comment
  -- Statements
  | exportStatement | importStatement | debuggerStatement | expressionStatement
  | variableDeclaration | lexicalDeclaration | variableDeclarator | statementBlock | elseClause
  | ifStatement | switchStatement | switchBody | switchCase | switchDefault | forStatement
  | forInStatement | whileStatement | doStatement | tryStatement | catchClause | finallyClause
  | withStatement | breakStatement | continueStatement | returnStatement | throwStatement
  | emptyStatement | labeledStatement
  -- Imports and exports
  | importKeyword | namespaceExport | exportClause | exportSpecifier | importClause
  | namespaceImport | namedImports | importSpecifier | importAttribute | importRequireClause
  | importAlias
  -- Declarations
  | functionDeclaration | generatorFunctionDeclaration | functionSignature | classDeclaration
  | abstractClassDeclaration | interfaceDeclaration | interfaceBody | typeAliasDeclaration
  | enumDeclaration | enumBody | enumAssignment | ambientDeclaration | internalModule
  | moduleDeclaration
  -- Expressions
  | parenthesizedExpression | sequenceExpression | assignmentExpression
  | augmentedAssignmentExpression | awaitExpression | unaryExpression | binaryExpression
  | ternaryExpression | updateExpression | newExpression | yieldExpression | subscriptExpression
  | memberExpression | callExpression | arguments | optionalChain | spreadElement | object
  | array | pair | computedPropertyName | functionExpression | generatorFunction | arrowFunction
  | metaProperty | asExpression | satisfiesExpression | typeAssertion | nonNullExpression
  | instantiationExpression | thisValue | superValue | trueValue | falseValue | nullValue
  | undefinedValue
  -- Classes and methods
  | classExpression | classHeritage | extendsClause | implementsClause | classBody
  | methodDefinition | methodSignature | abstractMethodSignature | fieldDefinition
  | publicFieldDefinition | classStaticBlock | decorator | accessibilityModifier
  | overrideModifier
  -- Parameters and patterns
  | formalParameters | requiredParameter | optionalParameter | objectPattern | arrayPattern
  | assignmentPattern | objectAssignmentPattern | restPattern | pairPattern
  -- Names and literals
  | identifier | propertyIdentifier | privatePropertyIdentifier | shorthandPropertyIdentifier
  | shorthandPropertyIdentifierPattern | statementIdentifier | typeIdentifier | number | string
  | stringFragment | escapeSequence | templateString | templateSubstitution | regex
  | regexPattern | regexFlags
  -- Markup
  | jsxElement | jsxSelfClosingElement | jsxOpeningElement | jsxClosingElement | jsxExpression
  | jsxAttribute | jsxText | jsxNamespaceName | htmlCharacterReference
  -- Types
  | typeMark | predefinedType | typeParameters | typeParameter | typeArguments | constraint
  | defaultType | unionType | intersectionType | functionType | constructorType | arrayType
  | tupleType | optionalType | restType | readonlyType | parenthesizedType | objectType
  | propertySignature | callSignature | constructSignature | indexSignature | mappedTypeClause
  | literalType | templateLiteralType | templateType | lookupType | conditionalType | inferType
  | genericType | typeQuery | indexTypeQuery | thisType | nestedTypeIdentifier | nestedIdentifier
  | typePredicate | predicateMark | asserts | assertsMark | optingMark | addingMark
  | omittingMark | extendsTypeClause
  deriving DecidableEq, Repr, Inhabited

/-- The names of the kinds, in the order in which the kinds are declared. -/
def Kind.names : List String :=
  ["program", "hash_bang_line", "comment", "export_statement", "import_statement",
   "debugger_statement", "expression_statement", "variable_declaration", "lexical_declaration",
   "variable_declarator", "statement_block", "else_clause", "if_statement", "switch_statement",
   "switch_body", "switch_case", "switch_default", "for_statement", "for_in_statement",
   "while_statement", "do_statement", "try_statement", "catch_clause", "finally_clause",
   "with_statement", "break_statement", "continue_statement", "return_statement", "throw_statement",
   "empty_statement", "labeled_statement", "import", "namespace_export", "export_clause",
   "export_specifier", "import_clause", "namespace_import", "named_imports", "import_specifier",
   "import_attribute", "import_require_clause", "import_alias", "function_declaration",
   "generator_function_declaration", "function_signature", "class_declaration",
   "abstract_class_declaration", "interface_declaration", "interface_body",
   "type_alias_declaration", "enum_declaration", "enum_body", "enum_assignment",
   "ambient_declaration", "internal_module", "module", "parenthesized_expression",
   "sequence_expression", "assignment_expression", "augmented_assignment_expression",
   "await_expression", "unary_expression", "binary_expression", "ternary_expression",
   "update_expression", "new_expression", "yield_expression", "subscript_expression",
   "member_expression", "call_expression", "arguments", "optional_chain", "spread_element",
   "object", "array", "pair", "computed_property_name", "function_expression", "generator_function",
   "arrow_function", "meta_property", "as_expression", "satisfies_expression", "type_assertion",
   "non_null_expression", "instantiation_expression", "this", "super", "true", "false", "null",
   "undefined", "class", "class_heritage", "extends_clause", "implements_clause", "class_body",
   "method_definition", "method_signature", "abstract_method_signature", "field_definition",
   "public_field_definition", "class_static_block", "decorator", "accessibility_modifier",
   "override_modifier", "formal_parameters", "required_parameter", "optional_parameter",
   "object_pattern", "array_pattern", "assignment_pattern", "object_assignment_pattern",
   "rest_pattern", "pair_pattern", "identifier", "property_identifier",
   "private_property_identifier", "shorthand_property_identifier",
   "shorthand_property_identifier_pattern", "statement_identifier", "type_identifier", "number",
   "string", "string_fragment", "escape_sequence", "template_string", "template_substitution",
   "regex", "regex_pattern", "regex_flags", "jsx_element", "jsx_self_closing_element",
   "jsx_opening_element", "jsx_closing_element", "jsx_expression", "jsx_attribute", "jsx_text",
   "jsx_namespace_name", "html_character_reference", "type_annotation", "predefined_type",
   "type_parameters", "type_parameter", "type_arguments", "constraint", "default_type",
   "union_type", "intersection_type", "function_type", "constructor_type", "array_type",
   "tuple_type", "optional_type", "rest_type", "readonly_type", "parenthesized_type", "object_type",
   "property_signature", "call_signature", "construct_signature", "index_signature",
   "mapped_type_clause", "literal_type", "template_literal_type", "template_type", "lookup_type",
   "conditional_type", "infer_type", "generic_type", "type_query", "index_type_query", "this_type",
   "nested_type_identifier", "nested_identifier", "type_predicate", "type_predicate_annotation",
   "asserts", "asserts_annotation", "opting_type_annotation", "adding_type_annotation",
   "omitting_type_annotation", "extends_type_clause"]

def Kind.name (k : Kind) : String := names.getD k.ctorIdx ""

example : Kind.extendsTypeClause.name = "extends_type_clause" := by decide

/-- The part that a child plays in its parent. -/
inductive Role where
  | name | value | body | parameters | parameter | left | right | object | property | index
  | function | constructor | arguments | key | source | alias | declaration | decorator
  | condition | consequence | alternative | initializer | increment | operator | argument | label
  | handler | finalizer | kind | pattern | type | returnType | typeParameters | typeArguments
  | optionalChain | flags | member | openTag | closeTag | attribute | constraint | module | sign
  | indexType
  deriving DecidableEq, Repr

end RouteAtlas.Source
