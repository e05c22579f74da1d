import RouteAtlas.Path.Basic
import RouteAtlas.Source.Node

/-!
# Functions with their context

What an expansion tells: the source of a function, and for every name it uses from outside where
that is defined, what is written there and, for functions, the context of the definition in turn.
-/

namespace RouteAtlas.Expansion

open Source

/-- What a free name is defined as. -/
inductive DefinitionKind where
  | function
  | type
  | unknown
  deriving DecidableEq, Repr

def DefinitionKind.name : DefinitionKind → String
  | .function => "function"
  | .type => "type"
  | .unknown => "unknown"

/-- Where something is defined and what is written there. -/
structure Definition where
  uri : String
  file : String
  range : Range
  text : String

/-- A name that a function uses from outside. -/
structure ContextEntry where
  name : String
  kind : DefinitionKind := .unknown
  position : Position
  definition : Option Definition := none
  package : Option String := none
  context : List ContextEntry := []
  unresolved : Bool := false

/-- A function with the names it uses from outside. -/
structure ExpandedFunction where
  file : Path
  span : Span
  source : String
  context : List ContextEntry

def Definition.toJson (d : Definition) : Json :=
  .object [("uri", .string d.uri), ("file", .string d.file), ("range", d.range.toJson),
    ("text", .string d.text)]

/-- The members of an entry apart from those of its context. -/
def ContextEntry.ownMembers (name : String) (kind : DefinitionKind) (position : Position)
    (definition : Option Definition) (package : Option String) : List (String × Json) :=
  [("name", .string name), ("type", .string kind.name), ("position", position.toJson)] ++
    (definition.map fun d => ("definition", d.toJson)).toList ++
    (package.map fun p => ("package", Json.string p)).toList

mutual

/-- The entry as a value; what is absent, empty or false is left out. -/
def ContextEntry.toJson : ContextEntry → Json
  | ⟨name, kind, position, definition, package, context, unresolved⟩ =>
    .object (ContextEntry.ownMembers name kind position definition package ++
      (match context with
        | [] => []
        | entry :: entries => [("context", .array (entry.toJson :: contextJson entries))]) ++
      (if unresolved then [("unresolved", .bool true)] else []))

def contextJson : List ContextEntry → List Json
  | [] => []
  | entry :: entries => entry.toJson :: contextJson entries

end

mutual

/-- The entry with a name in this entry or below it. -/
def ContextEntry.find? (wanted : String) : ContextEntry → Option ContextEntry
  | ⟨name, kind, position, definition, package, context, unresolved⟩ =>
    if name = wanted then some ⟨name, kind, position, definition, package, context, unresolved⟩
    else findAmong? wanted context

/-- The first entry with a name among entries and below them. -/
def findAmong? (wanted : String) : List ContextEntry → Option ContextEntry
  | [] => none
  | entry :: entries => entry.find? wanted <|> findAmong? wanted entries

end

namespace ExpandedFunction

variable (f : ExpandedFunction)

def find? (name : String) : Option ContextEntry := findAmong? name f.context

def unresolvedNames : List String :=
  (f.context.filter (·.unresolved)).map (·.name)

def toJson : Json :=
  .object (("file", .string f.file.text) :: f.span.members ++
    [("source", .string f.source), ("context", .array (contextJson f.context))])

end ExpandedFunction

end RouteAtlas.Expansion
