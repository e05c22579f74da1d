import RouteAtlas.Text.Blank

/-!
# JSON with comments

Configuration files may hold comments and a comma before a closing bracket. Removing both leaves
plain JSON; strings are copied as they are.
-/

namespace RouteAtlas.Modules

/-- Where a reader of the text stands. -/
inductive JsoncState where
  | plain
  | string
  /-- Inside a comment that ends with its line. -/
  | lineComment
  /-- Inside a comment that ends with a star and a slash; whether a star was just read. -/
  | blockComment (star : Bool)

/-- The text without comments; the line feed after a line comment stays. -/
def dropComments : JsoncState → List Char → List Char
  | _, [] => []
  | .string, '\\' :: c :: cs => '\\' :: c :: dropComments .string cs
  | .string, '"' :: cs => '"' :: dropComments .plain cs
  | .string, c :: cs => c :: dropComments .string cs
  | .lineComment, '\n' :: cs => '\n' :: dropComments .plain cs
  | .lineComment, _ :: cs => dropComments .lineComment cs
  | .blockComment star, c :: cs =>
    if star && c == '/' then dropComments .plain cs else dropComments (.blockComment (c == '*')) cs
  | .plain, '"' :: cs => '"' :: dropComments .string cs
  | .plain, '/' :: '/' :: cs => dropComments .lineComment cs
  | .plain, '/' :: '*' :: cs => dropComments (.blockComment false) cs
  | .plain, c :: cs => c :: dropComments .plain cs

/-- The next character that is no white space closes a container. -/
def closesNext (cs : List Char) : Bool :=
  match cs.dropWhile Text.isBlank with
  | c :: _ => c == '}' || c == ']'
  | [] => false

/-- The text without commas in front of a closing bracket. -/
def dropTrailingCommas : (inString : Bool) → List Char → List Char
  | _, [] => []
  | true, '\\' :: c :: cs => '\\' :: c :: dropTrailingCommas true cs
  | true, c :: cs => c :: dropTrailingCommas (c != '"') cs
  | false, ',' :: cs =>
    if closesNext cs then dropTrailingCommas false cs else ',' :: dropTrailingCommas false cs
  | false, c :: cs => c :: dropTrailingCommas (c == '"') cs

def stripJsonc (text : String) : String :=
  String.ofList (dropTrailingCommas false (dropComments .plain text.toList))

end RouteAtlas.Modules
