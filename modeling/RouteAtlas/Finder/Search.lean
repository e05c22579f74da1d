import RouteAtlas.Source.Parse
import RouteAtlas.Source.Shape

/-!
# Searching for a function by its text

A function captured as text at run time is found by comparing texts with their white space
collapsed and a leading `async` dropped. A long text is also found inside a function that contains
it, but then the innermost such function is taken.
-/

namespace RouteAtlas.Finder

open Source

/-- A text with its white space collapsed and one leading `async` dropped. -/
def normalize (text : String) : String :=
  let collapsed := Text.collapse text
  (Text.stripStart? "async " collapsed).getD collapsed

/-- A search text of at most this many bytes has to be a whole function. -/
def containmentLimit : Nat := 25

/-- The function with the given source text is what the search text stands for. -/
def isMatch (search functionText : String) : Bool :=
  let text := normalize functionText
  text == search || (containmentLimit < search.utf8ByteSize && Text.contains search text)

mutual

/-- The function to be found in a tree: of the first one that matches, the innermost. -/
def find? (source search : String) : Node → Option Node
  | .mk label role start stop children =>
    let n := Node.mk label role start stop children
    if n.kindIs Kind.isFunction && isMatch search (n.source source) then
      findAmong? source search children <|> some n
    else findAmong? source search children

def findAmong? (source search : String) : List Node → Option Node
  | [] => none
  | n :: ns => find? source search n <|> findAmong? source search ns

end

/-- A function and where it was found, in bytes and in lines. -/
structure FoundFunction where
  file : Path
  start : Nat
  stop : Nat
  span : Span
  text : String

def FoundFunction.location (f : FoundFunction) : Json :=
  .object (("file", .string f.file.text) :: f.span.members)

def FoundFunction.ofNode (file : Path) (source : String) (n : Node) : FoundFunction :=
  ⟨file, n.start, n.stop, n.span source, n.source source⟩

def search? (file : Path) (source : String) (language : Language) (text : String) :
    Option FoundFunction :=
  (find? source text (parse language source)).map (FoundFunction.ofNode file source)

end RouteAtlas.Finder
