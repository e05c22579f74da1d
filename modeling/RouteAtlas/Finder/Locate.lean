import RouteAtlas.Finder.Mapped

/-!
# Locating a function in a project

A function captured as text is looked for in the sources of a project, file by file, and in compiled
files whose source maps lead back to a source. The text before compiling and the file may be known
from elsewhere; these hints are tried first.
-/

namespace RouteAtlas.Finder

open Files Source

/-- The file cannot be read. -/
structure Unreadable where
  path : Path

variable (t : Tree)

def searchFile (path : Path) (search : String) : Except Unreadable (Option FoundFunction) :=
  match Language.ofPath? path with
  | none => .ok none
  | some language =>
    match t.text? path with
    | none => .error ⟨path⟩
    | some text => .ok (search? path text language search)

/-- The same, where a file that cannot be read holds nothing. -/
def searchFile? (search : String) (path : Path) : Option FoundFunction :=
  (searchFile t path search).toOption.join

variable (root : Path)

/-- The function with the given text in the sources of a project; the first file counts. -/
def locateDirect? (text : String) : Option FoundFunction :=
  let search := normalize text
  if search.isEmpty then none else (candidates t root).findSome? (searchFile? t search)

/-- The source function behind a compiled file, by its place or else by its text. -/
def behindCompiled? (search : String) (compiled : Path) :
    Option FoundFunction := do
  let found ← searchFile? t search compiled
  let mapped ← (mapBack t compiled found).toOption.join
  mapped.function? <|> locateDirect? t root mapped.text

/-- The function whose compiled form has the given text. -/
def locateMapped? (text : String) : Option FoundFunction :=
  let search := normalize text
  if search.isEmpty then none else (mappedFiles t root).findSome? (behindCompiled? t root search)

/-- What is known of a function from elsewhere: its source text, and the file that should hold it.
-/
structure Hints where
  sourceFunction : Option String := none
  sourceFile : Option String := none

def locateHinted? (hints : Hints) : Option FoundFunction := do
  let text ← hints.sourceFunction
  (hints.sourceFile.bind fun file => searchFile? t (normalize text) (root.join file)) <|>
    locateDirect? t root text

/-- How a function is looked for. -/
structure LocateOptions where
  skipSourceMap : Bool := false
  hints : Hints := {}

def locate? (text : String) (options : LocateOptions) : Option FoundFunction :=
  locateHinted? t root options.hints <|> locateDirect? t root text <|>
    (if options.skipSourceMap then none else locateMapped? t root text)

end RouteAtlas.Finder
