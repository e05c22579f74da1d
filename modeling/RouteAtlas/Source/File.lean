import RouteAtlas.Source.Parse
import RouteAtlas.Digest.Blake3

/-!
# Source files

A source file is a text with its syntax tree, its language, and a version that counts how often the
text has changed.
-/

namespace RouteAtlas.Source

/-- A source file; text and tree belong together. -/
structure File where
  path : Path
  relPath : String
  text : String
  tree : Node
  language : Language
  version : Nat

namespace File

def ofText (root path : Path) (text : String) (language : Language) (version : Nat) : File :=
  ⟨path, Path.shownFrom root path, text, parse language text, language, version⟩

def hash (f : File) : String := Digest.Blake3.ofText f.text

end File

end RouteAtlas.Source
