import RouteAtlas.Path.Basic
import RouteAtlas.Sort
import RouteAtlas.Text.Bytes

/-!
# File trees

A file tree is a set of names below a root directory: directories, files with their bytes, and
links to other paths. A path is followed part by part from the root; a link in the middle of a path
is replaced by its target. Relative paths start at the working directory.
-/

namespace RouteAtlas.Files

/-- What stands at a place. -/
inductive Entry where
  | directory
  | file (bytes : List UInt8)
  | link (target : String)
  deriving DecidableEq, Repr

/-- A place in a file tree: the names on the way from the root. -/
abbrev Place := List String

/-- The entries of a file tree by their places, and the place that relative paths start from. -/
structure Tree where
  entries : List (Place × Entry) := []
  working : Place := []
  deriving DecidableEq, Repr

namespace Tree

variable (t : Tree)

variable (place : Place)

/-- What stands at a place; the root is a directory. -/
def entry? : Option Entry :=
  if place.isEmpty then some .directory else t.entries.lookup place

def isDirAt : Bool := t.entry? place == some .directory

/-- The place that the parts of a path lead to from a directory. What is behind a link is left to
`onLink`: the directory where its target starts, and the parts to follow from there. -/
def followBy (t : Tree) (onLink : Place → List String → Option Place) :
    Place → List String → Option Place
  | place, [] => some place
  | place, part :: parts =>
    if !t.isDirAt place then none
    else if part = "" || part = "." then followBy t onLink place parts
    else if part = ".." then followBy t onLink place.dropLast parts
    else
      match t.entry? (place ++ [part]) with
      | none => none
      | some (.link target) =>
        let start := if target.toList.head? == some '/' then [] else place
        onLink start (Text.pieces '/' target ++ parts)
      | some _ => followBy t onLink (place ++ [part]) parts

/-- The place that the parts of a path lead to, with at most so many links on the way. -/
def followFrom (t : Tree) : (links : Nat) → Place → List String → Option Place
  | 0 => t.followBy fun _ _ => none
  | links + 1 => t.followBy (followFrom t links)

/-- Following a path is following it by some way to go on behind links. -/
theorem exists_followBy (t : Tree) (links : Nat) :
    ∃ onLink, t.followFrom links = t.followBy onLink := by
  cases links <;> exact ⟨_, rfl⟩

/-- The most links that are followed on the way of one path. -/
def mostLinks : Nat := 40

variable (path : Path)

/-- The place that a path leads to; nothing is found under the empty path. -/
def real? : Option Place :=
  if path.text = "" then none
  else t.followFrom mostLinks (if path.isAbsolute then [] else t.working)
    (Text.pieces '/' path.text)

def pathOf : Path := ⟨"/" ++ "/".intercalate place⟩

/-- The path without links and dots, if there is something. -/
def canonical? : Option Path := (t.real? path).map pathOf

/-- The path without links and dots, or at least a clean one. -/
def settled : Path := (t.canonical? path).getD path.clean

def at? : Option Entry := (t.real? path).bind t.entry?

def isFile : Bool :=
  match t.at? path with
  | some (.file _) => true
  | _ => false

def isDir : Bool := t.at? path == some .directory

def holds : Bool := (t.at? path).isSome

def bytes? : Option (List UInt8) :=
  match t.at? path with
  | some (.file bytes) => some bytes
  | _ => none

/-- The text of a file; `none` also if its bytes are not UTF-8. -/
def text? : Option String :=
  (t.bytes? path).bind fun bytes => Text.utf8? ⟨bytes.toArray⟩

def nameBelow? (below : Place) : Option String :=
  match Text.stripList? place below with
  | some [name] => some name
  | _ => none

/-- The names in a directory with their entries, in order; links are not followed. -/
def names : List (String × Entry) :=
  sortBy (fun a b => a.1 ≤ b.1)
    (t.entries.filterMap fun (p, e) => (nameBelow? place p).map (·, e))

/-! ## Changes -/

/-- The tree without what stands at a place and below it. -/
def removeAt : Tree :=
  { t with entries := t.entries.filter fun (p, _) => (Text.stripList? place p).isNone }

/-- The tree with an entry, and with the directories on the way to it. -/
def putAt (entry : Entry) : Tree :=
  let around := ((List.range place.length).map place.take).filter fun p => (t.entry? p).isNone
  { t with entries :=
      t.entries.filter (·.1 ≠ place) ++ around.map (·, Entry.directory) ++ [(place, entry)] }

/-- The place that the text of a path names, links apart. -/
def placeOf : Place :=
  let start : Path := if path.isAbsolute then path else (pathOf t.working).join path.text
  start.clean.components.filterMap fun
    | .name text => some text
    | _ => none

def makeDir : Tree :=
  if t.isDir path then t else t.putAt (t.placeOf path) .directory

def write (bytes : List UInt8) : Tree :=
  t.putAt ((t.real? path).getD (t.placeOf path)) (.file bytes)

def link (target : String) : Tree :=
  t.putAt (t.placeOf path) (.link target)

def delete : Tree := t.removeAt (t.placeOf path)

def rename (path target : Path) : Tree :=
  let old := t.placeOf path
  let new := t.placeOf target
  let moved := t.entries.filterMap fun (p, e) => (Text.stripList? old p).map (new ++ ·, e)
  moved.foldl (fun t (p, e) => t.putAt p e) ((t.removeAt old).removeAt new)

end Tree

end RouteAtlas.Files
