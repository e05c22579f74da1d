import RouteAtlas.Source.Catalog
import RouteAtlas.Source.File

/-!
# Tracked files

The store holds the sources of a project as they were last read, in path order. A file that is read
again gets a new version if its digest differs; a file that is gone is dropped.
-/

namespace RouteAtlas.Project

open Files Source

/-- What reading a file again did. -/
inductive Change where
  | added
  | modified
  | unchanged
  | removed
  deriving DecidableEq, Repr

def Change.name : Change → String
  | .added => "added"
  | .modified => "modified"
  | .unchanged => "unchanged"
  | .removed => "removed"

/-- Why a file cannot be tracked. -/
inductive StoreError where
  | unsupported (path : Path)
  | unreadable (path : Path)
  deriving DecidableEq, Repr

def StoreError.message : StoreError → String
  | .unsupported path => "unsupported file type " ++ path.text
  | .unreadable path => "read " ++ path.text

def parseFile (t : Tree) (root path : Path) : Except StoreError File :=
  match Language.ofPath? path with
  | none => .error (.unsupported path)
  | some language =>
    match t.text? path with
    | none => .error (.unreadable path)
    | some text => .ok (.ofText root path text language 1)

/-- The tracked files of a project, in path order. -/
structure Store where
  root : Path
  files : List File := []

namespace Store

variable (s : Store) (t : Tree)

variable (path : Path)

def get? : Option File := s.files.find? (·.path.same path)

def contains : Bool := (s.get? path).isSome

def paths : List Path := s.files.map (·.path)

def putFile (f : File) : List File → List File
  | [] => [f]
  | g :: gs =>
    match f.path.compare g.path with
    | .lt => f :: g :: gs
    | .eq => f :: gs
    | .gt => g :: putFile f gs

def put (f : File) : Store := { s with files := putFile f s.files }

def remove : Store :=
  { s with files := s.files.filter (!·.path.same path) }

def upsertText (text : String) : Except StoreError (Change × Store) :=
  match Language.ofPath? path with
  | none => .error (.unsupported path)
  | some language =>
    match s.get? path with
    | none => .ok (.added, s.put (.ofText s.root path text language 1))
    | some old =>
      if old.hash = Digest.Blake3.ofText text then .ok (.unchanged, s)
      else .ok (.modified, s.put (.ofText s.root path text language (old.version + 1)))

/-- Reads a file again; one that is gone is no longer tracked. -/
def upsert : Except StoreError (Change × Store) :=
  if !t.isFile path then
    .ok (if s.contains path then .removed else .unchanged, s.remove path)
  else
    match t.text? path with
    | none => .error (.unreadable path)
    | some text => s.upsertText path text

/-- The store after reading a file again; the same if that fails. -/
def upserted : Store :=
  match s.upsert t path with
  | .ok (_, s) => s
  | .error _ => s

def load (root : Path) (sel : Selection) : Except BadGlob Store :=
  (catalog t root sel).map fun entries =>
    entries.foldl (fun s entry => s.upserted t entry.path) { root }

/-- The tracked file at a path, or else the file as it is now. -/
def getOrParse? : Option File :=
  s.get? path <|> (parseFile t s.root path).toOption

end Store

end RouteAtlas.Project
