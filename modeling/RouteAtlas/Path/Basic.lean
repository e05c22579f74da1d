import RouteAtlas.Text.Split

/-!
# Paths

A path is a text; its meaning is its list of components. Repeated slashes and inner `.` parts are
no components, so several texts have the same components and are the same path. Comparing and
ordering go by components; joining and taking the parent work on the text, so that a path is
shown the way it was put together.
-/

namespace RouteAtlas

/-- A path as it is written. -/
structure Path where
  text : String
  deriving DecidableEq, Repr, Inhabited

namespace Path

/-- A part of a path. -/
inductive Component where
  /-- The leading slash. -/
  | root
  /-- A leading `.`. -/
  | current
  /-- A `..`. -/
  | parent
  /-- The name of a directory or file. -/
  | name (text : String)
  deriving DecidableEq, Repr

def Component.text : Component → String
  | .root => "/"
  | .current => "."
  | .parent => ".."
  | .name text => text

/-- The rank of a component's form in the order of paths. -/
def Component.rank : Component → Nat
  | .root => 0
  | .current => 1
  | .parent => 2
  | .name _ => 3

/-- Components are ordered by form, names among themselves by their characters. -/
def Component.compare : Component → Component → Ordering
  | .name a, .name b => Ord.compare a b
  | a, b => Ord.compare a.rank b.rank

/-- The component that a part between slashes stands for, inside a path. -/
def Component.ofPart? (part : String) : Option Component :=
  if part = "" ∨ part = "." then none
  else if part = ".." then some .parent
  else some (.name part)

variable (p : Path)

def isAbsolute : Bool := p.text.toList.head? == some '/'

def components : List Component :=
  let parts := Text.pieces '/' p.text
  let inner := parts.filterMap Component.ofPart?
  if p.isAbsolute then .root :: inner
  else if parts.head? == some "." then .current :: inner
  else inner

def same (p q : Path) : Bool := p.components == q.components

/-- Paths are ordered like their lists of components. -/
def compare (p q : Path) : Ordering :=
  List.compareLex Component.compare p.components q.components

def le (p q : Path) : Bool := (p.compare q).isLE

/-- The path written with one slash between components. -/
def ofComponents : List Component → Path
  | [] => ⟨""⟩
  | .root :: rest => ⟨"/" ++ "/".intercalate (rest.map Component.text)⟩
  | comps => ⟨"/".intercalate (comps.map Component.text)⟩

/-- A path below another one: an absolute path stays as it is, and a slash is added unless the
first text is empty or ends with one. -/
def join (base : Path) (rel : String) : Path :=
  if rel.toList.head? == some '/' || base.text = "" then ⟨rel⟩
  else if base.text.toList.getLast? == some '/' then ⟨base.text ++ rel⟩
  else ⟨base.text ++ "/" ++ rel⟩

def fileName? : Option String :=
  match p.components.getLast? with
  | some (.name text) => some text
  | _ => none

/-- Drops slashes and `.` parts from the right end of a reversed text, down to `keep` characters. -/
def trimBack (keep : Nat) : List Char → List Char
  | [] => []
  | '/' :: cs => if cs.length + 1 ≤ keep then '/' :: cs else trimBack keep cs
  | '.' :: '/' :: cs => if cs.length + 2 ≤ keep then '.' :: '/' :: cs else trimBack keep ('/' :: cs)
  | cs => cs

/-- The text of the path without its last component; `none` for the empty path and the root. -/
def parent? : Option Path :=
  match p.components.getLast? with
  | none | some .root => none
  | some _ =>
    let keep := if p.isAbsolute then 1 else 0
    let back := trimBack keep p.text.toList.reverse
    let back := trimBack keep (back.dropWhile (· != '/'))
    some ⟨String.ofList back.reverse⟩

/-- The path and its ancestors, nearest first; the text of each is shorter than the one before. -/
def ancestorsFrom (p : Path) : List Path :=
  match p.parent? with
  | none => [p]
  | some q => if q.text.length < p.text.length then p :: ancestorsFrom q else [p]
termination_by p.text.length

def ancestors : List Path := p.ancestorsFrom

/-- The part of a file name after its last dot, if something stands before the dot. -/
def extensionOf? (name : String) : Option String :=
  match name.toList.reverse.span (· != '.') with
  | (_, []) => none
  | (_, [_]) => none
  | (ext, _ :: _) => if name = ".." then none else some (String.ofList ext.reverse)

def extension? : Option String := p.fileName?.bind extensionOf?

/-- The path with an extension put after a file name that has none. -/
def addExtension (ext : String) : Path :=
  match p.fileName? with
  | none => p
  | some _ =>
    let keep := if p.isAbsolute then 1 else 0
    ⟨String.ofList (trimBack keep p.text.toList.reverse).reverse ++ "." ++ ext⟩

def below? (base p : Path) : Option (List Component) :=
  Text.stripList? base.components p.components

def isBelow (base p : Path) : Bool := (below? base p).isSome

def hasName (name : String) (p : Path) : Bool :=
  p.components.any fun c => c.text == name

def inNodeModules : Bool := p.hasName "node_modules"

/-- One component put at the end of a cleaned path, which is given in reverse: `..` takes back the
last component, and stands for itself where there is none to take back. -/
def cleanStep : (back : List Component) → Component → List Component
  | back, .current => back
  | [], .parent => [.parent]
  | [.root], .parent => [.parent, .root]
  | _ :: back, .parent => back
  | back, c => c :: back

/-- The components without `.` and with `..` worked out on the text alone. -/
def cleanComponents (comps : List Component) : List Component :=
  (comps.foldl cleanStep []).reverse

/-- The path without `.` and with `..` worked out on the text alone. -/
def clean : Path := ofComponents (cleanComponents p.components)

/-- The text of a component in a path that is shown with single slashes. -/
def Component.shown? : Component → Option String
  | .name text => some text
  | .parent => some ".."
  | .root | .current => none

/-- The components as one text with single slashes; `.` if there is nothing to show. -/
def slashedComponents (absolute : Bool) (comps : List Component) : String :=
  let parts := comps.filterMap Component.shown?
  if absolute then "/" ++ "/".intercalate parts
  else if parts.isEmpty then "."
  else "/".intercalate parts

def slashed : String := slashedComponents p.isAbsolute p.components

/-- The path below a root with single slashes, if it lies there. -/
def relative? (root p : Path) : Option String :=
  (below? root p).map fun rest => slashedComponents (rest.head? == some .root) rest

/-- The path below the root if it lies there, the whole path otherwise. -/
def shownFrom (root p : Path) : String := (relative? root p).getD p.slashed

end Path

end RouteAtlas
