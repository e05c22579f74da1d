import RouteAtlas.Json.Reader
import RouteAtlas.Json.Record
import RouteAtlas.SourceMap.Vlq

/-!
# Source maps

A source map says for places in a compiled file which place in which source they come from. It is
read from its JSON form; a place belongs to the mapping that starts last at or before it.
-/

namespace RouteAtlas.SourceMap

open Json

/-- Where a piece of a source starts: the number of the source, line and column. -/
structure Origin where
  source : Nat
  line : Nat
  column : Nat
  deriving DecidableEq, Repr

/-- A place in a compiled file, and where it comes from if that is known. -/
structure Mapping where
  line : Nat
  column : Nat
  origin : Option Origin
  deriving DecidableEq, Repr

/-- A source map that was read. -/
structure Map where
  sources : List String
  contents : List (Option String)
  mappings : List Mapping

/-! ## Reading mappings -/

/-- What the numbers of a segment count on from. -/
structure Counters where
  column : Nat := 0
  source : Nat := 0
  line : Nat := 0
  sourceColumn : Nat := 0
  name : Nat := 0

/-- How many sources and names there are. -/
structure Limits where
  sources : Nat
  names : Nat

/-- A counter moved by a number; it may not become negative and has thirty-two bits. -/
def moved? (counter : Nat) (by_ : Int) : Option Nat :=
  let next := (counter : Int) + by_
  if next < 0 then none else some (next.toNat % 0x100000000)

/-- A counter moved by a number to one of `limit` places. -/
def movedWithin? (limit counter : Nat) (by_ : Int) : Option Nat :=
  let next := (counter : Int) + by_
  if next < 0 || (limit : Int) ≤ next then none else some next.toNat

/-- The counters after the four numbers of a segment with a source. -/
def Counters.step? (c : Counters) (limits : Limits) (column source line sourceColumn : Int) :
    Option Counters := do
  let column ← moved? c.column column
  let source ← movedWithin? limits.sources c.source source
  let line ← moved? c.line line
  let sourceColumn ← moved? c.sourceColumn sourceColumn
  return { c with column, source, line, sourceColumn }

def Counters.origin (c : Counters) : Origin := ⟨c.source, c.line, c.sourceColumn⟩

/-- The mapping of a segment in a line, and the counters after it. -/
def segment? (limits : Limits) (line : Nat) (c : Counters) (segment : List Nat) :
    Option (Mapping × Counters) := do
  match ← segmentNumbers? segment with
  | [column] =>
    let column ← moved? c.column column
    return (⟨line, column, none⟩, { c with column })
  | [column, source, srcLine, srcColumn] =>
    let c ← c.step? limits column source srcLine srcColumn
    return (⟨line, c.column, some c.origin⟩, c)
  | [column, source, srcLine, srcColumn, name] =>
    let c ← c.step? limits column source srcLine srcColumn
    let name ← movedWithin? limits.names c.name name
    return (⟨line, c.column, some c.origin⟩, { c with name })
  | _ => none

def segments? (limits : Limits) (line : Nat) :
    Counters → List (List Nat) → Option (List Mapping × Counters)
  | c, [] => some ([], c)
  | c, s :: ss =>
    if s.isEmpty then segments? limits line c ss
    else do
      let (mapping, c) ← segment? limits line c s
      let (rest, c) ← segments? limits line c ss
      return (mapping :: rest, c)

def cutBytes (separator : Nat) : List Nat → List (List Nat)
  | [] => [[]]
  | b :: bs =>
    if b = separator then [] :: cutBytes separator bs
    else match cutBytes separator bs with
      | piece :: pieces => (b :: piece) :: pieces
      | [] => [[b]]

/-- The mappings of lines, from the given line on. Columns start anew in each line. -/
def mappingLines? (limits : Limits) : (line : Nat) → Counters → List (List Nat) →
    Option (List Mapping)
  | _, _, [] => some []
  | line, c, l :: ls => do
    let (here, c) ← segments? limits line { c with column := 0 } (cutBytes 44 l)
    let rest ← mappingLines? limits (line + 1) c ls
    return here ++ rest

def mappings? (limits : Limits) (text : String) : Option (List Mapping) :=
  mappingLines? limits 0 {} (cutBytes 59 (Text.utf8Bytes text))

/-! ## Reading maps -/

/-- A list of numbers that index something. -/
def indexList? (j : Json) : Option (List Nat) := j.array?.bind fun items => items.mapM Json.nat32?

/-- Texts that may be missing. -/
def contentList? (j : Json) : Option (List (Option String)) :=
  j.array?.bind fun items => items.mapM fun item => optional? Json.string? (some item)

/-- The list of sources to be passed over, under either of its names. -/
def ignoreList? (members : List (String × Json)) : Option (Option (List Nat)) := do
  let long ← onlyMember? "x_google_ignoreList" members
  let short ← onlyMember? "ignoreList" members
  match long, short with
  | some _, some _ => none
  | some list, none => optional? indexList? (some list)
  | none, list => optional? indexList? list

/-- The map that the members of an object stand for. -/
def Map.ofMembers? (members : List (String × Json)) : Option Map := do
  let version ← required? Json.nat32? "version" members
  if version ≠ 3 then failure
  let _ ← member? Json.string? "file" members
  let text ← required? Json.string? "mappings" members
  let sources ← required? stringList? "sources" members
  let contents ← member? contentList? "sourcesContent" members
  let names ← match ← onlyMember? "names" members with
    | none => some []
    | some j => stringList? j
  let ignored ← ignoreList? members
  if (ignored.getD []).any (sources.length ≤ ·) then failure
  let mappings ← mappings? ⟨sources.length, names.length⟩ text
  return ⟨sources, contents.getD [], mappings⟩

namespace Map

def read? (text : String) : Option Map :=
  match Json.readWritten? text with
  | some (.object members) => ofMembers? members
  | _ => none

def source? (m : Map) (index : Nat) : Option String := m.sources[index]?

def content? (m : Map) (index : Nat) : Option String := (m.contents[index]?).join

def atOrBefore (line column line' column' : Nat) : Bool :=
  line < line' || (line = line' && column ≤ column')

/-- Of two mappings the one that a later place belongs to: the second if it starts no earlier. -/
def laterMapping (best : Option (Mapping × Origin)) (next : Mapping × Origin) :
    Option (Mapping × Origin) :=
  match best with
  | none => some next
  | some (m, o) =>
    if atOrBefore m.line m.column next.1.line next.1.column then some next else some (m, o)

/-- The mapping with its origin, if that is known and the mapping is at or before a place. -/
def originBefore? (line column : Nat) (m : Mapping) : Option (Mapping × Origin) :=
  m.origin.bind fun origin =>
    if atOrBefore m.line m.column line column then some (m, origin) else none

/-- Where a place in the compiled file comes from: the origin of the mapping that starts last at or
before it. -/
def originOf? (m : Map) (line column : Nat) : Option Origin :=
  ((m.mappings.filterMap (originBefore? line column)).foldl laterMapping none).map (·.2)

end Map

end RouteAtlas.SourceMap
