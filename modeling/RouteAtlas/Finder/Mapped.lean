import RouteAtlas.Finder.Search
import RouteAtlas.Path.Uri
import RouteAtlas.Source.Catalog
import RouteAtlas.SourceMap.Map

/-!
# Functions behind a source map

A function found in a compiled file is traced back through the source map beside it: the start gives
a place in a source, and the function that starts there, or else the smallest one around it, is the
one that was meant.
-/

namespace RouteAtlas.Finder

open Files Source

/-- A place in a source that a compiled function comes from, with the text of the source. Lines and
columns count from zero. -/
structure MappedFunction where
  source : Path
  line : Nat
  column : Nat
  endLine : Nat
  content : String

/-- The source text from the start of the function to the end of its last line. -/
def MappedFunction.text (m : MappedFunction) : String :=
  let lines := (Text.lines m.content).mapIdx fun i line =>
    if i < m.line || m.endLine < i then none
    else if i = m.line then some (String.ofList (line.toList.drop m.column))
    else some line
  "\n".intercalate (lines.filterMap id)

/-- A source name without the scheme of a bundler. -/
def withoutBundler (name : String) : String :=
  match Text.stripStart? "webpack://" name with
  | some rest => String.ofList ((rest.toList.dropWhile (· != '/')).dropWhile (· == '/'))
  | none => name

def sourcePath (dir : Path) (name : String) : Path :=
  let plain := (dir.join (withoutBundler name)).clean
  if Text.startsWith "file://" name then (Path.ofUri? name).getD plain else plain

/-- Why a source map leads nowhere. -/
inductive MapError where
  | unreadableMap (path : Path)
  | badMap (path : Path)
  | unreadableSource (path : Path)

/-- The line on which the source of a function ends: that of its end if that is in the same source,
but not before its start. -/
def endLineOf (start : SourceMap.Origin) (stop : Option SourceMap.Origin) : Nat :=
  match stop with
  | some stop => if stop.source = start.source then max stop.line start.line else start.line
  | none => start.line

/-- Where a function of a compiled file comes from. -/
def mapBack (t : Tree) (compiled : Path) (found : FoundFunction) :
    Except MapError (Option MappedFunction) := do
  let path := mapPath compiled
  let text ← (t.text? path).elim (.error (.unreadableMap path)) .ok
  let map ← (SourceMap.Map.read? text).elim (.error (.badMap path)) .ok
  let stop := map.originOf? (found.span.endLine - 1) (found.span.endColumn - 1)
  match map.originOf? (found.span.startLine - 1) (found.span.startColumn - 1) with
  | none => return none
  | some start =>
    match map.source? start.source with
    | none => return none
    | some name =>
      let source := sourcePath (path.parent?.getD ⟨"/"⟩) name
      let content ← ((map.content? start.source) <|> t.text? source).elim
        (.error (.unreadableSource source)) .ok
      return some ⟨source, start.line, start.column, endLineOf start stop, content⟩

def isBefore (p q : Position) : Bool :=
  p.line < q.line || (p.line = q.line && p.character < q.character)

def holds (source : String) (point : Position) (n : Node) : Bool :=
  let r := n.range source
  !isBefore point r.start && isBefore point r.stop

mutual

/-- The function that starts at a position, or else the smallest one that holds it. -/
def functionAround? (source : String) (point : Position) : Node → Option Node
  | .mk label role start stop children =>
    let n := Node.mk label role start stop children
    if !holds source point n then none
    else if n.kindIs Kind.isFunction then
      if n.position source = point then some n
      else functionAmong? source point children <|> some n
    else functionAmong? source point children

/-- The function around a position in the last of some nodes that has one. -/
def functionAmong? (source : String) (point : Position) : List Node → Option Node
  | [] => none
  | n :: ns => functionAmong? source point ns <|> functionAround? source point n

end

/-- The function of the source that was meant. -/
def MappedFunction.function? (m : MappedFunction) : Option FoundFunction :=
  let language := (Language.ofPath? m.source).getD .typescript
  (functionAround? m.content ⟨m.line, m.column⟩ (parse language m.content)).map
    (FoundFunction.ofNode m.source m.content)

end RouteAtlas.Finder
