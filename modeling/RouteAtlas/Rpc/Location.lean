import RouteAtlas.Rpc.Message
import RouteAtlas.Source.Position

/-!
# Locations

A server answers where something is with one location, a list of locations, or a list of links
that also name the place to select. Items of any other form are dropped.
-/

namespace RouteAtlas.Rpc

open Source (Range)

/-- A range in a file. -/
structure Location where
  uri : String
  range : Range
  deriving DecidableEq, Repr

def Location.toJson (l : Location) : Json :=
  .object [("uri", .string l.uri), ("range", l.range.toJson)]

def Location.plain? : Json → Option Location
  | .array [uri, range] => do some ⟨← uri.string?, ← Range.ofJson? range⟩
  | j@(.object _) => do some ⟨← (← j.get? "uri").string?, ← Range.ofJson? (← j.get? "range")⟩
  | _ => none

/-- A range that may be absent; null counts as absent, anything else must be a range. -/
def optionalRange? (j : Option Json) : Option (Option Range) :=
  match present? j with
  | none => some none
  | some j => (Range.ofJson? j).map some

/-- A link from its parts: the range to select, if there is one, stands for the whole target. -/
def Location.ofLink? (uri target : Json) (selection : Option Json) : Option Location := do
  let uri ← uri.string?
  let target ← Range.ofJson? target
  let selection ← optionalRange? selection
  some ⟨uri, selection.getD target⟩

def Location.link? : Json → Option Location
  | .array [uri, target] => Location.ofLink? uri target none
  | .array [uri, target, selection] => Location.ofLink? uri target (some selection)
  | j@(.object _) => do
    Location.ofLink? (← j.get? "targetUri") (← j.get? "targetRange") (j.get? "targetSelectionRange")
  | _ => none

def Location.ofJson? (j : Json) : Option Location := Location.plain? j <|> Location.link? j

def Location.listOfJson : Json → List Location
  | .array items => items.filterMap Location.ofJson?
  | j@(.object _) => (Location.ofJson? j).toList
  | _ => []

end RouteAtlas.Rpc
