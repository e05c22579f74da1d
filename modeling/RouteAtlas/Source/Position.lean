import RouteAtlas.Json.Value

/-!
# Positions and ranges

A position is a line and a column, both counted from zero. Reading one from JSON takes an object
with its members or a list of them in order, and numbers of at most 32 bits.
-/

namespace RouteAtlas.Source

/-- A place in a text, counted from zero. -/
structure Position where
  line : Nat
  character : Nat
  deriving DecidableEq, Repr, Inhabited

/-- A part of a text. -/
structure Range where
  start : Position
  stop : Position
  deriving DecidableEq, Repr, Inhabited

def Position.ofJson? : Json → Option Position
  | .array [line, character] => do some ⟨← line.nat32?, ← character.nat32?⟩
  | j@(.object _) => do some ⟨← (← j.get? "line").nat32?, ← (← j.get? "character").nat32?⟩
  | _ => none

def Position.toJson (p : Position) : Json :=
  .object [("line", .ofNat p.line), ("character", .ofNat p.character)]

def Range.ofJson? : Json → Option Range
  | .array [start, stop] => do some ⟨← Position.ofJson? start, ← Position.ofJson? stop⟩
  | j@(.object _) => do
    some ⟨← Position.ofJson? (← j.get? "start"), ← Position.ofJson? (← j.get? "end")⟩
  | _ => none

def Range.toJson (r : Range) : Json :=
  .object [("start", r.start.toJson), ("end", r.stop.toJson)]

end RouteAtlas.Source
