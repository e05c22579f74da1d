import RouteAtlas.Path.Basic

/-!
# Coalescing changes

Changed paths wait until no new change has come for a while; then they are delivered together, each
path once and in path order. Times are natural numbers of milliseconds, and a time before the last
change counts as no time after it.
-/

namespace RouteAtlas.Watch

/-- Puts a path in its place by path order; a path that is already there stays as it was first
written. -/
def insertPath (p : Path) : List Path → List Path
  | [] => [p]
  | q :: qs =>
    match p.compare q with
    | .lt => p :: q :: qs
    | .eq => q :: qs
    | .gt => q :: insertPath p qs

/-- The paths that wait and the time of the last change. -/
structure Debouncer where
  window : Nat
  pending : List Path := []
  lastChange : Option Int := none

namespace Debouncer

def isEmpty (d : Debouncer) : Bool := d.pending.isEmpty

variable (d : Debouncer)

def push (p : Path) (now : Int) : Debouncer :=
  { d with pending := insertPath p d.pending, lastChange := some now }

def clear : Debouncer := { d with pending := [], lastChange := none }

/-- The waiting paths, once the window has passed since the last change. -/
def ready (now : Int) : Option (List Path) × Debouncer :=
  match d.lastChange with
  | none => (none, d)
  | some last =>
    if d.pending.isEmpty || (now - last).toNat < d.window then (none, d)
    else (some d.pending, d.clear)

end Debouncer

end RouteAtlas.Watch
