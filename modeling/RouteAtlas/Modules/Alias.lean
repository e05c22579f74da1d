import RouteAtlas.Path.Basic

/-!
# Path aliases

An alias is a pattern with at most one meaningful star and a list of targets. A specifier uses the
best alias that matches it: one without a star, else the one with the longest text before its star.
-/

namespace RouteAtlas.Modules

/-- A pattern for specifiers and the places to look instead. -/
structure Alias where
  pattern : String
  targets : List String
  deriving DecidableEq, Repr

/-- What the star of the pattern stands for in the specifier; empty for a pattern without a star.
The first star is the wildcard, later ones are plain characters. -/
def Alias.captures? (a : Alias) (specifier : String) : Option String :=
  match Text.cutAt? '*' a.pattern with
  | none => if a.pattern = specifier then some "" else none
  | some (before, after) =>
    (Text.stripStart? before specifier).bind (Text.stripEnd? after)

/-- The bytes before the first star; `none` for a pattern without one. -/
def Alias.starAt? (a : Alias) : Option Nat :=
  (Text.cutAt? '*' a.pattern).map fun (before, _) => before.utf8ByteSize

/-- One pattern is better than another: no star beats a star, and a later star an earlier one. -/
def Alias.better (a b : Alias) : Bool :=
  match a.starAt?, b.starAt? with
  | none, some _ => true
  | some i, some j => j < i
  | _, none => false

/-- The best of the aliases that match, the first one among equals. -/
def bestAlias? (aliases : List Alias) (specifier : String) : Option (Alias × String) :=
  aliases.foldl
    (fun best a =>
      match a.captures? specifier with
      | none => best
      | some captured =>
        match best with
        | some (b, _) => if a.better b then some (a, captured) else best
        | none => some (a, captured))
    none

/-- The places to look for a specifier, in the order of the best alias's targets. -/
def aliasCandidates (aliases : List Alias) (base : Path) (specifier : String) : List Path :=
  match bestAlias? aliases specifier with
  | none => []
  | some (a, captured) =>
    a.targets.map fun target => base.join (Text.replaceFirst '*' captured target)

end RouteAtlas.Modules
