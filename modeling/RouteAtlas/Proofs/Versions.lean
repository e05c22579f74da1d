import RouteAtlas.Proofs.HandlerEdits

/-!
# Versions do not matter

A tracked file counts how often its text has changed, and its contribution carries that count. No
analysis reads it: two files that differ only in their versions contribute the same routers, exports
and errors, and a graph gives the same inventory with all versions forgotten.
-/

open List

namespace RouteAtlas

open Source Inventory Reading

def Source.File.unversioned (f : File) : File := { f with version := 0 }

def Inventory.Contribution.unversioned (c : Contribution) : Contribution := { c with version := 0 }

namespace Inventory

/-! ## Reading a file -/

theorem Reading.callsOutcome_unversioned (f : File) (bindings : List Binding) (x : Findings)
    (base : String) (calls : List Node) :
    (ofFile f.unversioned bindings).callsOutcome x base calls
      = (ofFile f bindings).callsOutcome x base calls := by
  induction calls generalizing base with
  | nil => rfl
  | cons call calls ih =>
    have hcall : (ofFile f.unversioned bindings).callOutcome x base call
        = (ofFile f bindings).callOutcome x base call := rfl
    simp [callsOutcome, hcall, ih]

theorem Findings.withRegistrations_unversioned (f : File) (bindings : List Binding) (x : Findings) :
    x.withRegistrations (ofFile f.unversioned bindings)
      = x.withRegistrations (ofFile f bindings) := by
  have hchain : ∀ (x : Findings) (outer : Node),
      x.withChain (ofFile f.unversioned bindings) outer
        = x.withChain (ofFile f bindings) outer := by
    intro x outer
    have hstart : x.chainStart? (ofFile f.unversioned bindings) outer
        = x.chainStart? (ofFile f bindings) outer := rfl
    rw [withChain, withChain, hstart]
    simp [callsOutcome_unversioned]
  simp only [withRegistrations, hchain]
  rfl

theorem contributionOf_unversioned (f : File) :
    contributionOf f.unversioned = (contributionOf f).unversioned := by
  simp only [contributionOf, contributionWith, Findings.withRegistrations_unversioned]
  rfl

/-! ## Analysing a graph -/

namespace Graph

/-- A graph whose contributions have forgotten their versions. -/
def unversioned (g : Graph) : Graph :=
  { g with contributions := g.contributions.map Contribution.unversioned }

section Linking

variable {m : Type → Type} [Monad m]

variable (g : Graph)

/-- Forgetting versions is an edit that keeps all frames. -/
theorem link?_unversioned (resolve : String → Path → m (Option Path)) (hops : Nat) :
    g.unversioned.link? resolve hops = g.link? resolve hops := by
  have hframe : ∀ c : Contribution, c.SameFrame c.unversioned :=
    fun _ => ⟨rfl, rfl, fun _ => rfl, fun _ => rfl, rfl⟩
  exact link?_mapped hframe g resolve hops

theorem linkEntry_unversioned (resolve : String → Path → m (Option Path))
    (file : Path) : g.unversioned.linkEntry resolve file = g.linkEntry resolve file := by
  funext e
  cases e with
  | resource draft => rfl
  | mount mount => rw [linkEntry, linkEntry, link?_unversioned]

theorem keyedRouters_unversioned :
    g.unversioned.keyedRouters = g.keyedRouters.map fun (c, t) => (c.unversioned, t) := by
  have hall : (g.unversioned.contributions.flatMap fun c => c.routers.map (c, ·))
      = (g.contributions.flatMap fun c => c.routers.map (c, ·)).map
        fun (c, t) => (c.unversioned, t) := by
    rw [unversioned, flatMap_map, map_flatMap]
    simp only [map_map]
    rfl
  rw [keyedRouters, keyedRouters, hall]
  induction g.contributions.flatMap fun c => c.routers.map (c, ·) with
  | nil => rfl
  | cons a rest ih =>
    rw [map_cons, foldr_cons, foldr_cons, ih, any_map]
    simp only [Function.comp_def]
    split <;> rfl

/-- **Versions do not matter** to the inventory of a graph. -/
theorem analyze_unversioned [LawfulMonad m]
    (resolve : String → Path → m (Option Path)) :
    g.unversioned.analyze resolve = g.analyze resolve := by
  have hnetwork : g.unversioned.network resolve = g.network resolve := by
    rw [network, keyedRouters_unversioned, mapM_map]
    simp only [linkRouter, linkEntry_unversioned]
    rfl
  have hanalysis : g.unversioned.analysisOf = g.analysisOf := by
    funext net
    simp only [analysisOf, unversioned, flatMap_map]
    rfl
  rw [analyze, analyze, hnetwork, hanalysis]

end Linking

end Graph

end Inventory

end RouteAtlas
