import RouteAtlas.Expansion.Expand
import RouteAtlas.Inventory.Graph

/-!
# Which re-export wins

A module can pass a name on by naming it, or pass on all names of another module with a star.
Linking mounts and following functions look for a passed on name in the same way: the statements are
tried in source order, and the first one whose module gives out something wins. A statement that
names the name has no precedence, so a star that stands before it can hide it.
-/

namespace RouteAtlas.Expansion

open Files Inventory Modules

variable {σ α β : Type}

/-! ## Searching in order -/

theorem run_findSomeM?_append (f : α → StateM σ (Option β)) (xs ys : List α) (s : σ) :
    ((xs ++ ys).findSomeM? f).run s = let first := (xs.findSomeM? f).run s
      first.1.elim ((ys.findSomeM? f).run first.2) fun found => (some found, first.2) := by
  induction xs generalizing s with
  | nil => rfl
  | cons x xs ih =>
    rw [List.cons_append, List.findSomeM?_cons, List.findSomeM?_cons, StateT.run_bind,
      StateT.run_bind]
    generalize (f x).run s = first
    obtain ⟨found, s'⟩ := first
    cases found with
    | none => exact ih s'
    | some b => rfl

/-- In a search in order, one item's result is found exactly if the items before it give nothing, or
the same. -/
theorem findSomeM?_eq_some_iff {f : α → StateM σ (Option β)} {xs ys : List α} {x : α} {s : σ}
    {b : β} (hx : ((f x).run ((xs.findSomeM? f).run s).2).1 = some b) :
    (((xs ++ x :: ys).findSomeM? f).run s).1 = some b ↔
      ((xs.findSomeM? f).run s).1 = none ∨ ((xs.findSomeM? f).run s).1 = some b := by
  rw [run_findSomeM?_append]
  generalize (xs.findSomeM? f).run s = first at hx ⊢
  obtain ⟨found, s'⟩ := first
  cases found with
  | some a => simp
  | none =>
    have hitem : (((x :: ys).findSomeM? f).run s').1 = some b := by
      rw [List.findSomeM?_cons, StateT.run_bind]
      generalize (f x).run s' = item at hx
      obtain ⟨found, s''⟩ := item
      obtain rfl : found = some b := hx
      rfl
    simpa using hitem

/-! ## Re-exports -/

/-- What some of the statements of a file give for a name, in order, if `link` follows them. -/
def linkedAmong? (link : MountTarget → Path → StateM σ (Option RouterKey)) (file : Path)
    (name : String) (bindings : List Binding) : StateM σ (Option RouterKey) :=
  (bindings.filterMap (Graph.passedOn? name)).findSomeM? fun target => link target file

/-- What the module that a statement names gives out under a name, if `next` looks there. -/
def givenBy? (t : Tree) (next : Path → String → StateM Resolver (Option Declaration)) (m : Module)
    (b : Binding) (name : String) : StateM Resolver (Option Declaration) := do
  match ← ownTarget? t m b with
  | none => return none
  | some path => next path name

/-- What some of the statements of a module give for a name, in order. -/
def followedAmong? (t : Tree) (next : Path → String → StateM Resolver (Option Declaration))
    (m : Module) (name : String) (bindings : List Binding) :
    StateM Resolver (Option Declaration) :=
  reExported? t next { m with bindings } name

theorem followedAmong?_eq (t : Tree)
    (next : Path → String → StateM Resolver (Option Declaration)) (m : Module) (name : String)
    (bindings : List Binding) :
    followedAmong? t next m name bindings = bindings.findSomeM? fun b =>
      (b.forwards? name).elim (pure none) (givenBy? t next m b) := by
  unfold followedAmong? reExported?
  congr 1
  funext b
  cases b.forwards? name <;> rfl

/-- **When a re-export wins.** A file passes a name on from another module, which gives it out, and
has no export of its own under that name. What is found under the name is what that module gives
exactly if the statements before this one give nothing, or the same; the statements behind it do not
matter. This holds of the routers that are linked and of the declarations that are followed. -/
theorem reExport_wins_iff {g : Graph} {file : Path} {c : Contribution} {m : Module}
    {before after : List Binding} {b : Binding} {name : String}
    (hc : g.contribution? file = some c) (hbindings : c.bindings = before ++ b :: after)
    (hmodule : m.bindings = before ++ b :: after) (hkind : b.kind = .reExport)
    (hname : b.localName = name) (hown : c.exports.lookup name = none) :
    (∀ (link : MountTarget → Path → StateM σ (Option RouterKey)) (s : σ) (key : RouterKey),
      let earlier := (linkedAmong? link file name before).run s
      ((link (.imported b.specifier b.imported) file).run earlier.2).1 = some key →
        (((g.exported? link file name).run s).1 = some key ↔
          earlier.1 = none ∨ earlier.1 = some key)) ∧
    ∀ (t : Tree) (next : Path → String → StateM Resolver (Option Declaration)) (r : Resolver)
      (d : Declaration),
      let earlier := (followedAmong? t next m name before).run r
      ((givenBy? t next m b b.imported).run earlier.2).1 = some d →
        (((reExported? t next m name).run r).1 = some d ↔
          earlier.1 = none ∨ earlier.1 = some d) := by
  have hforwards : b.forwards? name = some b.imported := by
    simp [Binding.forwards?, hkind, hname]
  constructor
  · intro link s key earlier hgiven
    have hpassed : c.bindings.filterMap (Graph.passedOn? name) =
        before.filterMap (Graph.passedOn? name) ++
          .imported b.specifier b.imported :: after.filterMap (Graph.passedOn? name) := by
      rw [hbindings, List.filterMap_append, List.filterMap_cons]
      simp [Graph.passedOn?, hforwards]
    rw [Graph.exported?, hc]
    simp only [hown, hpassed]
    exact findSomeM?_eq_some_iff hgiven
  · intro t next r d earlier hgiven
    have hall : reExported? t next m name = followedAmong? t next m name m.bindings := rfl
    simp only [earlier] at hgiven ⊢
    rw [hall, hmodule, followedAmong?_eq, followedAmong?_eq]
    rw [followedAmong?_eq] at hgiven
    refine findSomeM?_eq_some_iff ?_
    rw [hforwards]
    exact hgiven

namespace Hiding

/-- The statements of the file that passes the name on: one for all names, one for this name. -/
def star : Binding := ⟨"*", "*", "./a", .reExport⟩

def named : Binding := ⟨"n", "n", "./b", .reExport⟩

def index : Path := ⟨"/p/i.ts"⟩

/-- A file that gives out a router under the name. -/
def giving (file : String) : Contribution :=
  { file := ⟨"/p/" ++ file⟩, relPath := file, version := 1, bindings := [], errors := []
    routers := [⟨⟨⟨"/p/" ++ file⟩, 13⟩, "n", 1, 14, false, []⟩]
    exports := [("n", .router ⟨⟨"/p/" ++ file⟩, 13⟩)] }

variable (bindings : List Binding)

/-- The file that passes the name on, with its statements. -/
def passing : Contribution :=
  { file := index, relPath := "i.ts", version := 1, routers := [], exports := [], bindings
    errors := [] }

def graph : Graph :=
  { root := ⟨"/p"⟩, contributions := [giving "a.ts", giving "b.ts", passing bindings] }

def tree : Tree :=
  { entries := (["p"], .directory) :: [("a.ts", "export let n=1"), ("b.ts", "export let n=1"),
        ("i.ts", "export*from'./a';export\x7bn\x7dfrom'./b'")].map
      fun file => (["p", file.1], .file file.2.toUTF8.toList) }

def resolver : Resolver := { root := ⟨"/p"⟩ }

/-- The router that a target stands for in the file that passes the name on. -/
def link : MountTarget → Path → StateM Resolver (Option RouterKey) :=
  (graph bindings).link? (Resolver.resolve? tree) Graph.exportHops

/-- Where the declaration stands that is found through the file that passes the name on. -/
def followed (find : Module → StateM Resolver (Option Declaration)) : Option Path :=
  (Module.load? tree index).bind fun m => ((find m).run resolver).1.map (·.file.path)

end Hiding

/-- A re-export that stands before the star wins. -/
theorem reExport_wins_iff_first :
    let m : Module := ⟨Hiding.index, "", Source.parse .typescript "", [Hiding.named, Hiding.star]⟩
    let g := Hiding.graph m.bindings
    ((g.exported? (Hiding.link m.bindings) Hiding.index "n").run Hiding.resolver).1 =
        some ⟨⟨"/p/b.ts"⟩, 13⟩ ∧
      ∀ d, ((givenBy? Hiding.tree (exported? Hiding.tree exportHops) m Hiding.named "n").run
          Hiding.resolver).1 = some d →
        ((reExported? Hiding.tree (exported? Hiding.tree exportHops) m "n").run
          Hiding.resolver).1 = some d := by
  intro m g
  have hgiven : ((Hiding.link m.bindings (.imported "./b" "n") Hiding.index).run
      Hiding.resolver).1 = some ⟨⟨"/p/b.ts"⟩, 13⟩ := by decide
  have hc : g.contribution? Hiding.index = some (Hiding.passing m.bindings) := by decide
  have hbindings : m.bindings = [] ++ Hiding.named :: [Hiding.star] := rfl
  have hname : Hiding.named.localName = "n" := rfl
  obtain ⟨hlinked, hfollowed⟩ := reExport_wins_iff hc hbindings hbindings rfl hname rfl
  exact ⟨(hlinked _ Hiding.resolver _ hgiven).mpr (.inl rfl), fun d hd =>
    (hfollowed Hiding.tree _ Hiding.resolver d hd).mpr (.inl rfl)⟩

/-- **A star hides a re-export behind it**: the file names the name and its module, which gives it
out, but the router that is linked and the declaration that is followed are those of the module of
the star. -/
theorem star_hides_reExport :
    let bindings := [Hiding.star, Hiding.named]
    ((Hiding.link bindings (.imported "./b" "n") Hiding.index).run Hiding.resolver).1 =
        some ⟨⟨"/p/b.ts"⟩, 13⟩ ∧
      (((Hiding.graph bindings).exported? (Hiding.link bindings) Hiding.index "n").run
        Hiding.resolver).1 = some ⟨⟨"/p/a.ts"⟩, 13⟩ ∧
      (Module.load? Hiding.tree Hiding.index).map (·.bindings) = some bindings ∧
      Hiding.followed (fun m => givenBy? Hiding.tree (exported? Hiding.tree exportHops) m
        Hiding.named "n") = some ⟨"/p/b.ts"⟩ ∧
      Hiding.followed (fun m => reExported? Hiding.tree (exported? Hiding.tree exportHops) m "n") =
        some ⟨"/p/a.ts"⟩ := by
  decide +kernel

end RouteAtlas.Expansion
