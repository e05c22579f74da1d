import RouteAtlas.Proofs.Emissions
import RouteAtlas.Proofs.Lookups

/-!
# Edits of handlers stay in their file

A file is edited so that only resources come, go or change: it makes the same routers with the same
mounts in the same order, and gives out the same names. Then the walk emits the same resources as
before for the routers of all other files, in the same order.
-/

open List

namespace RouteAtlas.Inventory

open Files Modules Modules.Resolver Inventory.Graph

/-! ## The frame of a contribution -/

def Entry.mount? : Entry → Option Mount
  | .resource _ => none
  | .mount m => some m

/-- What a router is apart from its resources: its key, whether it is the result of a function, and
its mounts in order. -/
def Router.frame (t : Router) : RouterKey × Bool × List Mount :=
  (t.key, t.fromFactory, t.entries.filterMap Entry.mount?)

/-- The router of a file with a key; of several the last one counts. -/
def Contribution.router? (c : Contribution) (key : RouterKey) : Option Router :=
  c.routers.reverse.find? (·.key.same key)

/-- **An edit of one file that leaves all but its resources as it is.** -/
structure Contribution.SameFrame (c c' : Contribution) : Prop where
  file : c'.file = c.file
  relPath : c'.relPath = c.relPath
  routers : ∀ key, (c'.router? key).map Router.frame = (c.router? key).map Router.frame
  exports : ∀ name, c'.exports.lookup name = c.exports.lookup name
  reExports : c'.bindings.filter (·.kind = .reExport) = c.bindings.filter (·.kind = .reExport)

namespace Contribution

theorem SameFrame.refl (c : Contribution) : c.SameFrame c where
  file := rfl
  relPath := rfl
  routers _ := rfl
  exports _ := rfl
  reExports := rfl

theorem SameFrame.swap {c c' : Contribution} (h : c.SameFrame c') (d : Contribution) :
    d.SameFrame (if d = c then c' else d) := by
  split
  · rename_i heq
    exact heq ▸ h
  · exact .refl d

theorem any_routers_eq (c : Contribution) (key : RouterKey) :
    c.routers.any (·.key.same key) = (c.router? key).isSome := by
  rw [router?, Bool.eq_iff_iff]
  simp

theorem SameFrame.router?_isSome {c c' : Contribution} (h : c.SameFrame c') (key : RouterKey) :
    (c'.router? key).isSome = (c.router? key).isSome := by
  have hframe := congrArg Option.isSome (h.routers key)
  simpa using hframe

theorem filterMap_passedOn? (c : Contribution) (name : String) :
    c.bindings.filterMap (Graph.passedOn? name) =
      (c.bindings.filter (·.kind = .reExport)).filterMap (Graph.passedOn? name) := by
  rw [filterMap_filter]
  congr 1
  funext b
  split
  · rfl
  · rename_i hkind
    have hkind : b.kind ≠ .reExport := by simpa using hkind
    simp [Graph.passedOn?, Binding.forwards?, hkind]

end Contribution

namespace Graph

/-! ## Contributions edited one by one -/

/-- The contributions stand in path order, so each file is there once. -/
def Ordered (g : Graph) : Prop := g.contributions.Pairwise fun c d => c.file.compare d.file = .lt

def mapped (swap : Contribution → Contribution) (g : Graph) : Graph :=
  { g with contributions := g.contributions.map swap }

theorem putContribution_eq_map {c c' : Contribution} (hfile : c'.file = c.file) :
    ∀ {cs : List Contribution}, (cs.Pairwise fun c d => c.file.compare d.file = .lt) → c ∈ cs →
      putContribution c' cs = cs.map fun d => if d = c then c' else d := by
  intro cs hs hc
  induction cs with
  | nil => cases hc
  | cons d ds ih =>
    obtain ⟨hhead, hs'⟩ := pairwise_cons.mp hs
    have hself : c.file.compare c.file = .eq := Std.ReflCmp.compare_self
    rw [putContribution, hfile]
    rcases mem_cons.mp hc with rfl | hc'
    · have hrest : ∀ d ∈ ds, (if d = c then c' else d) = d := by
        intro d hd
        refine if_neg fun heq => ?_
        have hlt := hhead d hd
        rw [heq, hself] at hlt
        cases hlt
      simp [hself, map_congr_left hrest]
    · have hlt := hhead c hc'
      have hne : d ≠ c := fun heq => by
        rw [heq, hself] at hlt
        cases hlt
      simp [Std.OrientedCmp.gt_iff_lt.mpr hlt, if_neg hne, ih hs' hc']

theorem replace_eq_mapped {g : Graph} {c c' : Contribution} (hg : g.Ordered)
    (hc : c ∈ g.contributions) (hfile : c'.file = c.file) :
    g.replace c' = g.mapped fun d => if d = c then c' else d := by
  rw [replace, mapped, putContribution_eq_map hfile hg hc]

section Mapped

variable {swap : Contribution → Contribution} (hswap : ∀ d : Contribution, d.SameFrame (swap d))
  (g : Graph)

include hswap

theorem contribution?_mapped (file : Path) :
    (g.mapped swap).contribution? file = (g.contribution? file).map swap := by
  rw [contribution?, mapped, contribution?]
  simp only [find?_map, Function.comp_def, (hswap _).file]

theorem hasRouter_mapped (key : RouterKey) : (g.mapped swap).hasRouter key = g.hasRouter key := by
  rw [hasRouter, mapped, hasRouter]
  simp [Function.comp_def, Contribution.any_routers_eq, (hswap _).router?_isSome]

/-- **An edit links nothing in another way.** -/
theorem link?_mapped {m : Type → Type} [Monad m] (resolve : String → Path → m (Option Path))
    (hops : Nat) : (g.mapped swap).link? resolve hops = g.link? resolve hops := by
  induction hops with
  | zero => rfl
  | succ hops ih =>
    funext target file
    cases target with
    | router key => rw [link?, link?, hasRouter_mapped hswap]
    | imported specifier name =>
      have hexported : ∀ path, (g.mapped swap).exported? (g.link? resolve hops) path name =
          g.exported? (g.link? resolve hops) path name := by
        intro path
        rw [exported?, exported?, contribution?_mapped hswap]
        cases g.contribution? path with
        | none => rfl
        | some c =>
          simp [(hswap c).exports, Contribution.filterMap_passedOn?, (hswap c).reExports]
      simp [link?, ih, hexported]

end Mapped

/-! ## The file of a router -/

/-- The router that counts for a key is the last one, file by file. -/
theorem find?_keyedRouters (g : Graph) (key : RouterKey) :
    g.keyedRouters.find? (·.2.key.same key) =
      g.contributions.reverse.findSome? fun c => (c.router? key).map (c, ·) := by
  -- dropping routers whose key comes again does not change which one is last
  have hlast : ∀ all : List (Contribution × Router),
      (all.foldr (fun a later => if later.any (·.2.key.same a.2.key) then later else a :: later)
        []).find? (·.2.key.same key) = all.reverse.find? (·.2.key.same key) := by
    intro all
    induction all with
    | nil => rfl
    | cons a all ih =>
      rw [foldr_cons, reverse_cons, find?_append, ← ih]
      generalize all.foldr _ [] = later
      cases ha : a.2.key.same key with
      | false =>
        split <;> simp [ha]
      | true =>
        split
        · rename_i hlater
          have hfound : (later.find? (·.2.key.same key)).isSome := by
            simpa [RouterKey.same_congr_right ha] using hlater
          obtain ⟨b, hb⟩ := Option.isSome_iff_exists.mp hfound
          simp [hb]
        · rename_i hlater
          have hnone : later.find? (·.2.key.same key) = none := by
            simpa [RouterKey.same_congr_right ha] using hlater
          simp [ha, hnone]
  rw [keyedRouters, hlast, reverse_flatMap, find?_flatMap]
  congr 1
  funext c
  rw [Function.comp_apply, ← map_reverse, find?_map]
  rfl

/-- The router with a key is declared in a file. -/
def isDeclaredIn (g : Graph) (file : Path) (key : RouterKey) : Bool :=
  (g.keyedRouters.find? (·.2.key.same key)).any (·.1.file.same file)

theorem isDeclaredIn_congr (g : Graph) (file : Path) {a b : RouterKey} (h : a.same b) :
    g.isDeclaredIn file a = g.isDeclaredIn file b := by
  simp [isDeclaredIn, RouterKey.same_congr_right h]

section Mapped

variable {swap : Contribution → Contribution} (g : Graph)

/-- What is the same about the routers of every file before and after an edit is the same about the
router that counts. -/
theorem find?_keyedRouters_mapped {α : Type} {view : Contribution × Router → α}
    (hview : ∀ d key, ((swap d).router? key).map (fun t => view (swap d, t)) =
      (d.router? key).map fun t => view (d, t)) (key : RouterKey) :
    ((g.mapped swap).keyedRouters.find? (·.2.key.same key)).map view =
      (g.keyedRouters.find? (·.2.key.same key)).map view := by
  rw [find?_keyedRouters, find?_keyedRouters, mapped, ← map_reverse, findSome?_map,
    map_findSome?, map_findSome?]
  congr 1
  funext d
  simpa [Function.comp_def] using hview d key

theorem isDeclaredIn_mapped (hswap : ∀ d : Contribution, d.SameFrame (swap d)) (file : Path) :
    (g.mapped swap).isDeclaredIn file = g.isDeclaredIn file := by
  funext key
  have hfile : ((g.mapped swap).keyedRouters.find? (·.2.key.same key)).map (fun p => p.1.file) =
      (g.keyedRouters.find? (·.2.key.same key)).map fun p => p.1.file := by
    refine g.find?_keyedRouters_mapped (fun d key => ?_) key
    have hframe := congrArg (Option.map fun _ => d.file) ((hswap d).routers key)
    simpa [Function.comp_def, (hswap d).file] using hframe
  have hany := congrArg (Option.any fun path => path.same file) hfile
  simpa [isDeclaredIn, Option.any_map] using hany

end Mapped

end Graph

/-! ## The networks before and after an edit -/

variable (link : MountTarget → Path → Option RouterKey)

/-- A linked router without its resources is its frame with the mounts linked. -/
theorem Router.linkedBy_mounts (c : Contribution)
    (t : Router) : { t.linkedBy link c with
        entries := (t.linkedBy link c).entries.filter (·.isMount) } =
      (⟨t.frame.1, c.relPath, t.frame.2.1,
        t.frame.2.2.map fun m => .mount m (link m.target c.file)⟩ : LinkedRouter) := by
  have hentries : (t.entries.map (·.linkedBy link c.file)).filter (·.isMount) =
      (t.entries.filterMap Entry.mount?).map fun m => .mount m (link m.target c.file) := by
    induction t.entries with
    | nil => rfl
    | cons entry entries ih =>
      cases entry with
      | resource d => exact ih
      | mount m => exact congrArg (List.cons _) ih
  simp [linkedBy, frame, hentries]

/-- A router of a file with its mounts linked, without its resources if it is in the given file. -/
def Router.linkedOutside (file : Path) (p : Contribution × Router) : LinkedRouter :=
  if p.1.file.same file then
    ⟨p.2.frame.1, p.1.relPath, p.2.frame.2.1,
      p.2.frame.2.2.map fun m => .mount m (link m.target p.1.file)⟩
  else p.2.linkedBy link p.1

theorem Graph.router?_outside (g : Graph) (link : MountTarget → Path → Option RouterKey)
    (file : Path) (key : RouterKey) :
    (Network.router? (g.keyedRouters.map fun p => p.2.linkedBy link p.1) key).map
        (·.outside (g.isDeclaredIn file)) =
      (g.keyedRouters.find? (·.2.key.same key)).map (Router.linkedOutside link file) := by
  rw [Network.router?, find?_map]
  have hkeys : ((fun u : LinkedRouter => u.key.same key) ∘ fun p : Contribution × Router =>
      p.2.linkedBy link p.1) = fun p => p.2.key.same key := rfl
  rw [hkeys]
  cases hp : g.keyedRouters.find? (·.2.key.same key) with
  | none => rfl
  | some p =>
    have hsame : p.2.key.same key := by simpa using find?_some hp
    have hfile : g.isDeclaredIn file (p.2.linkedBy link p.1).key = p.1.file.same file := by
      have hkey : g.isDeclaredIn file p.2.key = g.isDeclaredIn file key :=
        g.isDeclaredIn_congr file hsame
      rw [show (p.2.linkedBy link p.1).key = p.2.key from rfl, hkey, isDeclaredIn, hp]
      rfl
    simp [Option.map_some, LinkedRouter.outside, hfile, Router.linkedOutside,
      Router.linkedBy_mounts]

/-- **The networks before and after an edit agree outside the edited file.** -/
theorem agreeOutside_mapped (g : Graph) {swap : Contribution → Contribution}
    (hswap : ∀ d : Contribution, d.SameFrame (swap d)) {file : Path}
    (hother : ∀ d : Contribution, d.file.same file = false → swap d = d)
    (link : MountTarget → Path → Option RouterKey) :
    AgreeOutside (g.isDeclaredIn file) (g.keyedRouters.map fun p => p.2.linkedBy link p.1)
      ((g.mapped swap).keyedRouters.map fun p => p.2.linkedBy link p.1) where
  congr _ _ := g.isDeclaredIn_congr file
  router key := by
    rw [g.router?_outside, ← g.isDeclaredIn_mapped hswap, (g.mapped swap).router?_outside]
    refine (g.find?_keyedRouters_mapped (fun d key => ?_) key).symm
    cases hfile : d.file.same file with
    | false => rw [hother d hfile]
    | true =>
      -- in the edited file only the frames count, and those are the same
      have hframe := congrArg (Option.map fun f : RouterKey × Bool × List Mount =>
        LinkedRouter.mk f.1 d.relPath f.2.1 (f.2.2.map fun m => .mount m (link m.target d.file)))
        ((hswap d).routers key)
      simpa [Router.linkedOutside, Function.comp_def, (hswap d).file, (hswap d).relPath, hfile]
        using hframe

/-! ## The walk before and after an edit -/

/-- The list holds the resources of a walk in order, each with a key of the router that has the
draft. -/
structure ListsWalk (net : Network) (es : List (RouterKey × Resource)) : Prop where
  resources : es.map (·.2) = (walkAll net).resources
  drafts : ∀ e ∈ es, ∃ t d, net.router? e.1 = some t ∧ LinkedEntry.resource d ∈ t.entries ∧
    e.2.id = d.id ∧ e.2.method = d.method ∧ e.2.kind = d.kind

theorem emissions_listsWalk (net : Network) : ListsWalk net (emissions net) where
  resources := emissions_resources net
  drafts _ := exists_draft_of_mem_emissions

/-- **Edits of handlers do not disturb other files.** The contribution of a file is replaced by one
that has the same routers, mounts and exports, and the graph is analysed again with the resolver
that the first analysis has left. For the routers that are declared in other files both walks emit
the same resources in the same order; only their numbers in the inventory may differ. -/
theorem replace_emits_same {g : Graph} (hg : g.Ordered) {c c' : Contribution}
    (hc : c ∈ g.contributions) (hsame : c.SameFrame c') (t : Tree) (r : Resolver) :
    let before := (g.network (resolve? t)).run r
    let after := ((g.replace c').network (resolve? t)).run before.2
    ListsWalk before.1 (emissions before.1) ∧ ListsWalk after.1 (emissions after.1) ∧
      ((emissions before.1).filter fun e => !g.isDeclaredIn c.file e.1).map
          (fun e => (e.1, e.2.unnumbered)) =
        ((emissions after.1).filter fun e => !(g.replace c').isDeclaredIn c.file e.1).map
          fun e => (e.1, e.2.unnumbered) := by
  intro before after
  refine ⟨emissions_listsWalk _, emissions_listsWalk _, ?_⟩
  have hreplace := replace_eq_mapped hg hc hsame.file
  have hswap := hsame.swap
  have hother : ∀ d : Contribution, d.file.same c.file = false → (if d = c then c' else d) = d := by
    intro d hd
    refine if_neg fun heq => ?_
    rw [heq, Path.same, beq_self_eq_true] at hd
    cases hd
  -- seen from the last resolver one function links both networks
  have hlater : Resolver.Tells after.2 ((g.replace c').network (resolve? t)) _ :=
    (g.replace c').tells_network t
  have hbefore : before.1 = g.keyedRouters.map fun p =>
      p.2.linkedBy (g.plainLink? (after.2.finds t) exportHops) p.1 :=
    (g.tells_network t).told r (hlater.grows before.2)
  have hafter : after.1 = (g.replace c').keyedRouters.map fun p =>
      p.2.linkedBy ((g.replace c').plainLink? (after.2.finds t) exportHops) p.1 :=
    ((g.replace c').tells_network t).told before.2 (.refl after.2)
  have hlink : (g.replace c').plainLink? (after.2.finds t) exportHops =
      g.plainLink? (after.2.finds t) exportHops := by
    funext target file
    rw [plainLink?, hreplace, link?_mapped hswap, plainLink?]
  have hagree : AgreeOutside (g.isDeclaredIn c.file) before.1 after.1 := by
    rw [hbefore, hafter, hlink, hreplace]
    exact agreeOutside_mapped g hswap hother _
  have hdeclared : (g.replace c').isDeclaredIn c.file = g.isDeclaredIn c.file := by
    rw [hreplace]
    exact g.isDeclaredIn_mapped hswap c.file
  rw [hdeclared]
  exact hagree.emissions_eq (g.network_distinct _ r) ((g.replace c').network_distinct _ before.2)

namespace Edited

def route (id path : String) : Entry :=
  .resource ⟨id, "GET", path, .route, { text := "h", kind := .identifier }⟩

/-- A file with one router and the names that it gives out. -/
def fileWith (file : String) (entries : List Entry) (exports : List (String × MountTarget)) :
    Contribution :=
  { file := ⟨"/p/" ++ file⟩, relPath := file, version := 1, exports, bindings := [], errors := []
    routers := [⟨⟨⟨"/p/" ++ file⟩, 12⟩, "app", 1, 13, false, entries⟩] }

def mount : Entry := .mount ⟨"/b", .imported "./b" "app", 2, 1, "app.route('/b', b)", false⟩

/-- The file that is edited, before and after a route was put in front of its mount. -/
def before : Contribution := fileWith "a.ts" [mount] []

def after : Contribution := fileWith "a.ts" [route "ROUTE:a.ts@40" "/x", mount] []

def mounted : Contribution :=
  fileWith "b.ts" [route "ROUTE:b.ts@40" "/y"] [("app", .router ⟨⟨"/p/b.ts"⟩, 12⟩)]

def graph : Graph := { root := ⟨"/p"⟩, contributions := [before, mounted] }

def tree : Tree :=
  { entries := [(["p"], .directory), (["p", "a.ts"], .file []), (["p", "b.ts"], .file [])] }

theorem ordered_graph : graph.Ordered := by
  have hlt : before.file.compare mounted.file = .lt := by decide
  simp [Graph.Ordered, graph, hlt]

theorem sameFrame : before.SameFrame after where
  file := rfl
  relPath := rfl
  routers key := by
    simp only [Contribution.router?, before, after, fileWith, reverse_singleton, find?_singleton]
    split <;> rfl
  exports _ := rfl
  reExports := rfl

end Edited

/-- A route that is put in front of a mount does not disturb the routes behind the mount. -/
theorem replace_emits_same_inserted :
    Edited.graph.Ordered ∧ Edited.before ∈ Edited.graph.contributions ∧
      Edited.before.SameFrame Edited.after ∧
      let net := (Edited.graph.network (resolve? Edited.tree)).run { root := ⟨"/p"⟩ }
      let net' := ((Edited.graph.replace Edited.after).network (resolve? Edited.tree)).run net.2
      ((emissions net.1).filter fun e => !Edited.graph.isDeclaredIn ⟨"/p/a.ts"⟩ e.1).map
          (fun e => (e.1, e.2.unnumbered)) =
        ((emissions net'.1).filter fun e =>
          !(Edited.graph.replace Edited.after).isDeclaredIn ⟨"/p/a.ts"⟩ e.1).map
          fun e => (e.1, e.2.unnumbered) := by
  have hmem : Edited.before ∈ Edited.graph.contributions := mem_cons_self
  exact ⟨Edited.ordered_graph, hmem, Edited.sameFrame,
    (replace_emits_same Edited.ordered_graph hmem Edited.sameFrame Edited.tree
      { root := ⟨"/p"⟩ }).2.2⟩

end RouteAtlas.Inventory
