import RouteAtlas.Expansion.Expand
import RouteAtlas.Proofs.Lookups

/-!
# How far exports are followed

A module gives a name out by itself, or passes it on: by naming it in a re-export, with a star, or
by importing it and exporting what was imported. Linking mounts and following functions both go from
module to module until one has the name itself, and both stop after a fixed number of modules.
-/

open Option List

namespace RouteAtlas

open Files Inventory Modules Modules.Resolver Graph

namespace Expansion

variable {δ : Type}

/-! ## Following a name from module to module -/

/-- What a module does about a name: it has something itself, or passes on what other modules have
under other names, and those are tried in order. -/
inductive Offer (δ : Type) where
  | own (d : δ)
  | passed (sources : List (Path × String))

/-- What is found, if `next` looks in the other modules. -/
def Offer.found? (next : Path → String → Option δ) : Offer δ → Option δ
  | .own d => some d
  | .passed sources => sources.findSome? fun s => next s.1 s.2

def follow (offer : Path → String → Offer δ) : (modules : Nat) → Path → String → Option δ
  | 0, _, _ => none
  | modules + 1, file, name => (offer file name).found? (follow offer modules)

/-- **A chain of re-exports** from a name of a module to what is behind it. -/
inductive Chain (offer : Path → String → Offer δ) : (reExports : Nat) → Path → String → δ → Prop
  | own {file : Path} {name : String} {d : δ} (h : offer file name = .own d) :
      Chain offer 0 file name d
  | step {n : Nat} {file next : Path} {name name' : String} {d : δ}
      {sources : List (Path × String)} (h : offer file name = .passed sources)
      (hmem : (next, name') ∈ sources) (rest : Chain offer n next name' d) :
      Chain offer (n + 1) file name d

variable {offer : Path → String → Offer δ}

theorem exists_chain_of_follow {k : Nat} : ∀ {file : Path} {name : String} {d : δ},
    follow offer k file name = some d → ∃ n < k, Chain offer n file name d := by
  induction k with
  | zero =>
    intro file name d h
    cases h
  | succ k ih =>
    intro file name d h
    rw [follow] at h
    cases ho : offer file name with
    | own d' =>
      rw [ho] at h
      cases h
      exact ⟨0, Nat.succ_pos k, .own ho⟩
    | passed sources =>
      rw [ho] at h
      obtain ⟨s, hs, hd⟩ := exists_of_findSome?_eq_some h
      obtain ⟨n, hn, hchain⟩ := ih hd
      exact ⟨n + 1, Nat.succ_lt_succ hn, .step ho hs hchain⟩

/-- A search that is long enough for some chain finds something. -/
theorem Chain.follow_isSome {n : Nat} {file : Path} {name : String} {d : δ}
    (h : Chain offer n file name d) : ∀ {k : Nat}, n < k → (follow offer k file name).isSome := by
  induction h with
  | own ho =>
    intro k hk
    obtain ⟨k, rfl⟩ : ∃ m, k = m + 1 := ⟨k - 1, by omega⟩
    simp [follow, ho, Offer.found?]
  | step ho hs _ ih =>
    intro k hk
    obtain ⟨k, rfl⟩ : ∃ m, k = m + 1 := ⟨k - 1, by omega⟩
    rw [follow, ho]
    exact findSome?_isSome_iff.mpr ⟨_, hs, ih (Nat.lt_of_succ_lt_succ hk)⟩

theorem findSome?_filterMap {α β γ : Type} (f : α → Option β) (v : β → Option γ) (l : List α) :
    (l.filterMap f).findSome? v = l.findSome? fun a => (f a).bind v := by
  rw [← head?_filterMap, filterMap_filterMap, head?_filterMap]

end Expansion

/-! ## What files offer to linking -/

namespace Inventory.Graph

open Expansion

/-- What a file of the graph does about a name, if a plain function finds the files. -/
def offer (g : Graph) (find : String → Path → Option Path) (file : Path) (name : String) :
    Offer RouterKey :=
  match g.contribution? file with
  | none => .passed []
  | some c =>
    match c.exports.lookup name with
    | some (.router key) => if g.hasRouter key then .own key else .passed []
    | some (.imported specifier x) => .passed ((find specifier file).toList.map (·, x))
    | none => .passed (c.bindings.filterMap fun b =>
        (b.forwards? name).bind fun x => (find b.specifier file).map (·, x))

/-- **Linking follows exports** through as many modules as it has steps left. -/
theorem plainExported?_eq_follow (g : Graph) (find : String → Path → Option Path) (hops : Nat) :
    ∀ (file : Path) (name : String),
      g.plainExported? find hops file name = follow (g.offer find) hops file name := by
  induction hops with
  | zero =>
    intro file name
    have hnone : ∀ target, g.plainLink? find 0 target file = none := by
      intro target
      cases target <;> rfl
    rw [plainExported?, follow]
    cases g.contribution? file with
    | none => rfl
    | some c => cases hc : c.exports.lookup name <;> simp [hc, hnone]
  | succ hops ih =>
    intro file name
    have himported : ∀ specifier x, g.plainLink? find (hops + 1) (.imported specifier x) file =
        (find specifier file).bind fun path => follow (g.offer find) hops path x := by
      simp [plainLink?_imported, ih]
    rw [plainExported?, follow, offer]
    cases g.contribution? file with
    | none => rfl
    | some c =>
      simp only [bind_some]
      cases hc : c.exports.lookup name with
      | some target =>
        cases target with
        | router key =>
          have hrouter : g.plainLink? find (hops + 1) (.router key) file =
              if g.hasRouter key then some key else none := rfl
          simp only [elim_some, hrouter]
          split <;> rfl
        | imported specifier x =>
          simp only [elim_some, himported]
          cases find specifier file <;> simp [Offer.found?]
      | none =>
        simp only [elim_none, Offer.found?, findSome?_filterMap]
        congr 1
        funext b
        simp only [passedOn?]
        cases b.forwards? name with
        | none => rfl
        | some x =>
          simp only [map_some, bind_some, himported]
          cases find b.specifier file <;> rfl

end Inventory.Graph

/-! ## What modules offer to following -/

namespace Expansion

variable {last : Resolver}

variable (m : Module)

/-- The name or the statement of a module that is behind a name that it gives out. -/
def Module.source (name : String) : Module.DefaultExport :=
  if name = "default" then m.defaultExport else .name ((m.localName? name).getD name)

variable (find : String → Path → Option Path)

/-- The file that a binding leads to, unless it is a dependency, if a plain function finds the
files. -/
def Module.ownFile? (b : Binding) : Option Path :=
  (find b.specifier m.path).filter (!·.inNodeModules)

def Module.sources (name : String) : List (Path × String) :=
  m.bindings.filterMap fun b => (b.forwards? name).bind fun x => (m.ownFile? find b).map (·, x)

/-- The module that a name of a module is imported from, and the name there. -/
def Module.importOf? (own : String) : Option (Path × String) :=
  ((findBinding? m.bindings own).filter (·.kind ≠ .namespace)).bind fun b =>
    (m.ownFile? find b).map (·, b.imported)

/-- What a module does about a name that it gives out for one of its own. -/
def Module.offerAs (own name : String) : Offer Declaration :=
  match m.declaration? own with
  | some d => .own d
  | none => .passed ((m.importOf? find own).elim (m.sources find name) fun s => [s])

def Module.offer (name : String) : Offer Declaration :=
  match m.source name with
  | .statement d => .own d
  | .missing => .passed (m.sources find name)
  | .name own => m.offerAs find own name

/-- What the module in a file does about a name. -/
def offerIn (t : Tree) (find : String → Path → Option Path) (file : Path) (name : String) :
    Offer Declaration :=
  match Module.load? t file with
  | none => .passed []
  | some m => m.offer find name

theorem exists_of_offerIn {t : Tree} {find : String → Path → Option Path} {file : Path}
    {name : String} {offer : Offer Declaration} (h : offerIn t find file name = offer)
    (hoffer : offer ≠ .passed []) :
    ∃ m, Module.load? t file = some m ∧ m.offer find name = offer := by
  unfold offerIn at h
  split at h
  · exact absurd h.symm hoffer
  · exact ⟨_, ‹_›, h⟩

theorem tells_ownTarget? (t : Tree) (m : Module) (b : Binding) :
    Tells last (ownTarget? t m b) (m.ownFile? (last.finds t) b) :=
  (tells_resolve? last t b.specifier m.path).bind
    (v := fun found => found.filter (!·.inNodeModules)) fun found => .pure (found.filter _)

section Next

variable {t : Tree} {next : Path → String → StateM Resolver (Option Declaration)}
  {v : Path → String → Option Declaration}
  (hnext : ∀ path name, Tells last (next path name) (v path name))

include hnext

theorem tells_reExported? (m : Module) (name : String) :
    Tells last (reExported? t next m name)
      ((m.sources (last.finds t) name).findSome? fun s => v s.1 s.2) := by
  rw [Module.sources, findSome?_filterMap]
  refine .findSomeM? (fun b => ?_) m.bindings
  cases b.forwards? name with
  | none => exact .pure none
  | some x =>
    have hbind : (((m.ownFile? (last.finds t) b).map (·, x)).bind fun s => v s.1 s.2) =
        (m.ownFile? (last.finds t) b).bind fun path => v path x := by
      cases m.ownFile? (last.finds t) b <;> rfl
    rw [bind_some, hbind]
    refine (tells_ownTarget? t m b).bind (v := fun found => found.bind fun path => v path x)
      fun found => ?_
    cases found with
    | none => exact .pure none
    | some path => exact hnext path x

theorem tells_exportedAs? (m : Module) (own name : String) :
    Tells last (exportedAs? t next m own name) ((m.offerAs (last.finds t) own name).found? v) := by
  unfold exportedAs? Module.offerAs Module.importOf?
  cases m.declaration? own with
  | some d => exact .pure (some d)
  | none =>
    cases (findBinding? m.bindings own).filter (·.kind ≠ .namespace) with
    | none => exact tells_reExported? hnext m name
    | some b =>
      refine (tells_ownTarget? t m b).bind (v := fun found =>
        Offer.found? v (.passed ((found.map (·, b.imported)).elim (m.sources (last.finds t) name)
          fun s => [s]))) fun found => ?_
      cases found with
      | none => exact tells_reExported? hnext m name
      | some path =>
        have hone : Offer.found? v (.passed [(path, b.imported)]) = v path b.imported :=
          findSome?_singleton
        simp only [map_some, elim_some, hone]
        exact hnext path b.imported

end Next

/-- **Following a function follows exports**, the first module included. -/
theorem tells_exported? (t : Tree) (hops : Nat) : ∀ (file : Path) (name : String),
    Tells last (exported? t hops file name) (follow (offerIn t (last.finds t)) hops file name) := by
  induction hops with
  | zero => exact fun _ _ => .pure none
  | succ hops ih =>
    intro file name
    rw [exported?, follow, offerIn]
    cases Module.load? t file with
    | none => exact .pure none
    | some m =>
      simp only [Module.offer, Module.source]
      by_cases hname : name = "default"
      · simp only [hname]
        cases m.defaultExport with
        | statement d => exact .pure (some d)
        | name own => exact tells_exportedAs? ih m own "default"
        | missing => exact tells_reExported? ih m "default"
      · simp only [hname]
        exact tells_exportedAs? ih m _ name

/-! ## One chain for both -/

section Both

variable (g : Graph) (t : Tree) (find : String → Path → Option Path)

/-- What a file contributes and the module that is read from it; both name the same modules. -/
structure BothRead (file : Path) (c : Contribution) (m : Module) : Prop where
  contributed : g.contribution? file = some c
  loaded : Module.load? t file = some m
  bindings : c.bindings = m.bindings

/-- The module neither declares nor imports what it would give out under a name. -/
def Module.lacks (m : Module) (name : String) : Bool :=
  match m.source name with
  | .statement _ => false
  | .missing => true
  | .name own => (m.declaration? own).isNone && (findBinding? m.bindings own).isNone

/-- **A re-export**: a file passes a name on from another file of the project. -/
inductive ReExport : (file : Path) → (name : String) → (next : Path) → (name' : String) → Prop
  /-- By a statement that names the name or has a star, if the file has nothing else for it. -/
  | passed {file next : Path} {name x : String} (c : Contribution) (m : Module) (b : Binding)
      (hread : BothRead g t file c m) (hfree : c.exports.lookup name = none) (hlacks : m.lacks name)
      (hb : b ∈ m.bindings) (hx : b.forwards? name = some x)
      (hnext : find b.specifier file = some next) (hours : next.inNodeModules = false) :
      ReExport file name next x
  /-- By an import and an export of what was imported. -/
  | imported {file next : Path} {name : String} (own : String) (c : Contribution) (m : Module)
      (b : Binding) (hread : BothRead g t file c m)
      (hexport : c.exports.lookup name = some (.imported b.specifier b.imported))
      (hsource : m.source name = .name own) (hundeclared : m.declaration? own = none)
      (hb : findBinding? m.bindings own = some b) (hkind : b.kind ≠ .namespace)
      (hnext : find b.specifier file = some next) (hours : next.inNodeModules = false) :
      ReExport file name next b.imported

/-- A file gives out a router of its own, and the module declares what it gives out. -/
inductive DeclaredIn : (file : Path) → (name : String) → RouterKey → Declaration → Prop
  | mk {file : Path} {name : String} {key : RouterKey} {d : Declaration} {c : Contribution}
      {m : Module} (hread : BothRead g t file c m)
      (hexport : c.exports.lookup name = some (.router key)) (hrouter : g.hasRouter key)
      (hdeclared : m.source name = .statement d ∨
        ∃ own, m.source name = .name own ∧ m.declaration? own = some d) :
      DeclaredIn file name key d

/-- **A chain of re-exports** from a name of a file to the router and the declaration behind it. -/
inductive ExportChain :
    (reExports : Nat) → (file : Path) → (name : String) → RouterKey → Declaration → Prop
  | declared {file : Path} {name : String} {key : RouterKey} {d : Declaration}
      (h : DeclaredIn g t file name key d) : ExportChain 0 file name key d
  | step {n : Nat} {file next : Path} {name name' : String} {key : RouterKey} {d : Declaration}
      (h : ReExport g t find file name next name') (rest : ExportChain n next name' key d) :
      ExportChain (n + 1) file name key d

variable {g t find} {file next : Path} {name name' : String} {key : RouterKey} {d : Declaration}

theorem Module.path_of_load? {m : Module} (h : Module.load? t file = some m) : m.path = file := by
  obtain ⟨text, -, rfl⟩ := map_eq_some_iff.mp h
  rfl

theorem Module.ownFile?_of_load? {m : Module} (hm : Module.load? t file = some m) {b : Binding}
    (hnext : find b.specifier file = some next) (hours : next.inNodeModules = false) :
    m.ownFile? find b = some next := by
  rw [Module.ownFile?, Module.path_of_load? hm, hnext]
  simp [hours]

theorem ReExport.linked (h : ReExport g t find file name next name') :
    ∃ sources, g.offer find file name = .passed sources ∧ (next, name') ∈ sources := by
  cases h with
  | passed c m b hread hfree _ hb hx hnext _ =>
    refine ⟨c.bindings.filterMap fun b => (b.forwards? name).bind fun x =>
      (find b.specifier file).map (·, x), by simp [offer, hread.contributed, hfree], ?_⟩
    rw [mem_filterMap]
    exact ⟨b, hread.bindings ▸ hb, by simp [hx, hnext]⟩
  | imported own c m b hread hexport _ _ _ _ hnext _ =>
    refine ⟨(find b.specifier file).toList.map (·, b.imported),
      by simp [offer, hread.contributed, hexport], ?_⟩
    simp [hnext]

theorem ReExport.followed (h : ReExport g t find file name next name') :
    ∃ sources, offerIn t find file name = .passed sources ∧ (next, name') ∈ sources := by
  cases h with
  | passed c m b hread _ hlacks hb hx hnext hours =>
    have hoffer : m.offer find name = .passed (m.sources find name) := by
      unfold Module.lacks at hlacks
      unfold Module.offer
      cases hsource : m.source name with
      | statement d => simp [hsource] at hlacks
      | missing => rfl
      | name own =>
        simp only [hsource, Bool.and_eq_true, isNone_iff_eq_none] at hlacks
        simp [Module.offerAs, Module.importOf?, hlacks.1, hlacks.2]
    refine ⟨m.sources find name, by simp [offerIn, hread.loaded, hoffer], ?_⟩
    rw [Module.sources, mem_filterMap]
    exact ⟨b, hb, by simp [hx, Module.ownFile?_of_load? hread.loaded hnext hours]⟩
  | imported own c m b hread _ hsource hundeclared hb hkind hnext hours =>
    have himport : m.importOf? find own = some (next, b.imported) := by
      rw [Module.importOf?, hb, filter_some, if_pos (by simpa using hkind), bind_some,
        Module.ownFile?_of_load? hread.loaded hnext hours, map_some]
    simp [offerIn, hread.loaded, Module.offer, hsource, Module.offerAs, hundeclared, himport]

theorem ExportChain.linked {n : Nat} (h : ExportChain g t find n file name key d) :
    Chain (g.offer find) n file name key := by
  induction h with
  | declared hend =>
    cases hend with
    | mk hread hexport hrouter _ =>
      exact .own (by simp [offer, hread.contributed, hexport, hrouter])
  | step hstep _ ih =>
    obtain ⟨sources, hoffer, hmem⟩ := hstep.linked
    exact .step hoffer hmem ih

theorem ExportChain.followed {n : Nat} (h : ExportChain g t find n file name key d) :
    Chain (offerIn t find) n file name d := by
  induction h with
  | declared hend =>
    cases hend with
    | mk hread _ _ hdeclared =>
      rcases hdeclared with hsource | ⟨own, hsource, hown⟩
      · exact .own (by simp [offerIn, hread.loaded, Module.offer, hsource])
      · exact .own (by simp [offerIn, hread.loaded, Module.offer, hsource, Module.offerAs, hown])
  | step hstep _ ih =>
    obtain ⟨sources, hoffer, hmem⟩ := hstep.followed
    exact .step hoffer hmem ih

end Both

/-! ## Both searches -/

/-- Every chain from a name of a file ends in the same thing. -/
def EndsOnlyIn {δ : Type} (offer : Path → String → Offer δ) (file : Path) (name : String) (d : δ) :
    Prop :=
  ∀ n d', Chain offer n file name d' → d' = d

/-- A search finds something for each chain that is short enough, and the right thing if there is
only one. -/
theorem Chain.found {δ : Type} {offer : Path → String → Offer δ} {n k : Nat} {file : Path}
    {name : String} {d : δ} (h : Chain offer n file name d) (hn : n < k) :
    ∃ d', follow offer k file name = some d' ∧ (EndsOnlyIn offer file name d → d' = d) := by
  obtain ⟨d', hd'⟩ := isSome_iff_exists.mp (h.follow_isSome hn)
  obtain ⟨n', -, hchain⟩ := exists_chain_of_follow hd'
  exact ⟨d', hd', fun honly => honly n' d' hchain⟩

/-- **How far exports are followed.** A mount is linked and then a function is followed for one and
the same import. Linking finds the router behind every chain of at most seven re-exports, following
the declaration behind every chain of at most eight; with several chains they find what is behind
one of them. Behind longer chains only, and where no chain ends, as in cycles, they find nothing. -/
theorem exports_followed {g : Graph} {t : Tree} {r r₁ r₂ : Resolver} {specifier name : String}
    {importer file : Path} {router? : Option RouterKey} {declaration? : Option Declaration}
    (hlink : (g.link? (resolve? t) Graph.exportHops (.imported specifier name) importer).run r =
      (router?, r₁))
    (hfollow : (exported? t exportHops file name).run r₁ = (declaration?, r₂))
    (hfile : r₂.finds t specifier importer = some file) :
    (∀ n key d, ExportChain g t (r₂.finds t) n file name key d →
      (n ≤ 7 → ∃ key', router? = some key' ∧
        (EndsOnlyIn (g.offer (r₂.finds t)) file name key → key' = key)) ∧
      (n ≤ 8 → ∃ d', declaration? = some d' ∧
        (EndsOnlyIn (offerIn t (r₂.finds t)) file name d → d' = d))) ∧
    (∀ key, router? = some key → ∃ n ≤ 7, Chain (g.offer (r₂.finds t)) n file name key) ∧
    ∀ d, declaration? = some d → ∃ n ≤ 8, Chain (offerIn t (r₂.finds t)) n file name d := by
  have hfollowed : Tells r₂ (exported? t exportHops file name) _ :=
    tells_exported? t exportHops file name
  have hlinked : Tells r₂ (g.link? (resolve? t) exportHops (.imported specifier name) importer) _ :=
    g.tells_link? t exportHops (.imported specifier name) importer
  have hrouter : router? = follow (g.offer (r₂.finds t)) 8 file name := by
    rw [hlinked.eq hlink (hfollowed.later hfollow), exportHops, plainLink?_imported,
      hfile, bind_some, plainExported?_eq_follow]
  have hdeclaration : declaration? = follow (offerIn t (r₂.finds t)) 9 file name :=
    hfollowed.eq hfollow (.refl r₂)
  rw [hrouter, hdeclaration]
  refine ⟨fun n key d hchain => ⟨fun hn => ?_, fun hn => ?_⟩, fun key hkey => ?_, fun d hd => ?_⟩
  · exact hchain.linked.found (Nat.lt_succ_of_le hn)
  · exact hchain.followed.found (Nat.lt_succ_of_le hn)
  · obtain ⟨n, hn, hchain⟩ := exists_chain_of_follow hkey
    exact ⟨n, Nat.le_of_lt_succ hn, hchain⟩
  · obtain ⟨n, hn, hchain⟩ := exists_chain_of_follow hd
    exact ⟨n, Nat.le_of_lt_succ hn, hchain⟩

namespace Long

/-- The names of nine modules, of which each passes on all that the next one has. -/
def names : List String := ["a", "b", "c", "d", "e", "f", "g", "h", "i"]

variable (i : Nat)

def specifier : String := "./" ++ names.getD i ""

def file : Path := ⟨"/p/" ++ names.getD i "" ++ ".ts"⟩

/-- The statement with which a module passes on what the next one has. -/
def star : Binding := ⟨"*", "*", specifier (i + 1), .reExport⟩

def passing : Contribution :=
  { file := file i, relPath := "", version := 1, routers := [], exports := [], bindings := [star i]
    errors := [] }

def key : RouterKey := ⟨file 8, 13⟩

def declaring : Contribution :=
  { file := file 8, relPath := "", version := 1, routers := [⟨key, "n", 1, 14, false, []⟩]
    exports := [("n", .router key)], bindings := [], errors := [] }

def graph : Graph :=
  { root := ⟨"/p"⟩, contributions := (range 8).map passing ++ [declaring] }

def text : String :=
  if i = 8 then "export let n=1" else "export*from'" ++ specifier (i + 1) ++ "'"

def tree : Tree :=
  { entries := (["p"], .directory) ::
      (range 9).map fun i => (["p", names.getD i "" ++ ".ts"], .file (text i).toUTF8.toList) }

def resolver : Resolver := { root := ⟨"/p"⟩ }

def importer : Path := ⟨"/p/z.ts"⟩

theorem facts :
    (∀ i < 8, graph.contribution? (file i) = some (passing i) ∧
      (Module.load? tree (file i)).any (fun m => m.bindings = [star i] && m.lacks "n") ∧
      resolver.finds tree (specifier (i + 1)) (file i) = some (file (i + 1)) ∧
      (file (i + 1)).inNodeModules = false) ∧
    graph.contribution? (file 8) = some declaring ∧ graph.hasRouter key ∧
    (Module.load? tree (file 8)).any (fun m =>
      m.bindings = [] && m.localName? "n" = none && (m.declaration? "n").isSome) ∧
    (∀ i < 9, isBare (specifier i) = false) ∧
    (∀ i < 2, resolver.finds tree (specifier i) importer = some (file i)) ∧
    ((graph.link? (resolve? tree) exportHops (.imported (specifier 0) "n") importer).run
      resolver).1 = none ∧
    ((exported? tree exportHops (file 0) "n").run resolver).1.isSome := by
  decide +kernel

theorem chain {find : String → Path → Option Path}
    (hfind : ∀ i < 8, find (specifier (i + 1)) (file i) = some (file (i + 1))) :
    ∃ d, ∀ k ≤ 8, ExportChain graph tree find k (file (8 - k)) "n" key d := by
  obtain ⟨hsteps, hlast, hrouter, hmodule, -⟩ := facts
  obtain ⟨m, hm, hdecl⟩ := (any_eq_true _ _).mp hmodule
  simp only [Bool.and_eq_true, decide_eq_true_eq, isSome_iff_exists] at hdecl
  obtain ⟨⟨hbindings, hlocal⟩, d, hd⟩ := hdecl
  refine ⟨d, fun k hk => ?_⟩
  induction k with
  | zero =>
    have hsource : m.source "n" = .name "n" := by simp [Module.source, hlocal]
    exact .declared (.mk ⟨hlast, hm, hbindings.symm⟩ rfl hrouter (.inr ⟨"n", hsource, hd⟩))
  | succ k ih =>
    obtain ⟨i, hi⟩ : ∃ i, i = 8 - (k + 1) := ⟨_, rfl⟩
    have hlt : i < 8 := by omega
    have hnext : file (i + 1) = file (8 - k) := by
      congr 1
      omega
    obtain ⟨hc, hload, -, hours⟩ := hsteps i hlt
    obtain ⟨m, hm, hpasses⟩ := (any_eq_true _ _).mp hload
    simp only [Bool.and_eq_true, decide_eq_true_eq] at hpasses
    rw [← hi]
    refine .step (.passed (passing i) m (star i) ⟨hc, hm, hpasses.1.symm⟩ rfl hpasses.2
      (by simp [hpasses.1]) rfl (hfind i hlt) hours) ?_
    rw [hnext]
    exact ih (by omega)

end Long

/-- A chain of seven re-exports is followed by both. -/
theorem exports_followed_seven :
    ∃ r₁ r₂ key d,
      (Long.graph.link? (resolve? Long.tree) Graph.exportHops (.imported (Long.specifier 1) "n")
        Long.importer).run Long.resolver = (some key, r₁) ∧
      (exported? Long.tree exportHops (Long.file 1) "n").run r₁ = (some d, r₂) ∧
      r₂.finds Long.tree (Long.specifier 1) Long.importer = some (Long.file 1) := by
  obtain ⟨⟨router?, r₁⟩, hlink⟩ : ∃ result, (Long.graph.link? (resolve? Long.tree) exportHops
      (.imported (Long.specifier 1) "n") Long.importer).run Long.resolver = result := ⟨_, rfl⟩
  obtain ⟨⟨declaration?, r₂⟩, hfollow⟩ : ∃ result,
      (exported? Long.tree exportHops (Long.file 1) "n").run r₁ = result := ⟨_, rfl⟩
  have hlinks : ∀ target file, Tells r₂
      (Long.graph.link? (resolve? Long.tree) exportHops target file) _ :=
    Long.graph.tells_link? Long.tree exportHops
  have hfollows : Tells r₂ (exported? Long.tree exportHops (Long.file 1) "n") _ :=
    tells_exported? Long.tree exportHops (Long.file 1) "n"
  have hlater : Long.resolver.Later r₂ := ((hlinks _ _).later hlink).trans (hfollows.later hfollow)
  obtain ⟨hsteps, -, -, -, hbare, hfirst, -⟩ := Long.facts
  have hfile : r₂.finds Long.tree (Long.specifier 1) Long.importer = some (Long.file 1) :=
    (finds_eq_of_root hlater.root (hbare 1 (by decide)) _ _).trans (hfirst 1 (by decide))
  obtain ⟨d, hchain⟩ := Long.chain fun i hi =>
    (finds_eq_of_root hlater.root (hbare _ (Nat.succ_lt_succ hi)) _ _).trans (hsteps i hi).2.2.1
  obtain ⟨hfound, -⟩ := exports_followed hlink hfollow hfile
  obtain ⟨hlinked, hfollowed⟩ := hfound 7 Long.key d (hchain 7 (by decide))
  obtain ⟨key, rfl, -⟩ := hlinked (Nat.le_refl 7)
  obtain ⟨d', rfl, -⟩ := hfollowed (by decide)
  exact ⟨r₁, r₂, key, d', hlink, hfollow, hfile⟩

/-- **A chain of eight re-exports is followed to its declaration, but not linked to its router.** -/
theorem chain_of_eight_not_linked :
    (∃ d, ExportChain Long.graph Long.tree (Long.resolver.finds Long.tree) 8 (Long.file 0) "n"
      Long.key d) ∧
    Long.resolver.finds Long.tree (Long.specifier 0) Long.importer = some (Long.file 0) ∧
    ((Long.graph.link? (resolve? Long.tree) Graph.exportHops (.imported (Long.specifier 0) "n")
      Long.importer).run Long.resolver).1 = none ∧
    ((exported? Long.tree exportHops (Long.file 0) "n").run Long.resolver).1.isSome := by
  obtain ⟨hsteps, -, -, -, -, hfirst, hnone, hfound⟩ := Long.facts
  obtain ⟨d, hchain⟩ := Long.chain fun i hi => (hsteps i hi).2.2.1
  exact ⟨⟨d, hchain 8 (Nat.le_refl 8)⟩, hfirst 0 (by decide), hnone, hfound⟩

end Expansion

end RouteAtlas
