import RouteAtlas.Proofs.ConfigChains
import RouteAtlas.Proofs.DirectoriesAbove
import RouteAtlas.Proofs.Lookups
import RouteAtlas.Proofs.PlainTrees

/-!
# Clean paths of modules

The graph knows a file by its path, so two specifiers for one file are linked alike only if they
give the same path. A specifier that is a path is cleaned before anything is looked for. The paths
that a configuration gives for a bare specifier, by an alias or the base directory, are looked for
as they are put together: where such a path goes up, so does the path that is found, and the graph
has no file under it.
-/

open List Option

namespace RouteAtlas

open Files RouteAtlas.Path

namespace Modules

variable {path dir file : Path} {t : Tree}

/-! ## Configurations with absolute directories -/

/-- The directories of a configuration are absolute paths. -/
structure Config.Based (c : Config) : Prop where
  aliasBase : c.aliasBase.isAbsolute
  baseUrl : ∀ url, c.baseUrl = some url → url.isAbsolute

theorem isAbsolute_dirOf (h : path.isAbsolute) : (Config.dirOf path).isAbsolute := by
  unfold Config.dirOf
  cases hparent : path.parent? with
  | none => rfl
  | some dir => exact isAbsolute_parent h hparent

theorem Config.Based.override {base : Config} (hb : base.Based) (hpath : path.isAbsolute)
    (written : WrittenConfig) : (base.override path written).Based := by
  have hdir := isAbsolute_dirOf hpath
  have hurl : ∀ url, ((dirOf path).join url).clean.isAbsolute := fun url =>
    (isAbsolute_clean _).trans (isAbsolute_join hdir url)
  unfold Config.override
  generalize written.options.getD {} = options
  obtain ⟨_ | url, _ | aliases⟩ := options
  · exact ⟨hb.aliasBase, hb.baseUrl⟩
  · refine ⟨?_, hb.baseUrl⟩
    show (if base.baseUrl.isNone then dirOf path else base.aliasBase).isAbsolute
    split
    · exact hdir
    · exact hb.aliasBase
  · exact ⟨hurl url, fun _ h => some.inj h ▸ hurl url⟩
  · exact ⟨hurl url, fun _ h => some.inj h ▸ hurl url⟩

theorem isAbsolute_parentPath (h : dir.isAbsolute) (name : String) :
    (Config.parentPath dir name).isAbsolute := by
  unfold Config.parentPath
  split
  · simp only
    split
    · exact isAbsolute_addExtension (isAbsolute_join h name) "json"
    · exact isAbsolute_join h name
  · exact isAbsolute_join (isAbsolute_join h _) name

theorem based_unset (h : path.isAbsolute) : (Config.unset path).Based :=
  ⟨isAbsolute_dirOf h, fun _ h => nomatch h⟩

/-- **A configuration has absolute directories** if it is loaded from an absolute path, whatever it
extends. -/
theorem based_loadUpTo {links : Nat} {config : Config} (hpath : path.isAbsolute)
    (h : Config.loadUpTo t links path = .ok config) : config.Based := by
  induction links generalizing path config with
  | zero =>
    obtain ⟨l, -, -, ⟨rfl, -⟩ | ⟨_, _, hpos, -⟩⟩ := Config.loadUpTo_cases h
    · exact (based_unset hpath).override hpath l.written
    · cases hpos
  | succ links ih =>
    obtain ⟨l, rfl, -, ⟨rfl, -⟩ | ⟨parent, base, -, hparent, hbase, rfl⟩⟩ := Config.loadUpTo_cases h
    · exact (based_unset hpath).override hpath l.written
    · obtain ⟨name, -, rfl⟩ := map_eq_some_iff.mp hparent
      exact (ih (isAbsolute_parentPath (isAbsolute_dirOf hpath) name) hbase).override hpath
        l.written

theorem isAbsolute_nearestConfig {start stop : Path} (hstart : start.isAbsolute)
    (h : nearestConfig? t start stop = some path) : path.isAbsolute := by
  obtain ⟨n, dir, hup, -, rfl, -⟩ := nearestConfig?_eq_some_iff.mp h
  exact isAbsolute_join (isAbsolute_up? hstart hup) configName

namespace Resolver

variable {r : Resolver} {t : Tree} {dir : Path}

/-- Every configuration that is kept has absolute directories. -/
def Based (r : Resolver) : Prop :=
  ∀ dir config, (dir, some config) ∈ r.known → config.Based

/-- **A resolver that was asked for modules of absolute files**, in trees that may have changed in
between. -/
inductive Asked : Resolver → Prop
  | new (root : Path) : Asked { root }
  | ask {r : Resolver} (h : Asked r) (t : Tree) (specifier : String) {importer : Path}
      (habsolute : importer.isAbsolute) :
      Asked ((resolve? t specifier importer).run r).2
  | forget {r : Resolver} (h : Asked r) : Asked r.forget

theorem based_lookUp (hdir : dir.isAbsolute) {config : Config}
    (h : r.lookUp t dir = some config) : config.Based := by
  obtain ⟨path, hpath, hload⟩ := bind_eq_some_iff.mp h
  have habs := isAbsolute_nearestConfig hdir hpath
  unfold Config.load at hload
  cases hconfig : Config.loadUpTo t Config.longestChain path with
  | error e => simp [hconfig, Except.toOption] at hload
  | ok loaded =>
    simp only [hconfig, Except.toOption, Option.some.injEq] at hload
    exact hload ▸ based_loadUpTo habs hconfig

theorem Based.config? (hr : r.Based) (hdir : dir.isAbsolute) {config : Config}
    (h : r.config? t dir = some config) : config.Based := by
  unfold Resolver.config? kept? at h
  cases hfind : r.known.find? fun e => e.1.same dir with
  | none =>
    rw [hfind] at h
    exact based_lookUp hdir h
  | some entry =>
    rw [hfind] at h
    have hmem := mem_of_find?_eq_some hfind
    have hentry : entry.2 = some config := h
    exact hr entry.1 config (hentry ▸ hmem)

theorem Based.learn (hr : r.Based) (hdir : dir.isAbsolute) :
    (r.learn dir (r.lookUp t dir)).Based := by
  intro d config hmem
  rcases mem_cons.mp hmem with heq | hmem
  · exact based_lookUp hdir (Prod.mk.inj heq).2.symm
  · exact hr d config hmem

theorem Based.resolve (hr : r.Based) (t : Tree) (specifier : String) {importer : Path}
    (himporter : importer.isAbsolute) : ((resolve? t specifier importer).run r).2.Based := by
  rw [run_resolve?_snd]
  cases hdir : (if isBare specifier = true then importer.parent? else Option.none) with
  | none => exact hr
  | some dir =>
    have habs := isAbsolute_parent himporter (ite_none_right_eq_some.mp hdir).2
    rw [elim_some, run_configFor]
    cases r.kept? dir with
    | none => exact hr.learn habs
    | some config => exact hr

theorem Asked.based (h : r.Asked) : r.Based := by
  induction h with
  | new root => exact fun _ _ h => absurd h not_mem_nil
  | ask _ t specifier habsolute ih => exact ih.resolve t specifier habsolute
  | forget _ ih => exact fun _ _ h => absurd h not_mem_nil

end Resolver

/-! ## Files found at clean paths -/

theorem foundAt_of_mem_sourcesOfCompiled (habs : path.isAbsolute)
    (h : file ∈ sourcesOfCompiled path) : path.FoundAt file := by
  have hendings : ∀ s ∈ sourceExtensions,
      '/' ∉ s.1.toList ∧ ∀ ext ∈ s.2, Path.IsEnding ("." ++ ext) := by decide
  obtain ⟨s, hs, h⟩ := mem_flatMap.mp h
  simp only at h
  cases hstem : Text.stripEnd? s.1 path.text with
  | none =>
    rw [hstem] at h
    cases h
  | some stem =>
    rw [hstem] at h
    obtain ⟨ext, hext, rfl⟩ := List.mem_map.mp h
    obtain ⟨back, hback, rfl⟩ := map_eq_some_iff.mp hstem
    have htext : path.text = String.ofList back.reverse ++ s.1 := by
      have := congrArg List.reverse (Text.stripList?_eq_some_iff.mp hback)
      exact String.toList_inj.mp (by simpa using this)
    rw [String.append_assoc]
    exact foundAt_of_append habs htext (hendings s hs).1 ((hendings s hs).2 ext hext)

theorem foundAt_of_fileAt (habs : path.isAbsolute) (h : fileAt? t path = some file) :
    file = path ∨ path.FoundAt file := by
  have hendings : ∀ ext ∈ implicitExtensions, Path.IsEnding ("." ++ ext) := by decide
  have hmem := mem_of_find?_eq_some h
  rw [fileForms, mem_append, mem_append, mem_append] at hmem
  rcases hmem with ((hmem | hmem) | hmem) | hmem
  · split at hmem
    · exact .inl (mem_singleton.mp hmem)
    · cases hmem
  · exact .inr (foundAt_of_mem_sourcesOfCompiled habs hmem)
  · obtain ⟨ext, hext, rfl⟩ := List.mem_map.mp hmem
    have htext : path.text = path.text ++ "" := by simp
    rw [String.append_assoc]
    exact .inr (foundAt_of_append habs htext (by simp) (hendings ext hext))
  · exact .inl (mem_singleton.mp hmem)

theorem foundAt_of_indexOf (habs : dir.isAbsolute) (h : indexOf? t dir = some file) :
    dir.FoundAt file := by
  have hnames : ∀ ext ∈ implicitExtensions, IsName ("index." ++ ext) := by decide
  obtain ⟨ext, hext, rfl⟩ := List.mem_map.mp (mem_of_find?_eq_some h)
  exact ⟨isAbsolute_join habs _, dir.steps, _, steps_join habs (hnames ext hext), .inl rfl⟩

theorem isClean_of_foundAt (habs : path.isAbsolute) (hclean : path.IsClean)
    (h : file = path ∨ path.FoundAt file) : file.isAbsolute ∧ file.IsClean := by
  rcases h with rfl | h
  · exact ⟨habs, hclean⟩
  · exact ⟨h.absolute, h.isClean habs hclean⟩

theorem packageMain_clean {entry : Path} (habs : dir.isAbsolute)
    (h : packageMain? t dir = some entry) : entry.isAbsolute ∧ entry.IsClean := by
  obtain ⟨text, -, h⟩ := bind_eq_some_iff.mp h
  obtain ⟨manifest, -, h⟩ := bind_eq_some_iff.mp h
  obtain ⟨name, -, h⟩ := bind_eq_some_iff.mp h
  cases h
  have hjoin := isAbsolute_join habs name
  exact ⟨(isAbsolute_clean _).trans hjoin, isClean_clean _⟩

/-- **How a file is found by a path**: at the path, or at the clean path of the entry that a
manifest there names. -/
theorem fileOrDirectory_cases (habs : path.isAbsolute)
    (h : fileOrDirectory? t path = some file) :
    (file = path ∨ path.FoundAt file) ∨
      ∃ entry, packageMain? t path = some entry ∧ file.isAbsolute ∧ file.IsClean := by
  rcases (orElse_eq_some _ _ _).mp h with h | ⟨-, h⟩
  · exact .inl (foundAt_of_fileAt habs h)
  unfold fileOfDirectory? at h
  split at h
  · rcases (orElse_eq_some _ _ _).mp h with h | ⟨-, h⟩
    · obtain ⟨entry, hentry, h⟩ := bind_eq_some_iff.mp h
      obtain ⟨hentryAbs, hentryClean⟩ := packageMain_clean habs hentry
      refine .inr ⟨entry, hentry, isClean_of_foundAt hentryAbs hentryClean ?_⟩
      rcases (orElse_eq_some _ _ _).mp h with h | ⟨-, h⟩
      · exact foundAt_of_fileAt hentryAbs h
      · exact .inr (foundAt_of_indexOf hentryAbs h)
    · exact .inl (.inr (foundAt_of_indexOf habs h))
  · cases h

namespace Resolver

variable {found importer target path : Path} {r : Resolver} {t : Tree} {specifier : String}

/-! ## What a specifier stands for -/

theorem settle_cases (r : Resolver) (t : Tree) (habs : found.isAbsolute) :
    r.settle t found = found ∨ ∃ place, IsPlace place ∧ r.settle t found = Tree.pathOf place := by
  unfold settle
  split
  · exact .inl rfl
  split
  · rename_i real hreal
    split
    · obtain ⟨place, hplace, rfl⟩ := map_eq_some_iff.mp hreal
      exact .inr ⟨place, isPlace_of_real habs hplace, rfl⟩
    · exact .inl rfl
  · exact .inl rfl

theorem isAbsolute_settle (r : Resolver) (t : Tree) (habs : found.isAbsolute) :
    (r.settle t found).isAbsolute := by
  rcases r.settle_cases t habs with heq | ⟨place, -, heq⟩
  · rwa [heq]
  · rw [heq, isAbsolute_pathOf]

theorem isClean_settle (t : Tree) (habs : found.isAbsolute)
    (hclean : found.IsClean) : (r.settle t found).IsClean := by
  rcases r.settle_cases t habs with heq | ⟨place, hplace, heq⟩
  · rwa [heq]
  · rw [heq, Path.IsClean, clean_pathOf hplace, same, beq_self_eq_true]

/-- The first path of the configuration at which a specifier is found. -/
def target? (r : Resolver) (t : Tree) (specifier : String) (importer : Path) : Option Path :=
  importer.parent?.bind fun dir => (r.config? t dir).bind fun config =>
    (configTargets config specifier).find? fun target => (fileOrDirectory? t target).isSome

theorem isAbsolute_target (hr : r.Asked) (himporter : importer.isAbsolute)
    (h : r.target? t specifier importer = some target) : target.isAbsolute := by
  obtain ⟨dir, hdir, h⟩ := bind_eq_some_iff.mp h
  obtain ⟨config, hconfig, h⟩ := bind_eq_some_iff.mp h
  have hbased := hr.based.config? (isAbsolute_parent himporter hdir) hconfig
  rcases mem_append.mp (mem_of_find?_eq_some h) with hmem | hmem
  · unfold Config.aliasTargets aliasCandidates at hmem
    split at hmem
    · cases hmem
    · obtain ⟨text, -, rfl⟩ := List.mem_map.mp hmem
      exact isAbsolute_join hbased.aliasBase _
  · obtain ⟨base, hbase, rfl⟩ := map_eq_some_iff.mp (mem_toList.mp hmem)
    exact isAbsolute_join (hbased.baseUrl base hbase) specifier

theorem findSome?_of_find? {α β : Type} {f : α → Option β} {l : List α} {a : α}
    (h : (l.find? fun a => (f a).isSome) = some a) : l.findSome? f = f a := by
  induction l with
  | nil => cases h
  | cons b l ih =>
    rw [find?_cons] at h
    rw [findSome?_cons]
    cases hb : f b with
    | none =>
      simp only [hb] at h
      exact ih h
    | some c =>
      simp only [hb, isSome_some, Option.some.injEq] at h
      rw [← h, hb]

theorem finds_of_target (hbare : isBare specifier)
    (h : r.target? t specifier importer = some target) :
    r.finds t specifier importer = (fileOrDirectory? t target).map (r.settle t) := by
  obtain ⟨dir, hdir, h⟩ := bind_eq_some_iff.mp h
  obtain ⟨config, hconfig, h⟩ := bind_eq_some_iff.mp h
  have hsome : (fileOrDirectory? t target).isSome := by simpa using find?_some h
  obtain ⟨file, hfile⟩ := isSome_iff_exists.mp hsome
  rw [finds_eq, hdir, bind_some, if_pos hbare, hconfig, bareFile?, elim_some,
    findSome?_of_find? h, hfile]
  rfl

theorem isClean_of_found (habs : path.isAbsolute) (hclean : path.IsClean)
    (hfound : fileOrDirectory? t path = some found) : (r.settle t found).IsClean := by
  rcases fileOrDirectory_cases habs hfound with hat | ⟨_, -, hfile⟩
  · have hfile := isClean_of_foundAt habs hclean hat
    exact isClean_settle t hfile.1 hfile.2
  · exact isClean_settle t hfile.1 hfile.2

theorem isAbsolute_of_found (habs : path.isAbsolute)
    (hfound : fileOrDirectory? t path = some found) : (r.settle t found).isAbsolute := by
  rcases fileOrDirectory_cases habs hfound with (rfl | hat) | ⟨_, -, hfile⟩
  · exact r.isAbsolute_settle t habs
  · exact r.isAbsolute_settle t hat.absolute
  · exact r.isAbsolute_settle t hfile.1

/-- **A path specifier is worked out before anything is looked for**, so what it stands for is found
by a clean path. -/
theorem exists_of_path (himporter : importer.isAbsolute) (hpath : isBare specifier = false)
    (h : r.finds t specifier importer = some path) :
    ∃ start found, start.isAbsolute ∧ start.IsClean ∧
      fileOrDirectory? t start = some found ∧ path = r.settle t found := by
  rw [finds_eq, hpath] at h
  obtain ⟨dir, hdir, h⟩ := bind_eq_some_iff.mp h
  obtain ⟨found, hfound, rfl⟩ := map_eq_some_iff.mp h
  have hjoin := isAbsolute_join (isAbsolute_parent himporter hdir) specifier
  exact ⟨(dir.join specifier).clean, found, (isAbsolute_clean _).trans hjoin,
    isClean_clean _, hfound, rfl⟩

/-- Only a clean path of the configuration does, as long as nothing else cleans up: no manifest, no
linked package, and no name made of the dots at its end. -/
theorem target_isClean (habs : target.isAbsolute)
    (hfound : fileOrDirectory? t target = some found) (hname : target.fileName?.isSome)
    (hmanifest : packageMain? t target = none) (hours : found.inNodeModules = false)
    (hclean : (r.settle t found).IsClean) : target.IsClean := by
  rw [settle, hours] at hclean
  rcases fileOrDirectory_cases habs hfound with (rfl | hat) | ⟨entry, hentry, -⟩
  · exact hclean
  · exact hat.isClean_of_file habs hname hclean
  · rw [hmanifest] at hentry
    cases hentry

end Resolver

end Modules

/-! ## Linking by what specifiers stand for -/

namespace Inventory.Graph

open Modules Modules.Resolver

theorem contribution?_congr (g : Graph) {p q : Path} (h : p.components = q.components) :
    g.contribution? p = g.contribution? q := by
  simp [contribution?, same, h]

variable {g : Graph} {t : Tree} {r : Resolver} {specifier name : String} {importer path : Path}

theorem link?_eq {key : RouterKey} (hfinds : r.finds t specifier importer = some path)
    (hrouter : g.hasRouter key) (hops : Nat)
    (hexport : ∀ c, g.contribution? path = some c → c.exports.lookup name = some (.router key)) :
    ((g.link? (resolve? t) (hops + 2) (.imported specifier name) importer).run r).1 =
      (g.contribution? path).map fun _ => key := by
  rw [link?, StateT.run_bind]
  unfold finds at hfinds
  generalize (resolve? t specifier importer).run r = found at hfinds ⊢
  obtain ⟨file, r'⟩ := found
  obtain rfl : file = some path := hfinds
  show ((g.exported? (g.link? (resolve? t) (hops + 1)) path name).run r').1 = _
  rw [exported?]
  cases hc : g.contribution? path with
  | none => rfl
  | some c =>
    simp only [hexport c hc, link?, hrouter]
    rfl

/-- The contributions of the graph are those of places. -/
def Placed (g : Graph) : Prop :=
  ∀ c ∈ g.contributions, ∃ place, IsPlace place ∧ c.file = Tree.pathOf place

theorem Placed.no_parent (hg : g.Placed) {c : Contribution} (h : g.contribution? path = some c) :
    .parent ∉ path.components := by
  obtain ⟨place, hplace, hfile⟩ := hg c (mem_of_find?_eq_some h)
  have hsame : c.file.components = path.components := by
    simpa [same] using find?_some h
  rw [← hsame, hfile, components_pathOf hplace]
  simp

/-- A file of the graph gives out one of its routers under a name. -/
def Gives (g : Graph) (path : Path) (name : String) (key : RouterKey) : Prop :=
  g.hasRouter key ∧ (g.contribution? path).bind (·.exports.lookup name) = some (.router key)
  deriving Decidable

end Inventory.Graph

namespace Modules.Resolver

open Inventory

/-- **Two ways to one file**: a specifier that is a path and one that the configuration finds lead
to one place. -/
structure TwoWays (r : Resolver) (t : Tree) (importer : Path) (relative bare : String)
    (p q : Path) : Prop where
  isPath : isBare relative = false
  isBare : isBare bare
  configured : (r.target? t bare importer).isSome
  relative : r.finds t relative importer = some p
  bare : r.finds t bare importer = some q
  place : (t.real? p).isSome ∧ t.real? p = t.real? q

theorem TwoWays.isAbsolute {r : Resolver} (hr : r.Asked) {t : Tree} {importer : Path}
    (himporter : importer.isAbsolute) {relative bare : String} {p q : Path}
    (h : r.TwoWays t importer relative bare p q) : p.isAbsolute ∧ q.isAbsolute := by
  constructor
  · obtain ⟨start, found, habs, -, hfound, rfl⟩ := exists_of_path himporter h.isPath h.relative
    exact isAbsolute_of_found habs hfound
  · obtain ⟨target, htarget⟩ := isSome_iff_exists.mp h.configured
    have hq := h.bare
    rw [finds_of_target h.isBare htarget] at hq
    obtain ⟨found, hfound, rfl⟩ := map_eq_some_iff.mp hq
    exact isAbsolute_of_found (isAbsolute_target hr himporter htarget) hfound

/-- **Which resolved paths are clean**, and what follows for links.

What a path specifier stands for has a clean path. What a specifier stands for by an alias or the
base directory has one if the path that the configuration gives is clean, and with nothing else that
cleans up only then. Where there are two ways to one file of the graph, and no links in the tree,
both give the same path, and both are linked to the routers of the file, exactly if the second path
is clean too and does not start by going up from the root. -/
theorem finds_clean {r : Resolver} (hr : r.Asked) (t : Tree) {importer : Path}
    (himporter : importer.isAbsolute = true) :
    (∀ specifier path, isBare specifier = false → r.finds t specifier importer = some path →
      path.IsClean) ∧
    (∀ specifier target found, isBare specifier = true →
      r.target? t specifier importer = some target → fileOrDirectory? t target = some found →
        r.finds t specifier importer = some (r.settle t found) ∧
        (target.IsClean → (r.settle t found).IsClean) ∧
        (target.fileName?.isSome → packageMain? t target = none → found.inNodeModules = false →
          (r.settle t found).IsClean → target.IsClean)) ∧
    ∀ (g : Graph) (relative bare name : String) (p q : Path) (key : RouterKey) (hops : Nat),
      (∀ place target, t.entry? place ≠ some (.link target)) → g.Placed →
      r.TwoWays t importer relative bare p q → g.Gives p name key → let linked specifier :=
          ((g.link? (resolve? t) (hops + 2) (.imported specifier name) importer).run r).1
        let settled := q.IsClean ∧ q.steps.head? ≠ some .parent
        (p.same q = true ↔ settled) ∧ linked relative = some key ∧
          (linked bare = some key ↔ settled) := by
  refine ⟨fun specifier path hpath hfinds => ?_,
    fun specifier target found hbare htarget hfound => ?_, ?_⟩
  · obtain ⟨start, found, habs, hclean, hfound, rfl⟩ := exists_of_path himporter hpath hfinds
    exact isClean_of_found habs hclean hfound
  · have habs := isAbsolute_target hr himporter htarget
    refine ⟨by rw [finds_of_target hbare htarget, hfound]; rfl, fun hclean => ?_, ?_⟩
    · exact isClean_of_found habs hclean hfound
    · exact target_isClean habs hfound
  · intro g relative bare name p q key hops hlinks hg hways hgives linked settled
    obtain ⟨hrouter, hexport⟩ := hgives
    obtain ⟨c, hc, hexport⟩ := bind_eq_some_iff.mp hexport
    obtain ⟨hp, hq⟩ := hways.isAbsolute hr himporter
    obtain ⟨place, hplace⟩ := isSome_iff_exists.mp hways.place.1
    have hplace' := hways.place.2.symm.trans hplace
    -- a contribution names a place, so a path under which there is one does not go up
    have hsettled : ∀ d, g.contribution? q = some d → settled := fun d hd =>
      (no_parent_iff hq).mp (hg.no_parent hd)
    have hsame : settled → p.components = q.components := fun h =>
      (names_of_real hlinks hp (hg.no_parent hc) hplace).trans
        (names_of_real hlinks hq ((no_parent_iff hq).mpr h) hplace').symm
    have hlinked := Graph.link?_eq hways.relative hrouter hops fun d hd => by
      rw [hc] at hd
      cases hd
      exact hexport
    have hlinked' := Graph.link?_eq hways.bare hrouter hops fun d hd => by
      rw [← g.contribution?_congr (hsame (hsettled d hd)), hc] at hd
      cases hd
      exact hexport
    rw [hc] at hlinked
    refine ⟨⟨fun h => ?_, fun h => ?_⟩, hlinked, fun h => ?_, fun h => ?_⟩
    · exact hsettled c (by rw [← g.contribution?_congr (eq_of_beq h), hc])
    · exact beq_iff_eq.mpr (hsame h)
    · obtain ⟨d, hd, -⟩ := map_eq_some_iff.mp (hlinked'.symm.trans h)
      exact hsettled d hd
    · exact hlinked'.trans (by rw [← g.contribution?_congr (hsame h), hc]; rfl)

namespace Climbing

/-- A source, a file with a router in a directory beside it, and a configuration. -/
def tree (config : String) : Tree :=
  { entries := [(["p"], .directory), (["p", "tsconfig.json"], .file config.toUTF8.toList),
      (["p", "a"], .directory), (["p", "a", "m.ts"], .file []),
      (["p", "b"], .directory), (["p", "b", "r.ts"], .file [])] }

theorem linkless (config : String) (place : Place) (target : String) :
    Tree.entry? (tree config) place ≠ some (.link target) := by
  intro h
  by_cases hne : place = []
  · rw [hne] at h
    cases h
  · rw [Tree.entry?_of_ne _ hne] at h
    have := mem_of_lookup h
    simp [tree] at this

/-- The targets of the alias go up from the base directory. -/
def upward : Tree :=
  tree ("\x7b\"compilerOptions\":\x7b\"baseUrl\":\"a\"," ++
    "\"paths\":\x7b\"@/*\":[\"../b/*\"]\x7d\x7d\x7d")

/-- The targets of the alias go down from the configuration. -/
def downward : Tree :=
  tree "\x7b\"compilerOptions\":\x7b\"paths\":\x7b\"@/*\":[\"./b/*\"]\x7d\x7d\x7d"

def importer : Path := ⟨"/p/a/m.ts"⟩

def resolver : Resolver := { root := ⟨"/p"⟩ }

def key : RouterKey := ⟨⟨"/p/b/r.ts"⟩, 13⟩

def graph : Graph :=
  { root := ⟨"/p"⟩
    contributions :=
      [{ file := ⟨"/p/b/r.ts"⟩, relPath := "b/r.ts", version := 1, bindings := [], errors := []
         routers := [⟨key, "r", 1, 14, false, []⟩], exports := [("r", .router key)] }] }

theorem graph_placed : graph.Placed := by
  intro c hc
  obtain rfl := mem_singleton.mp hc
  exact ⟨["p", "b", "r.ts"], by decide, by decide⟩

/-- The router that the name is linked to in the source. -/
def linked (t : Tree) (specifier : String) : Option RouterKey :=
  ((graph.link? (resolve? t) Graph.exportHops (.imported specifier "r") importer).run resolver).1

end Climbing

open Climbing

/-- An alias with a dot in its target gives another text of the same path, and is linked. -/
theorem finds_clean_downward :
    let p : Path := ⟨"/p/b/r.ts"⟩
    let q : Path := ⟨"/p/./b/r.ts"⟩
    resolver.TwoWays downward importer "../b/r" "@/r" p q ∧ p.IsClean ∧ q.IsClean ∧
      p.same q = true ∧ linked downward "../b/r" = some key ∧ linked downward "@/r" = some key := by
  intro p q
  have htarget : resolver.target? downward "@/r" importer = some ⟨"/p/./b/r"⟩ := by decide +kernel
  have hfound : fileOrDirectory? downward ⟨"/p/./b/r"⟩ = some q := by decide
  have hsettle : resolver.settle downward q = q := by decide
  have hrelative : resolver.finds downward "../b/r" importer = some p := by decide
  have hplace : (downward.real? p).isSome ∧ downward.real? p = downward.real? q := by
    decide
  obtain ⟨hpaths, htargets, hlinks⟩ :=
    finds_clean (.new ⟨"/p"⟩) downward (by decide : importer.isAbsolute = true)
  obtain ⟨hbare, hclean, -⟩ := htargets "@/r" _ _ (by decide) htarget hfound
  have hq : q.IsClean := by
    have := hclean (by decide)
    rwa [show Resolver.settle { root := ⟨"/p"⟩ } downward q = q from hsettle] at this
  have hways : resolver.TwoWays downward importer "../b/r" "@/r" p q :=
    ⟨by decide, by decide, by rw [htarget]; rfl, hrelative, hbare.trans (congrArg some hsettle),
      hplace⟩
  obtain ⟨hsame, hlinked, hlinked'⟩ := hlinks graph "../b/r" "@/r" "r" p q key 7
    (linkless _) graph_placed hways (by decide)
  exact ⟨hways, hpaths _ _ (by decide) hrelative, hq, hsame.mpr ⟨hq, by decide⟩, hlinked,
    hlinked'.mpr ⟨hq, by decide⟩⟩

/-- **An alias whose target goes up gives a path that is not clean.** The path and the alias lead to
one file, but the paths that they stand for are not the same, and the router of the file is linked
through the path only. -/
theorem alias_path_not_clean :
    let p : Path := ⟨"/p/b/r.ts"⟩
    let q : Path := ⟨"/p/a/../b/r.ts"⟩
    resolver.finds upward "../b/r" importer = some p ∧
      resolver.finds upward "@/r" importer = some q ∧
      upward.real? p = upward.real? q ∧ ¬ q.IsClean ∧ p.same q = false ∧
      linked upward "../b/r" = some key ∧ linked upward "@/r" = none := by
  decide +kernel

end Modules.Resolver

end RouteAtlas
