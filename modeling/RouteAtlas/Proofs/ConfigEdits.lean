import RouteAtlas.Proofs.Incremental

/-!
# Edits of the configuration

A change of the configuration reaches three memories of a monitor: what the resolver has looked up,
the watched paths, and the tracked files. A refresh that names a configuration file makes the
resolver forget and works the watched paths out anew, but it does so behind the batch: which files
of the batch are read is still for the old watched paths to say, and no other file is read at all. A
file that the configuration merely extends has no special name, so a change of it makes nothing
forget anything.

So a refreshed monitor does not always give what a new one gives. It does exactly if both select the
same files: outside the batch those that are tracked already, inside the batch those that the old
watched paths take.
-/

open List Option

namespace RouteAtlas

open Files Source Inventory Modules Watch Tree
open Files.Tree (pathOf)

/-! ## Resolvers that agree -/

namespace Modules.Resolver

/-- The resolvers do not know different configurations for one directory. -/
def Agrees (r r' : Resolver) : Prop :=
  ∀ dir config config', r.kept? dir = some config → r'.kept? dir = some config' → config = config'

/-- Resolvers that agree can be merged. -/
theorem Agrees.exists_later {r r' : Resolver} (h : r.Agrees r') (hroot : r'.root = r.root) :
    ∃ last : Resolver, r.Later last ∧ r'.Later last := by
  let last : Resolver := { root := r.root, known := r.known ++ r'.known }
  have hrecall : ∀ dir, last.kept? dir = (r.kept? dir).or (r'.kept? dir) := by
    simp [kept?, last, map_or]
  refine ⟨last, ⟨rfl, fun dir config hknown => ?_⟩, ⟨hroot.symm, fun dir config hknown => ?_⟩⟩
  · rw [hrecall, hknown]
    rfl
  · rw [hrecall]
    cases hfirst : r.kept? dir with
    | none => exact hknown
    | some config' => exact congrArg some (h dir config' config hfirst hknown)

end Modules.Resolver

/-- **Runs that end with resolvers that agree give the same analysis.** -/
theorem Inventory.Graph.analyze_eq_of_agrees (g : Graph) (t : Tree) {r r' : Resolver}
    (hroot : r'.root = r.root)
    (h : ((g.analyze (Resolver.resolve? t)).run r).2.Agrees
      ((g.analyze (Resolver.resolve? t)).run r').2) :
    ((g.analyze (Resolver.resolve? t)).run r).1 = ((g.analyze (Resolver.resolve? t)).run r').1 := by
  have htells : ∀ last : Resolver, Resolver.Tells last (g.analyze (Resolver.resolve? t)) _ :=
    fun last => (g.tells_network t).bind (v := g.analysisOf) fun net => .pure _
  have hroots : ∀ r : Resolver, ((g.analyze (Resolver.resolve? t)).run r).2.root = r.root :=
    fun r => ((htells r).grows r).root
  obtain ⟨last, hlast, hlast'⟩ := h.exists_later (by rw [hroots, hroots, hroot])
  rw [(htells last).told r hlast, (htells last).told r' hlast']

namespace Project

namespace State

variable {s s' : State} {root : Path} {t : Tree}

/-! ## The files that are selected -/

def takes (s : State) (t : Tree) (path : Path) : Bool :=
  s.store.contains path ||
    ((s.set.contains t path).1 && (t.text? path).isSome && (Language.ofPath? path).isSome)

theorem isSome_settled? {path : Path} (hfile : t.isFile path) :
    (s.settled? t path).isSome = s.takes t path := by
  rw [settled?, takes, hfile, Store.contains_eq]
  cases t.text? path <;> cases Language.ofPath? path <;> cases (s.set.contains t path).1 <;>
    cases s.store.text? path <;> rfl

/-- What can be read is tracked as it is. -/
theorem settled?_eq_of_readable {path : Path} {text : String} (htext : t.text? path = some text)
    (hsource : (Language.ofPath? path).isSome) (htracked : (s.settled? t path).isSome) :
    s.settled? t path = some text := by
  obtain ⟨language, hlanguage⟩ := isSome_iff_exists.mp hsource
  rw [settled?, Store.isFile_of_text? htext, htext, hlanguage] at htracked ⊢
  simp only [Bool.not_true, Bool.false_eq_true, if_false, isNone_some, Bool.or_self] at htracked ⊢
  split at htracked
  · rw [if_pos (by assumption)]
  · cases htracked

/-- Whatever is tracked outside the batch is there as it is tracked. -/
def CurrentOutside (s : State) (t : Tree) (batch : List Place) : Prop :=
  ∀ q, IsPlace q → q ∉ batch → ∀ text, s.store.text? (pathOf q) = some text →
    t.text? (pathOf q) = some text

end State

/-- **Both states select the same files**: outside the batch they track the same ones, and a file of
the batch that is there is taken by the first exactly if the second tracks it. -/
structure SameSelection (s : State) (t : Tree) (batch : List Place) (anew : State) : Prop where
  outside : ∀ q, IsPlace q → q ∉ batch →
    s.store.contains (pathOf q) = anew.store.contains (pathOf q)
  inside : ∀ q ∈ batch, t.isFile (pathOf q) →
    s.takes t (pathOf q) = anew.store.contains (pathOf q)

/-- **The files after a refresh are those of a new state** exactly if both select the same. -/
theorem tracked_refresh_iff {seen : String → Prop} {s anew : State} {root : Path} {t : Tree}
    {batch : List Place} (h : s.InOrder root) (hd : State.Discerns seen s t)
    (hcurrent : s.CurrentOutside t batch) (hbatch : ∀ q ∈ batch, IsPlace q)
    (hanew : anew.InOrder root) (hread : anew.store.ReadFrom t) :
    (s.refresh t (batch.map pathOf)).2.tracked = anew.tracked ↔ SameSelection s t batch anew := by
  have htext : ∀ q, IsPlace q → (s.refresh t (batch.map pathOf)).2.store.text? (pathOf q)
      = if q ∈ batch then s.settled? t (pathOf q) else s.store.text? (pathOf q) :=
    fun q hq => State.text?_refresh hd h hbatch hq
  rw [State.tracked_eq_iff (h.refresh t hbatch) hanew]
  constructor
  · intro heq
    constructor
    · intro q hq hout
      rw [Store.contains_eq, Store.contains_eq, ← heq q hq, htext q hq, if_neg hout]
    · intro q hin hfile
      rw [Store.contains_eq, ← heq q (hbatch q hin), htext q (hbatch q hin), if_pos hin,
        State.isSome_settled? hfile]
  · intro hsame q hq
    rw [htext q hq]
    -- where something is selected, both have the text that is there
    have hboth : ∀ {a : Option String}, a.isSome = anew.store.contains (pathOf q) →
        (∀ text, anew.store.text? (pathOf q) = some text → a.isSome → a = some text) →
        a = anew.store.text? (pathOf q) := by
      intro a hsome hval
      rw [Store.contains_eq] at hsome
      cases hnew : anew.store.text? (pathOf q) with
      | none =>
        rw [hnew] at hsome
        exact not_isSome_iff_eq_none.mp (by rw [hsome]; simp)
      | some text => exact hval text hnew (by rw [hsome, hnew]; rfl)
    by_cases hin : q ∈ batch
    · rw [if_pos hin]
      cases hfile : t.isFile (pathOf q) with
      | true =>
        refine hboth (by rw [State.isSome_settled? hfile, hsame.inside q hin hfile]) ?_
        intro text hnew hsettled
        exact State.settled?_eq_of_readable (hread.text?_eq hq hnew)
          (hread.sound.isSome_of_text? hq hnew) hsettled
      | false =>
        have hnone : anew.store.text? (pathOf q) = none := by
          rw [eq_none_iff_forall_ne_some]
          intro text hnew
          rw [Store.isFile_of_text? (hread.text?_eq hq hnew)] at hfile
          cases hfile
        rw [State.settled?, hfile, hnone]
        rfl
    · rw [if_neg hin]
      refine hboth (by rw [← Store.contains_eq, hsame.outside q hq hin]) ?_
      intro text hnew hold
      obtain ⟨old, hold⟩ := isSome_iff_exists.mp hold
      rw [hold, ← hcurrent q hq hin old hold]
      exact hread.text?_eq hq hnew

/-! ## A project whose configuration changes -/

namespace Reconfigured

def config : Place := ["p", "tsconfig.json"]

/-- A project with one source and a configuration. -/
def treeOf (settings text : String) : Tree :=
  { entries := [(["p"], .directory), (["p", "src"], .directory),
      (Replaced.source, .file text.toUTF8.toList), (config, .file settings.toUTF8.toList)] }

/-- A configuration that includes another directory. -/
def elsewhere : String := "\x7b\"include\":[\"lib\"]\x7d"

def here : String := "\x7b\"include\":[\"src\"]\x7d"

/-- A configuration that gives an alias and includes nothing. -/
def aliasOnly : String :=
  "\x7b\"compilerOptions\":\x7b\"paths\":\x7b\"@x\":[\"./a\"]\x7d\x7d\x7d"

def monitorOf (t : Tree) : Monitor := { state := .load t { root := pathOf ["p"] } false }

variable {settings text : String} {q : Place}

-- only the places are compared, so the check runs although the two texts are variables
theorem treeOf_plain (settings text : String) : (treeOf settings text).Plain :=
  plain_of_stands (of_decide_eq_true rfl) (of_decide_eq_true rfl)

theorem changed_treeOf {settings settings' text text' : String} {places : List Place}
    (hsource : text = text' ∨ Replaced.source ∈ places)
    (hconfig : settings = settings' ∨ config ∈ places) :
    (treeOf settings text).Changed (treeOf settings' text') places where
  plain := treeOf_plain settings' text'
  files q hq := by
    by_cases hqs : q = Replaced.source
    · obtain rfl := hsource.resolve_right fun h => hq (hqs ▸ h)
      rw [hqs]
      rfl
    · by_cases hqc : q = config
      · obtain rfl := hconfig.resolve_right fun h => hq (hqc ▸ h)
        rw [hqc]
        rfl
      · simp [Tree.fileAt?, Tree.entry?, treeOf, lookup_cons, beq_false_of_ne hqs,
          beq_false_of_ne hqc]
  directories q hdir := by
    rw [isDirAt_iff] at hdir ⊢
    by_cases hqs : q = Replaced.source
    · rw [hqs] at hdir
      cases hdir
    by_cases hqc : q = config
    · rw [hqc] at hdir
      cases hdir
    · rw [← hdir]
      simp [treeOf, entry?, lookup_cons, beq_false_of_ne hqs, beq_false_of_ne hqc]
  working := rfl

theorem setUp_treeOf (settings text : String) :
    Monitor.setUp (treeOf settings text) ⟨"/p"⟩ false = .ok (monitorOf (treeOf settings text)) := by
  rfl

def unaliased : Tree := treeOf "\x7b\x7d" "f();"

/-- The project after the configuration got an alias and the source another text. -/
def aliased : Tree := treeOf aliasOnly "g();"

def analysed : State := (monitorOf unaliased).state.run [(unaliased, .analyze)]

def toldOfAlias : State := (analysed.refresh aliased ([config, Replaced.source].map pathOf)).2

theorem facts :
    (∀ f ∈ analysed.store.files, f.path = pathOf Replaced.source ∧ f.text = "f();") ∧
    (∀ content ∈ aliased.texts, content ∈ ["g();", aliasOnly]) ∧
    (∀ a ∈ ["f();", "g();", aliasOnly], ∀ b ∈ ["f();", "g();", aliasOnly],
      Digest.Blake3.ofText a = Digest.Blake3.ofText b → a = b) ∧
    analysed.store.paths = (monitorOf aliased).state.store.paths ∧
    (∀ q ∈ [config, Replaced.source],
      analysed.takes aliased (pathOf q) = (monitorOf aliased).state.store.contains (pathOf q)) ∧
    analysed.graph.extras.isEmpty ∧ (monitorOf aliased).state.graph.extras.isEmpty := by
  decide +kernel

theorem discerns_analysed : State.Discerns (· ∈ ["f();", "g();", aliasOnly]) analysed aliased where
  toldApart a b ha hb := facts.2.2.1 a ha b hb
  files f hf := by
    rw [(facts.1 f hf).2]
    exact mem_cons_self
  texts q _ _ content h := mem_cons_of_mem _ (facts.2.1 content (mem_texts h))

theorem sameSelection_aliased :
    SameSelection analysed aliased [config, Replaced.source] (monitorOf aliased).state := by
  have hcontains : ∀ (s : Store) (path : Path), s.contains path = s.paths.any (·.same path) := by
    intro s path
    rw [Store.contains, Store.get?, isSome_find?, Store.paths, List.any_map]
    rfl
  obtain ⟨-, -, -, hpaths, htakes, -⟩ := facts
  refine ⟨fun q _ _ => ?_, fun q hq _ => htakes q hq⟩
  rw [hcontains, hcontains, hpaths]

/-- The monitor of the project before the configuration includes the source, told of the change. -/
def toldOfInclude : State :=
  ((monitorOf (treeOf elsewhere Replaced.text)).state.refresh (treeOf here Replaced.text)
    ([config].map pathOf)).2

end Reconfigured

/-! ## The refreshed monitor and a new one -/

/-- **Edits of the configuration.** A monitor that was set up and then used in any way is told of
the files that have changed, in one batch and in any order. Afterwards it tracks the files that a
monitor tracks that is set up now exactly if both select the same files. Then both give the same
inventory if a file of the batch is named as a configuration, or else if what the old resolver has
kept is what the new one looks up. The trees may have links and ignore files. -/
theorem refresh_like_fresh {t u : Tree} {root : Path} {noIgnore : Bool} {m fresh : Monitor}
    {history : List (Tree × Operation)} {batch : List Place} {seen : String → Prop}
    {before told anew : State} (ht : t.Named) (hu : u.Named)
    (hm : Monitor.setUp t root noIgnore = .ok m)
    (hhistory : ∀ step ∈ history, step.1.Named ∧ step.2.Clean)
    (hbefore : m.state.run history = before)
    (hbatch : ∀ q ∈ batch, IsPlace q) (hcurrent : before.CurrentOutside u batch)
    (hd : State.Discerns seen before u)
    (htold : (before.refresh u (batch.map Tree.pathOf)).2 = told)
    (hfresh : Monitor.setUp u root noIgnore = .ok fresh) (hroot : fresh.root = m.root)
    (hanew : fresh.state.withExtras before.graph.extras = anew) :
    (told.tracked = anew.tracked ↔ SameSelection before u batch anew) ∧
    (told.tracked = anew.tracked → (∃ q ∈ batch, isConfigFile (Tree.pathOf q) = true) ∨
        (told.analyze u).2.resolver.Agrees (anew.analyze u).2.resolver →
      (told.analyze u).1 = (anew.analyze u).1) := by
  obtain ⟨place, -, hdir, rfl⟩ := setUp_eq_ok_iff.mp hm
  obtain ⟨place', -, -, rfl⟩ := setUp_eq_ok_iff.mp hfresh
  have hp : IsPlace place := ht.isPlace (isDirAt_iff.mp hdir)
  have hsame : pathOf place' = pathOf place := by
    rwa [Monitor.root, Monitor.root, State.root_load, State.root_load] at hroot
  rw [hsame] at hanew
  have horder : before.InOrder (pathOf place) :=
    hbefore ▸ State.InOrder.run hp hhistory (State.inOrder_load ht hp rfl noIgnore)
  have hanewOrder : anew.InOrder (pathOf place) :=
    hanew ▸ (State.inOrder_load hu hp rfl noIgnore).withExtras _
  have hread : anew.store.ReadFrom u := hanew ▸ readFrom_load hu hp rfl noIgnore
  have htoldOrder : told.InOrder (pathOf place) := htold ▸ horder.refresh u hbatch
  refine ⟨htold ▸ tracked_refresh_iff horder hd hcurrent hbatch hanewOrder hread, ?_⟩
  intro htracked hresolvers
  have hextras : told.graph.extras = anew.graph.extras := by
    rw [← htold, ← hanew, (State.refresh_store_graph before u _).2,
      (horder.paired.refreshEach_keeps u _).2]
    rfl
  have hgraphs := State.analyze_graph_eq htoldOrder hanewOrder htracked hextras u
  have hfst : ∀ s : State, (s.analyze u).1 =
      ((s.graph.analyze (Resolver.resolve? u)).run s.resolver).1 := fun _ => rfl
  have hsnd : ∀ s : State, (s.analyze u).2.resolver =
      ((s.graph.analyze (Resolver.resolve? u)).run s.resolver).2 := fun _ => rfl
  rcases hresolvers with ⟨q, hq, hconfig⟩ | hagrees
  · -- the old resolver has forgotten everything
    have hany : (batch.map pathOf).any isConfigFile = true :=
      List.any_eq_true.mpr ⟨_, List.mem_map_of_mem hq, hconfig⟩
    have hresolver : told.resolver = anew.resolver := by
      rw [← htold, horder.paired.resolver_refresh, if_pos hany, ← hanew, Resolver.forget,
        horder.resolverRoot]
      rfl
    rw [hfst, hfst, hgraphs, hresolver]
  · rw [hsnd, hsnd, hgraphs] at hagrees
    rw [hfst, hfst, hgraphs]
    exact anew.graph.analyze_eq_of_agrees u
      (hanewOrder.resolverRoot.trans htoldOrder.resolverRoot.symm) hagrees

open Reconfigured in
/-- A configuration gets an alias while the source gets another text. -/
theorem refresh_like_fresh_aliased :
    Monitor.setUp unaliased ⟨"/p"⟩ false = .ok (monitorOf unaliased) ∧
    Monitor.setUp aliased ⟨"/p"⟩ false = .ok (monitorOf aliased) ∧
    unaliased.Changed aliased [config, Replaced.source] ∧
    SameSelection analysed aliased [config, Replaced.source] (monitorOf aliased).state ∧
    toldOfAlias.tracked = (monitorOf aliased).state.tracked ∧
    (toldOfAlias.analyze aliased).1 = ((monitorOf aliased).state.analyze aliased).1 := by
  have hroot : (monitorOf aliased).root = (monitorOf unaliased).root := by
    rw [Monitor.root, Monitor.root, monitorOf, monitorOf, State.root_load, State.root_load]
  obtain ⟨hfiles, -, -, -, -, hbefore, hafter⟩ := facts
  have hcurrent : analysed.CurrentOutside aliased [config, Replaced.source] := by
    intro q hq hout content h
    obtain ⟨f, hf, -⟩ := map_eq_some_iff.mp h
    have hsame := find?_some hf
    rw [(hfiles f (mem_of_find?_eq_some hf)).1, pathOf_same_iff (by decide) hq] at hsame
    exact absurd (by simp [← hsame]) hout
  have hextras : (monitorOf aliased).state.withExtras analysed.graph.extras
      = (monitorOf aliased).state := by
    rw [List.isEmpty_iff.mp hbefore, ← List.isEmpty_iff.mp hafter]
    rfl
  obtain ⟨htracked, hroutes⟩ := refresh_like_fresh (treeOf_plain _ _).named
    (treeOf_plain _ _).named (setUp_treeOf _ _)
    (fun step hstep => by
      rw [mem_singleton.mp hstep]
      exact ⟨(treeOf_plain _ _).named, trivial⟩)
    (show (monitorOf unaliased).state.run [(unaliased, .analyze)] = analysed from rfl)
    (by decide) hcurrent discerns_analysed (show _ = toldOfAlias from rfl) (setUp_treeOf _ _) hroot
    hextras
  have hsame := htracked.mpr sameSelection_aliased
  refine ⟨setUp_treeOf _ _, setUp_treeOf _ _, ?_, sameSelection_aliased, hsame, ?_⟩
  · exact changed_treeOf (.inr (by simp)) (.inr mem_cons_self)
  · exact hroutes hsame (.inl ⟨config, mem_cons_self, by decide⟩)

open Reconfigured in
/-- **A source that the configuration begins to include** is not found by a refresh: the monitor
goes on tracking nothing, although a new one tracks the source and lists its route. -/
theorem include_edit_not_followed :
    Monitor.setUp (treeOf elsewhere Replaced.text) ⟨"/p"⟩ false
      = .ok (monitorOf (treeOf elsewhere Replaced.text)) ∧
    (treeOf elsewhere Replaced.text).Changed (treeOf here Replaced.text) [config] ∧
    Monitor.setUp (treeOf here Replaced.text) ⟨"/p"⟩ false
      = .ok (monitorOf (treeOf here Replaced.text)) ∧
    toldOfInclude.tracked = [] ∧
    (toldOfInclude.analyze (treeOf here Replaced.text)).1.resources = [] ∧
    ((monitorOf (treeOf here Replaced.text)).state.tracked.map (·.path))
      = [Tree.pathOf Replaced.source] ∧
    (((monitorOf (treeOf here Replaced.text)).state.analyze
      (treeOf here Replaced.text)).1.resources.map fun r => (r.method, r.path))
      = [("GET", "/x")] := by
  refine ⟨setUp_treeOf _ _, changed_treeOf (.inl rfl) (.inr mem_cons_self), setUp_treeOf _ _, ?_⟩
  decide +kernel

end Project

end RouteAtlas
