import RouteAtlas.Proofs.Histories
import RouteAtlas.Proofs.WatchMemory

/-!
# What a refresh tracks

A refresh goes through its paths one by one. For each it asks the watched paths that the state has
kept, and reads the file again if it is watched or tracked; files that are not named stay as they
are. This module says what is tracked afterwards under every clean path, for trees with links and
ignore files as well.
-/

open List Option

namespace RouteAtlas

open Files Source Language
open Files.Tree (pathOf)

variable {t : Tree} {place : Place}

/-! ## Trees of names -/

theorem Files.Tree.Named.isPlace_of_mem_walk (ht : t.Named) (hp : IsPlace place) {sel : Selection}
    {paths : List Path} (h : walk t (pathOf place) sel = .ok paths) {path : Path}
    (hpath : path ∈ paths) : ∃ q, IsPlace q ∧ path = pathOf q := by
  unfold walk at h
  cases hrules : includeRules (pathOf place) sel.includes with
  | error e => rw [hrules] at h; cases h
  | ok included =>
    rw [hrules] at h
    split at h
    · obtain rfl := Except.ok.inj h
      exact isPlace_of_mem_walkDir ht hp hpath
    · obtain rfl := Except.ok.inj h
      exact ⟨place, hp, mem_singleton.mp hpath⟩
    · obtain rfl := Except.ok.inj h
      exact absurd hpath not_mem_nil

theorem isPlace_of_mem_catalog (ht : t.Named) (hp : IsPlace place) {sel : Selection}
    {e : SourceEntry} (he : e ∈ (catalog t (pathOf place) sel).toOption.getD []) :
    ∃ q, IsPlace q ∧ e.path = pathOf q := by
  unfold catalog at he
  cases hwalk : walk t (pathOf place) sel with
  | error b => rw [hwalk] at he; exact absurd he not_mem_nil
  | ok paths =>
    rw [hwalk] at he
    have he' := mem_sortBy.mp he
    obtain ⟨path, hpath, hentry⟩ := mem_filterMap.mp he'
    obtain ⟨language, -, hentry⟩ := bind_eq_some_iff.mp hentry
    obtain ⟨bytes, -, hentry⟩ := bind_eq_some_iff.mp hentry
    obtain rfl := some.inj hentry
    exact ht.isPlace_of_mem_walk hp hwalk hpath

namespace Project

open Inventory Modules Watch

variable {s : Store} {t : Tree}

/-! ## Files as they are in a tree -/

/-- A sound store whose files read as they do in a tree. -/
structure Store.ReadFrom (s : Store) (t : Tree) : Prop where
  sound : s.Sound
  texts : ∀ f ∈ s.files, t.text? f.path = some f.text

theorem Store.ReadFrom.upserted (h : s.ReadFrom t) {place : Place} (hp : IsPlace place) :
    (s.upserted t (pathOf place)).ReadFrom t where
  sound := h.sound.upserted hp
  texts f hf := by
    rcases Store.mem_upserted h.sound.sorted hf with hf | ⟨hpath, htext, -⟩
    · exact h.texts f hf
    · rw [hpath, htext]

/-- **What is loaded reads as it does in the tree.** -/
theorem readFrom_load (ht : t.Named) {place : Place} (hp : IsPlace place) {resolver : Resolver}
    (hroot : resolver.root = pathOf place) (noIgnore : Bool) :
    (State.load t resolver noIgnore).store.ReadFrom t := by
  refine State.readWatched_store (motive := (Store.ReadFrom · t)) (fun e he s h => ?_)
    ⟨⟨List.Pairwise.nil, fun _ h => absurd h not_mem_nil⟩, fun _ h => absurd h not_mem_nil⟩
  rw [hroot] at he
  obtain ⟨q, hq, hpath⟩ := isPlace_of_mem_catalog ht hp he
  exact hpath ▸ h.upserted hq

theorem Store.ReadFrom.text?_eq (h : s.ReadFrom t) {q : Place} (hq : IsPlace q) {text : String}
    (htext : s.text? (pathOf q) = some text) : t.text? (pathOf q) = some text := by
  obtain ⟨f, hf, rfl⟩ := map_eq_some_iff.mp htext
  obtain ⟨hmem, hpath⟩ := (h.sound.get?_eq_some_iff hq).mp hf
  rw [← hpath]
  exact h.texts f hmem

theorem Store.Sound.isSome_of_text? (h : s.Sound) {q : Place} (hq : IsPlace q) {text : String}
    (htext : s.text? (pathOf q) = some text) : (ofPath? (pathOf q)).isSome := by
  obtain ⟨f, hf, -⟩ := map_eq_some_iff.mp htext
  obtain ⟨hmem, hpath⟩ := (h.get?_eq_some_iff hq).mp hf
  obtain ⟨language, hlanguage, -⟩ := (h.made f hmem).read
  rw [← hpath, hlanguage]
  rfl

theorem Store.contains_eq (s : Store) (path : Path) : s.contains path = (s.text? path).isSome := by
  rw [Store.contains, Store.text?, isSome_map]

/-- The digest tells texts apart. -/
def ToldApart (seen : String → Prop) : Prop :=
  ∀ a b, seen a → seen b → Digest.Blake3.ofText a = Digest.Blake3.ofText b → a = b

/-! ## States in order -/

def Operation.Clean : Operation → Prop
  | .refresh paths => ∀ path ∈ paths, ∃ q, IsPlace q ∧ path = pathOf q
  | .reload | .addCustom .. | .addImported .. | .analyze => True

namespace State

variable {place : Place}

/-- **A state in order**: its files were read from clean paths, the graph mirrors them, and all
parts of it are about one root. -/
structure InOrder (s : State) (root : Path) : Prop where
  sound : s.store.Sound
  mirrored : s.Mirrored
  storeRoot : s.store.root = root
  graphRoot : s.graph.root = root
  resolverRoot : s.resolver.root = root

theorem inOrder_load {t : Tree} (ht : t.Named) (hp : IsPlace place) {resolver : Resolver}
    (hroot : resolver.root = pathOf place) (noIgnore : Bool) :
    (load t resolver noIgnore).InOrder (pathOf place) where
  sound := (readFrom_load ht hp hroot noIgnore).sound
  mirrored := (paired_load t resolver noIgnore).mirrored
  storeRoot := (root_load t resolver noIgnore).trans hroot
  graphRoot := by
    have hgraph : (load t resolver noIgnore).graph =
        graphWith { root := resolver.root } (load t resolver noIgnore).store.files :=
      graphOf_eq resolver.root (paired_load t resolver noIgnore).sorted
    rw [hgraph]
    exact hroot
  resolverRoot := hroot

variable {s : State} {root : Path} {t : Tree}

def withExtras (s : State) (extras : List Extra) : State :=
  { s with graph := { s.graph with extras } }

theorem InOrder.withExtras (h : s.InOrder root) (extras : List Extra) :
    (s.withExtras extras).InOrder root := by
  refine ⟨h.sound, ?_, h.storeRoot, h.graphRoot, h.resolverRoot⟩
  have hgraph : s.graph = graphWith s.graph s.store.files := h.mirrored
  rw [State.withExtras, hgraph]
  rfl

theorem InOrder.paired (h : s.InOrder root) : s.Paired := ⟨h.sound.sorted, h.mirrored⟩

theorem InOrder.refreshPath (h : s.InOrder root) (t : Tree) (hp : IsPlace place) :
    (s.refreshPath t (pathOf place)).2.InOrder root := by
  rw [h.paired.refreshPath_eq]
  split
  · exact h
  · exact ⟨readAgain_store (motive := Store.Sound) (·.upserted hp) h.sound, rfl,
      readAgain_store (motive := fun store => store.root = root)
        (Store.root_upserted _ _ _).trans h.storeRoot, h.graphRoot, h.resolverRoot⟩

theorem InOrder.refreshEach (h : s.InOrder root) (t : Tree) {places : List Place}
    (hps : ∀ p ∈ places, IsPlace p) :
    (s.refreshEach t (places.map pathOf)).2.InOrder root := by
  refine refreshEach_induction (motive := (InOrder · root)) (fun path hpath s h => ?_) h
  obtain ⟨place, hplace, rfl⟩ := List.mem_map.mp hpath
  exact h.refreshPath t (hps place hplace)

theorem configChanged_refreshEach (t : Tree) (paths : List Path) :
    (s.refreshEach t paths).1.configChanged = paths.any isConfigFile := by
  have hfile : ∀ (s : State) (path : Path), (s.refreshFile t path).1.configChanged = false := by
    intro s path
    rw [refreshFile]
    split
    · rfl
    · rfl
    · rfl
    · split <;> rfl
  have hpath : ∀ (s : State) (path : Path),
      (s.refreshPath t path).1.configChanged = isConfigFile path := by
    intro s path
    unfold State.refreshPath
    cases isConfigFile path with
    | true => rfl
    | false =>
      simp only [Bool.false_eq_true, if_false]
      split
      · exact hfile _ path
      · rfl
  -- the fold adds up what the single paths note
  have hfold : ∀ (paths : List Path) (stats : RefreshStats) (s : State),
      (paths.foldl (fun out path =>
        (addStats out.1 (out.2.refreshPath t path).1, (out.2.refreshPath t path).2))
        (stats, s)).1.configChanged = (stats.configChanged || paths.any isConfigFile) := by
    intro paths
    induction paths with
    | nil => exact fun stats s => (Bool.or_false _).symm
    | cons path paths ih =>
      intro stats s
      rw [foldl_cons, ih, any_cons, addStats, hpath, Bool.or_assoc]
  exact hfold paths {} s

/-- **The resolver after a refresh** has forgotten everything if a configuration file was named, and
nothing otherwise. -/
theorem Paired.resolver_refresh (h : s.Paired) (t : Tree) (paths : List Path) :
    (s.refresh t paths).2.resolver =
      if paths.any isConfigFile then s.resolver.forget else s.resolver := by
  rw [← configChanged_refreshEach t paths, ← (h.refreshEach_keeps t paths).1, refresh]
  cases s.refreshEach t paths with
  | mk stats s' =>
    dsimp only
    split <;> rfl

theorem Paired.refresh_one (h : s.Paired) (t : Tree) {path : Path}
    (hconfig : isConfigFile path = false) :
    (s.refresh t [path]).2.store = s.readAgain t path ∧
      (s.refresh t [path]).2.graph = graphWith s.graph (s.readAgain t path).files ∧
      (s.refresh t [path]).2.resolver = s.resolver := by
  obtain ⟨hstore, hgraph⟩ := refresh_store_graph s t [path]
  have heach : (s.refreshEach t [path]).2 = (s.refreshPath t path).2 := rfl
  rw [hstore, hgraph, heach, h.refreshPath_eq, h.resolver_refresh, any_cons, hconfig]
  exact ⟨rfl, rfl, rfl⟩

theorem InOrder.refresh (h : s.InOrder root) (t : Tree) {places : List Place}
    (hps : ∀ p ∈ places, IsPlace p) : (s.refresh t (places.map pathOf)).2.InOrder root := by
  obtain ⟨hstore, hgraph⟩ := refresh_store_graph s t (places.map pathOf)
  have heach := h.refreshEach t hps
  refine ⟨hstore ▸ heach.sound, ?_, hstore ▸ heach.storeRoot, hgraph ▸ heach.graphRoot, ?_⟩
  · rw [Mirrored, hstore, hgraph]
    exact heach.mirrored
  · rw [h.paired.resolver_refresh]
    split <;> exact h.resolverRoot

theorem root_analyze (t : Tree) : (s.analyze t).2.resolver.root = s.resolver.root := by
  have htells : Resolver.Tells s.resolver (s.graph.network (Resolver.resolve? t)) _ :=
    s.graph.tells_network t
  exact (htells.grows s.resolver).root

/-- **Every operation keeps a state in order.** -/
theorem InOrder.after (hp : IsPlace place) (h : s.InOrder (pathOf place)) (ht : t.Named)
    {op : Operation} (hop : op.Clean) : (s.after t op).InOrder (pathOf place) := by
  cases op with
  | refresh paths =>
    obtain ⟨places, hplaces, rfl⟩ : ∃ places : List Place,
        (∀ p ∈ places, IsPlace p) ∧ paths = places.map pathOf := by
      have hmem : ∀ path ∈ paths, ∃ q, pathOf q = path ∧ IsPlace q := fun path hpath =>
        let ⟨q, hq, heq⟩ := hop path hpath
        ⟨q, heq.symm, hq⟩
      choose! f hf using hmem
      refine ⟨paths.map f, fun p hp => ?_, ?_⟩
      · obtain ⟨path, hpath, rfl⟩ := List.mem_map.mp hp
        exact (hf path hpath).2
      · rw [List.map_map]
        exact (List.map_id paths).symm.trans
          (map_congr_left fun path hpath => (hf path hpath).1.symm)
    exact h.refresh t hplaces
  | reload =>
    have hroot : s.resolver.forget.root = pathOf place := h.resolverRoot
    exact (inOrder_load ht hp hroot s.set.noIgnore).withExtras s.graph.extras
  | addCustom | addImported => exact h.withExtras _
  | analyze =>
    exact ⟨h.sound, h.mirrored, h.storeRoot, h.graphRoot, (root_analyze t).trans h.resolverRoot⟩

theorem InOrder.run (hp : IsPlace place) {history : List (Tree × Operation)}
    (hhistory : ∀ step ∈ history, step.1.Named ∧ step.2.Clean) :
    ∀ {s : State}, s.InOrder (pathOf place) → (s.run history).InOrder (pathOf place) := by
  induction history with
  | nil => exact fun h => h
  | cons step history ih =>
    intro s h
    obtain ⟨ht, hop⟩ := hhistory step mem_cons_self
    exact ih (fun step hstep => hhistory step (mem_cons_of_mem _ hstep)) (h.after hp ht hop)

/-! ## Refreshing one path -/

/-- The text that is tracked under a path after it was refreshed. A file that cannot be read or is
no source leaves everything as it was. -/
def settled? (s : State) (t : Tree) (path : Path) : Option String :=
  if !t.isFile path then none
  else if (t.text? path).isNone || (ofPath? path).isNone then s.store.text? path
  else if (s.set.contains t path).1 || s.store.contains path then t.text? path
  else none

/-- The digest tells the tracked texts and those of the sources of a tree apart. -/
structure Discerns (seen : String → Prop) (s : State) (t : Tree) : Prop where
  toldApart : ToldApart seen
  files : ∀ f ∈ s.store.files, seen f.text
  texts : ∀ q, IsPlace q → (ofPath? (pathOf q)).isSome →
    ∀ text, t.text? (pathOf q) = some text → seen text

variable {seen : String → Prop} {place q : Place}

theorem text?_refreshPath_of_ne (h : s.InOrder root) (hp : IsPlace place) (hq : IsPlace q)
    (hne : q ≠ place) :
    (s.refreshPath t (pathOf place)).2.store.text? (pathOf q) = s.store.text? (pathOf q) := by
  rw [h.paired.refreshPath_eq]
  split
  · rfl
  · exact readAgain_store (motive := fun store => store.text? (pathOf q) = _)
      (fun _ => h.sound.text?_upserted_of_ne hp hq hne) rfl

theorem Discerns.refreshPath (hd : Discerns seen s t) (h : s.InOrder root) (hp : IsPlace place) :
    Discerns seen (s.refreshPath t (pathOf place)).2 t := by
  refine { hd with files := ?_ }
  rw [h.paired.refreshPath_eq]
  split
  · exact hd.files
  refine readAgain_store (motive := fun store => ∀ f ∈ store.files, seen f.text) ?_ hd.files
  intro _ f hf
  rcases Store.mem_upserted h.sound.sorted hf with hold | ⟨-, htext, hsource⟩
  · exact hd.files f hold
  · exact hd.texts place hp hsource _ htext

/-- The watched paths only learn more rules while paths are refreshed. -/
theorem learns_refreshPath (h : s.InOrder root) (t : Tree) (hp : IsPlace place) :
    s.set.Learns t (s.refreshPath t (pathOf place)).2.set := by
  rw [h.paired.refreshPath_eq]
  split
  · exact .refl t s.set
  · exact ((WatchSet.Learns.refl t s.set).contains hp).2

theorem text?_upserted_eq_settled? (hd : Discerns seen s t) (h : s.InOrder root)
    (hp : IsPlace place)
    (hread : ((s.set.contains t (pathOf place)).1 || s.store.contains (pathOf place))) :
    (s.store.upserted t (pathOf place)).text? (pathOf place) = s.settled? t (pathOf place) := by
  rw [settled?]
  cases hfile : t.isFile (pathOf place) with
  | false =>
    rw [Store.upserted, Store.upsert, hfile]
    exact congrArg (Option.map _) (Store.get?_remove_self _ _)
  | true =>
    simp only [Bool.not_true, Bool.false_eq_true, if_false]
    split
    · rename_i hnone
      rw [Store.upserted_of_unread hfile (by simpa using hnone)]
    rename_i hsome
    obtain ⟨htext, hsource⟩ : (t.text? (pathOf place)).isSome ∧
        (ofPath? (pathOf place)).isSome := by
      simpa [isSome_iff_ne_none] using hsome
    refine Store.text?_upserted_self h.sound.sorted hsource (fun _ => htext) ?_
    intro old text hold hnew heq
    have hmem := ((h.sound.get?_eq_some_iff hp).mp hold).1
    exact hd.toldApart _ _ (hd.files old hmem) (hd.texts place hp hsource text hnew) heq

/-- **Refreshing a path settles it.** -/
theorem text?_refreshPath_self (hd : Discerns seen s t) (h : s.InOrder root) (hp : IsPlace place) :
    (s.refreshPath t (pathOf place)).2.store.text? (pathOf place)
      = s.settled? t (pathOf place) := by
  have hsource : ∀ text, s.store.text? (pathOf place) = some text →
      (ofPath? (pathOf place)).isSome := fun text => h.sound.isSome_of_text? hp
  rw [h.paired.refreshPath_eq]
  cases hconfig : isConfigFile (pathOf place) with
  | true =>
    -- a configuration file is no source, so nothing is tracked there
    have hnone : s.store.text? (pathOf place) = none := by
      rw [eq_none_iff_forall_ne_some]
      intro text htext
      have := hsource text htext
      rw [ofPath?_of_isConfigFile hconfig] at this
      cases this
    rw [settled?, ofPath?_of_isConfigFile hconfig]
    simp [hnone]
  | false =>
    show (s.readAgain t (pathOf place)).text? (pathOf place) = _
    rw [readAgain]
    split
    · rename_i hread
      exact text?_upserted_eq_settled? hd h hp hread
    rename_i hread
    rw [Bool.not_eq_true, Bool.or_eq_false_iff, Store.contains_eq] at hread
    have hnone : s.store.text? (pathOf place) = none := by
      simpa using hread.2
    simp only [settled?, hread.1, Store.contains_eq, hnone]
    simp

/-- What a path will be settled to stays the same while other paths are refreshed. -/
theorem settled?_refreshPath (hd : Discerns seen s t) (h : s.InOrder root) (hp : IsPlace place)
    (hq : IsPlace q) :
    (s.refreshPath t (pathOf place)).2.settled? t (pathOf q) = s.settled? t (pathOf q) := by
  have hwatched := ((learns_refreshPath h t hp).contains hq).1
  by_cases hne : q = place
  · subst hne
    have hself := text?_refreshPath_self hd h hq
    rw [settled?, Store.contains_eq, hself]
    unfold settled?
    split
    · rfl
    split
    · rfl
    rename_i hsome
    have htext : (t.text? (pathOf q)).isSome := by
      simp only [Bool.or_eq_true, not_or, isNone_iff_eq_none] at hsome
      exact isSome_iff_ne_none.mpr hsome.1
    by_cases hread : ((s.set.contains t (pathOf q)).1 || s.store.contains (pathOf q))
    · simp [hread, htext]
    · simp_all
  · simp [settled?, Store.contains_eq, text?_refreshPath_of_ne h hp hq hne, hwatched]

/-! ## Refreshing paths together -/

/-- **What a refresh tracks**: under the paths of the batch what they settle to, and what was
tracked before under all others. The order of the batch does not matter. -/
theorem text?_refreshEach {batch : List Place} (hbatch : ∀ p ∈ batch, IsPlace p)
    (hq : IsPlace q) :
    ∀ {s : State}, Discerns seen s t → s.InOrder root →
      (s.refreshEach t (batch.map pathOf)).2.store.text? (pathOf q) =
        if q ∈ batch then s.settled? t (pathOf q) else s.store.text? (pathOf q) := by
  simp only [refreshEach_snd]
  induction batch with
  | nil => exact fun _ _ => rfl
  | cons place batch ih =>
    intro s hd h
    have hp := hbatch place mem_cons_self
    rw [map_cons, foldl_cons,
      ih (fun p hp => hbatch p (mem_cons_of_mem _ hp)) (hd.refreshPath h hp) (h.refreshPath t hp),
      settled?_refreshPath hd h hp hq]
    by_cases hmem : q ∈ batch
    · rw [if_pos hmem, if_pos (mem_cons_of_mem _ hmem)]
    rw [if_neg hmem]
    by_cases hqp : q = place
    · rw [if_pos (hqp ▸ mem_cons_self), hqp]
      exact text?_refreshPath_self hd h hp
    · rw [if_neg (by simp [hqp, hmem])]
      exact text?_refreshPath_of_ne h hp hq hqp

theorem text?_refresh (hd : Discerns seen s t) (h : s.InOrder root) {batch : List Place}
    (hbatch : ∀ p ∈ batch, IsPlace p) (hq : IsPlace q) :
    (s.refresh t (batch.map pathOf)).2.store.text? (pathOf q) =
      if q ∈ batch then s.settled? t (pathOf q) else s.store.text? (pathOf q) := by
  rw [(refresh_store_graph s t _).1]
  exact text?_refreshEach hbatch hq hd h

/-! ## States that track the same files -/

variable {s' : State}

def tracked (s : State) : List File := s.store.files.map File.unversioned

/-- The same files are tracked exactly if the same text is tracked under every clean path. -/
theorem tracked_eq_iff (h : s.InOrder root) (h' : s'.InOrder root) :
    s.tracked = s'.tracked ↔ ∀ q, IsPlace q →
      s.store.text? (pathOf q) = s'.store.text? (pathOf q) := by
  refine ⟨fun heq q _ => ?_, fun htext => ?_⟩
  · have htext : ∀ s : State, s.store.text? (pathOf q) =
        (s.tracked.find? (·.path.same (pathOf q))).map (·.text) := by
      intro s
      rw [tracked, find?_map, Option.map_map]
      rfl
    rw [htext, htext, heq]
  · exact h.sound.unversioned_eq h'.sound (h'.storeRoot.trans h.storeRoot.symm) htext

theorem unversioned_graphWith (g : Graph) (files : List File) :
    (graphWith g files).unversioned = graphWith g (files.map File.unversioned) := by
  simp only [Graph.unversioned, graphWith, List.map_map]
  congr 2
  funext f
  exact (contributionOf_unversioned f).symm

theorem unversioned_graph (h : s.InOrder root) :
    s.graph.unversioned = graphWith { root, extras := s.graph.extras } s.tracked := by
  have hgraph : s.graph = graphWith s.graph s.store.files := h.mirrored
  rw [hgraph, unversioned_graphWith, ← h.graphRoot]
  rfl

theorem analyze_graph_eq (h : s.InOrder root) (h' : s'.InOrder root)
    (htracked : s.tracked = s'.tracked) (hextras : s.graph.extras = s'.graph.extras) (t : Tree) :
    s.graph.analyze (Resolver.resolve? t) = s'.graph.analyze (Resolver.resolve? t) := by
  rw [← s.graph.analyze_unversioned, ← s'.graph.analyze_unversioned, unversioned_graph h,
    unversioned_graph h', htracked, hextras]

end State

end Project

end RouteAtlas
