import RouteAtlas.Proofs.TrackedFiles

/-!
# Histories of a state

A state keeps each tracked file twice: its text in the store and its contribution in the graph. The
two are changed by separate steps, so it has to be shown that no operation changes only one of them,
in whatever way the files on disk change between the operations.
-/

namespace RouteAtlas.Project

open Files Source Inventory Modules Store Language

/-- What can be asked of a state. -/
inductive Operation where
  | refresh (paths : List Path)
  | reload
  | addCustom (method path handlerText : String)
  | addImported (method path : String)
  | analyze

namespace State

def after (s : State) (t : Tree) : Operation → State
  | .refresh paths => (s.refresh t paths).2
  | .reload => s.reload t
  | .addCustom method path handlerText =>
    { s with graph := s.graph.addCustom method path handlerText }
  | .addImported method path => { s with graph := s.graph.addImported method path }
  | .analyze => (s.analyze t).2

/-- The state after a history of operations. The tree may be another one each time. -/
def run (s : State) (history : List (Tree × Operation)) : State :=
  history.foldl (fun s step => s.after step.1 step.2) s

/-- **The graph and the tracked files are coherent.** -/
structure Coherent (s : State) : Prop where
  /-- The files of the contributions are the tracked files. -/
  files_eq : s.graph.contributions.map (·.file) = s.store.paths
  distinct : s.store.paths.Pairwise fun p q => p.same q = false
  /-- Every contribution is the one of the tracked file, in the version that is tracked. -/
  contribution?_eq : ∀ path, s.graph.contribution? path = (s.store.get? path).map contributionOf

variable {s : State}

theorem Paired.coherent (h : s.Paired) : s.Coherent := by
  have hgraph : s.graph.contributions = s.store.files.map contributionOf :=
    congrArg Graph.contributions h.mirrored
  constructor
  · rw [hgraph, List.map_map]
    rfl
  · exact List.pairwise_map.mpr (h.sorted.imp same_of_compare_lt)
  · intro path
    rw [Graph.contribution?, hgraph, List.find?_map]
    rfl

/-! ## One operation -/

theorem paired_load (t : Tree) (resolver : Resolver) (noIgnore : Bool) :
    (load t resolver noIgnore).Paired := by
  have hs : Store.Sorted (load t resolver noIgnore).store.files :=
    readWatched_store (motive := fun s => Store.Sorted s.files)
      (fun e _ s hs => sorted_upserted hs t e.path) List.Pairwise.nil
  have hgraph : (load t resolver noIgnore).graph =
      graphWith { root := resolver.root } (load t resolver noIgnore).store.files :=
    graphOf_eq resolver.root hs
  exact ⟨hs, by rw [Mirrored, hgraph]; rfl⟩

theorem refresh_store_graph (s : State) (t : Tree) (paths : List Path) :
    (s.refresh t paths).2.store = (s.refreshEach t paths).2.store ∧
      (s.refresh t paths).2.graph = (s.refreshEach t paths).2.graph := by
  rw [refresh]
  cases s.refreshEach t paths with
  | mk stats s' =>
    dsimp only
    split <;> exact ⟨rfl, rfl⟩

theorem Paired.of_eq {s' : State} (h : s.Paired) (hstore : s'.store = s.store)
    (hgraph : s'.graph.contributions = s.graph.contributions) : s'.Paired := by
  have hcontributions : s.graph.contributions = s.store.files.map contributionOf :=
    congrArg Graph.contributions h.mirrored
  refine ⟨hstore ▸ h.sorted, ?_⟩
  rw [Mirrored, graphWith, hstore, ← hcontributions, ← hgraph]

/-- **Every operation keeps the graph and the store together.** -/
theorem Paired.after (h : s.Paired) (t : Tree) (op : Operation) : (s.after t op).Paired := by
  cases op with
  | refresh paths =>
    obtain ⟨hstore, hgraph⟩ := refresh_store_graph s t paths
    have heach : (s.refreshEach t paths).2.Paired :=
      refreshEach_induction (fun path _ s hs => hs.refreshPath t path) h
    exact heach.of_eq hstore (congrArg Graph.contributions hgraph)
  | reload => exact (paired_load t s.resolver.forget s.set.noIgnore).of_eq rfl rfl
  | addCustom | addImported | analyze => exact h.of_eq rfl rfl

theorem Paired.run (h : s.Paired) (history : List (Tree × Operation)) : (s.run history).Paired := by
  induction history generalizing s with
  | nil => exact h
  | cons step history ih => exact ih (h.after step.1 step.2)

/-! ## What a refresh leaves alone -/

/-- A refresh leaves what the resolver knows and the further resources alone, apart from a change of
the configuration. -/
theorem Paired.refreshEach_keeps (h : s.Paired) (t : Tree) (paths : List Path) :
    (s.refreshEach t paths).2.resolver = s.resolver ∧
      (s.refreshEach t paths).2.graph.extras = s.graph.extras := by
  refine (refreshEach_induction (motive := fun s' => s'.Paired ∧ s'.resolver = s.resolver ∧
    s'.graph.extras = s.graph.extras) (fun path _ s' hs => ⟨hs.1.refreshPath t path, ?_⟩)
    ⟨h, rfl, rfl⟩).2
  rw [hs.1.refreshPath_eq]
  split <;> exact hs.2

theorem Paired.refresh_store {t : Tree} {paths : List Path} {motive : Store → Prop} (h : s.Paired)
    (hread : ∀ path ∈ paths, ∀ store : Store, Store.Sorted store.files → motive store →
      motive (store.upserted t path)) (hs : motive s.store) :
    motive (s.refresh t paths).2.store := by
  rw [(refresh_store_graph s t paths).1]
  refine (refreshEach_induction (motive := fun s => s.Paired ∧ motive s.store)
    (fun path hpath s hs => ⟨hs.1.refreshPath t path, ?_⟩) ⟨h, hs⟩).2
  rw [hs.1.refreshPath_eq]
  split
  · exact hs.2
  · exact readAgain_store (hread path hpath s.store hs.1.sorted) hs.2

/-- **A refresh leaves the store and the graph alone for a path that it cannot read.** -/
theorem Paired.refresh_unchanged {t : Tree} {paths : List Path} {path : Path} (h : s.Paired)
    (hfail : ∀ p ∈ paths, p.same path → ∃ e, s.store.upsert t p = .error e) :
    (s.refresh t paths).2.store.get? path = s.store.get? path ∧
      (s.refresh t paths).2.graph.contribution? path = s.graph.contribution? path := by
  simp only [upsert_eq_error_iff] at hfail
  have hget : (s.refresh t paths).2.store.get? path = s.store.get? path := by
    refine h.refresh_store (motive := fun store => store.get? path = s.store.get? path)
      (fun p hp store hsorted hstore => ?_) rfl
    cases hsame : p.same path with
    | false => exact (get?_upserted_of_not_same hsorted hsame).trans hstore
    | true =>
      obtain ⟨hfile, hnone⟩ := hfail p hp hsame
      rw [upserted_of_unread hfile hnone]
      exact hstore
  have hafter : (s.refresh t paths).2.Paired := h.after t (.refresh paths)
  refine ⟨hget, ?_⟩
  rw [hafter.coherent.contribution?_eq, hget, h.coherent.contribution?_eq]

/-! ## Which files are tracked -/

theorem read_of_mem_load {t : Tree} {resolver : Resolver} {noIgnore : Bool} {f : File}
    (hf : f ∈ (load t resolver noIgnore).store.files) :
    t.text? f.path = some f.text ∧ (ofPath? f.path).isSome := by
  refine (readWatched_store (motive := fun store => Store.Sorted store.files ∧ ∀ f ∈ store.files,
    t.text? f.path = some f.text ∧ (ofPath? f.path).isSome) (fun e _ store h => ?_)
    ⟨by exact .nil, by simp⟩).2 f hf
  refine ⟨sorted_upserted h.1 t e.path, fun f hf => ?_⟩
  rcases mem_upserted h.1 hf with hf | ⟨hpath, hread⟩
  · exact h.2 f hf
  · exact hpath ▸ hread

theorem Paired.source_of_mem_run (h : s.Paired)
    (hs : ∀ f ∈ s.store.files, (ofPath? f.path).isSome) (history : List (Tree × Operation)) :
    ∀ f ∈ (s.run history).store.files, (ofPath? f.path).isSome := by
  induction history generalizing s with
  | nil => exact hs
  | cons step history ih =>
    obtain ⟨t, op⟩ := step
    refine ih (h.after t op) ?_
    cases op with
    | refresh paths =>
      refine h.refresh_store (motive := fun store => ∀ f ∈ store.files,
        (ofPath? f.path).isSome) (fun path _ store hsorted hstore f hf => ?_) hs
      rcases mem_upserted hsorted hf with hf | ⟨hpath, -, hsource⟩
      · exact hstore f hf
      · exact hpath ▸ hsource
    | reload => exact fun f hf => (read_of_mem_load hf).2
    | addCustom | addImported | analyze => exact hs

end State

end RouteAtlas.Project
