import RouteAtlas.Proofs.Incremental

/-!
# Coherence of the tracked files and the route graph

After every history of a state the graph holds the contribution of each tracked file and of no
other, and a refresh leaves both alone for a path that it cannot read. So a tracked file that can no
longer be read stays in the inventory, where a state that is loaded anew leaves it out.
-/

namespace RouteAtlas.Project

open Files Source Inventory Modules

/-- **The route graph and the tracked files are coherent after every history**, whatever the
operations find on disk. A refresh leaves both as they are for a path if reading fails for all that
it names as this path. -/
theorem run_coherent (t₀ : Tree) (resolver : Resolver) (noIgnore : Bool)
    (history : List (Tree × Operation)) :
    let s := (State.load t₀ resolver noIgnore).run history
    s.Coherent ∧
    ∀ t paths path, (∀ p ∈ paths, p.same path = true → ∃ e, s.store.upsert t p = .error e) →
      (s.refresh t paths).2.store.get? path = s.store.get? path ∧
        (s.refresh t paths).2.graph.contribution? path = s.graph.contribution? path := by
  intro s
  have h : s.Paired := (State.paired_load t₀ resolver noIgnore).run history
  exact ⟨h.coherent, fun t paths path hfail => h.refresh_unchanged hfail⟩

open Replaced in
/-- A tracked source that is replaced by a file that is no text keeps its contribution. -/
theorem run_coherent_overwritten :
    (∀ p ∈ [Tree.pathOf source], p.same (Tree.pathOf source) = true →
      ∃ e, monitor.state.store.upsert overwritten p = .error e) ∧
    monitor.state.Coherent ∧
    (monitor.state.store.get? (Tree.pathOf source)).isSome ∧
    (monitor.state.after overwritten (.refresh [Tree.pathOf source])).graph.contribution?
      (Tree.pathOf source) = monitor.state.graph.contribution? (Tree.pathOf source) := by
  have hfail : ∀ p ∈ [Tree.pathOf source], p.same (Tree.pathOf source) = true →
      ∃ e, monitor.state.store.upsert overwritten p = .error e := by
    intro p hp _
    rw [List.mem_singleton.mp hp, Store.upsert_eq_error_iff]
    decide
  obtain ⟨hcoherent, hrefresh⟩ := run_coherent tree { root := Tree.pathOf ["p"] } false []
  exact ⟨hfail, hcoherent, by decide +kernel, (hrefresh overwritten _ _ hfail).2⟩

/-! ## Files that can no longer be read -/

namespace State

variable {s : State}

/-- A tracked file stays as it is exactly if it cannot be read or the digest is the one that is
tracked. -/
theorem Paired.mem_refresh_iff (h : s.Paired) {f : File} (hf : f ∈ s.store.files)
    (hsource : (Language.ofPath? f.path).isSome) (u : Tree) :
    f ∈ (s.refresh u [f.path]).2.store.files ↔ Unreadable u f.path ∨
      ∃ text, u.text? f.path = some text ∧ f.hash = Digest.Blake3.ofText text := by
  have hself : f.path.same f.path := beq_self_eq_true _
  have hget : s.store.get? f.path = some f := (Store.find?_eq_some_iff h.sorted).mpr ⟨hf, hself⟩
  have hcontains : s.store.contains f.path := by rw [Store.contains, hget]; rfl
  rw [(h.refresh_one u (isConfigFile_eq_false hsource)).1, readAgain, hcontains, Bool.or_true]
  generalize hs' : s.store.upserted u f.path = store
  have hread := hs' ▸ Store.reread_upserted s.store u f.path
  cases hread with
  | gone hfile =>
    refine iff_of_false (fun hmem => ?_) ?_
    · simpa [hself] using (List.mem_filter.mp hmem).2
    · rintro (⟨hfile', -⟩ | ⟨text, htext, -⟩)
      · cases hfile.symm.trans hfile'
      · cases hfile.symm.trans (Store.isFile_of_text? htext)
  | kept hfile hnone =>
    rcases hnone with hnone | hnone
    · exact iff_of_true hf (.inl ⟨hfile, hnone⟩)
    · rw [hnone] at hsource
      cases hsource
  | unchanged htext hold hhash =>
    exact iff_of_true hf (.inr ⟨_, htext, Option.some.inj (hold.symm.trans hget) ▸ hhash⟩)
  | updated version htext _ hnew =>
    refine iff_of_false (fun hmem => ?_) ?_
    · rcases (Store.mem_putFile h.sorted).mp hmem with heq | ⟨-, hother⟩
      · have hhash := congrArg File.hash heq
        exact hnew f hget hhash
      · cases hother.symm.trans hself
    · rintro (⟨-, hnone⟩ | ⟨text, htext', hhash⟩)
      · cases htext.symm.trans hnone
      · exact hnew f hget (Option.some.inj (htext'.symm.trans htext) ▸ hhash)

theorem Paired.analyze_refresh_unread (h : s.Paired) {path : Path}
    (hsource : (Language.ofPath? path).isSome) {u : Tree} (hunread : Unreadable u path) (v : Tree) :
    ((s.refresh u [path]).2.analyze v).1 = (s.analyze v).1 := by
  obtain ⟨-, hgraph, hresolver⟩ := h.refresh_one u (isConfigFile_eq_false hsource)
  have hstore : s.readAgain u path = s.store := readAgain_store (motive := (· = s.store))
    (fun _ => Store.upserted_of_unread hunread.1 (.inl hunread.2)) rfl
  rw [hstore] at hgraph
  rw [State.analyze, hresolver, hgraph.trans h.mirrored.symm]
  rfl

end State

/-- **A tracked file that can no longer be read keeps its part of the inventory.** After every
history, a refresh leaves a tracked file as it is exactly if a file is there that cannot be read or
that has the tracked digest. In the first case the inventory stays the same, while a state that is
loaded anew has no contribution of the file. -/
theorem refresh_keeps_unread (t₀ : Tree) (resolver : Resolver) (noIgnore : Bool)
    (history : List (Tree × Operation)) :
    let s := (State.load t₀ resolver noIgnore).run history
    ∀ f ∈ s.store.files, ∀ u : Tree,
      (f ∈ (s.refresh u [f.path]).2.store.files ↔ Unreadable u f.path ∨
        ∃ text, u.text? f.path = some text ∧ f.hash = Digest.Blake3.ofText text) ∧
      (Unreadable u f.path → (∀ v, ((s.refresh u [f.path]).2.analyze v).1 = (s.analyze v).1) ∧
        ∀ resolver noIgnore, ∀ c ∈ (State.load u resolver noIgnore).graph.contributions,
          c.file ≠ f.path) := by
  intro s f hf u
  have hload := State.paired_load t₀ resolver noIgnore
  have h : s.Paired := hload.run history
  have hsource : (Language.ofPath? f.path).isSome :=
    hload.source_of_mem_run (fun f hf => (State.read_of_mem_load hf).2) history f hf
  refine ⟨h.mem_refresh_iff hf hsource u, fun hunread =>
    ⟨h.analyze_refresh_unread hsource hunread, fun resolver noIgnore c hc hpath => ?_⟩⟩
  -- what a loaded state contributes was read
  have hmem := List.mem_map_of_mem (f := (·.file)) hc
  rw [(State.paired_load u resolver noIgnore).coherent.files_eq] at hmem
  obtain ⟨g, hg, hfile⟩ := List.mem_map.mp hmem
  have htext := (State.read_of_mem_load hg).1
  rw [hfile, hpath, hunread.2] at htext
  cases htext

open Replaced in
/-- The source of a project that is replaced by a file that is no text. -/
theorem refresh_keeps_unread_overwritten :
    ∃ f ∈ monitor.state.store.files, Unreadable overwritten f.path ∧
      f ∈ (monitor.state.refresh overwritten [f.path]).2.store.files ∧
      ∀ c ∈ (State.load overwritten { root := Tree.pathOf ["p"] } false).graph.contributions,
        c.file ≠ f.path := by
  obtain ⟨f, hf, hunread⟩ : ∃ f ∈ monitor.state.store.files, Unreadable overwritten f.path := by
    decide +kernel
  obtain ⟨hiff, hkeeps⟩ :=
    refresh_keeps_unread tree { root := Tree.pathOf ["p"] } false [] f hf overwritten
  exact ⟨f, hf, hunread, hiff.mpr (.inl hunread), (hkeeps hunread).2 _ _⟩

open Replaced in
/-- The route of the source is still listed, while a new state finds none. -/
theorem route_of_overwritten :
    (monitor.state.store.text? (Tree.pathOf source)).isSome ∧
    Unreadable overwritten (Tree.pathOf source) ∧
    (((monitor.state.refresh overwritten [Tree.pathOf source]).2.analyze
      overwritten).1.resources.map fun r => (r.method, r.path)) = [("GET", "/x")] ∧
    ((State.load overwritten { root := Tree.pathOf ["p"] } false).analyze
      overwritten).1.resources = [] := by
  decide +kernel

end RouteAtlas.Project
