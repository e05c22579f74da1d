import RouteAtlas.Proofs.Incremental

/-!
# Files under two spellings

Paths are compared by their components, so `src/../src/a.ts` and `src/a.ts` are two paths, and a
refresh does not clean the paths that it is given. A file is tracked once as long as all paths are
clean; it is tracked twice from the moment that a path is refreshed that spells a tracked file anew.
-/

namespace RouteAtlas.Project

open Files Source Inventory Modules Watch RouteAtlas.Path Store

namespace Store

variable {s : Store} {f : File}

/-- No two tracked files have the same clean path. -/
def Once (s : Store) : Prop :=
  ∀ f ∈ s.files, ∀ g ∈ s.files, f.path.clean.same g.path.clean → f = g

theorem Once.put (h : s.Once) (hs : Sorted s.files)
    (hother : ∀ g ∈ s.files, g.path.clean.same f.path.clean → f.path.same g.path) :
    (s.put f).Once := by
  intro a ha b hb hsame
  rcases (mem_putFile hs).mp ha with rfl | ⟨hold, hna⟩ <;>
    rcases (mem_putFile hs).mp hb with rfl | ⟨hold', hnb⟩
  · rfl
  · cases hnb.symm.trans (hother b hold' (by rwa [same_comm]))
  · cases hna.symm.trans (hother a hold hsame)
  · exact h a hold b hold' hsame

theorem once_of_isClean (hs : Sorted s.files) (h : ∀ f ∈ s.files, f.path.IsClean) : s.Once := by
  intro f hf g hg hsame
  have hclean := h f hf
  have hclean' := h g hg
  rw [Path.IsClean, same, beq_iff_eq] at hclean hclean'
  have hpath : f.path.same g.path := by rwa [same, ← hclean, ← hclean']
  have hself : g.path.same g.path := beq_self_eq_true _
  exact Option.some.inj (((find?_eq_some_iff hs).mpr ⟨hf, hpath⟩).symm.trans
    ((find?_eq_some_iff hs).mpr ⟨hg, hself⟩))

end Store

/-! ## One path -/

namespace State

variable {s : State}

/-- A watched source that can be read and spells a tracked file in another way. -/
structure Respelled (s : State) (t : Tree) (path : Path) : Prop where
  watched : (s.set.contains t path).1
  source : (Language.ofPath? path).isSome
  read : (t.text? path).isSome
  tracked : ∃ f ∈ s.store.files, f.path.clean.same path.clean ∧ path.same f.path = false

/-- **Refreshing one path** leads to a second spelling of a file exactly if it is one. -/
theorem Paired.once_refresh_iff (h : s.Paired) (hs : s.store.Once) (t : Tree) (path : Path) :
    (s.refresh t [path]).2.store.Once ↔ ¬ s.Respelled t path := by
  have hclean : ∀ {p q : Path}, p.same q → p.clean = q.clean := fun hsame =>
    congrArg (fun cs => ofComponents (cleanComponents cs)) (beq_iff_eq.mp hsame)
  constructor
  · rintro honce ⟨hwatched, hsource, hread, f, hf, hsame, hother⟩
    rw [(h.refresh_one t (isConfigFile_eq_false hsource)).1, readAgain, hwatched] at honce
    -- both spellings are tracked now
    have hsorted := sorted_upserted h.sorted t path
    obtain ⟨text, htext⟩ :=
      Option.isSome_iff_exists.mp (isSome_text?_upserted_self h.sorted hsource hread)
    obtain ⟨g, hget, -⟩ := Option.map_eq_some_iff.mp htext
    obtain ⟨hg, hpath⟩ := (find?_eq_some_iff hsorted).mp hget
    have hself : f.path.same f.path := beq_self_eq_true _
    have hkept := get?_upserted_of_not_same (t := t) h.sorted hother
    rw [show s.store.get? f.path = some f from (find?_eq_some_iff h.sorted).mpr ⟨hf, hself⟩]
      at hkept
    rw [← hclean hpath] at hsame
    rw [honce f ((find?_eq_some_iff hsorted).mp hkept).1 g hg hsame, same_comm, hpath] at hother
    cases hother
  · intro hnot
    rw [(refresh_store_graph s t [path]).1,
      show (s.refreshEach t [path]).2 = (s.refreshPath t path).2 from rfl, h.refreshPath_eq]
    split
    · exact hs
    rw [readAgain]
    split
    · rename_i hread
      generalize hs' : s.store.upserted t path = store
      have hreread := hs' ▸ reread_upserted s.store t path
      cases hreread with
      | gone => exact fun f hf g hg => hs f (List.mem_filter.mp hf).1 g (List.mem_filter.mp hg).1
      | kept | unchanged => exact hs
      | updated version htext hlanguage =>
        refine hs.put h.sorted fun g hg hsame => ?_
        rcases Bool.or_eq_true_iff.mp hread with hwatched | htracked
        · by_contra hother
          rw [Bool.not_eq_true] at hother
          exact hnot ⟨hwatched, by rw [hlanguage]; rfl, by rw [htext]; rfl, g, hg, hsame, hother⟩
        · obtain ⟨old, hold⟩ := Option.isSome_iff_exists.mp htracked
          obtain ⟨hold, hpath⟩ := (find?_eq_some_iff h.sorted).mp hold
          rw [hs g hg old hold (by rwa [hclean hpath]), same_comm]
          exact hpath
    · exact hs

end State

/-! ## Calls of a monitor -/

/-- The monitor after some calls, each with the tree that it finds on disk. -/
def Monitor.refreshAll (m : Monitor) (calls : List (Tree × List Path)) : Monitor :=
  calls.foldl (fun m call => (m.refreshPaths call.1 call.2).2) m

theorem refreshAll_keeps {m : Monitor} (h : m.state.Paired) (calls : List (Tree × List Path)) :
    (m.refreshAll calls).state.Paired ∧
    ((∀ call ∈ calls, ∀ p ∈ call.2, (m.root.join p.text).IsClean) →
      (∀ f ∈ m.state.store.files, f.path.IsClean) →
      ∀ f ∈ (m.refreshAll calls).state.store.files, f.path.IsClean) := by
  induction calls generalizing m with
  | nil => exact ⟨h, fun _ hs => hs⟩
  | cons call calls ih =>
    obtain ⟨t, paths⟩ := call
    have hroot : (m.refreshPaths t paths).2.root = m.root :=
      h.refresh_store (motive := fun store => store.root = m.root)
        (fun path _ store _ => (root_upserted store t path).trans) rfl
    obtain ⟨hpaired, hkeeps⟩ := ih (m := (m.refreshPaths t paths).2) (h.after t (.refresh _))
    refine ⟨hpaired, fun hcalls hs => ?_⟩
    obtain ⟨hfirst, hrest⟩ := List.forall_mem_cons.mp hcalls
    refine hkeeps (hroot ▸ hrest) ?_
    refine h.refresh_store (motive := fun store => ∀ f ∈ store.files, f.path.IsClean)
      (fun path hpath store hsorted hstore f hf => ?_) hs
    obtain ⟨p, hp, rfl⟩ := List.mem_map.mp hpath
    rcases mem_upserted hsorted hf with hf | ⟨hjoin, -⟩
    · exact hstore f hf
    · exact hjoin ▸ hfirst p hp

theorem Store.Sound.isClean {s : Store} (h : s.Sound) : ∀ f ∈ s.files, f.path.IsClean := by
  intro f hf
  obtain ⟨place, hp, hpath⟩ := (h.made f hf).clean
  rw [hpath, Path.IsClean, clean_pathOf hp, same, beq_self_eq_true]

/-- **Each file is tracked once** and contributes once after every list of calls with clean paths.
From a state in which this holds, refreshing one more path leads to a file that is tracked twice
exactly if the path spells a tracked file in another way and is watched and read. -/
theorem tracked_once {t₀ : Tree} {root : Path} {noIgnore : Bool} {m : Monitor} (ht : t₀.Named)
    (hm : Monitor.setUp t₀ root noIgnore = .ok m) (calls : List (Tree × List Path)) :
    let s := (m.refreshAll calls).state
    s.graph.contributions.map (·.file) = s.store.paths ∧
    ((∀ call ∈ calls, ∀ p ∈ call.2, (m.root.join p.text).IsClean) → s.store.Once) ∧
    (s.store.Once → ∀ t p, ((m.refreshAll calls).refreshPaths t [p]).2.state.store.Once ↔
      ¬ s.Respelled t (s.root.join p.text)) := by
  obtain ⟨place, -, hdir, hstate⟩ := setUp_eq_ok_iff.mp hm
  have hload : m.state.InOrder (Tree.pathOf place) :=
    hstate ▸ State.inOrder_load ht (ht.isPlace (Tree.isDirAt_iff.mp hdir)) rfl noIgnore
  obtain ⟨h, hclean⟩ := refreshAll_keeps hload.paired calls
  exact ⟨h.coherent.files_eq, fun hcalls =>
    once_of_isClean h.sorted (hclean hcalls hload.sound.isClean),
    fun hs t p => h.once_refresh_iff hs t _⟩

open Replaced in
/-- A source that is refreshed under its clean path. -/
theorem tracked_once_replaced :
    tree.Named ∧ Monitor.setUp tree ⟨"/p"⟩ false = .ok monitor ∧
    (monitor.root.join "src/./a.ts").IsClean ∧
    (monitor.refreshAll [(overwritten, [⟨"src/./a.ts"⟩])]).state.store.Once := by
  have hclean : (monitor.root.join "src/./a.ts").IsClean := by
    rw [show monitor.root = Tree.pathOf ["p"] from State.root_load _ _ _, Path.IsClean]
    decide
  exact ⟨tree_plain.named, setUp_tree, hclean,
    (tracked_once tree_plain.named setUp_tree _).2.1 (by simpa using hclean)⟩

open Replaced in
/-- **A file that is tracked twice**: the source of a project, refreshed under another spelling. -/
theorem tracked_twice :
    Monitor.setUp tree ⟨"/p"⟩ false = .ok monitor ∧ monitor.state.store.Once ∧
    ¬ (monitor.refreshPaths tree [⟨"src/../src/a.ts"⟩]).2.state.store.Once := by
  have hpaired : monitor.state.Paired := State.paired_load _ _ _
  have hs : monitor.state.store.Once := once_of_isClean hpaired.sorted (by decide +kernel)
  have hrespelled : monitor.state.Respelled tree (monitor.root.join "src/../src/a.ts") :=
    ⟨by decide +kernel, by decide +kernel, by decide +kernel, by decide +kernel⟩
  exact ⟨setUp_tree, hs, fun honce => (hpaired.once_refresh_iff hs tree _).mp honce hrespelled⟩

end RouteAtlas.Project
