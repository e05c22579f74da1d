import RouteAtlas.Proofs.PlacedSources
import RouteAtlas.Proofs.StoredRouters
import RouteAtlas.Proofs.TrackedFiles

/-!
# Keys of routers

A router is known by its file and by an offset: where its declarator starts, or the construction if
it has no declarator. Declarators and constructions begin with something of their own, so no two of
them start at one place, and a declarator makes a router in one of two passes but never in both. So
the keys of a file are distinct, and linking the files of a project by keys loses no router.
-/

open List Option

namespace RouteAtlas

/-! ## Starts of nodes -/

/-- **Nodes with a head start one behind another.** -/
theorem Source.Node.starts_increase {text : List Char} {n : Node} (hplaced : n.Placed)
    (hformed : ∀ m ∈ n.nodes, m.Formed text) (above : List Node) :
    ((n.sitesBelow above).filter (·.node.kindIs Kind.hasHead)).Pairwise
      (·.node.start < ·.node.start) := by
  induction n using children_induction generalizing above with
  | step n ih =>
    have hbelow : ∀ c ∈ n.named, c.Placed ∧ ∀ m ∈ c.nodes, m.Formed text := by
      intro c hc
      have hmem := mem_nodes_of_named hc
      exact ⟨(hplaced.range_of_mem hmem).1, fun m hm => hformed m (mem_nodes_trans hmem hm)⟩
    have hrest : ((n.named.flatMap (·.sitesBelow (n :: above))).filter
        (·.node.kindIs Kind.hasHead)).Pairwise (·.node.start < ·.node.start) := by
      rw [filter_flatMap, pairwise_flatMap]
      refine ⟨fun c hc => ih c (mem_children_of_named hc) (hbelow c hc).1 (hbelow c hc).2 _, ?_⟩
      refine (hplaced.ordered.sublist filter_sublist).imp_of_mem fun {c d} hc hd hcd s hs t ht => ?_
      obtain ⟨hs, hhead⟩ := mem_filter.mp hs
      have hs := node_mem_nodes_of_mem_sitesBelow hs
      have ht := node_mem_nodes_of_mem_sitesBelow (mem_filter.mp ht).1
      have hlt := (((hbelow c hc).2 _ hs).1 hhead).1.start_lt_stop
      have hle := ((hbelow c hc).1.range_of_mem hs).2.2
      have hge := ((hbelow d hd).1.range_of_mem ht).2.1
      omega
    rw [sitesBelow_eq, filter_cons]
    split
    · rename_i hhead
      refine pairwise_cons.mpr ⟨fun s hs => ?_, hrest⟩
      obtain ⟨hs, hinner⟩ := mem_filter.mp hs
      obtain ⟨c, hc, hs⟩ := mem_flatMap.mp hs
      refine (((hformed n n.self_mem_nodes).1 hhead).2 s.node ?_ hinner)
      rw [nodesOfAll_eq]
      exact mem_flatMap.mpr ⟨c, mem_children_of_named hc, node_mem_nodes_of_mem_sitesBelow hs⟩
    · exact hrest

/-- The tree of the file is placed, and its nodes are formed. -/
def Source.File.WellFormed (f : File) : Prop :=
  f.tree.Placed ∧ ∀ m ∈ f.tree.nodes, m.Formed f.text.toList

namespace Inventory

open Source Reading Findings

/-! ## Offsets of routers -/

def Findings.offsets (x : Findings) : List Nat := x.routers.map (·.key.offset)

variable {x y : Findings} {r : Reading}

theorem offsets_foldl {α : Type} (step : Findings → α → Findings) (start : α → Nat) (p : α → Bool)
    (as : List α) (hstep : ∀ x, ∀ a ∈ as, (step x a).offsets = x.offsets ∨
      p a ∧ (step x a).offsets = x.offsets ++ [start a]) (x : Findings) :
    (as.foldl step x).offsets <+ x.offsets ++ (as.filter p).map start := by
  induction as generalizing x with
  | nil => exact sublist_append_left _ _
  | cons a as ih =>
    refine (ih (fun x a ha => hstep x a (mem_cons_of_mem _ ha)) (step x a)).trans ?_
    rw [filter_cons]
    rcases hstep x a mem_cons_self with h | ⟨hp, h⟩
    · rw [h]
      split
      · exact (sublist_cons_self _ _).append_left _
      · exact Sublist.refl _
    · rw [h, if_pos hp, append_assoc]
      exact Sublist.refl _

theorem Findings.Grows.offsets {d : Option Site} {offset : Nat} (h : x.Grows r d offset y) :
    y.offsets = x.offsets ∨ y.offsets = x.offsets ++ [d.elim offset (·.node.start)] := by
  unfold Findings.offsets
  cases h with
  | kept hrouters => exact .inl (by rw [hrouters])
  | made t base _ hkey hrouters => exact .inr (by rw [hrouters, map_append, map_singleton, hkey])
  | taken _ _ _ _ _ _ _ _ hrouters => exact .inl (by rw [hrouters])

namespace Reading

theorem start_of_constructionAt? {s : Site} {c : Construction} (h : r.constructionAt? s = some c) :
    s.node.kindIs Kind.hasHead ∧
      c.declarator.elim c.expression.node.start (·.node.start) = s.node.start := by
  unfold constructionAt? at h
  split at h
  · rename_i hs
    obtain ⟨value, -, h⟩ := bind_eq_some_iff.mp h
    obtain ⟨-, -, h⟩ := bind_eq_some_iff.mp h
    cases h
    exact ⟨by rw [Node.kindIs_of_is hs]; rfl, rfl⟩
  · split at h
    · rename_i hs
      cases h
      exact ⟨by rw [Node.kindIs_of_is (Bool.and_eq_true_iff.mp hs).1]; rfl, rfl⟩
    · cases h

/-- A declarator with a construction makes no further router. -/
theorem routers_withAlias_of_construction {s : Site} (hs : s.node.is .variableDeclarator)
    (h : (r.constructionAt? s).isSome) (x : Findings) : (x.withAlias r s).routers = x.routers := by
  rw [constructionAt?, if_pos hs] at h
  obtain ⟨c, hc⟩ := isSome_iff_exists.mp h
  obtain ⟨value, hvalue, hc⟩ := bind_eq_some_iff.mp hc
  obtain ⟨_, hguard, -⟩ := bind_eq_some_iff.mp hc
  have hroot : (chainRoot value.unwrapped).is .newExpression := by
    by_contra hroot
    rw [Bool.eq_false_iff.mpr hroot] at hguard
    cases hguard
  unfold withAlias
  rw [hvalue]
  split
  · rename_i hvalue'
    cases hvalue'
    simp only [Node.is_of_is hroot]
    split <;> rfl
  · rfl

def heads (r : Reading) : List Site := r.file.tree.sites.filter (·.node.kindIs Kind.hasHead)

theorem heads_filter_construction :
    r.heads.filter (fun s => (r.constructionAt? s).isSome) =
      r.file.tree.sites.filter fun s => (r.constructionAt? s).isSome := by
  rw [heads, List.filter_filter]
  refine filter_congr fun s _ => Bool.and_eq_left_iff_imp.mpr fun h => ?_
  obtain ⟨c, hc⟩ := isSome_iff_exists.mp h
  exact (start_of_constructionAt? hc).1

theorem offsets_constructions : r.constructions.offsets <+
    (r.heads.filter fun s => (r.constructionAt? s).isSome).map (·.node.start) := by
  rw [constructions, foldl_filterMap, heads_filter_construction]
  refine offsets_foldl _ _ _ _ (fun x s _ => ?_) {}
  cases hc : r.constructionAt? s with
  | none => exact .inl rfl
  | some c =>
    refine (x.grows_withConstruction r c).offsets.imp_right fun h => ⟨rfl, h.trans ?_⟩
    rw [(start_of_constructionAt? hc).2]

/-- Further names make routers at declarators, each at most one and none where a construction is. -/
theorem offsets_withAliases : (x.withAliases r).offsets <+
    x.offsets ++ (r.heads.filter fun s => !(r.constructionAt? s).isSome).map (·.node.start) := by
  have hdeclarators : (r.file.tree.sites.filter (·.node.is .variableDeclarator)).filter
      (fun s => !(r.constructionAt? s).isSome) <+
      r.heads.filter fun s => !(r.constructionAt? s).isSome := by
    refine Sublist.filter _ ?_
    have hheads : r.file.tree.sites.filter (·.node.is .variableDeclarator) =
        r.heads.filter (·.node.is .variableDeclarator) := by
      rw [heads, List.filter_filter]
      refine filter_congr fun s _ => (Bool.and_eq_left_iff_imp.mpr fun h => ?_).symm
      rw [Node.kindIs_of_is h]
      rfl
    rw [hheads]
    exact filter_sublist
  refine (offsets_foldl _ (·.node.start) _ _ (fun x s hs => ?_) x).trans
    ((hdeclarators.map _).append_left _)
  cases hc : (r.constructionAt? s).isSome with
  | true =>
    left
    rw [offsets, routers_withAlias_of_construction (mem_filter.mp hs).2 hc]
    rfl
  | false =>
    obtain ⟨offset, hgrows⟩ := x.grows_withAlias r s
    exact hgrows.offsets.imp_right fun h => ⟨rfl, h⟩

theorem offsets_withFunctions : (x.withFunctions r).offsets = x.offsets :=
  foldlRecOn _ _ (motive := fun y : Findings => y.offsets = x.offsets) rfl fun y hy f _ => by
    rw [offsets, (y.withFunction_keeps r f).1]
    exact hy

theorem keys_withChain (outer : Node) :
    (x.withChain r outer).routers.map (·.key) = x.routers.map (·.key) := by
  unfold withChain
  split
  · rfl
  · exact keys_register ..

theorem keys_withRegistrations :
    (x.withRegistrations r).routers.map (·.key) = x.routers.map (·.key) :=
  foldlRecOn _ _ (motive := fun y : Findings => y.routers.map (·.key) = x.routers.map (·.key))
    rfl fun _ hy s _ => (keys_withChain s.node).trans hy

/-- **The routers of a file are made at different offsets**, if its nodes are formed. -/
theorem nodup_offsets (text : List Char) (hplaced : r.file.tree.Placed)
    (hformed : ∀ m ∈ r.file.tree.nodes, m.Formed text) : r.routers.offsets.Nodup := by
  have hheads : (r.heads.map (·.node.start)).Nodup := by
    rw [Nodup, pairwise_map]
    exact (Node.starts_increase hplaced hformed []).imp Nat.ne_of_lt
  have hperm := (filter_append_perm (fun s => (r.constructionAt? s).isSome) r.heads).map
    (·.node.start)
  refine Nodup.sublist ?_ (hperm.nodup_iff.mpr hheads)
  rw [map_append]
  refine (offsets_withAliases).trans (Sublist.append_right ?_ _)
  rw [offsets_withFunctions]
  exact offsets_constructions

end Reading

namespace Reading

theorem file_of_key : ∀ t ∈ r.routers.routers, t.key.file = r.file.path := by
  refine routers_induction (motive := fun x => ∀ t ∈ x.routers, t.key.file = r.file.path)
    (forall_mem_nil _) fun _ hgrows h => ?_
  cases hgrows with
  | kept hrouters | taken _ _ _ _ _ _ _ _ hrouters => rwa [hrouters]
  | made t base _ hkey hrouters =>
    rw [hrouters]
    exact forall_mem_append.mpr ⟨h, forall_mem_singleton.mpr (by rw [hkey])⟩

end Reading

/-! ## Contributions and graphs -/

/-- The routers of a contribution have distinct keys, and those that are mounted or given out are
among them. -/
structure Contribution.Keyed (c : Contribution) : Prop where
  distinct : c.routers.Pairwise fun t u => t.key.same u.key = false
  mounts : ∀ t ∈ c.routers, ∀ m key, .mount m ∈ t.entries → m.target = .router key →
    ∃ u ∈ c.routers, u.key = key
  exports : ∀ e ∈ c.exports, ∀ key, e.2 = .router key → ∃ u ∈ c.routers, u.key = key

theorem keys_contributionWith (file : File) (bindings : List Binding) :
    (contributionWith file bindings).routers.map (·.key) =
      (ofFile file bindings).routers.routers.map (·.key) := by
  rw [← keys_withRegistrations, ← withExports_routers]
  rfl

theorem keyed_contributionWith {file : File} (hfile : file.WellFormed) (bindings : List Binding) :
    (contributionWith file bindings).Keyed := by
  have hclosed := closed_after (append_nil (ofFile file bindings).steps).symm
  rw [after_steps] at hclosed
  refine ⟨?_, fun t ht m key hm => hclosed.mounts t ht m hm key, hclosed.exports⟩
  have hnodup : (ofFile file bindings).routers.offsets.Nodup :=
    nodup_offsets file.text.toList hfile.1 hfile.2
  have hkeys : ((contributionWith file bindings).routers.map (·.key)).Pairwise
      fun a b => a.same b = false := by
    rw [keys_contributionWith, pairwise_map]
    refine (pairwise_map.mp hnodup).imp fun {t u} hne => ?_
    rw [← Bool.not_eq_true, RouterKey.same_iff]
    exact fun h => hne h.1
  exact pairwise_map.mp hkeys

namespace Graph

/-- **Linking by keys loses no router where the keys are distinct.** -/
theorem keyedRouters_eq {g : Graph}
    (h : (g.contributions.flatMap fun c => c.routers.map (c, ·)).Pairwise
      fun a b => a.2.key.same b.2.key = false) :
    g.keyedRouters = g.contributions.flatMap fun c => c.routers.map (c, ·) := by
  unfold keyedRouters
  generalize (g.contributions.flatMap fun c => c.routers.map (c, ·)) = as at h ⊢
  induction as with
  | nil => rfl
  | cons a as ih =>
    obtain ⟨ha, has⟩ := pairwise_cons.mp h
    rw [foldr_cons, ih has, if_neg]
    rw [Bool.not_eq_true, List.any_eq_false]
    intro b hb
    rw [RouterKey.same_comm, ha b hb]
    exact Bool.false_ne_true

theorem keyedRouters_graphWith {g : Graph} {files : List File}
    (hsorted : Project.Store.Sorted files)
    (hfiles : ∀ f ∈ files, f.WellFormed) :
    (Project.State.graphWith g files).keyedRouters =
      (Project.State.graphWith g files).contributions.flatMap fun c => c.routers.map (c, ·) := by
  refine keyedRouters_eq ?_
  show ((files.map contributionOf).flatMap _).Pairwise _
  rw [pairwise_flatMap, pairwise_map]
  constructor
  · intro c hc
    obtain ⟨f, hf, rfl⟩ := mem_map.mp hc
    exact pairwise_map.mpr (keyed_contributionWith (hfiles f hf) _).distinct
  · refine hsorted.imp fun {f g} hlt a ha b hb => ?_
    obtain ⟨t, ht, rfl⟩ := mem_map.mp ha
    obtain ⟨u, hu, rfl⟩ := mem_map.mp hb
    have hkey : ∀ {f : File} {t : Router}, t ∈ (contributionOf f).routers →
        t.key.file = f.path := by
      intro f t ht
      have hmem := mem_map_of_mem (f := Router.key) ht
      rw [contributionOf, keys_contributionWith] at hmem
      obtain ⟨u, hu, hkey⟩ := mem_map.mp hmem
      rw [← hkey]
      exact file_of_key u hu
    have hother := Project.Store.same_of_compare_lt hlt
    rw [← hkey ht, ← hkey hu, Path.same, beq_eq_false_iff_ne] at hother
    rw [← Bool.not_eq_true, RouterKey.same_iff]
    exact fun h => hother h.2

/-- **Linking files one after another loses no router**, whatever their trees are. -/
theorem keyedRouters_foldl_replace (root : Path) {files : List File}
    (hfiles : ∀ f ∈ files, f.WellFormed) :
    let graph := files.foldl (fun g f => g.replace (contributionOf f)) ({ root } : Graph)
    graph.keyedRouters = graph.contributions.flatMap fun c => c.routers.map (c, ·) := by
  -- the files put so far are in path order, and the graph has their contributions
  have hgraph : ∀ put : List File, Project.Store.Sorted put → (∀ f ∈ put, f.WellFormed) →
      ∃ all, Project.Store.Sorted all ∧ (∀ f ∈ all, f.WellFormed) ∧
        files.foldl (fun g f => g.replace (contributionOf f))
          (Project.State.graphWith { root } put) = Project.State.graphWith { root } all := by
    induction files with
    | nil => exact fun put hsorted hput => ⟨put, hsorted, hput, rfl⟩
    | cons f rest ih =>
      intro put hsorted hput
      obtain ⟨hf, hrest⟩ := forall_mem_cons.mp hfiles
      rw [foldl_cons, Project.State.replace_graphWith]
      refine ih hrest _ (Project.Store.sorted_putFile hsorted) fun g hg => ?_
      rcases (Project.Store.mem_putFile hsorted).mp hg with rfl | ⟨hg, -⟩
      · exact hf
      · exact hput g hg
  obtain ⟨all, hsorted, hall, hgraph⟩ := hgraph [] .nil (forall_mem_nil _)
  intro graph
  have heq : graph = Project.State.graphWith { root } all := hgraph
  rw [heq]
  exact keyedRouters_graphWith hsorted hall

end Graph

/-- **Routers and their keys.** Take any texts, read as files of a project. The keys of each file's
contribution are distinct, and its mounts and exports name routers that it has. Whatever has been
read of a file, the indices of routers that are stored are in range. Put together, whatever their
order, the contributions lose no router when they are linked. -/
theorem routers_have_distinct_keys (root : Path) (sources : List (Path × String × Language × Nat)) :
    let files := sources.map fun s => File.ofText root s.1 s.2.1 s.2.2.1 s.2.2.2
    let graph := files.foldl (fun g f => g.replace (contributionOf f)) ({ root } : Graph)
    (∀ f ∈ files, (contributionOf f).Keyed ∧ ∀ before rest,
      (Reading.ofFile f (bindingsOf f.text f.tree)).steps = before ++ rest →
        (Reading.after before).Closed) ∧
    graph.keyedRouters = graph.contributions.flatMap fun c => c.routers.map (c, ·) := by
  intro files graph
  have hfiles : ∀ f ∈ files, f.WellFormed := by
    intro f hf
    obtain ⟨s, -, rfl⟩ := mem_map.mp hf
    exact ⟨placed_parse _ _, fun _ hm => formed_parse _ _ hm⟩
  exact ⟨fun f hf => ⟨keyed_contributionWith (hfiles f hf) _, fun _ _ => closed_after⟩,
    Graph.keyedRouters_foldl_replace root hfiles⟩

end Inventory

end RouteAtlas
