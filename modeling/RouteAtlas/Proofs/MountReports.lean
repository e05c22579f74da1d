import RouteAtlas.Proofs.TraversalStarts

/-!
# Reports of the walk

A mount that leads back into its chain is an error, one whose router is not known is a warning. The
walk does not remember what it has reported, so there is one report for each time that it comes to
the mount.
-/

open List

namespace RouteAtlas.Inventory

open Stop

variable {net : Network} {inside : List RouterKey}

/-! ## Reports of the walk over all roots -/

/-- **The stops of the walk over all roots**, each with the start that it is found from. -/
def walkStops (net : Network) : List (RouterKey × Stop) :=
  (starts net).flatMap fun start => (stopsFrom net start).map (start, ·)

/-- **The walk comes to an entry once for each chain that repeats no router.** -/
theorem mem_walkStops {start : RouterKey} {s : Stop} : (start, s) ∈ walkStops net ↔
    start ∈ starts net ∧ ∃ last, MountChain net start s.hops last ∧
      NoRepeat (chainKeys start s.hops) ∧ net.router? last = some s.router ∧
      s.router.entries[s.index]? = some s.entry := by
  simp only [walkStops, mem_flatMap, mem_map, Prod.mk.injEq]
  constructor
  · rintro ⟨_, hstart, s, hs, rfl, rfl⟩
    obtain ⟨t, ht⟩ := Network.router?_of_mem_roots (mem_roots_of_mem_starts hstart)
    rw [stopsFrom, ht] at hs
    obtain ⟨hchain, hentry⟩ := mem_stops.mp hs
    obtain ⟨last, hlast, hnone, hu⟩ := (simpleChain_start_iff ht).mp hchain
    exact ⟨hstart, last, hlast, hnone, hu, hentry⟩
  · rintro ⟨hstart, last, hlast, hnone, hu, hentry⟩
    obtain ⟨t, ht⟩ := Network.router?_of_mem_roots (mem_roots_of_mem_starts hstart)
    refine ⟨start, hstart, s, ?_, rfl, rfl⟩
    rw [stopsFrom, ht]
    exact mem_stops.mpr ⟨(simpleChain_start_iff ht).mpr ⟨last, hlast, hnone, hu⟩, hentry⟩

/-- **The walk over all roots reports at each of its stops.** -/
theorem walkAll_reports (net : Network) :
    (walkAll net).errors = (walkStops net).filterMap (fun c => c.2.error? [c.1]) ∧
      (walkAll net).warnings = (walkStops net).filterMap (·.2.warning?) := by
  have hadds := walkAll_adds net
  simp only [walkStops, filterMap_flatMap, filterMap_map]
  exact ⟨hadds.errors, hadds.warnings⟩

theorem walkStops_nodup (hnet : net.Distinct) : (walkStops net).Nodup := by
  have hroots : net.roots.Nodup := by
    rw [Network.roots_eq]
    refine pairwise_map.mpr (hnet.rootRouters.imp fun {a b} hab heq => ?_)
    rw [heq, RouterKey.same_refl] at hab
    cases hab
  refine pairwise_flatMap.mpr ⟨fun start _ => ?_, ?_⟩
  · have hstops : (stopsFrom net start).Nodup := by
      unfold stopsFrom
      split
      · exact nodup_nil
      · refine stops_ordered.imp fun {a b} hab heq => ?_
        rw [heq] at hab
        exact List.lt_irrefl _ hab
    exact Pairwise.map _ (fun s s' hne h => hne (Prod.mk.inj h).2) hstops
  · refine ((startsAmong_sublist net.roots {}).nodup hroots).imp fun {a b} hne c hc d hd => ?_
    obtain ⟨_, -, rfl⟩ := mem_map.mp hc
    obtain ⟨_, -, rfl⟩ := mem_map.mp hd
    exact fun heq => hne (Prod.mk.inj heq).1

/-- **An analysis reports a mount once for each chain that leads to it.** The chains are those of
the walk: they begin at a start and repeat no router. The errors of the files come before those of
the walk, the warnings about the order of middleware behind. -/
theorem analyze_reports_each_chain (g : Graph) {σ : Type}
    (resolve : String → Path → StateM σ (Option Path)) (s : σ) :
    let net := ((g.network resolve).run s).1
    let a := ((g.analyze resolve).run s).1
    ∃ reached : List (RouterKey × Stop), reached.Nodup ∧
      (∀ start stop, (start, stop) ∈ reached ↔ start ∈ starts net ∧
        ∃ last, MountChain net start stop.hops last ∧ NoRepeat (chainKeys start stop.hops) ∧
          net.router? last = some stop.router ∧
          stop.router.entries[stop.index]? = some stop.entry) ∧
      a.errors = g.contributions.flatMap (·.errors) ++
        reached.filterMap (fun c => c.2.error? [c.1]) ∧
      a.warnings = reached.filterMap (·.2.warning?) ++ ambiguousOrders a.resources := by
  intro net a
  obtain ⟨herrors, hwarnings⟩ := walkAll_reports net
  refine ⟨walkStops net, walkStops_nodup (g.network_distinct resolve s),
    fun start stop => mem_walkStops, ?_, ?_⟩
  · rw [← herrors]
    rfl
  · rw [← hwarnings]
    rfl

/-- What a function gives is mounted twice. It mounts itself and the function, which is not found.
-/
def mountedTwice : Graph :=
  fileGraph "const a=new Hono(),z=f();a.route('',z);a.route('/b',z);z.route('',z);z.route('',f)"
    [hono, ⟨"f", "f", "./f", .named⟩]

/-- **A router that is mounted twice has each of its mounts reported twice.** -/
theorem mountedTwice_reports :
    let a := ((mountedTwice.analyze unresolved).run ()).1
    a.errors = replicate 2 ⟨"a.ts", 1, 56, "mount_cycle", "z.route('',z)"⟩ ∧
      a.warnings = replicate 2 (.unresolvedMount "a.ts" 1 "z.route('',f)") := by
  decide +kernel

end RouteAtlas.Inventory
