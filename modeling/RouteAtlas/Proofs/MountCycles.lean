import RouteAtlas.Proofs.MountReports

/-!
# Mount cycles are found

The walk knows only the chain that it is inside of. It reports a mount if that leads back to a
router of this chain. Cycles are said here without the walk: some mounts lead from a router back to
it (`OnCycle`).
-/

open List

namespace RouteAtlas.Inventory

variable {net : Network}
variable {t : LinkedRouter} {e : Unsupported} {a key last start : RouterKey}

/-! ## Errors of the walk -/

/-- **A mount leads back**: it stands at the end of a simple chain and leads to a router of the
chain, or around it. The error names the mount. -/
def LeadsBack (net : Network) (inside : List RouterKey) (t : LinkedRouter) (e : Unsupported) :
    Prop :=
  ∃ hops u m target, SimpleChain net inside t hops u ∧
    LinkedEntry.mount m (some target) ∈ u.entries ∧
    (inside ++ hops.map (·.target)).any (·.same target) ∧ e = cycleError u.relPath m

theorem leadsBack_iff {inside : List RouterKey} :
    LeadsBack net inside t e ↔ ∃ s ∈ stops net inside t, s.error? inside = some e := by
  simp only [mem_stops]
  constructor
  · rintro ⟨hops, u, m, target, hchain, he, hback, rfl⟩
    obtain ⟨index, hget⟩ := getElem?_of_mem he
    exact ⟨⟨hops, u, index, _⟩, ⟨hchain, hget⟩, if_pos hback⟩
  · rintro ⟨⟨hops, u, index, _ | ⟨m, _ | target⟩⟩, ⟨hchain, hget⟩, herr⟩
    · cases herr
    · cases herr
    · obtain ⟨hback, herr⟩ := Option.ite_none_right_eq_some.mp herr
      exact ⟨hops, u, m, target, hchain, mem_of_getElem? hget, hback, (Option.some.inj herr).symm⟩

theorem mem_walkAll_errors : e ∈ (walkAll net).errors ↔
    ∃ s ∈ starts net, ∃ t, net.router? s = some t ∧ LeadsBack net [s] t e := by
  rw [(walkAll_reports net).1, walkStops, filterMap_flatMap, mem_flatMap]
  refine exists_congr fun s => and_congr_right fun _ => ?_
  rw [stopsFrom]
  cases net.router? s <;> simp [leadsBack_iff]

/-! ## A mount that leads back closes a cycle -/

theorem MountChain.leadsTo_of_mem {hops : List Hop} (h : MountChain net a hops last)
    (hk : key ∈ chainKeys a hops) : LeadsTo net key last := by
  induction h with
  | here a =>
    obtain rfl := mem_singleton.mp hk
    exact .refl key
  | @hop a last t h hops ht he rest ih =>
    rcases mem_cons.mp hk with rfl | hk
    · exact ⟨h :: hops, last, .hop ht he rest, RouterKey.same_refl last⟩
    · exact ih hk

/-- **A mount that leads back closes a cycle** that the start leads to. -/
theorem LeadsBack.onCycle (ht : net.router? start = some t) (h : LeadsBack net [start] t e) :
    ∃ key, LeadsTo net start key ∧ OnCycle net key := by
  obtain ⟨hops, u, m, target, hs, he, hback, -⟩ := h
  obtain ⟨last, hchain, -, hu⟩ := (simpleChain_start_iff ht).mp hs
  obtain ⟨key, hkey, hsame⟩ := any_eq_true.mp hback
  have hlast := hchain.leadsTo_of_mem hkey
  rw [RouterKey.same_comm] at hsame
  exact ⟨last, ⟨hops, last, hchain, RouterKey.same_refl last⟩, target, ⟨u, m, hu, he⟩,
    (LeadsTo.of_same hsame).trans hlast⟩

/-! ## A cycle has a mount that leads back -/

theorem chainKeys_append (front back : List Hop) :
    chainKeys a (front ++ back) = chainKeys a front ++ back.map (·.target) := by
  simp [chainKeys]

theorem MountChain.last_mem {hops : List Hop} (h : MountChain net a hops last) :
    last ∈ chainKeys a hops := by
  induction h with
  | here a => exact mem_singleton.mpr rfl
  | hop _ _ _ ih => exact mem_cons_of_mem _ ih

theorem MountChain.split {front back : List Hop} {h : Hop}
    (hc : MountChain net a (front ++ h :: back) last) :
    ∃ mid u, MountChain net a front mid ∧ net.router? mid = some u ∧
      LinkedEntry.mount h.mount (some h.target) ∈ u.entries := by
  induction front generalizing a with
  | nil =>
    cases hc with
    | @hop _ _ t _ _ ht he _ => exact ⟨a, t, .here a, ht, mem_of_getElem? he⟩
  | cons g front ih =>
    cases hc with
    | hop ht he rest =>
      obtain ⟨mid, u, hfront, hu, hmem⟩ := ih rest
      exact ⟨mid, u, .hop ht he hfront, hu, hmem⟩

/-- Where a list of mounts repeats a router, there is a mount that does so first. -/
theorem exists_first_repeat (rest : List Hop) : ∀ front : List Hop,
    NoRepeat (chainKeys a front) → ¬ NoRepeat (chainKeys a (front ++ rest)) →
    ∃ mid h back, front ++ rest = mid ++ h :: back ∧ NoRepeat (chainKeys a mid) ∧
      (chainKeys a mid).any (·.same h.target) := by
  induction rest with
  | nil =>
    intro front hfront hrepeat
    rw [append_nil] at hrepeat
    exact absurd hfront hrepeat
  | cons h rest ih =>
    intro front hfront hrepeat
    cases hback : (chainKeys a front).any (·.same h.target) with
    | true => exact ⟨front, h, rest, rfl, hfront, hback⟩
    | false =>
      have hlonger : NoRepeat (chainKeys a (front ++ [h])) := by
        rw [chainKeys_append]
        refine pairwise_append.mpr ⟨hfront, pairwise_singleton _ _, fun k hk l hl => ?_⟩
        obtain rfl := mem_singleton.mp hl
        exact eq_false_of_ne_true (any_eq_false.mp hback k hk)
      rw [append_cons] at hrepeat ⊢
      exact ih (front ++ [h]) hlonger hrepeat

/-- A chain into a cycle and once around it repeats a router. -/
theorem OnCycle.exists_repeat (hlead : LeadsTo net start key) (hcycle : OnCycle net key) :
    ∃ hops last, MountChain net start hops last ∧ ¬ NoRepeat (chainKeys start hops) := by
  obtain ⟨hops, key', hchain, hkey'⟩ := hlead
  obtain ⟨next, ⟨t, m, ht, he⟩, hops', last, hchain', hlast⟩ := hcycle
  obtain ⟨index, hget⟩ := getElem?_of_mem he
  have ht' : net.router? key' = some t := (Network.router?_congr hkey').trans ht
  have hround : MountChain net key' (⟨index, m, next⟩ :: hops') last := .hop ht' hget hchain'
  refine ⟨_, last, hchain.append hround, fun hnone => ?_⟩
  rw [chainKeys_append] at hnone
  -- the chain has come to the router before, at the end of the way into the cycle
  have hdiffer := (pairwise_append.mp hnone).2.2 key' hchain.last_mem last hchain'.last_mem
  rw [RouterKey.same_comm] at hlast
  rw [RouterKey.same_trans hkey' hlast] at hdiffer
  cases hdiffer

/-- **Where a router leads to a cycle, a mount leads back.** -/
theorem exists_leadsBack (ht : net.router? start = some t) (hlead : LeadsTo net start key)
    (hcycle : OnCycle net key) : ∃ e, LeadsBack net [start] t e := by
  obtain ⟨hops, last, hchain, hrepeat⟩ := hcycle.exists_repeat hlead
  obtain ⟨front, h, back, hsplit, hfront, hback⟩ :=
    exists_first_repeat hops [] (pairwise_singleton _ _) hrepeat
  rw [nil_append] at hsplit
  obtain ⟨mid, u, hmid, hu, hmem⟩ := (hsplit ▸ hchain).split
  have hsimple := (simpleChain_start_iff ht).mpr ⟨mid, hmid, hfront, hu⟩
  exact ⟨_, front, u, h.mount, h.target, hsimple, hmem, hback, rfl⟩

/-! ## Cycles of a network -/

theorem walkAll_errors_iff : (∃ e, e ∈ (walkAll net).errors) ↔
    ∃ t ∈ net, t.isValid ∧ ∃ key, LeadsTo net t.key key ∧ OnCycle net key := by
  constructor
  · rintro ⟨e, he⟩
    obtain ⟨s, hs, t, ht, hback⟩ := mem_walkAll_errors.mp he
    obtain ⟨u, hu, hvalid, rfl⟩ := exists_router_of_mem_starts hs
    exact ⟨u, hu, hvalid, hback.onCycle ht⟩
  · rintro ⟨t, ht, hvalid, key, hlead, hcycle⟩
    obtain ⟨s, hs, hst⟩ := exists_start_of_mem_roots (Network.mem_roots_of_isValid ht hvalid)
    obtain ⟨u, hu⟩ := Network.router?_of_mem_roots (mem_roots_of_mem_starts hs)
    obtain ⟨e, he⟩ := exists_leadsBack hu (hst.trans hlead) hcycle
    exact ⟨e, mem_walkAll_errors.mpr ⟨s, hs, u, hu, he⟩⟩

/-- **The walk of an analysis reports a mount cycle if and only if a valid router leads to one.**
The errors of an analysis are those of the files and then those of its walk, which are all of this
kind. -/
theorem analyze_reports_cycle_iff (g : Graph) {σ : Type}
    (resolve : String → Path → StateM σ (Option Path)) (s : σ) :
    let net := ((g.network resolve).run s).1
    ((g.analyze resolve).run s).1.errors =
      g.contributions.flatMap (·.errors) ++ (walkAll net).errors ∧
    (∀ e ∈ (walkAll net).errors, e.kind = "mount_cycle") ∧
    ((∃ e ∈ (walkAll net).errors, e.kind = "mount_cycle") ↔
      ∃ t ∈ net, t.isValid = true ∧ ∃ key, LeadsTo net t.key key ∧ OnCycle net key) := by
  intro net
  have hkind : ∀ e ∈ (walkAll net).errors, e.kind = "mount_cycle" := by
    intro e he
    obtain ⟨-, -, -, -, -, -, -, -, -, -, -, rfl⟩ := mem_walkAll_errors.mp he
    rfl
  refine ⟨rfl, hkind, ?_⟩
  rw [← walkAll_errors_iff]
  exact exists_congr fun e => and_iff_left_of_imp (hkind e)

end RouteAtlas.Inventory
