import RouteAtlas.Proofs.FirstWins
import RouteAtlas.Proofs.TraversalStarts

/-!
# What is listed as a router

The result of a function may be a router, and that is known only once imports are resolved: its
implicit mount is then linked to what the function gives. `LinkedRouter.isValid` looks at this one
link and only roots are asked for it, so what is listed can be less than a router.
-/

open List

namespace RouteAtlas.Inventory

variable {net : Network}
variable {key : RouterKey} {r : Resource}

/-! ## Genuine routers -/

/-- **What really is a router**: it is constructed, or it is the result of a function that gives
what really is one. -/
inductive Genuine (net : Network) : RouterKey → Prop
  | constructed {key : RouterKey} {t : LinkedRouter} (ht : net.router? key = some t)
      (hmade : t.fromFactory = false) : Genuine net key
  | passedOn {key next : RouterKey} {t : LinkedRouter} {m : Mount} (ht : net.router? key = some t)
      (he : LinkedEntry.mount m (some next) ∈ t.entries) (himplicit : m.implicit)
      (hnext : Genuine net next) : Genuine net key

theorem LinkedRouter.isValid_iff {t : LinkedRouter} : t.isValid ↔ t.fromFactory = false ∨
    ∃ m next, LinkedEntry.mount m (some next) ∈ t.entries ∧ m.implicit := by
  rw [isValid, Bool.or_eq_true, Bool.not_eq_true', any_eq_true]
  refine or_congr_right ⟨?_, ?_⟩
  · rintro ⟨entry, hmem, himplicit⟩
    rcases entry with draft | ⟨m, _ | next⟩
    · cases himplicit
    · cases himplicit
    · exact ⟨m, next, hmem, himplicit⟩
  · rintro ⟨m, next, hmem, himplicit⟩
    exact ⟨_, hmem, himplicit⟩

theorem Genuine.congr {a b : RouterKey} (h : a.same b) (ha : Genuine net a) : Genuine net b := by
  have hkey : net.router? a = net.router? b := Network.router?_congr h
  cases ha with
  | constructed ht hmade => exact .constructed (hkey ▸ ht) hmade
  | passedOn ht he himplicit hnext => exact .passedOn (hkey ▸ ht) he himplicit hnext

/-- What really is a router is valid. -/
theorem Genuine.isValid (h : Genuine net key) : ∃ t, net.router? key = some t ∧ t.isValid := by
  cases h with
  | constructed ht hmade => exact ⟨_, ht, LinkedRouter.isValid_iff.mpr (.inl hmade)⟩
  | passedOn ht he himplicit _ =>
    exact ⟨_, ht, LinkedRouter.isValid_iff.mpr (.inr ⟨_, _, he, himplicit⟩)⟩

theorem Genuine.exists_constructed (h : Genuine net key) : ∃ t ∈ net, t.fromFactory = false := by
  induction h with
  | constructed ht hmade => exact ⟨_, mem_of_find?_eq_some ht, hmade⟩
  | passedOn _ _ _ _ ih => exact ih

/-! ## The routers that are walked -/

def Walked (net : Network) (key : RouterKey) : Prop :=
  ∃ t ∈ net, t.isValid ∧ LeadsTo net t.key key

/-- A resource is registered with a router: it is one of its drafts, below some path. -/
def RegisteredWith (net : Network) (key : RouterKey) (r : Resource) : Prop :=
  ∃ t d outer, net.router? key = some t ∧ LinkedEntry.resource d ∈ t.entries ∧
    r = d.resource outer r.order

theorem Walked.mounts {next : RouterKey} (h : Walked net key) (hm : Mounts net key next) :
    Walked net next := by
  obtain ⟨t, ht, hvalid, hlead⟩ := h
  exact ⟨t, ht, hvalid, hlead.trans hm.leadsTo⟩

/-- To a router that is walked leads a start. -/
theorem Walked.exists_start (h : Walked net key) : ∃ s ∈ starts net, LeadsTo net s key := by
  obtain ⟨t, ht, hvalid, hlead⟩ := h
  obtain ⟨s, hs, hst⟩ := exists_start_of_mem_roots (Network.mem_roots_of_isValid ht hvalid)
  exact ⟨s, hs, hst.trans hlead⟩

/-- **The routers that are walked are genuine if all that they mount is.** A valid router is
constructed or mounts what it is the result of. -/
theorem walked_genuine_iff (hnet : net.Distinct) : (∀ key, Walked net key → Genuine net key) ↔
    ∀ key next, Walked net key → Mounts net key next → Genuine net next := by
  constructor
  · exact fun hall key next hwalked hmounts => hall next (hwalked.mounts hmounts)
  · rintro hall key ⟨t, ht, hvalid, hlead⟩
    rcases hlead.last_mount with hsame | ⟨mid, last, hmid, hmounts, hlast⟩
    · refine Genuine.congr hsame ?_
      have hkey := hnet.router?_key ht
      rcases LinkedRouter.isValid_iff.mp hvalid with hmade | ⟨m, next, he, himplicit⟩
      · exact .constructed hkey hmade
      · exact .passedOn hkey he himplicit
          (hall t.key next ⟨t, ht, hvalid, .refl t.key⟩ ⟨t, m, hkey, he⟩)
    · exact Genuine.congr hlast (hall mid last ⟨t, ht, hvalid, hmid⟩ hmounts)

/-! ## What the walk lists -/

/-- **What a walk lists is registered with a router that is walked.** -/
theorem exists_walked_of_mem_walkAll (h : r ∈ (walkAll net).resources) :
    ∃ key, Walked net key ∧ RegisteredWith net key r := by
  rw [walkAll_resources] at h
  obtain ⟨order, hlt, rfl⟩ := mem_mapIdx.mp h
  have hl := getElem_mem hlt
  generalize ((starts net).flatMap (listingsFrom net))[order] = l at hl
  obtain ⟨s, hs, hl⟩ := mem_flatMap.mp hl
  obtain ⟨t, ht⟩ := Network.router?_of_mem_roots (mem_roots_of_mem_starts hs)
  obtain ⟨u, hu, hvalid, rfl⟩ := exists_router_of_mem_starts hs
  obtain ⟨last, v, hlast, -, hv, hd⟩ := ((enumerates_listingsFrom ht).mem_iff l).mp hl
  exact ⟨last, ⟨u, hu, hvalid, l.hops, last, hlast, RouterKey.same_refl last⟩, v, l.draft,
    mountedBelow "" l.hops, hv, mem_of_getElem? hd, (l.resourceBelow_empty order).symm⟩

/-- **Everything that is registered with a router that is walked is listed.** -/
theorem exists_mem_walkAll_of_walked {t : LinkedRouter} {d : Draft} (h : Walked net key)
    (ht : net.router? key = some t) (hd : .resource d ∈ t.entries) :
    ∃ outer order, d.resource outer order ∈ (walkAll net).resources := by
  obtain ⟨s, hs, hops, last, hchain, hlast⟩ := h.exists_start
  obtain ⟨u, hu⟩ := Network.router?_of_mem_roots (mem_roots_of_mem_starts hs)
  -- the walk comes to the router on a chain that repeats none
  obtain ⟨hops', last', hchain', hrep, hlast'⟩ := hchain.withoutRepeat
  have hend : net.router? last' = some t :=
    (Network.router?_congr (RouterKey.same_trans hlast' hlast)).trans ht
  obtain ⟨index, hget⟩ := getElem?_of_mem hd
  have hl := ((enumerates_listingsFrom hu).mem_iff ⟨hops', index, d⟩).mpr
    ⟨last', t, hchain', hrep, hend, hget⟩
  obtain ⟨order, hlt, hl⟩ := mem_iff_getElem.mp (mem_flatMap.mpr ⟨s, hs, hl⟩)
  refine ⟨mountedBelow "" hops', order, ?_⟩
  rw [walkAll_resources, mem_mapIdx]
  exact ⟨order, hlt, by rw [hl]; exact (Listing.resourceBelow_empty _ order).symm⟩

/-! ## Inventories -/

def Graph.IsExtra (g : Graph) (r : Resource) : Prop :=
  ∃ (i : Nat) (e : Extra), g.extras[i]? = some e ∧ r = extraResource e i r.order

/-- **Every discovered resource of an inventory is registered with a genuine router.** -/
def Graph.ListsGenuine (g : Graph) {σ : Type} (resolve : String → Path → StateM σ (Option Path))
    (s : σ) : Prop :=
  ∀ r ∈ ((g.analyze resolve).run s).1.resources,
    g.IsExtra r ∨ ∃ key, Genuine ((g.network resolve).run s).1 key ∧
      RegisteredWith ((g.network resolve).run s).1 key r

/-- **Which routers an inventory lists.** A resource was added, or it is registered with a router
that a valid one leads to, and whatever is registered with such a router is listed. All these
routers are genuine if and only if everything that they mount is; then every resource was added or
is registered with a genuine router. -/
theorem analyze_lists_walked_routers (g : Graph) {σ : Type}
    (resolve : String → Path → StateM σ (Option Path)) (s : σ) :
    let net := ((g.network resolve).run s).1
    (∀ r ∈ ((g.analyze resolve).run s).1.resources,
      g.IsExtra r ∨ ∃ key, Walked net key ∧ RegisteredWith net key r) ∧
    (∀ key t d, Walked net key → net.router? key = some t → .resource d ∈ t.entries →
      ∃ outer order, d.resource outer order ∈ (walkAll net).resources) ∧
    ((∀ key, Walked net key → Genuine net key) ↔
      ∀ key next, Walked net key → Mounts net key next → Genuine net next) ∧
    ((∀ key next, Walked net key → Mounts net key next → Genuine net next) →
      g.ListsGenuine resolve s) := by
  intro net
  have hgenuine := walked_genuine_iff (g.network_distinct resolve s)
  have hwalked : ∀ r ∈ ((g.analyze resolve).run s).1.resources,
      g.IsExtra r ∨ ∃ key, Walked net key ∧ RegisteredWith net key r := by
    intro r hr
    have hkept : ((g.analyze resolve).run s).1.resources =
        keptAll (walkAll net).resources g.extras :=
      Graph.withExtras_eq _ 0 _ g.extras
    rw [hkept, keptAll, mem_append] at hr
    rcases hr with hr | hr
    · exact .inr (exists_walked_of_mem_walkAll (mem_keptWalked hr))
    · obtain ⟨e, he, k, rfl⟩ := Graph.mem_numberExtras hr
      exact .inl ⟨e.2, e.1, getElem?_of_mem_keptExtras he, rfl⟩
  refine ⟨hwalked, fun key t d => exists_mem_walkAll_of_walked, hgenuine, fun hall r hr => ?_⟩
  refine (hwalked r hr).imp_right ?_
  rintro ⟨key, hkey, hregistered⟩
  exact ⟨key, hgenuine.mpr hall key hkey, hregistered⟩

/-! ### Resources of something else -/

/-- A router mounts what a function gives that makes no router. -/
def mounting : Graph :=
  fileGraph "const x=f(),a=new Hono();x.get('',h);a.route('',x)" [hono, ⟨"f", "f", "./f", .named⟩]

/-- The result of a function that is exported as the function. -/
def selfMade : Graph :=
  fileGraph "const x=f();x.get('',h);export{x as f}" [⟨"f", "f", "./a", .named⟩]

/-- A project in which every import leads to its one file. -/
def toItself (_ : String) (_ : Path) : StateM Unit (Option Path) := pure (some ⟨"/p/a.ts"⟩)

/-- In both graphs something is listed, and either only mounts are registered with valid routers or
no router is constructed. -/
theorem mounting_selfMade_listed : ∀ p ∈ [(mounting, unresolved), (selfMade, toItself)],
    p.1.extras = [] ∧ ((p.1.analyze p.2).run ()).1.resources ≠ [] ∧
    ((∀ t ∈ ((p.1.network p.2).run ()).1, t.isValid → ∀ e ∈ t.entries, e.target?.isSome) ∨
      ∀ t ∈ ((p.1.network p.2).run ()).1, t.fromFactory) := by
  decide +kernel

theorem not_listsGenuine {p : Graph × (String → Path → StateM Unit (Option Path))}
    (hp : p ∈ [(mounting, unresolved), (selfMade, toItself)]) : ¬ p.1.ListsGenuine p.2 () := by
  intro hall
  obtain ⟨hextras, hlisted, hnone⟩ := mounting_selfMade_listed p hp
  obtain ⟨r, hr⟩ := exists_mem_of_ne_nil _ hlisted
  rcases hall r hr with ⟨i, e, he, -⟩ | ⟨key, hgenuine, t, d, outer, ht, hd, -⟩
  · rw [hextras] at he
    cases he
  rcases hnone with hmounts | hresults
  · obtain ⟨u, hu, hvalid⟩ := hgenuine.isValid
    rw [ht] at hu
    cases hu
    cases hmounts t (mem_of_find?_eq_some ht) hvalid _ hd
  · obtain ⟨u, hu, hmade⟩ := hgenuine.exists_constructed
    rw [hresults u hu] at hmade
    cases hmade

/-- **What is listed can be registered with something that is no router**: if a router mounts it, or
if it is the result of itself. -/
theorem lists_not_genuine :
    ¬ mounting.ListsGenuine unresolved () ∧ ¬ selfMade.ListsGenuine toItself () :=
  ⟨not_listsGenuine (p := (mounting, unresolved)) (by simp),
    not_listsGenuine (p := (selfMade, toItself)) (by simp)⟩

end RouteAtlas.Inventory
