import RouteAtlas.Proofs.TraversalStarts

/-!
# What the walk emits for which router

Every resource of a walk is a draft of some router. `emissions` are the resources of the walk, each
with the key under which its router was entered. Links go from entries to routers, and entries are
told apart by their positions, so a draft that comes or goes moves all mounts behind it. That does
not matter here: two networks that differ only in the drafts of some routers (`AgreeOutside`) have
the same starts and the same chains, and emit the same for all other routers.
-/

open List Option

namespace RouteAtlas.Inventory

open LinkedRouter Network

variable {net net' : Network}

/-! ## Emissions -/

/-- The key under which the router of a listing was entered: that of the last mount on the way. -/
def Listing.owner (start : RouterKey) (l : Listing) : RouterKey :=
  (l.hops.map (·.target)).getLastD start

/-- The listings of the walk from one start, each with the key of its router. -/
def listedFrom (net : Network) (start : RouterKey) : List (RouterKey × Listing) :=
  (listingsFrom net start).map fun l => (l.owner start, l)

/-- **What the walk emits**, before duplicates are dropped: every resource with the key under which
its router was entered. -/
def emissions (net : Network) : List (RouterKey × Resource) :=
  ((starts net).flatMap (listedFrom net)).mapIdx fun order e => (e.1, e.2.resource order)

/-- **The emissions are the resources of the walk.** -/
theorem emissions_resources (net : Network) :
    (emissions net).map (·.2) = (walkAll net).resources := by
  have hlistings : ((starts net).flatMap (listedFrom net)).map Prod.snd =
      (starts net).flatMap (listingsFrom net) := by
    simp [map_flatMap, listedFrom, Function.comp_def]
  rw [walkAll_resources, ← hlistings]
  apply ext_getElem?
  simp [emissions, Function.comp_def]

theorem MountChain.getLastD_targets {a last : RouterKey} {hops : List Hop}
    (h : MountChain net a hops last) : (hops.map (·.target)).getLastD a = last := by
  induction h with
  | here => rfl
  | hop _ _ _ ih =>
    rw [map_cons, getLastD_cons]
    exact ih

/-- **Each emission is a draft of the router that it is emitted for.** -/
theorem exists_draft_of_mem_emissions {e : RouterKey × Resource} (h : e ∈ emissions net) :
    ∃ t d, net.router? e.1 = some t ∧ LinkedEntry.resource d ∈ t.entries ∧ e.2.id = d.id ∧
      e.2.method = d.method ∧ e.2.kind = d.kind := by
  rw [emissions, mem_mapIdx] at h
  obtain ⟨order, hlt, rfl⟩ := h
  have hlisted := getElem_mem hlt
  generalize ((starts net).flatMap (listedFrom net))[order] = listed at hlisted
  obtain ⟨start, hstart, hlisted⟩ := mem_flatMap.mp hlisted
  obtain ⟨l, hl, rfl⟩ := List.mem_map.mp hlisted
  obtain ⟨t, ht⟩ := router?_of_mem_roots (mem_roots_of_mem_starts hstart)
  obtain ⟨last, u, hchain, -, hu, hd⟩ := ((enumerates_listingsFrom ht).mem_iff l).mp hl
  rw [← hchain.getLastD_targets] at hu
  exact ⟨u, l.draft, hu, mem_of_getElem? hd, rfl, rfl, rfl⟩

/-! ## Emissions without positions -/

/-- All of a resource but its number. -/
def Resource.unnumbered (r : Resource) : Resource := { r with order := 0 }

/-- What is emitted below a router for each key, given the routers that the chain is inside of. -/
def emitted (net : Network) (inside : List RouterKey) (outer : String) (key : RouterKey)
    (t : LinkedRouter) : List (RouterKey × Resource) :=
  (listings net inside t).map fun l => (l.owner key, l.resourceBelow outer 0)

def emittedBy (net : Network) (inside : List RouterKey) (outer : String) (key : RouterKey) :
    LinkedEntry → List (RouterKey × Resource)
  | .resource draft => [(key, draft.resource outer 0)]
  | .mount mount (some target) =>
    if inside.any (·.same target) then []
    else match net.router? target with
      | none => []
      | some next => emitted net (target :: inside) (mountBelow outer mount.path) target next
  | .mount _ none => []

/-- **What is emitted below a router is what its entries emit**, wherever they stand. -/
theorem emitted_eq (inside : List RouterKey) (outer : String) (key : RouterKey)
    (t : LinkedRouter) :
    emitted net inside outer key t = t.entries.flatMap (emittedBy net inside outer key) := by
  calc emitted net inside outer key t
      = t.entries.zipIdx.flatMap fun e => emittedBy net inside outer key e.1 := by
        rw [emitted, listings, stops_eq, filterMap_flatMap, map_flatMap]
        congr 1
        funext e
        rcases e with ⟨draft | ⟨mount, _ | target⟩, index⟩
        · rfl
        · rfl
        simp only [stopsBehind, LinkedEntry.enters?, emittedBy]
        rw [filterMap_cons_none rfl]
        cases inside.any (·.same target) with
        | true => rfl
        | false =>
          cases net.router? target with
          | none => rfl
          | some next =>
            simp only [Bool.false_eq_true, if_false, map_some, Stop.filterMap_listing?_behind,
              List.map_map]
            refine map_congr_left fun l _ => ?_
            simp only [Function.comp_apply, Listing.owner, Listing.behind, map_cons, getLastD_cons]
            rfl
    _ = (t.entries.zipIdx.map (·.1)).flatMap (emittedBy net inside outer key) := by
        rw [flatMap_map]
    _ = t.entries.flatMap (emittedBy net inside outer key) := by
        rw [zipIdx_map_fst]

def emittedFrom (net : Network) (start : RouterKey) : List (RouterKey × Resource) :=
  match net.router? start with
  | none => []
  | some t => emitted net [start] "" start t

theorem emissions_unnumbered :
    (emissions net).map (fun e => (e.1, e.2.unnumbered)) =
      (starts net).flatMap (emittedFrom net) := by
  have hlisted : ∀ start, (listedFrom net start).map (fun e => (e.1, e.2.resource 0)) =
      emittedFrom net start := by
    intro start
    unfold listedFrom listingsFrom stopsFrom emittedFrom
    cases net.router? start with
    | none => rfl
    | some t => simp [emitted, listings, Listing.resourceBelow_empty]
  have hfrom : emittedFrom net = fun start =>
      (listedFrom net start).map fun e => (e.1, e.2.resource 0) :=
    funext fun start => (hlisted start).symm
  rw [hfrom, ← map_flatMap]
  apply ext_getElem?
  intro i
  simp only [emissions, getElem?_map, getElem?_mapIdx, Option.map_map]
  rfl

/-! ## Networks that differ in some drafts -/

def LinkedEntry.isMount : LinkedEntry → Bool
  | .resource _ => false
  | .mount _ _ => true

theorem flatMap_eq_flatMap_filter {α β : Type} {f : α → List β} {p : α → Bool}
    (h : ∀ a, p a = false → f a = []) (l : List α) : l.flatMap f = (l.filter p).flatMap f := by
  induction l with
  | nil => rfl
  | cons a l ih =>
    cases hp : p a with
    | false => simp [hp, h a hp, ih]
    | true => simp [hp, ih]

section Outside

variable {hidden : RouterKey → Bool}

def LinkedRouter.outside (hidden : RouterKey → Bool) (t : LinkedRouter) : LinkedRouter :=
  if hidden t.key then { t with entries := t.entries.filter (·.isMount) } else t

/-- **The networks differ at most in the drafts of hidden routers.** -/
structure AgreeOutside (hidden : RouterKey → Bool) (net net' : Network) : Prop where
  router : ∀ key, (net.router? key).map (·.outside hidden) =
    (net'.router? key).map (·.outside hidden)
  congr : ∀ a b : RouterKey, a.same b → hidden a = hidden b

namespace LinkedRouter

variable (t : LinkedRouter)

@[simp] theorem outside_key : (t.outside hidden).key = t.key := by
  unfold outside
  split <;> rfl

@[simp] theorem outside_relPath : (t.outside hidden).relPath = t.relPath := by
  unfold outside
  split <;> rfl

theorem mem_entries_outside {t : LinkedRouter} {m : Mount} {target : Option RouterKey} :
    .mount m target ∈ (t.outside hidden).entries ↔ .mount m target ∈ t.entries := by
  unfold outside
  split
  · simp [LinkedEntry.isMount]
  · rfl

/-- What only looks at mounts does not see whether the drafts are there. -/
theorem any_outside {p : LinkedEntry → Bool} (hp : ∀ d, p (.resource d) = false)
    (t : LinkedRouter) : (t.outside hidden).entries.any p = t.entries.any p := by
  unfold outside
  split
  · rw [List.any_filter]
    congr 1
    funext entry
    cases entry with
    | resource d => simp [hp]
    | mount m target => rfl
  · rfl

@[simp] theorem outside_isValid : (t.outside hidden).isValid = t.isValid := by
  have hflag : (t.outside hidden).fromFactory = t.fromFactory := by
    unfold outside
    split <;> rfl
  unfold isValid
  rw [hflag, any_outside fun d => rfl]

theorem le_outside (a b : LinkedRouter) : (a.outside hidden).le (b.outside hidden) = a.le b := by
  simp [le]

end LinkedRouter

namespace Network

theorem isMounted_outside (key : RouterKey) :
    isMounted (net.map (·.outside hidden)) key = net.isMounted key := by
  simp only [isMounted, List.any_map]
  congr 1
  funext t
  exact any_outside (fun d => rfl) t

/-- The walk takes routers in an order that does not hang on their drafts. -/
theorem roots_outside : roots (net.map (·.outside hidden)) = net.roots := by
  have hvalid : ((net.map (·.outside hidden)).filter isValid).mergeSort le
      = ((net.filter isValid).mergeSort le).map (·.outside hidden) := by
    rw [map_mergeSort (s := le) fun a _ b _ => (le_outside a b).symm, List.filter_map]
    simp [Function.comp_def]
  rw [roots_eq, roots_eq, rootRouters, rootRouters, hvalid]
  simp [isMounted_outside, List.filter_map, Function.comp_def]

/-- **The order in which the walk takes routers does not hang on how the network lists them.** -/
theorem Distinct.roots_perm (hnet : net.Distinct) (h : net.Perm net') : net.roots = net'.roots := by
  have hmounted : net.isMounted = net'.isMounted := by
    funext key
    exact h.any_eq
  have hvalid : (net.filter isValid).mergeSort le = (net'.filter isValid).mergeSort le := by
    have hsorted := pairwise_mergeSort (fun a b c => @le_trans a b c)
      (fun a b => by simpa using le_total a b)
    refine List.Perm.eq_of_pairwise (fun a b ha hb hab hba => ?_) (hsorted _) (hsorted _) ?_
    · have ha : a ∈ net := (mem_filter.mp (mem_mergeSort.mp ha)).1
      have hb : b ∈ net := h.mem_iff.mpr (mem_filter.mp (mem_mergeSort.mp hb)).1
      exact hnet.eq_of_same ha hb (same_of_le_of_le hab hba)
    · exact (mergeSort_perm _ _).trans ((h.filter _).trans (mergeSort_perm _ _).symm)
  rw [roots_eq, roots_eq, Network.rootRouters, Network.rootRouters, hvalid, hmounted]

theorem Distinct.mem_map_outside (hnet : net.Distinct) {u : LinkedRouter} :
    u ∈ net.map (·.outside hidden) ↔ (net.router? u.key).map (·.outside hidden) = some u := by
  rw [List.mem_map, map_eq_some_iff]
  constructor
  · rintro ⟨t, ht, rfl⟩
    exact ⟨t, by rw [outside_key, hnet.router?_key ht], rfl⟩
  · rintro ⟨t, ht, rfl⟩
    exact ⟨t, mem_of_find?_eq_some ht, rfl⟩

theorem Distinct.outside (hnet : net.Distinct) : Distinct (net.map (·.outside hidden)) := by
  unfold Distinct
  rw [List.map_map]
  simp only [Function.comp_def, outside_key]
  exact hnet

theorem Distinct.nodup (hnet : net.Distinct) : List.Nodup net :=
  (pairwise_map.mp hnet).imp fun hother heq => by
    rw [heq, RouterKey.same_refl] at hother
    cases hother

end Network

namespace AgreeOutside

variable (h : AgreeOutside hidden net net')
include h

theorem symm : AgreeOutside hidden net' net where
  router key := (h.router key).symm
  congr := h.congr

theorem exists_router {key : RouterKey} {t : LinkedRouter} (ht : net.router? key = some t) :
    ∃ t', net'.router? key = some t' ∧ t.outside hidden = t'.outside hidden := by
  have hmap := h.router key
  rw [ht] at hmap
  obtain ⟨t', ht', heq⟩ := map_eq_some_iff.mp hmap.symm
  exact ⟨t', ht', heq.symm⟩

theorem roots_eq (hnet : net.Distinct) (hnet' : net'.Distinct) : net.roots = net'.roots := by
  have hperm : (net.map (·.outside hidden)).Perm (net'.map (·.outside hidden)) := by
    rw [perm_ext_iff_of_nodup hnet.outside.nodup hnet'.outside.nodup]
    intro u
    rw [hnet.mem_map_outside, hnet'.mem_map_outside, h.router]
  calc net.roots = roots (net.map (·.outside hidden)) := (roots_outside).symm
    _ = roots (net'.map (·.outside hidden)) := hnet.outside.roots_perm hperm
    _ = net'.roots := roots_outside

theorem mountChain {a b : RouterKey} {hops : List Hop} (hchain : MountChain net a hops b) :
    LeadsTo net' a b := by
  induction hchain with
  | here key => exact .refl key
  | @hop key last t hop hops ht he _ ih =>
    obtain ⟨t', ht', heq⟩ := h.exists_router ht
    have hmem : LinkedEntry.mount hop.mount (some hop.target) ∈ t'.entries := by
      have hfirst : .mount hop.mount (some hop.target) ∈ (t.outside hidden).entries :=
        mem_entries_outside.mpr (mem_of_getElem? he)
      rw [heq] at hfirst
      exact mem_entries_outside.mp hfirst
    exact (Mounts.leadsTo ⟨t', hop.mount, ht', hmem⟩).trans ih

theorem leadsTo_iff {a b : RouterKey} : LeadsTo net a b ↔ LeadsTo net' a b := by
  constructor
  · rintro ⟨hops, last, hchain, hsame⟩
    exact (h.mountChain hchain).trans (.of_same hsame)
  · rintro ⟨hops, last, hchain, hsame⟩
    exact (h.symm.mountChain hchain).trans (.of_same hsame)

/-- The starts among some roots are the same, if the walks before them have covered the same. -/
theorem startsAmong_eq {roots : List RouterKey} :
    ∀ {earlier : List RouterKey} {w w' : Walk}, (∀ r ∈ roots, ∃ t, net.router? r = some t) →
      w.Covers net earlier → w'.Covers net' earlier →
      startsAmong net w roots = startsAmong net' w' roots := by
  induction roots with
  | nil => exact fun _ _ _ => rfl
  | cons key roots ih =>
    intro earlier w w' hroots hw hw'
    obtain ⟨t, ht⟩ := hroots key mem_cons_self
    obtain ⟨t', ht', -⟩ := h.exists_router ht
    have hvisited : w.visited.any (·.same key) = w'.visited.any (·.same key) := by
      rw [Bool.eq_iff_iff, hw key t ht, hw' key t' ht']
      simp [h.leadsTo_iff]
    have hrest := ih (fun r hr => hroots r (mem_cons_of_mem key hr)) (hw.walkRoot ht)
      (hw'.walkRoot ht')
    rw [startsAmong, startsAmong, hvisited, hrest]

/-- **Both walks have the same starts.** -/
theorem starts_eq (hnet : net.Distinct) (hnet' : net'.Distinct) : starts net = starts net' := by
  rw [starts, starts, ← h.roots_eq hnet hnet']
  exact h.startsAmong_eq (fun r hr => router?_of_mem_roots hr) (Walk.covers_empty net)
    (Walk.covers_empty net')

/-- **Below one router both walks emit the same** for the routers that are not hidden. -/
theorem emitted_eq {inside : List RouterKey} :
    ∀ (outer : String) {key : RouterKey} {t t' : LinkedRouter}, net.router? key = some t →
      net'.router? key = some t' →
      (emitted net inside outer key t).filter (fun e => !hidden e.1) =
        (emitted net' inside outer key t').filter fun e => !hidden e.1 := by
  induction inside using entering_induction net with
  | step inside ih =>
    intro outer key t t' ht ht'
    have houtside := h.router key
    rw [ht, ht', map_some, map_some, Option.some.injEq] at houtside
    have hkey : hidden t.key = hidden key := h.congr _ _ (key_same_of_router? ht)
    have hkey' : hidden t'.key = hidden key := h.congr _ _ (key_same_of_router? ht')
    have hentry :
        (fun entry => (emittedBy net inside outer key entry).filter fun e => !hidden e.1) =
        fun entry => (emittedBy net' inside outer key entry).filter fun e => !hidden e.1 := by
      funext entry
      cases entry with
      | resource d => rfl
      | mount m target =>
        rcases target with _ | target
        · rfl
        simp only [emittedBy]
        split
        · rfl
        rename_i hnew
        cases hn : net.router? target with
        | none =>
          have hmap := h.router target
          rw [hn] at hmap
          rw [map_eq_none_iff.mp hmap.symm]
        | some next =>
          obtain ⟨next', hn', -⟩ := h.exists_router hn
          rw [hn']
          exact ih target next hn (by simpa using hnew) _ hn hn'
    rw [Inventory.emitted_eq, Inventory.emitted_eq, filter_flatMap, filter_flatMap, hentry]
    cases hhidden : hidden key with
    | false =>
      obtain rfl : t = t' := by
        simpa [outside, hkey, hkey', hhidden] using houtside
      rfl
    | true =>
      have hmounts : t.entries.filter (·.isMount) = t'.entries.filter (·.isMount) := by
        have hentries := congrArg entries houtside
        simpa [outside, hkey, hkey', hhidden] using hentries
      -- a hidden router's own drafts are left out, so only its mounts count
      have hdraft : ∀ entry : LinkedEntry, entry.isMount = false →
          (emittedBy net' inside outer key entry).filter (fun e => !hidden e.1) = [] := by
        intro entry hentry
        cases entry with
        | resource d => simp [emittedBy, hhidden]
        | mount m target => cases hentry
      rw [flatMap_eq_flatMap_filter hdraft, hmounts, ← flatMap_eq_flatMap_filter hdraft]

/-- **The walk emits the same for all routers whose drafts are the same**, in the same order. -/
theorem emissions_eq (hnet : net.Distinct) (hnet' : net'.Distinct) :
    ((emissions net).filter fun e => !hidden e.1).map (fun e => (e.1, e.2.unnumbered)) =
      ((emissions net').filter fun e => !hidden e.1).map fun e => (e.1, e.2.unnumbered) := by
  have hfilter : ∀ net : Network,
      ((emissions net).filter fun e => !hidden e.1).map (fun e => (e.1, e.2.unnumbered)) =
        (starts net).flatMap fun start => (emittedFrom net start).filter fun e => !hidden e.1 := by
    intro net
    rw [← filter_flatMap, ← emissions_unnumbered, List.filter_map]
    rfl
  rw [hfilter, hfilter, ← h.starts_eq hnet hnet']
  congr 1
  funext start
  unfold emittedFrom
  cases ht : net.router? start with
  | none =>
    have hmap := h.router start
    rw [ht] at hmap
    rw [map_eq_none_iff.mp hmap.symm]
  | some t =>
    obtain ⟨t', ht', -⟩ := h.exists_router ht
    rw [ht']
    exact h.emitted_eq "" ht ht'

end AgreeOutside

end Outside

end RouteAtlas.Inventory
