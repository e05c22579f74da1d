import Mathlib.Data.List.Pairwise
import RouteAtlas.Proofs.Linking
import RouteAtlas.Proofs.MountChains

/-!
# Where the walk starts

The walk takes the valid routers in order: those that are mounted nowhere first, then all others by
file and place. It starts at a router unless it has come to it before. A start is walked below no
path at all, so it matters that a mounted router is no start if it can be helped.
-/

open List

namespace RouteAtlas.Inventory

open RouterKey Network LinkedRouter

variable {net : Network}
variable {a b key : RouterKey} {t : LinkedRouter}

/-! ## Mounts -/

/-- **One router mounts another one.** -/
def Mounts (net : Network) (a b : RouterKey) : Prop :=
  ∃ t m, net.router? a = some t ∧ LinkedEntry.mount m (some b) ∈ t.entries

/-- **Mounts lead from a router back to it.** -/
def OnCycle (net : Network) (key : RouterKey) : Prop :=
  ∃ next, Mounts net key next ∧ LeadsTo net next key

theorem Mounts.leadsTo (h : Mounts net a b) : LeadsTo net a b := by
  obtain ⟨t, m, ht, he⟩ := h
  obtain ⟨index, hget⟩ := getElem?_of_mem he
  exact ⟨[⟨index, m, b⟩], b, .hop ht hget (.here b), same_refl b⟩

theorem MountChain.last_mount {last : RouterKey} {hops : List Hop}
    (h : MountChain net a hops last) :
    last = a ∨ ∃ mid, LeadsTo net a mid ∧ Mounts net mid last := by
  induction h with
  | here => exact .inl rfl
  | @hop key last t h hops ht he _ ih =>
    have hmounts : Mounts net key h.target := ⟨t, h.mount, ht, mem_of_getElem? he⟩
    rcases ih with rfl | ⟨mid, hmid, hlast⟩
    · exact .inr ⟨key, .refl key, hmounts⟩
    · exact .inr ⟨mid, hmounts.leadsTo.trans hmid, hlast⟩

theorem LeadsTo.last_mount (h : LeadsTo net a b) :
    a.same b ∨ ∃ mid last, LeadsTo net a mid ∧ Mounts net mid last ∧ last.same b := by
  obtain ⟨hops, last, hchain, hlast⟩ := h
  rcases hchain.last_mount with rfl | ⟨mid, hmid, hmounts⟩
  · exact .inl hlast
  · exact .inr ⟨mid, last, hmid, hmounts, hlast⟩

theorem LeadsTo.first_router (h : LeadsTo net a b) : a.same b ∨ ∃ t, net.router? a = some t := by
  obtain ⟨hops, last, hchain, hlast⟩ := h
  cases hchain with
  | here => exact .inl hlast
  | hop ht _ _ => exact .inr ⟨_, ht⟩

theorem Network.isMounted_congr (h : a.same b) : net.isMounted a = net.isMounted b := by
  unfold isMounted
  simp [same_congr_right h]

/-! ## Networks with distinct keys -/

namespace Network

theorem Distinct.eq_of_same (hnet : net.Distinct) {t u : LinkedRouter} (ht : t ∈ net) (hu : u ∈ net)
    (h : t.key.same u.key) : t = u := by
  rw [Distinct, pairwise_map] at hnet
  have : Std.Symm fun a b : LinkedRouter => a.key.same b.key = false :=
    ⟨fun _ _ hother => same_comm ▸ hother⟩
  by_contra hne
  cases h.symm.trans (hnet.forall ht hu hne)

theorem Distinct.router?_key (hnet : net.Distinct) {t : LinkedRouter} (ht : t ∈ net) :
    net.router? t.key = some t := by
  have hfound : (net.router? t.key).isSome :=
    find?_isSome.mpr ⟨t, ht, same_refl t.key⟩
  obtain ⟨u, hu⟩ := Option.isSome_iff_exists.mp hfound
  rw [hu, hnet.eq_of_same (mem_of_find?_eq_some hu) ht (key_same_of_router? hu)]

theorem Distinct.isMounted_iff (hnet : net.Distinct) {key : RouterKey} :
    net.isMounted key ↔ ∃ a b, Mounts net a b ∧ b.same key := by
  simp only [isMounted, any_eq_true, Option.any_eq_true]
  constructor
  · rintro ⟨t, ht, entry, he, b, hb, hsame⟩
    rcases entry with draft | ⟨m, target⟩
    · cases hb
    · obtain rfl : target = some b := hb
      exact ⟨t.key, b, ⟨t, m, hnet.router?_key ht, he⟩, hsame⟩
  · rintro ⟨a, b, ⟨t, m, ht, he⟩, hsame⟩
    exact ⟨t, mem_of_find?_eq_some ht, _, he, b, rfl, hsame⟩

/-- Only the router itself leads to a router that is mounted nowhere. -/
theorem Distinct.same_of_leadsTo (hnet : net.Distinct) {a key : RouterKey}
    (hfree : net.isMounted key = false) (h : LeadsTo net a key) : a.same key := by
  rcases h.last_mount with hsame | ⟨mid, last, -, hmounts, hlast⟩
  · exact hsame
  · rw [hnet.isMounted_iff.mpr ⟨mid, last, hmounts, hlast⟩] at hfree
    cases hfree

/-- **Every router hangs off a cycle or off a router that is mounted nowhere.** Going back from
mount to mount comes to a router twice unless it ends somewhere. -/
theorem Distinct.origin (hnet : net.Distinct) (key : RouterKey) :
    (∃ c, LeadsTo net c key ∧ OnCycle net c) ∨
      ∃ a, LeadsTo net a key ∧ net.isMounted a = false := by
  -- `inside` are the routers that we have gone back through; the one we are at leads to all of them
  have hback : ∀ inside : List RouterKey, ∀ a, LeadsTo net a key →
      (∀ b ∈ inside, LeadsTo net a b) →
      (∃ c, LeadsTo net c key ∧ OnCycle net c) ∨
        ∃ a, LeadsTo net a key ∧ net.isMounted a = false := by
    intro inside
    induction inside using entering_induction net with
    | step inside ih =>
      intro a ha hinside
      cases hmounted : net.isMounted a with
      | false => exact .inr ⟨a, ha, hmounted⟩
      | true =>
        obtain ⟨p, b, hp, hb⟩ := hnet.isMounted_iff.mp hmounted
        have hpa : LeadsTo net p a := hp.leadsTo.trans (.of_same hb)
        have hpk : LeadsTo net p key := hpa.trans ha
        cases hseen : inside.any (·.same p) with
        | true =>
          obtain ⟨q, hq, hsame⟩ := any_eq_true.mp hseen
          have hback : LeadsTo net b p :=
            ((LeadsTo.of_same hb).trans (hinside q hq)).trans (.of_same hsame)
          exact .inl ⟨p, hpk, b, hp, hback⟩
        | false =>
          obtain ⟨t, m, ht, he⟩ := hp
          refine ih p t ht hseen p hpk fun q hq => ?_
          rcases mem_cons.mp hq with rfl | hq
          · exact .refl q
          · exact hpa.trans (hinside q hq)
  exact hback [] key (.refl key) (by simp)

end Network

/-! ## Starts among the roots -/

/-- A root is a start if and only if none of the roots before it leads to it. -/
theorem mem_startsAmong_iff {roots : List RouterKey} :
    ∀ {earlier : List RouterKey} {w : Walk}, (∀ r ∈ roots, ∃ t, net.router? r = some t) →
      w.Covers net earlier →
      (key ∈ startsAmong net w roots ↔ ∃ before after, roots = before ++ key :: after ∧
        ∀ r, r ∈ earlier ∨ r ∈ before → ¬ LeadsTo net r key) := by
  induction roots with
  | nil => simp [startsAmong]
  | cons r roots ih =>
    intro earlier w hroots hw
    obtain ⟨t, ht⟩ := hroots r mem_cons_self
    have hrest := ih (fun r' hr' => hroots r' (mem_cons_of_mem r hr')) (hw.walkRoot ht)
    -- the root at hand, and then one of the others, behind it
    have hsplit : key ∈ startsAmong net w (r :: roots) ↔
        (key = r ∧ ∀ e ∈ earlier, ¬ LeadsTo net e r) ∨
          key ∈ startsAmong net (walkRoot net w r) roots := by
      rw [startsAmong]
      have hr := hw r t ht
      split
      · rename_i hold
        obtain ⟨e, he, hlead⟩ := hr.mp hold
        exact ⟨.inr, fun h => h.resolve_left fun hself => hself.2 e he hlead⟩
      · rename_i hnew
        rw [mem_cons]
        refine or_congr_left ⟨fun hkey => ⟨hkey, fun e he hlead => ?_⟩, And.left⟩
        exact hnew (hr.mpr ⟨e, he, hlead⟩)
    rw [hsplit, hrest]
    constructor
    · rintro (⟨rfl, hself⟩ | ⟨before, after, rfl, hnone⟩)
      · exact ⟨[], roots, rfl, fun e he => hself e (by simpa using he)⟩
      · refine ⟨r :: before, after, rfl, fun e he => hnone e ?_⟩
        grind
    · rintro ⟨before, after, heq, hnone⟩
      cases before with
      | nil =>
        obtain ⟨rfl, -⟩ := cons_eq_cons.mp heq
        exact .inl ⟨rfl, fun e he => hnone e (.inl he)⟩
      | cons b before =>
        obtain ⟨rfl, rfl⟩ := cons_eq_cons.mp heq
        refine .inr ⟨before, after, rfl, fun e he => hnone e ?_⟩
        grind

/-- **A root is a start if and only if no root before it leads to it.** -/
theorem mem_starts_iff_split :
    key ∈ starts net ↔ ∃ before after, net.roots = before ++ key :: after ∧
      ∀ r ∈ before, ¬ LeadsTo net r key := by
  rw [starts, mem_startsAmong_iff (fun r hr => router?_of_mem_roots hr) (Walk.covers_empty net)]
  simp

/-- **To every root leads a start.** -/
theorem exists_start_of_mem_roots (h : key ∈ net.roots) : ∃ s ∈ starts net, LeadsTo net s key := by
  -- a root is a start, or we go back to one that leads to it
  have hback : ∀ before key after, net.roots = before ++ key :: after →
      ∃ s ∈ starts net, LeadsTo net s key := by
    intro before
    induction hn : before.length using Nat.strongRecOn generalizing before with
    | ind n ih =>
      intro key after heq
      by_cases hlead : ∃ r ∈ before, LeadsTo net r key
      · obtain ⟨r, hr, hrk⟩ := hlead
        obtain ⟨front, back, rfl⟩ := append_of_mem hr
        have hshort : front.length < n := by
          rw [← hn, length_append, length_cons]
          omega
        rw [append_assoc] at heq
        obtain ⟨s, hs, hsr⟩ := ih _ hshort front rfl r _ heq
        exact ⟨s, hs, hsr.trans hrk⟩
      · refine ⟨key, mem_starts_iff_split.mpr ⟨before, after, heq, fun r hr hrk => ?_⟩, .refl key⟩
        exact hlead ⟨r, hr, hrk⟩
  obtain ⟨before, after, heq⟩ := append_of_mem h
  exact hback before key after heq

/-! ## The order of the roots -/

namespace LinkedRouter

variable {a b c : LinkedRouter}

def compare : LinkedRouter → LinkedRouter → Ordering :=
  compareLex (compareOn (·.relPath))
    (compareLex (compareOn (·.key.offset)) (compareOn (·.key.file)))

instance : Std.TransCmp compare :=
  inferInstanceAs (Std.TransCmp (compareLex (compareOn _) (compareLex (compareOn _) (compareOn _))))

theorem le_eq (a b : LinkedRouter) : a.le b = (compare a b).isLE := by
  simp only [le, compare, compareLex, compareOn]
  cases hpath : Ord.compare a.relPath b.relPath with
  | lt =>
    have hlt := compareOfLessAndEq_eq_lt.mp hpath
    simp [hlt, String.ne_of_lt hlt]
  | gt =>
    have hback : Ord.compare b.relPath a.relPath = .lt := Std.OrientedCmp.gt_iff_lt.mp hpath
    have hlt := compareOfLessAndEq_eq_lt.mp hback
    simp [String.lt_asymm hlt, (String.ne_of_lt hlt).symm]
  | eq =>
    rw [Std.LawfulEqCmp.eq_of_compare hpath]
    rcases Nat.lt_trichotomy a.key.offset b.key.offset with h | h | h
    · simp [h, Nat.compare_eq_lt.mpr h]
    · rw [h]
      simp
      rfl
    · simp [Nat.lt_asymm h, Nat.ne_of_gt h, Nat.compare_eq_gt.mpr h]

theorem le_trans (hab : a.le b) (hbc : b.le c) : a.le c := by
  rw [le_eq] at *
  exact Std.TransCmp.isLE_trans hab hbc

theorem le_total (a b : LinkedRouter) : a.le b ∨ b.le a := by
  rw [le_eq, le_eq, ← Std.OrientedCmp.isGE_eq_isLE (a := a)]
  cases compare a b <;> simp

theorem same_of_le_of_le (hab : a.le b) (hba : b.le a) : a.key.same b.key := by
  rw [le_eq] at *
  have heq := Std.OrientedCmp.isLE_antisymm hab hba
  simp only [compare, compareLex, compareOn, Ordering.then_eq_eq, Nat.compare_eq_eq] at heq
  simpa [same, heq.2.1] using Path.compare_eq_iff_same.mp heq.2.2

end LinkedRouter

namespace Network

/-- The routers to walk from: the valid ones in order, those that are mounted nowhere first. -/
def rootRouters (net : Network) : List LinkedRouter :=
  let valid := (net.filter isValid).mergeSort le
  valid.filter (fun t => !net.isMounted t.key) ++ valid.filter fun t => net.isMounted t.key

theorem roots_eq (net : Network) : net.roots = net.rootRouters.map (·.key) := by
  rw [roots, partition_eq_filter_filter]
  rfl

theorem rootRouters_perm : net.rootRouters.Perm (net.filter isValid) :=
  (perm_append_comm.trans (filter_append_perm _ _)).trans (mergeSort_perm _ _)

theorem mem_rootRouters_iff {t : LinkedRouter} : t ∈ net.rootRouters ↔ t ∈ net ∧ t.isValid := by
  rw [(rootRouters_perm).mem_iff, mem_filter]

theorem Distinct.rootRouters (hnet : net.Distinct) :
    net.rootRouters.Pairwise fun a b => a.key.same b.key = false := by
  have hsymm : ∀ {a b : LinkedRouter}, a.key.same b.key = false → b.key.same a.key = false :=
    fun h => same_comm ▸ h
  rw [(rootRouters_perm).pairwise_iff hsymm]
  exact (pairwise_map.mp hnet).filter _

theorem mem_roots_of_isValid {t : LinkedRouter} (ht : t ∈ net) (hvalid : t.isValid) :
    t.key ∈ net.roots := by
  rw [roots_eq]
  exact mem_map_of_mem (mem_rootRouters_iff.mpr ⟨ht, hvalid⟩)

/-- Behind a mounted router come only mounted ones, and none that is before it in file order. -/
theorem rootRouters_ordered (net : Network) : net.rootRouters.Pairwise fun a b =>
    net.isMounted a.key → net.isMounted b.key ∧ a.le b := by
  have hsorted := pairwise_mergeSort (fun a b c => @le_trans a b c)
    (fun a b => by simpa using le_total a b) (net.filter isValid)
  refine pairwise_append.mpr ⟨?_, ?_, fun a ha b hb hmounted => ?_⟩
  · refine (hsorted.filter _).imp_of_mem fun {a b} ha _ _ hmounted => ?_
    simp [hmounted] at ha
  · refine (hsorted.filter _).imp_of_mem fun {a b} _ hb hle _ => ⟨?_, hle⟩
    simpa using (mem_filter.mp hb).2
  · simp [hmounted] at ha

end Network

/-- **A valid router that the walk takes before another one leads to it**: one that is mounted
nowhere, or one that comes before it in file order. -/
def TakenEarlier (net : Network) (t : LinkedRouter) : Prop :=
  ∃ u ∈ net, u.isValid ∧ LeadsTo net u.key t.key ∧
    (net.isMounted u.key = false ∨ t.le u = false)

/-- A router is a start if and only if it is taken as a root and none before it leads to it. -/
theorem mem_starts_iff_rootRouters (hnet : net.Distinct) (ht : t ∈ net) :
    t.key ∈ starts net ↔ ∃ front back, net.rootRouters = front ++ t :: back ∧
      ∀ u ∈ front, ¬ LeadsTo net u.key t.key := by
  rw [mem_starts_iff_split, roots_eq]
  constructor
  · rintro ⟨before, after, heq, hnone⟩
    obtain ⟨front, back, hroots, rfl, hback⟩ := map_eq_append_iff.mp heq
    obtain ⟨t', back, rfl, hkey, -⟩ := map_eq_cons_iff.mp hback
    have ht' : t' ∈ net ∧ t'.isValid :=
      mem_rootRouters_iff.mp (hroots ▸ mem_append_right _ mem_cons_self)
    obtain rfl : t' = t := hnet.eq_of_same ht'.1 ht (hkey ▸ same_refl _)
    exact ⟨front, back, hroots, fun u hu => hnone u.key (mem_map_of_mem hu)⟩
  · rintro ⟨front, back, hroots, hnone⟩
    refine ⟨front.map (·.key), back.map (·.key), by rw [hroots]; simp, fun r hr => ?_⟩
    obtain ⟨u, hu, rfl⟩ := mem_map.mp hr
    exact hnone u hu

/-- **Which routers are starts**: the valid ones that are mounted nowhere, and of the mounted ones
those to which no router leads that is taken earlier. -/
theorem mem_starts_iff (hnet : net.Distinct) (ht : t ∈ net) :
    t.key ∈ starts net ↔ t.isValid ∧ (net.isMounted t.key = false ∨ ¬ TakenEarlier net t) := by
  rw [mem_starts_iff_rootRouters hnet ht]
  constructor
  · rintro ⟨front, back, hroots, hnone⟩
    have hvalid : t ∈ net ∧ t.isValid :=
      mem_rootRouters_iff.mp (hroots ▸ mem_append_right _ mem_cons_self)
    refine ⟨hvalid.2, ?_⟩
    cases hmounted : net.isMounted t.key with
    | false => exact .inl rfl
    | true =>
      refine .inr ?_
      rintro ⟨u, hu, huvalid, hlead, hearlier⟩
      -- what leads to the router stands at its place or behind it
      have hmem := hroots ▸ mem_rootRouters_iff.mpr ⟨hu, huvalid⟩
      have hordered := (pairwise_append.mp (hroots ▸ net.rootRouters_ordered)).2.1
      have hbehind : net.isMounted u.key ∧ t.le u := by
        rcases mem_append.mp hmem with hfront | hback
        · exact absurd hlead (hnone u hfront)
        · rcases mem_cons.mp hback with rfl | hback
          · exact ⟨hmounted, (le_total u u).elim id id⟩
          · exact (pairwise_cons.mp hordered).1 u hback hmounted
      simp [hbehind] at hearlier
  · rintro ⟨hvalid, hfirst⟩
    obtain ⟨front, back, hroots⟩ :=
      append_of_mem (mem_rootRouters_iff.mpr ⟨ht, hvalid⟩)
    refine ⟨front, back, hroots, fun u hu hlead => ?_⟩
    have hunet : u ∈ net ∧ u.isValid :=
      mem_rootRouters_iff.mp (hroots ▸ mem_append_left _ hu)
    have hother : u.key.same t.key = false :=
      (pairwise_append.mp (hroots ▸ hnet.rootRouters)).2.2 u hu t mem_cons_self
    have hbefore :=
      (pairwise_append.mp (hroots ▸ net.rootRouters_ordered)).2.2 u hu t mem_cons_self
    rcases hfirst with hfree | hfirst
    · rw [hnet.same_of_leadsTo hfree hlead] at hother
      cases hother
    refine hfirst ⟨u, hunet.1, hunet.2, hlead, ?_⟩
    cases hmounted : net.isMounted u.key with
    | false => exact .inl rfl
    | true =>
      refine .inr (Bool.eq_false_iff.mpr fun hle => ?_)
      rw [same_of_le_of_le (hbefore hmounted).2 hle] at hother
      cases hother

theorem exists_router_of_mem_starts (h : key ∈ starts net) :
    ∃ t ∈ net, t.isValid ∧ t.key = key := by
  have hroot := mem_roots_of_mem_starts h
  rw [roots_eq] at hroot
  obtain ⟨t, ht, rfl⟩ := mem_map.mp hroot
  obtain ⟨hmem, hvalid⟩ := mem_rootRouters_iff.mp ht
  exact ⟨t, hmem, hvalid, rfl⟩

/-- A mounted start hangs off a cycle, or off something that is mounted nowhere and no router. -/
theorem hangs_of_mem_starts (hnet : net.Distinct) (h : key ∈ starts net) :
    net.isMounted key = false ∨ (∃ c, LeadsTo net c key ∧ OnCycle net c) ∨
      ∃ u ∈ net, u.isValid = false ∧ net.isMounted u.key = false ∧ LeadsTo net u.key key := by
  obtain ⟨t, ht, hvalid, rfl⟩ := exists_router_of_mem_starts h
  rcases ((mem_starts_iff hnet ht).mp h).2 with hfree | hfirst
  · exact .inl hfree
  rcases hnet.origin t.key with hcycle | ⟨a, hlead, hfree⟩
  · exact .inr (.inl hcycle)
  rcases hlead.first_router with hsame | ⟨u, hu⟩
  · exact .inl (isMounted_congr hsame ▸ hfree)
  have hkey := key_same_of_router? hu
  have hfree' : net.isMounted u.key = false := isMounted_congr hkey ▸ hfree
  have hlead' : LeadsTo net u.key t.key := (LeadsTo.of_same hkey).trans hlead
  have hmem := mem_of_find?_eq_some hu
  refine .inr (.inr ⟨u, hmem, ?_, hfree', hlead'⟩)
  rw [← Bool.not_eq_true]
  exact fun huvalid => hfirst ⟨u, hmem, huvalid, hlead', .inl hfree'⟩

/-- **The starts of the walk over a graph.** The walk goes from one start after the other. A router
is a start if and only if it is valid and mounted nowhere, or valid and no valid router leads to it
that the walk takes earlier. So every start is mounted nowhere or lies on a cycle if and only if an
earlier router leads to each valid one that is mounted and on no cycle. In any case a start is
mounted nowhere, or hangs off a cycle, or hangs off something that is mounted nowhere and no router.
-/
theorem starts_iff_not_takenEarlier (g : Graph) {σ : Type}
    (resolve : String → Path → StateM σ (Option Path)) (s : σ) :
    let net := ((g.network resolve).run s).1
    walkAll net = (starts net).foldl (walkFrom net) {} ∧
    (∀ t ∈ net, t.key ∈ starts net ↔
      t.isValid = true ∧ (net.isMounted t.key = false ∨ ¬ TakenEarlier net t)) ∧
    ((∀ key ∈ starts net, net.isMounted key = false ∨ OnCycle net key) ↔
      ∀ t ∈ net, t.isValid = true → net.isMounted t.key = true → ¬ OnCycle net t.key →
        TakenEarlier net t) ∧
    ∀ key ∈ starts net, net.isMounted key = false ∨ (∃ c, LeadsTo net c key ∧ OnCycle net c) ∨
      ∃ u ∈ net, u.isValid = false ∧ net.isMounted u.key = false ∧ LeadsTo net u.key key := by
  intro net
  have hnet : net.Distinct := g.network_distinct resolve s
  refine ⟨walkAll_eq_foldl_starts net, fun t ht => mem_starts_iff hnet ht, ⟨?_, ?_⟩,
    fun key hkey => hangs_of_mem_starts hnet hkey⟩
  · intro hall t ht hvalid hmounted hcycle
    refine Classical.byContradiction fun hfirst => ?_
    rcases hall t.key ((mem_starts_iff hnet ht).mpr ⟨hvalid, .inr hfirst⟩) with hfree | hon
    · rw [hmounted] at hfree
      cases hfree
    · exact hcycle hon
  · intro hall key hkey
    obtain ⟨t, ht, hvalid, rfl⟩ := exists_router_of_mem_starts hkey
    rcases ((mem_starts_iff hnet ht).mp hkey).2 with hfree | hfirst
    · exact .inl hfree
    · cases hmounted : net.isMounted t.key with
      | false => exact .inl rfl
      | true =>
        exact .inr (Classical.byContradiction fun hcycle =>
          hfirst (hall t ht hvalid hmounted hcycle))

/-! ### Mounted routers that are starts -/

/-- A router that mounts nothing and is taken before all others is a start off every cycle. -/
theorem start_of_first (hnet : net.Distinct) (ht : t ∈ net) (hvalid : t.isValid)
    (hnone : ∀ e ∈ t.entries, e.target? = none)
    (hfirst : ∀ u ∈ net, u.isValid → net.isMounted u.key ∧ t.le u) :
    t.key ∈ starts net ∧ ¬ OnCycle net t.key := by
  constructor
  · refine (mem_starts_iff hnet ht).mpr ⟨hvalid, .inr ?_⟩
    rintro ⟨u, hu, huvalid, -, hearlier⟩
    obtain ⟨hmounted, hle⟩ := hfirst u hu huvalid
    simp [hmounted, hle] at hearlier
  · rintro ⟨next, ⟨t', m, ht', he⟩, -⟩
    rw [hnet.router?_key ht] at ht'
    cases ht'
    cases hnone _ he

def fileGraph (text : String) (bindings : List Binding) : Graph :=
  ({ root := ⟨"/p"⟩ } : Graph).replace
    (contributionWith (.ofText ⟨"/p"⟩ ⟨"/p/a.ts"⟩ text .typescript 1) bindings)

def hono : Binding := ⟨"Hono", "Hono", "hono", .named⟩

/-- A router mounts itself and another one that is made before it. -/
def hanging : Graph :=
  fileGraph "const z=new Hono(),a=new Hono();a.route('',a);a.route('',z)" [hono]

/-- A router is mounted by what a function gives that makes no router. -/
def strayed : Graph :=
  fileGraph "const z=new Hono(),x=f();x.route('',z)" [hono, ⟨"f", "f", "./f", .named⟩]

/-- The network of a graph in which no import is found. -/
def linked (g : Graph) : Network := ((g.network unresolved).run ()).1

theorem exists_first : ∀ g ∈ [hanging, strayed], ∃ t ∈ linked g,
    t.isValid ∧ (linked g).isMounted t.key ∧ (∀ e ∈ t.entries, e.target? = none) ∧
    ∀ u ∈ linked g, u.isValid → (linked g).isMounted u.key ∧ t.le u := by
  decide +kernel

theorem exists_start_off_cycle {g : Graph} (hg : g ∈ [hanging, strayed]) :
    ¬ ∀ key ∈ starts (linked g), (linked g).isMounted key = false ∨ OnCycle (linked g) key := by
  intro hall
  obtain ⟨t, ht, hvalid, hmounted, hnone, hfirst⟩ := exists_first g hg
  obtain ⟨hstart, hcycle⟩ :=
    start_of_first (g.network_distinct unresolved ()) ht hvalid hnone hfirst
  rcases hall t.key hstart with hfree | hon
  · rw [hmounted] at hfree
    cases hfree
  · exact hcycle hon

/-- **A mounted router can be a start although it lies on no cycle**: if it hangs off a cycle and
comes before it in the file, or if what mounts it is no router. -/
theorem starts_off_cycle :
    (¬ ∀ key ∈ starts (linked hanging),
      (linked hanging).isMounted key = false ∨ OnCycle (linked hanging) key) ∧
    ¬ ∀ key ∈ starts (linked strayed),
      (linked strayed).isMounted key = false ∨ OnCycle (linked strayed) key :=
  ⟨exists_start_off_cycle (by simp), exists_start_off_cycle (by simp)⟩

end RouteAtlas.Inventory
