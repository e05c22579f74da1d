import RouteAtlas.Inventory.Network
import RouteAtlas.Proofs.Pattern

/-!
# The walk lists the mount chains

A mount chain leads from a router through mounts to another router. The walk over a network has no
memory of where it has been apart from the chain that it is inside of, so it comes to a router once
for every chain that leads there and repeats no router. What it lists is said here without the walk:
`Enumerates` describes the listings below one start, `Starts` the routers that are starts at all.

Results:
* `visit_meets`: a visit adds what it meets below a router, and nothing else.
* `visit_visited`: the routers that a visit comes to are those that mounts lead to.
* `walkAll_adds`: what the whole walk adds, start by start.
* `walkAll_lists_mount_chains`: it lists the mount chains of its starts, each of them once.
-/

open List

namespace RouteAtlas.Inventory

open RouterKey Network Http.Pattern

variable {net : Network}
variable {a b key start last : RouterKey} {t u : LinkedRouter} {inside : List RouterKey}

/-! ## Chains -/

/-- One mount of a chain: which entry of its router it is, and the router that it leads to. -/
structure Hop where
  index : Nat
  mount : Mount
  target : RouterKey

variable {hops : List Hop}

/-- **A mount chain** from one router to another: each mount is an entry of the router that the
chain has come to. -/
inductive MountChain (net : Network) : RouterKey → List Hop → RouterKey → Prop
  | here (key : RouterKey) : MountChain net key [] key
  | hop {key last : RouterKey} {t : LinkedRouter} {h : Hop} {hops : List Hop}
      (ht : net.router? key = some t)
      (he : t.entries[h.index]? = some (.mount h.mount (some h.target)))
      (rest : MountChain net h.target hops last) : MountChain net key (h :: hops) last

def chainKeys (start : RouterKey) (hops : List Hop) : List RouterKey :=
  start :: hops.map (·.target)

def NoRepeat (keys : List RouterKey) : Prop := keys.Pairwise fun a b => a.same b = false

def LeadsTo (net : Network) (start key : RouterKey) : Prop :=
  ∃ hops last, MountChain net start hops last ∧ last.same key

/-! ## Listings -/

/-- A draft with the way to it: the mounts from the start, and its own place in its router. -/
structure Listing where
  hops : List Hop
  index : Nat
  draft : Draft

namespace Listing

/-- The indices of the entries on the way to the draft, its own one last. -/
def indices (l : Listing) : List Nat := l.hops.map (·.index) ++ [l.index]

/-- The path of the draft below the paths of its mounts, from left to right; mounts without a path
add nothing. -/
def path (l : Listing) : String :=
  match (l.hops.map (·.mount.path)).filter (· ≠ "") with
  | [] => l.draft.path
  | first :: rest => join (rest.foldl join first) l.draft.path

def resource (l : Listing) (order : Nat) : Resource :=
  ⟨l.draft.id, l.draft.method, l.path, l.draft.kind, .discovered, l.draft.handler, order⟩

def behind (h : Hop) (l : Listing) : Listing := { l with hops := h :: l.hops }

end Listing

/-- **The depth-first enumeration below one start**: the drafts at the ends of the chains that
repeat no router, in the lexicographic order of the entry indices, hence each of them once. -/
structure Enumerates (net : Network) (start : RouterKey) (ls : List Listing) : Prop where
  mem_iff : ∀ l, l ∈ ls ↔ ∃ last t, MountChain net start l.hops last ∧
    NoRepeat (chainKeys start l.hops) ∧ net.router? last = some t ∧
    t.entries[l.index]? = some (.resource l.draft)
  ordered : ls.Pairwise fun a b => a.indices < b.indices

/-- The starts among some roots, in order: a root is a start unless an earlier start leads to it. -/
inductive Starts (net : Network) : (earlier roots starts : List RouterKey) → Prop
  | nil (earlier : List RouterKey) : Starts net earlier [] []
  | start {earlier roots starts : List RouterKey} {key : RouterKey}
      (hnew : ¬ ∃ s ∈ earlier, LeadsTo net s key)
      (rest : Starts net (key :: earlier) roots starts) :
      Starts net earlier (key :: roots) (key :: starts)
  | reached {earlier roots starts : List RouterKey} {key : RouterKey}
      (hold : ∃ s ∈ earlier, LeadsTo net s key) (rest : Starts net earlier roots starts) :
      Starts net earlier (key :: roots) starts

/-! ## Keys of one router -/

theorem RouterKey.same_refl (a : RouterKey) : a.same a := by
  simp [same_iff]

theorem RouterKey.same_trans {c : RouterKey} (h : a.same b) (h' : b.same c) : a.same c := by
  rw [← same_congr_right h']
  exact h

theorem Network.router?_congr (h : a.same b) : net.router? a = net.router? b := by
  unfold router?
  simp [same_congr_right h]

theorem Network.key_same_of_router? (h : net.router? key = some t) : t.key.same key := by
  simpa using find?_some h

/-! ## Chains as the walk sees them -/

/-- A chain from a router that enters none of the routers `inside`, nor one of its own twice. -/
inductive SimpleChain (net : Network) :
    (inside : List RouterKey) → LinkedRouter → List Hop → LinkedRouter → Prop
  | here {inside : List RouterKey} (t : LinkedRouter) : SimpleChain net inside t [] t
  | hop {inside : List RouterKey} {t next last : LinkedRouter} {h : Hop} {hops : List Hop}
      (he : t.entries[h.index]? = some (.mount h.mount (some h.target)))
      (hnew : inside.any (·.same h.target) = false) (hn : net.router? h.target = some next)
      (rest : SimpleChain net (h.target :: inside) next hops last) :
      SimpleChain net inside t (h :: hops) last

/-- **A simple chain is a chain that repeats no router** and enters none of those around it. -/
theorem simpleChain_iff (ht : net.router? key = some t) :
    SimpleChain net inside t hops u ↔ ∃ last, MountChain net key hops last ∧
      (∀ h ∈ hops, inside.any (·.same h.target) = false) ∧ NoRepeat (hops.map (·.target)) ∧
      net.router? last = some u := by
  induction hops generalizing inside key t with
  | nil =>
    constructor
    · intro h
      cases h
      exact ⟨key, .here key, by simp, List.Pairwise.nil, ht⟩
    · rintro ⟨last, hc, -, -, hu⟩
      cases hc
      rw [ht] at hu
      cases hu
      exact .here _
  | cons h hops ih =>
    constructor
    · intro hs
      cases hs with
      | hop he hnew hn rest =>
        obtain ⟨last, hc, hin, hrep, hu⟩ := (ih hn).mp rest
        refine ⟨last, .hop ht he hc, ?_, ?_, hu⟩
        · intro g hg
          rcases mem_cons.mp hg with rfl | hg
          · exact hnew
          · have := hin g hg
            simp only [any_cons, Bool.or_eq_false_iff] at this
            exact this.2
        · refine List.Pairwise.cons ?_ hrep
          intro k hk
          obtain ⟨g, hg, rfl⟩ := mem_map.mp hk
          have := hin g hg
          simp only [any_cons, Bool.or_eq_false_iff] at this
          exact this.1
    · rintro ⟨last, hc, hin, hrep, hu⟩
      cases hc with
      | hop ht' he rest =>
        rw [ht] at ht'
        cases ht'
        have hnew := hin h mem_cons_self
        obtain ⟨hhead, hrep⟩ := pairwise_cons.mp hrep
        -- the chain goes on or ends, and in both cases it has come to a router
        obtain ⟨next, hn⟩ : ∃ next, net.router? h.target = some next := by
          cases rest with
          | here => exact ⟨u, hu⟩
          | hop hn _ _ => exact ⟨_, hn⟩
        refine .hop he hnew hn ((ih hn).mpr ⟨last, rest, ?_, hrep, hu⟩)
        intro g hg
        simp only [any_cons, Bool.or_eq_false_iff]
        exact ⟨hhead _ (mem_map_of_mem hg), hin g (mem_cons_of_mem _ hg)⟩

/-- The simple chains inside a start alone are the chains that repeat no router. -/
theorem simpleChain_start_iff (ht : net.router? start = some t) :
    SimpleChain net [start] t hops u ↔ ∃ last, MountChain net start hops last ∧
      NoRepeat (chainKeys start hops) ∧ net.router? last = some u := by
  rw [simpleChain_iff ht]
  refine exists_congr fun last => and_congr_right fun _ => ?_
  unfold chainKeys NoRepeat
  rw [pairwise_cons, and_assoc]
  simp

/-- **Induction over the routers that a chain is inside of**: what holds inside a further router may
be assumed, because only finitely many routers are left to enter. -/
theorem entering_induction (net : Network) {motive : List RouterKey → Prop}
    (step : ∀ inside, (∀ key t, net.router? key = some t → inside.any (·.same key) = false →
      motive (key :: inside)) → motive inside) (inside : List RouterKey) : motive inside := by
  induction hn : (net.notEntered inside).length using Nat.strongRecOn generalizing inside with
  | ind n ih =>
    apply step
    intro key t ht hk
    exact ih _ (hn ▸ notEntered_lt ht (by simp [hk])) _ rfl

/-! ## The stops below one router -/

/-- The router that an entry leads into: it is mounted there, it is known, and the chain is not
inside of it. -/
def LinkedEntry.enters? (net : Network) (inside : List RouterKey) :
    LinkedEntry → Option (Mount × RouterKey × LinkedRouter)
  | .mount m (some target) =>
    if inside.any (·.same target) then none else (net.router? target).map (m, target, ·)
  | _ => none

theorem LinkedEntry.enters?_eq_some_iff {entry : LinkedEntry} {m : Mount} :
    entry.enters? net inside = some (m, key, t) ↔
      entry = .mount m (some key) ∧ inside.any (·.same key) = false ∧ net.router? key = some t := by
  rcases entry with draft | ⟨m', _ | target⟩
  · simp [enters?]
  · simp [enters?]
  · simp only [enters?]
    cases hin : inside.any (·.same target) <;> cases hnext : net.router? target <;> grind

/-- **A stop of the walk**: an entry of a router, and the mounts on the way to it. -/
structure Stop where
  hops : List Hop
  router : LinkedRouter
  index : Nat
  entry : LinkedEntry

namespace Stop

/-- The indices of the entries on the way to the stop, its own one last. -/
def indices (s : Stop) : List Nat := s.hops.map (·.index) ++ [s.index]

def behind (h : Hop) (s : Stop) : Stop := { s with hops := h :: s.hops }

def listing? (s : Stop) : Option Listing :=
  match s.entry with
  | .resource draft => some ⟨s.hops, s.index, draft⟩
  | .mount _ _ => none

end Stop

/-- The entries that the walk comes to below a router, in its order. -/
def stops (net : Network) (inside : List RouterKey) (t : LinkedRouter) : List Stop :=
  t.entries.zipIdx.flatMap fun (entry, index) =>
    ⟨[], t, index, entry⟩ :: match _h : entry.enters? net inside with
      | none => []
      | some (m, target, next) =>
        (stops net (target :: inside) next).map (.behind ⟨index, m, target⟩)
termination_by (net.notEntered inside).length
decreasing_by
  obtain ⟨-, hnew, hnext⟩ := LinkedEntry.enters?_eq_some_iff.mp _h
  exact notEntered_lt hnext (by simp [hnew])

/-- The stops behind one entry. -/
def stopsBehind (net : Network) (inside : List RouterKey) (entry : LinkedEntry) (index : Nat) :
    List Stop :=
  match entry.enters? net inside with
  | none => []
  | some (m, target, next) => (stops net (target :: inside) next).map (.behind ⟨index, m, target⟩)

theorem stops_eq (net : Network) (inside : List RouterKey) (t : LinkedRouter) :
    stops net inside t = t.entries.zipIdx.flatMap fun (entry, index) =>
      ⟨[], t, index, entry⟩ :: stopsBehind net inside entry index := by
  rw [stops]
  congr 1
  funext ⟨entry, index⟩
  refine congrArg (_ :: ·) ?_
  unfold stopsBehind
  split <;> rename_i h <;> rw [h]

/-- **The stops below a router are the entries at the ends of its simple chains.** -/
theorem mem_stops : ∀ {t : LinkedRouter} {s : Stop}, s ∈ stops net inside t ↔
      SimpleChain net inside t s.hops s.router ∧ s.router.entries[s.index]? = some s.entry := by
  induction inside using entering_induction net with
  | step inside ih =>
    intro t s
    simp only [stops_eq, mem_flatMap, Prod.exists, mk_mem_zipIdx_iff_getElem?, mem_cons]
    constructor
    · rintro ⟨entry, index, hget, rfl | hs⟩
      · exact ⟨.here t, hget⟩
      unfold stopsBehind at hs
      cases henter : entry.enters? net inside with
      | none => simp [henter] at hs
      | some into =>
        obtain ⟨rfl, hnew, hnext⟩ := LinkedEntry.enters?_eq_some_iff.mp henter
        rw [henter] at hs
        obtain ⟨s, hmem, rfl⟩ := mem_map.mp hs
        obtain ⟨hchain, hentry⟩ := (ih _ _ hnext hnew).mp hmem
        exact ⟨.hop (h := ⟨index, into.1, into.2.1⟩) hget hnew hnext hchain, hentry⟩
    · rintro ⟨hchain, hentry⟩
      obtain ⟨hops, u, index, entry⟩ := s
      cases hchain with
      | here => exact ⟨entry, index, hentry, .inl rfl⟩
      | @hop _ _ next _ h hops hget hnew hnext rest =>
        refine ⟨_, h.index, hget, .inr ?_⟩
        rw [stopsBehind, LinkedEntry.enters?_eq_some_iff.mpr ⟨rfl, hnew, hnext⟩]
        exact mem_map.mpr ⟨⟨hops, u, index, entry⟩, (ih _ _ hnext hnew).mpr ⟨rest, hentry⟩, rfl⟩

theorem indices_of_mem_stopsBehind {entry : LinkedEntry} {index : Nat} {s : Stop}
    (h : s ∈ ⟨[], t, index, entry⟩ :: stopsBehind net inside entry index) :
    ∃ rest, s.indices = index :: rest := by
  rcases mem_cons.mp h with rfl | h
  · exact ⟨[], rfl⟩
  unfold stopsBehind at h
  cases henter : entry.enters? net inside with
  | none => simp [henter] at h
  | some into =>
    rw [henter] at h
    obtain ⟨s, -, rfl⟩ := mem_map.mp h
    exact ⟨s.indices, rfl⟩

/-- **The stops below a router are in the order of the indices on the way to them.** -/
theorem stops_ordered : ∀ {t : LinkedRouter},
    (stops net inside t).Pairwise fun a b => a.indices < b.indices := by
  induction inside using entering_induction net with
  | step inside ih =>
    intro t
    rw [stops_eq, pairwise_flatMap]
    constructor
    · rintro ⟨entry, index⟩ -
      cases henter : entry.enters? net inside with
      | none =>
        simp only [stopsBehind, henter]
        exact pairwise_singleton _ _
      | some into =>
        obtain ⟨-, hnew, hnext⟩ := LinkedEntry.enters?_eq_some_iff.mp henter
        simp only [stopsBehind, henter]
        refine List.Pairwise.cons (fun s hs => ?_) ?_
        · obtain ⟨s, -, rfl⟩ := mem_map.mp hs
          refine cons_lt_cons_iff.mpr (.inr ⟨rfl, ?_⟩)
          rcases s with ⟨_ | _, _, _, _⟩ <;> exact nil_lt_cons _ _
        · refine List.Pairwise.map _ (fun a b hab => ?_) (ih _ _ hnext hnew)
          exact cons_lt_cons_iff.mpr (.inr ⟨rfl, hab⟩)
    · have hidx : t.entries.zipIdx.Pairwise fun a b => a.2 < b.2 := by
        rw [← pairwise_map (f := Prod.snd), zipIdx_map_snd]
        exact pairwise_lt_range'
      refine hidx.imp fun {a b} hab x hx y hy => ?_
      obtain ⟨xs, hxs⟩ := indices_of_mem_stopsBehind hx
      obtain ⟨ys, hys⟩ := indices_of_mem_stopsBehind hy
      rw [hxs, hys]
      exact cons_lt_cons_iff.mpr (.inl hab)

/-- What the walk lists below a router, given the routers that it is inside of. -/
def listings (net : Network) (inside : List RouterKey) (t : LinkedRouter) : List Listing :=
  (stops net inside t).filterMap Stop.listing?

/-- **The listings below a router are the drafts at the ends of its simple chains.** -/
theorem mem_listings {l : Listing} :
    l ∈ listings net inside t ↔ ∃ u, SimpleChain net inside t l.hops u ∧
      u.entries[l.index]? = some (.resource l.draft) := by
  rw [listings, mem_filterMap]
  constructor
  · rintro ⟨⟨hops, u, index, draft | _⟩, hs, hl⟩
    · cases hl
      exact ⟨u, mem_stops.mp hs⟩
    · cases hl
  · rintro ⟨u, h⟩
    exact ⟨⟨l.hops, u, l.index, .resource l.draft⟩, mem_stops.mpr h, rfl⟩

/-- **The listings below a router are in the order of the indices on the way to them.** -/
theorem listings_ordered : (listings net inside t).Pairwise fun a b => a.indices < b.indices := by
  rw [listings, pairwise_filterMap]
  refine stops_ordered.imp fun {a b} hab l hl m hm => ?_
  rcases a with ⟨hops, u, index, _ | _⟩ <;> cases hl
  rcases b with ⟨hops', u', index', _ | _⟩ <;> cases hm
  exact hab

/-! ## What a walk adds -/

variable (outer : String)

/-- The path below the mounts of a chain, inside a given path. -/
def mountedBelow (hops : List Hop) : String :=
  hops.foldl (fun outer h => mountBelow outer h.mount.path) outer

def Listing.resourceBelow (l : Listing) (order : Nat) : Resource :=
  l.draft.resource (mountedBelow outer l.hops) order

/-- The listings as resources, numbered from a given number on. -/
def numberedBelow (order : Nat) (ls : List Listing) : List Resource :=
  ls.mapIdx fun i l => l.resourceBelow outer (order + i)

theorem numberedBelow_append (order : Nat) (ls ms : List Listing) :
    numberedBelow outer order (ls ++ ms) =
      numberedBelow outer order ls ++ numberedBelow outer (order + ls.length) ms := by
  unfold numberedBelow
  rw [mapIdx_append]
  congr 2
  funext i l
  rw [Nat.add_assoc, Nat.add_comm i]

namespace Stop

/-- The error at a mount that leads back to a router around it. -/
def error? (inside : List RouterKey) (s : Stop) : Option Unsupported :=
  match s.entry with
  | .mount m (some target) =>
    if (inside ++ s.hops.map (·.target)).any (·.same target) then
      some (cycleError s.router.relPath m)
    else none
  | _ => none

/-- The warning at a mount whose router is not known. -/
def warning? (s : Stop) : Option Warning :=
  match s.entry with
  | .mount m none =>
    if m.implicit then none else some (.unresolvedMount s.router.relPath m.line m.text)
  | _ => none

theorem error?_behind (h : Hop) (s : Stop) :
    (s.behind h).error? inside = s.error? (h.target :: inside) := by
  rcases s with ⟨hops, u, index, _ | ⟨m, _ | target⟩⟩
  · rfl
  · rfl
  · simp [error?, behind, Bool.or_left_comm]

end Stop

/-- **What a walk adds**: listings as resources below a path, numbered behind the resources before
them, and reports. -/
structure Walk.Adds (outer : String) (ls : List Listing) (errors : List Unsupported)
    (warnings : List Warning) (w w' : Walk) : Prop where
  resources : w'.resources = w.resources ++ numberedBelow outer w.resources.length ls
  errors : w'.errors = w.errors ++ errors
  warnings : w'.warnings = w.warnings ++ warnings

theorem Walk.Adds.foldl {α : Type} {f : Walk → α → Walk} {ls : α → List Listing}
    {errors : α → List Unsupported} {warnings : α → List Warning}
    (h : ∀ w a, Adds outer (ls a) (errors a) (warnings a) w (f w a)) (as : List α) (w : Walk) :
    Adds outer (as.flatMap ls) (as.flatMap errors) (as.flatMap warnings) w (as.foldl f w) := by
  induction as generalizing w with
  | nil => constructor <;> simp [numberedBelow]
  | cons a as ih =>
    obtain ⟨hresources, herrors, hwarnings⟩ := h w a
    obtain ⟨hresources', herrors', hwarnings'⟩ := ih (f w a)
    constructor
    · rw [foldl_cons, hresources', hresources, flatMap_cons, numberedBelow_append]
      simp [numberedBelow]
    · simp [herrors', herrors]
    · simp [hwarnings', hwarnings]

/-- A walk does what there is to do at some stops. -/
abbrev Walk.Meets (inside : List RouterKey) (outer : String) (ss : List Stop) :
    Walk → Walk → Prop :=
  Adds outer (ss.filterMap Stop.listing?) (ss.filterMap (Stop.error? inside))
    (ss.filterMap Stop.warning?)

theorem Stop.filterMap_listing?_behind (h : Hop) (ss : List Stop) :
    (ss.map (.behind h)).filterMap Stop.listing? =
      (ss.filterMap Stop.listing?).map (.behind h) := by
  rw [filterMap_map, map_filterMap]
  refine filterMap_congr fun s _ => ?_
  rcases s with ⟨hops, u, i, _ | _⟩ <;> rfl

theorem Walk.Meets.behind {outer : String} {ss : List Stop} {w w' : Walk} (h : Hop)
    (hmeets : Meets (h.target :: inside) (mountBelow outer h.mount.path) ss w w') :
    Meets inside outer (ss.map (.behind h)) w w' := by
  constructor
  · rw [hmeets.resources, Stop.filterMap_listing?_behind]
    refine congrArg _ (ext_getElem? fun i => ?_)
    simp only [numberedBelow, getElem?_mapIdx, getElem?_map, Option.map_map]
    rfl
  · rw [hmeets.errors, filterMap_map]
    exact congrArg _ (filterMap_congr fun s _ => (s.error?_behind h).symm)
  · rw [hmeets.warnings, filterMap_map]
    rfl

/-- One step of the walk: what an entry of a router adds. -/
def visitEntry (net : Network) (inside : List RouterKey) (outer relPath : String) (w : Walk) :
    LinkedEntry → Walk
  | .resource draft => w.emit outer draft
  | .mount mount (some target) =>
    if inside.any (·.same target) then
      { w with errors := w.errors ++ [cycleError relPath mount] }
    else match net.router? target with
      | none => w
      | some next => visit net (target :: inside) (mountBelow outer mount.path) next w
  | .mount mount none =>
    if mount.implicit then w
    else { w with warnings := w.warnings ++ [.unresolvedMount relPath mount.line mount.text] }

theorem visit_eq (net : Network) (inside : List RouterKey) (outer : String) (t : LinkedRouter)
    (w : Walk) :
    visit net inside outer t w = t.entries.foldl (visitEntry net inside outer t.relPath)
        { w with visited := t.key :: w.visited } := by
  rw [visit]
  congr 1
  funext w entry
  rcases entry with draft | ⟨mount, _ | target⟩
  · rfl
  · rfl
  simp only [visitEntry]
  split
  · rfl
  · split <;> simp_all

/-- **A walk does what there is to do at each of its stops.** -/
theorem visit_meets : ∀ (outer : String) (t : LinkedRouter) (w : Walk),
    Walk.Meets inside outer (stops net inside t) w (visit net inside outer t w) := by
  induction inside using entering_induction net with
  | step inside ih =>
    intro outer t w
    -- the walk of an entry does what there is to do at the entry itself and behind it
    have hstep : ∀ w (e : LinkedEntry × Nat), Walk.Meets inside outer
        (⟨[], t, e.2, e.1⟩ :: stopsBehind net inside e.1 e.2) w
        (visitEntry net inside outer t.relPath w e.1) := by
      rintro w ⟨draft | ⟨m, _ | target⟩, index⟩
      · exact ⟨rfl, (append_nil _).symm, (append_nil _).symm⟩
      · cases h : m.implicit <;> constructor <;> simp [visitEntry, stopsBehind,
          LinkedEntry.enters?, Stop.listing?, Stop.error?, Stop.warning?, numberedBelow, h]
      · cases hin : inside.any (·.same target) with
        | true =>
          constructor <;> simp [visitEntry, stopsBehind, LinkedEntry.enters?, Stop.listing?,
            Stop.error?, Stop.warning?, numberedBelow, hin]
        | false =>
          have hself : Stop.error? inside ⟨[], t, index, .mount m (some target)⟩ = none := by
            simp [Stop.error?, hin]
          unfold Walk.Meets
          rw [filterMap_cons_none rfl, filterMap_cons_none hself, filterMap_cons_none rfl]
          cases hnext : net.router? target with
          | none =>
            constructor <;>
              simp [visitEntry, stopsBehind, LinkedEntry.enters?, numberedBelow, hin, hnext]
          | some next =>
            simp only [visitEntry, hin, Bool.false_eq_true, if_false, hnext, stopsBehind,
              LinkedEntry.enters?, Option.map_some]
            exact (ih target next hnext hin _ next w).behind ⟨index, m, target⟩
    have hvisit : visit net inside outer t w =
        t.entries.zipIdx.foldl (fun w e => visitEntry net inside outer t.relPath w e.1)
          { w with visited := t.key :: w.visited } := by
      rw [visit_eq, ← foldl_map (f := Prod.fst), zipIdx_map_fst]
    have hadds := Walk.Adds.foldl outer hstep t.entries.zipIdx
      { w with visited := t.key :: w.visited }
    rw [← hvisit, ← filterMap_flatMap, ← filterMap_flatMap, ← filterMap_flatMap,
      ← stops_eq] at hadds
    exact ⟨hadds.resources, hadds.errors, hadds.warnings⟩

theorem foldl_iff_exists {α β : Type} {f : β → α → β} {P : β → Prop} {adds : α → Prop}
    (hstep : ∀ b a, P (f b a) ↔ P b ∨ adds a) :
    ∀ (as : List α) (b : β), P (as.foldl f b) ↔ P b ∨ ∃ a ∈ as, adds a
  | [], b => by simp
  | a :: as, b => by
    rw [foldl_cons, foldl_iff_exists hstep as, hstep, or_assoc]
    simp

theorem visitEntry_visited {relPath : String} {w : Walk} {entry : LinkedEntry} :
    (visitEntry net inside outer relPath w entry).visited =
      (entry.enters? net inside).elim w.visited fun into =>
        (visit net (into.2.1 :: inside) (mountBelow outer into.1.path) into.2.2 w).visited := by
  rcases entry with draft | ⟨m, _ | target⟩
  · rfl
  · cases h : m.implicit <;> simp [visitEntry, LinkedEntry.enters?, h]
  · simp only [visitEntry, LinkedEntry.enters?]
    cases inside.any (·.same target) <;> cases net.router? target <;> rfl

/-- **A walk has come to the routers at the ends of its simple chains.** -/
theorem visit_visited :
    ∀ (outer : String) (t : LinkedRouter) (w : Walk) (key : RouterKey),
      (visit net inside outer t w).visited.any (·.same key) ↔ w.visited.any (·.same key) ∨
          ∃ hops u, SimpleChain net inside t hops u ∧ u.key.same key := by
  induction inside using entering_induction net with
  | step inside ih =>
    intro outer t w key
    have hstep : ∀ w (entry : LinkedEntry),
        (visitEntry net inside outer t.relPath w entry).visited.any (·.same key) ↔
          w.visited.any (·.same key) ∨ ∃ into ∈ entry.enters? net inside,
            ∃ hops u, SimpleChain net (into.2.1 :: inside) into.2.2 hops u ∧ u.key.same key := by
      intro w entry
      rw [visitEntry_visited]
      cases henter : entry.enters? net inside with
      | none => simp
      | some into =>
        obtain ⟨-, hnew, hnext⟩ := LinkedEntry.enters?_eq_some_iff.mp henter
        simp [ih _ _ hnext hnew]
    rw [visit_eq, foldl_iff_exists (P := fun w : Walk => w.visited.any (·.same key)) hstep,
      any_cons, Bool.or_eq_true, or_comm (a := t.key.same key), or_assoc]
    refine or_congr_right ⟨?_, ?_⟩
    · rintro (hself | ⟨entry, hmem, ⟨m, target, next⟩, henter, hops, u, hu, hkey⟩)
      · exact ⟨[], t, .here t, hself⟩
      · obtain ⟨index, hget⟩ := getElem?_of_mem hmem
        obtain ⟨rfl, hnew, hnext⟩ := LinkedEntry.enters?_eq_some_iff.mp henter
        exact ⟨⟨index, m, target⟩ :: hops, u, .hop hget hnew hnext hu, hkey⟩
    · rintro ⟨hops, u, hu, hkey⟩
      cases hu with
      | here => exact .inl hkey
      | hop he hnew hnext rest =>
        exact .inr ⟨_, mem_of_getElem? he, _,
          LinkedEntry.enters?_eq_some_iff.mpr ⟨rfl, hnew, hnext⟩, _, _, rest, hkey⟩

/-! ## Paths below mounts -/

theorem mountedBelow_cons (h : Hop) (hops : List Hop) :
    mountedBelow outer (h :: hops) = mountedBelow (mountBelow outer h.mount.path) hops := rfl

/-- Inside a path, the mounts that have a path are joined to it one after the other. -/
theorem mountedBelow_of_ne_empty {outer : String} (ho : outer ≠ "") (hops : List Hop) :
    mountedBelow outer hops = ((hops.map (·.mount.path)).filter (· ≠ "")).foldl join outer := by
  induction hops generalizing outer with
  | nil => rfl
  | cons h hops ih =>
    rw [mountedBelow_cons]
    by_cases hp : h.mount.path = ""
    · have hm : mountBelow outer h.mount.path = outer := by simp [mountBelow, hp]
      rw [hm, ih ho]
      simp [hp]
    · have hm : mountBelow outer h.mount.path = join outer h.mount.path := by
        simp [mountBelow, hp, ho]
      rw [hm, ih (join_ne_empty _ _)]
      simp [hp]

theorem foldl_join_ne_empty (paths : List String) {outer : String} (ho : outer ≠ "") :
    paths.foldl join outer ≠ "" := by
  induction paths generalizing outer with
  | nil => exact ho
  | cons p ps ih =>
    rw [foldl_cons]
    exact ih (join_ne_empty outer p)

/-- At the top, the first mount that has a path begins the path. -/
theorem mountedBelow_empty : mountedBelow "" hops =
    match (hops.map (·.mount.path)).filter (· ≠ "") with
    | [] => ""
    | first :: rest => rest.foldl join first := by
  induction hops with
  | nil => rfl
  | cons h hops ih =>
    have hm : mountBelow "" h.mount.path = h.mount.path := rfl
    rw [mountedBelow_cons, hm]
    by_cases hp : h.mount.path = ""
    · rw [hp, ih]
      simp [hp]
    · rw [mountedBelow_of_ne_empty hp]
      simp [hp]

/-- **The path that the walk gives a draft** is the one below the mounts that have a path. -/
theorem Listing.resourceBelow_empty (l : Listing) (order : Nat) :
    l.resourceBelow "" order = l.resource order := by
  unfold Listing.resourceBelow Draft.resource Listing.resource Listing.path
  rw [mountedBelow_empty]
  cases hf : (l.hops.map (·.mount.path)).filter (· ≠ "") with
  | nil => rfl
  | cons first rest =>
    have hfirst : first ≠ "" := by
      have hmem : first ∈ (l.hops.map (·.mount.path)).filter (· ≠ "") := by
        rw [hf]
        exact mem_cons_self
      simpa using (mem_filter.mp hmem).2
    simp [foldl_join_ne_empty rest hfirst]

/-! ## Chains without repetitions suffice -/

theorem MountChain.restart (hc : MountChain net a hops last) (h : a.same b) :
    ∃ last', MountChain net b hops last' ∧ last'.same last := by
  cases hc with
  | here => exact ⟨b, .here b, by rw [same_comm]; exact h⟩
  | hop ht he rest =>
    exact ⟨last, .hop ((router?_congr h).symm.trans ht) he rest, same_refl last⟩

theorem NoRepeat.restart (hr : NoRepeat (chainKeys a hops)) (h : a.same b) :
    NoRepeat (chainKeys b hops) := by
  obtain ⟨hhead, htail⟩ := pairwise_cons.mp hr
  refine List.Pairwise.cons (fun k hk => ?_) htail
  rw [same_comm, ← same_congr_right h, same_comm]
  exact hhead k hk

/-- A chain that repeats no router can be entered at each of its routers. -/
theorem MountChain.enterAt (hc : MountChain net a hops last) (hr : NoRepeat (chainKeys a hops))
    (hk : (chainKeys a hops).any (·.same key)) :
    ∃ hops' last', MountChain net key hops' last' ∧ NoRepeat (chainKeys key hops') ∧
      last'.same last := by
  induction hc with
  | here a =>
    have ha : a.same key := by simpa [chainKeys] using hk
    exact ⟨[], key, .here key, pairwise_singleton _ _, by rw [same_comm]; exact ha⟩
  | @hop a last t h hops ht he rest ih =>
    by_cases ha : a.same key
    · obtain ⟨last', hc', hl⟩ := (MountChain.hop ht he rest).restart ha
      exact ⟨h :: hops, last', hc', hr.restart ha, hl⟩
    · refine ih (List.Pairwise.of_cons hr) ?_
      simpa [chainKeys, ha] using hk

/-- **Where a chain leads, a chain leads that repeats no router.** -/
theorem MountChain.withoutRepeat (hc : MountChain net a hops last) :
    ∃ hops' last', MountChain net a hops' last' ∧ NoRepeat (chainKeys a hops') ∧
      last'.same last := by
  induction hc with
  | here a => exact ⟨[], a, .here a, pairwise_singleton _ _, same_refl a⟩
  | @hop a last t h hops ht he rest ih =>
    obtain ⟨hops', last', hc', hr', hl'⟩ := ih
    by_cases hin : (chainKeys h.target hops').any (·.same a)
    · -- the chain comes back to its start: it is enough to go on from there
      obtain ⟨hops₂, last₂, hc₂, hr₂, hl₂⟩ := hc'.enterAt hr' hin
      exact ⟨hops₂, last₂, hc₂, hr₂, same_trans hl₂ hl'⟩
    · refine ⟨h :: hops', last', .hop ht he hc', List.Pairwise.cons (fun k hk => ?_) hr', hl'⟩
      have hnot := any_eq_false.mp (eq_false_of_ne_true hin) k hk
      rw [same_comm]
      exact eq_false_of_ne_true hnot

/-! ## The walk from one start after the other -/

theorem MountChain.append {c : RouterKey} {hops hops' : List Hop} (h : MountChain net a hops b)
    (h' : MountChain net b hops' c) : MountChain net a (hops ++ hops') c := by
  induction h with
  | here => exact h'
  | hop ht he _ ih => exact .hop ht he (ih h')

theorem LeadsTo.of_same (h : a.same b) : LeadsTo net a b :=
  ⟨[], a, .here a, h⟩

theorem LeadsTo.refl (a : RouterKey) : LeadsTo net a a := .of_same (same_refl a)

theorem LeadsTo.trans {c : RouterKey} (hab : LeadsTo net a b) (hbc : LeadsTo net b c) :
    LeadsTo net a c := by
  obtain ⟨hops, b', hchain, hb⟩ := hab
  obtain ⟨hops', c', hchain', hc⟩ := hbc
  -- the second chain may as well start where the first one has ended
  rw [same_comm] at hb
  obtain ⟨c₂, hchain₂, hc₂⟩ := hchain'.restart hb
  exact ⟨hops ++ hops', c₂, hchain.append hchain₂, same_trans hc₂ hc⟩

theorem visit_start_visited (ht : net.router? start = some t) (hu : net.router? key = some u)
    (w : Walk) :
    (visit net [start] "" t w).visited.any (·.same key) ↔
      w.visited.any (·.same key) ∨ LeadsTo net start key := by
  rw [visit_visited]
  refine or_congr_right ⟨?_, ?_⟩
  · rintro ⟨hops, v, hs, hv⟩
    obtain ⟨last, hc, -, hl⟩ := (simpleChain_start_iff ht).mp hs
    have hkey := key_same_of_router? hl
    rw [same_comm] at hkey
    exact ⟨hops, last, hc, same_trans hkey hv⟩
  · rintro ⟨hops, last, hc, hl⟩
    obtain ⟨hops', last', hc', hr', hl'⟩ := hc.withoutRepeat
    have hr : net.router? last' = some u := by
      rw [router?_congr (same_trans hl' hl), hu]
    exact ⟨hops', u, (simpleChain_start_iff ht).mpr ⟨last', hc', hr', hr⟩, key_same_of_router? hu⟩

theorem Network.router?_of_mem_roots (h : key ∈ net.roots) : ∃ t, net.router? key = some t := by
  simp only [roots, partition_eq_filter_filter, mem_map, mem_append, mem_filter, mem_mergeSort] at h
  obtain ⟨t, ht, rfl⟩ := h
  have hmem : t ∈ net := by
    rcases ht with ht | ht
    · exact ht.1.1
    · exact ht.1.1
  exact Option.isSome_iff_exists.mp (find?_isSome.mpr ⟨t, hmem, same_refl t.key⟩)

def walkRoot (net : Network) (w : Walk) (key : RouterKey) : Walk :=
  if w.visited.any (·.same key) then w
  else match net.router? key with
    | none => w
    | some t => visit net [key] "" t w

def walkFrom (net : Network) (w : Walk) (key : RouterKey) : Walk :=
  match net.router? key with
  | none => w
  | some t => visit net [key] "" t w

/-- The starts among some roots, given what was walked before them. -/
def startsAmong (net : Network) : Walk → List RouterKey → List RouterKey
  | _, [] => []
  | w, key :: roots =>
    let rest := startsAmong net (walkRoot net w key) roots
    if w.visited.any (·.same key) then rest else key :: rest

/-- **The routers that the walk starts at.** -/
def starts (net : Network) : List RouterKey := startsAmong net {} net.roots

theorem foldl_walkRoot_eq (roots : List RouterKey) (w : Walk) :
    roots.foldl (walkRoot net) w = (startsAmong net w roots).foldl (walkFrom net) w := by
  induction roots generalizing w with
  | nil => rfl
  | cons key roots ih =>
    rw [foldl_cons, ih, startsAmong]
    split
    · rename_i hold
      rw [walkRoot, if_pos hold]
    rename_i hnew
    rw [walkRoot, if_neg hnew]
    rfl

/-- **The walk over all roots is the walk from one start after the other.** -/
theorem walkAll_eq_foldl_starts (net : Network) :
    walkAll net = (starts net).foldl (walkFrom net) {} :=
  foldl_walkRoot_eq net.roots {}

/-- A walk has come exactly to the routers that some routers lead to. -/
def Walk.Covers (net : Network) (earlier : List RouterKey) (w : Walk) : Prop :=
  ∀ key t, net.router? key = some t →
    (w.visited.any (·.same key) ↔ ∃ s ∈ earlier, LeadsTo net s key)

theorem Walk.covers_empty (net : Network) : ({} : Walk).Covers net [] := fun key t _ => by simp

/-- A root is walked, or the walk has come to all it leads to before. -/
theorem Walk.Covers.walkRoot {w : Walk} {earlier : List RouterKey} (h : w.Covers net earlier)
    (ht : net.router? key = some t) : (walkRoot net w key).Covers net (key :: earlier) := by
  intro k u hu
  simp only [mem_cons, or_and_right, exists_or, exists_eq_left]
  unfold Inventory.walkRoot
  split
  · rename_i hold
    rw [h k u hu]
    refine ⟨.inr, ?_⟩
    rintro (hkey | hearlier)
    · obtain ⟨s, hs, hlead⟩ := (h key t ht).mp hold
      exact ⟨s, hs, hlead.trans hkey⟩
    · exact hearlier
  · simp only [ht]
    rw [visit_start_visited ht hu, h k u hu, or_comm]

theorem startsAmong_sublist (roots : List RouterKey) : ∀ w, startsAmong net w roots <+ roots := by
  induction roots with
  | nil => exact fun _ => .slnil
  | cons key roots ih =>
    intro w
    rw [startsAmong]
    split
    · exact (ih _).cons key
    · exact (ih _).cons_cons key

theorem mem_roots_of_mem_starts (h : key ∈ starts net) : key ∈ net.roots :=
  (startsAmong_sublist net.roots {}).mem h

theorem starts_startsAmong : ∀ {roots earlier : List RouterKey} {w : Walk},
    (∀ key ∈ roots, ∃ t, net.router? key = some t) → w.Covers net earlier →
    Starts net earlier roots (startsAmong net w roots)
  | [], earlier, _, _, _ => .nil earlier
  | key :: roots, earlier, w, hroots, hw => by
    obtain ⟨t, ht⟩ := hroots key mem_cons_self
    have hrest : ∀ k ∈ roots, ∃ t, net.router? k = some t := fun k hk =>
      hroots k (mem_cons_of_mem key hk)
    rw [startsAmong]
    split
    · rename_i hold
      rw [walkRoot, if_pos hold]
      exact .reached ((hw key t ht).mp hold) (starts_startsAmong hrest hw)
    · rename_i hnew
      exact .start (fun hold => hnew ((hw key t ht).mpr hold))
        (starts_startsAmong hrest (hw.walkRoot ht))

/-! ## What the walk over all roots lists -/

def stopsFrom (net : Network) (start : RouterKey) : List Stop :=
  match net.router? start with
  | none => []
  | some t => stops net [start] t

def listingsFrom (net : Network) (start : RouterKey) : List Listing :=
  (stopsFrom net start).filterMap Stop.listing?

theorem enumerates_listingsFrom (ht : net.router? start = some t) :
    Enumerates net start (listingsFrom net start) := by
  rw [listingsFrom, stopsFrom, ht]
  refine ⟨fun l => mem_listings.trans ?_, listings_ordered⟩
  constructor
  · rintro ⟨u, hs, hd⟩
    obtain ⟨last, hc, hr, hu⟩ := (simpleChain_start_iff ht).mp hs
    exact ⟨last, u, hc, hr, hu, hd⟩
  · rintro ⟨last, u, hc, hr, hu, hd⟩
    exact ⟨u, (simpleChain_start_iff ht).mpr ⟨last, hc, hr, hu⟩, hd⟩

/-- **The walk over all roots does what there is to do at each of its stops.** -/
theorem walkAll_adds (net : Network) : Walk.Adds "" ((starts net).flatMap (listingsFrom net))
    ((starts net).flatMap fun s => (stopsFrom net s).filterMap (Stop.error? [s]))
    ((starts net).flatMap fun s => (stopsFrom net s).filterMap Stop.warning?) {} (walkAll net) := by
  rw [walkAll_eq_foldl_starts]
  refine Walk.Adds.foldl "" (fun w start => ?_) _ _
  unfold walkFrom listingsFrom stopsFrom
  cases net.router? start with
  | none => constructor <;> simp [numberedBelow]
  | some t => exact visit_meets "" t w

theorem walkAll_resources (net : Network) : (walkAll net).resources =
    ((starts net).flatMap (listingsFrom net)).mapIdx fun order l => l.resource order := by
  rw [(walkAll_adds net).resources]
  simp [numberedBelow, Listing.resourceBelow_empty]

theorem walkAll_listed (net : Network) :
    ∃ ls : List Listing, (walkAll net).resources = ls.mapIdx (fun order l => l.resource order) ∧
      ∀ l ∈ ls, ∃ t ∈ net, .resource l.draft ∈ t.entries := by
  refine ⟨_, walkAll_resources net, fun l hl => ?_⟩
  obtain ⟨start, hstart, hl⟩ := mem_flatMap.mp hl
  obtain ⟨t, ht⟩ := router?_of_mem_roots (mem_roots_of_mem_starts hstart)
  obtain ⟨last, u, -, -, hu, hd⟩ := ((enumerates_listingsFrom ht).mem_iff l).mp hl
  exact ⟨u, mem_of_find?_eq_some hu, mem_of_getElem? hd⟩

/-- **The walk over all roots lists the mount chains.** The starts are the roots that no earlier
start leads to. Below each of them, in this order, the list holds every draft at the end of every
chain that repeats no router, once and in the order of the entry indices on the way; the path is the
draft's path below the mounts that have one, and the order is the position in the list. The network
may have cycles: `visit` recurses on the routers that are left to enter. -/
theorem walkAll_lists_mount_chains (net : Network) :
    ∃ runs : List (RouterKey × List Listing), Starts net [] net.roots (runs.map (·.1)) ∧
      (∀ run ∈ runs, Enumerates net run.1 run.2) ∧
      (walkAll net).resources = (runs.flatMap (·.2)).mapIdx fun order l => l.resource order := by
  refine ⟨(starts net).map fun start => (start, listingsFrom net start), ?_, ?_, ?_⟩
  · rw [map_map]
    exact (map_id' (starts net)).symm ▸ starts_startsAmong
      (fun key hkey => router?_of_mem_roots hkey) (Walk.covers_empty net)
  · rintro _ hrun
    obtain ⟨start, hstart, rfl⟩ := mem_map.mp hrun
    obtain ⟨t, ht⟩ := router?_of_mem_roots (mem_roots_of_mem_starts hstart)
    exact enumerates_listingsFrom ht
  · rw [walkAll_resources, flatMap_map]

end RouteAtlas.Inventory
