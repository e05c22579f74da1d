import RouteAtlas.Proofs.RecordedCalls
import RouteAtlas.Proofs.Variables

/-!
# Which router a chain is recorded on

A chain that starts with a name is recorded on the router that the name stands for: the one that the
declarator of the name makes, or the one that another name stands for from which the declarator
takes its value, and so on. Names are looked up by the ranges of functions, so the declarator that
is found need not be the one that the name refers to.
-/

open List Option

namespace RouteAtlas.Source

variable {m n : Node}

/-! ## Nodes that are sites -/

theorem mem_sitesBelow_child (n : Node) (base : List Node) {s : Site} (hs : s ∈ n.sitesBelow base)
    {c : Node} (hc : c ∈ s.node.named) : ⟨c, s.node :: s.above⟩ ∈ n.sitesBelow base := by
  rw [Node.sitesBelow_eq] at hs
  rcases mem_cons.mp hs with rfl | hs
  · exact Inventory.mem_sitesBelow_of_named hc (Inventory.self_mem_sitesBelow c _)
  · obtain ⟨m, hm, hs⟩ := mem_flatMap.mp hs
    have := Node.size_lt_of_mem_children (Node.mem_children_of_named hm)
    exact Inventory.mem_sitesBelow_of_named hm (mem_sitesBelow_child m _ hs hc)
termination_by n.size

theorem exists_site_of_mem_reached {tree : Node} {s : Site} {p : Node → Bool} (hs : s ∈ tree.sites)
    (hm : m ∈ s.node.reached p) : ∃ t ∈ tree.sites, t.node = m := by
  have hreach := Node.mem_reached_iff.mp hm
  induction hreach with
  | refl => exact ⟨s, hs, rfl⟩
  | tail hreach hstep ih =>
    obtain ⟨t, ht, rfl⟩ := ih (Node.mem_reached_iff.mpr hreach)
    exact ⟨_, mem_sitesBelow_child tree [] ht hstep.1, rfl⟩

/-- Steps that lead from named nodes to nodes in them lead to a named node through named nodes. -/
theorem Node.mem_reached_follow {step : Node → Option Node}
    (hstep : ∀ {n m}, step n = some m → m.isNamed → m ∈ n.reached fun _ => true)
    (hstop : ∀ {n}, n.isNamed = false → step n = none) (hnamed : (n.follow step).isNamed) :
    n.isNamed ∧ n.follow step ∈ n.reached fun _ => true := by
  suffices h : ∀ (fuel : Nat) (n : Node), (followUpTo step fuel n).isNamed →
      n.isNamed ∧ followUpTo step fuel n ∈ n.reached fun _ => true from h n.size n hnamed
  intro fuel
  induction fuel with
  | zero => exact fun n hn => ⟨hn, mem_reached_iff.mpr .refl⟩
  | succ fuel ih =>
    intro n hn
    rw [followUpTo] at hn ⊢
    cases hnext : step n with
    | none =>
      rw [hnext] at hn
      exact ⟨hn, mem_reached_iff.mpr .refl⟩
    | some m =>
      rw [hnext] at hn
      obtain ⟨hm, hrest⟩ := ih m hn
      refine ⟨?_, mem_reached_trans (hstep hnext hm) hrest⟩
      cases hself : n.isNamed with
      | true => rfl
      | false =>
        rw [hstop hself] at hnext
        cases hnext

theorem Node.mem_reached_of_named (h : m ∈ n.named) : m ∈ n.reached fun _ => true :=
  mem_reached_iff.mpr (.single ⟨h, rfl⟩)

theorem Node.mem_reached_of_child? {role : Role} (h : n.child? role = some m)
    (hm : m.isNamed) : m ∈ n.reached fun _ => true :=
  mem_reached_of_named (mem_filter.mpr ⟨mem_children_of_child? h, hm⟩)

theorem Node.isNamed_of_is {k : Kind} (h : n.is k) : n.isNamed := by
  obtain ⟨role, start, stop, children, rfl⟩ := exists_of_is h
  rfl

theorem Node.is_of_not_named (h : n.isNamed = false) (k : Kind) : n.is k = false := by
  have hkind : n.kind? = none := isNone_iff_eq_none.mp (isSome_eq_false_iff.mp h)
  rw [is, hkind]
  rfl

theorem Node.isOneOf_of_not_named (h : n.isNamed = false) (ks : List Kind) : n.isOneOf ks = false :=
  List.any_eq_false.mpr fun k _ => by rw [is_of_not_named h]; exact Bool.false_ne_true

theorem Node.mem_reached_unwrapped (h : n.unwrapped.isNamed) :
    n.isNamed ∧ n.unwrapped ∈ n.reached fun _ => true := by
  refine mem_reached_follow (fun {n m} hstep _ => ?_) (fun {n} hn => ?_) h
  · unfold unwrapStep? at hstep
    split at hstep
    · exact mem_reached_of_named (mem_of_head? hstep)
    · split at hstep
      · exact mem_reached_of_named (mem_of_find?_eq_some hstep)
      · cases hstep
  · rw [unwrapStep?, isOneOf_of_not_named hn, isOneOf_of_not_named hn]
    rfl

end RouteAtlas.Source

namespace RouteAtlas.Inventory

open Source Scope Node Findings

variable {r : Reading}

theorem mem_reached_of_receiver? {n m : Node} (h : receiver? n = some m) (hm : m.isNamed) :
    m ∈ n.reached fun _ => true := by
  obtain ⟨target, htarget, haccess, hobject⟩ := exists_target_of_receiver? h
  have hnamed : target ∈ n.named :=
    mem_filter.mpr ⟨mem_children_of_target? htarget, isNamed_of_isOneOf haccess⟩
  exact mem_reached_trans (mem_reached_of_named hnamed) (mem_reached_of_child? hobject hm)

theorem mem_reached_chainRoot {n : Node} (h : (chainRoot n).isNamed) :
    n.isNamed ∧ chainRoot n ∈ n.reached fun _ => true := by
  refine mem_reached_follow (fun {n m} hstep hm => ?_) (fun {n} hn => ?_) h
  · unfold rootStep? linkStep? at hstep
    split at hstep
    · exact mem_reached_of_child? hstep hm
    split at hstep
    · exact mem_reached_of_receiver? hstep hm
    · split at hstep
      · exact mem_reached_of_named (mem_of_head? hstep)
      · cases hstep
  · rw [rootStep?, isAccess, isOneOf_of_not_named hn, linkStep?, is_of_not_named hn,
      isWrapper, isOneOf_of_not_named hn]
    rfl

instance (d : Site) (u : Node) : Decidable (TakesFrom d u) :=
  inferInstanceAs (Decidable (∃ value ∈ _, _))

theorem exists_site_of_takesFrom {tree u : Node} {d : Site} (hd : d ∈ tree.sites)
    (h : TakesFrom d u) (hu : u.isNamed) : ∃ s ∈ tree.sites, s.node = u := by
  obtain ⟨value, hvalue, rfl⟩ := h
  obtain ⟨hunwrapped, hroot⟩ := mem_reached_chainRoot hu
  obtain ⟨hnamed, hinner⟩ := mem_reached_unwrapped hunwrapped
  have hreached : value ∈ d.node.reached fun _ => true := mem_reached_of_child? hvalue hnamed
  exact exists_site_of_mem_reached hd (mem_reached_trans hreached (mem_reached_trans hinner hroot))

/-! ## Names and their declarators -/

/-- A declarator whose name is known to stand for a router. -/
structure Known where
  site : Site
  handle : Handle

def Known.routerName (r : Reading) (k : Known) : RouterName :=
  ⟨r.declaredName k.site, k.site.scope, k.handle⟩

def Known.isVisible (r : Reading) (name : String) (offset : Nat) (k : Known) : Bool :=
  r.declaredName k.site == name && k.site.scope.1 ≤ offset && offset ≤ k.site.scope.2

def Known.extent (k : Known) : Nat := k.site.scope.2 - k.site.scope.1

def Reading.found? (r : Reading) (known : List Known) (name : String) (offset : Nat) :
    Option Known :=
  firstLeast Known.extent (known.filter (·.isVisible r name offset))

theorem firstLeast_map {α β : Type} (f : β → Nat) (g : α → β) (as : List α) :
    firstLeast f (as.map g) = (firstLeast (f ∘ g) as).map g := by
  induction as with
  | nil => rfl
  | cons a as ih =>
    rw [map_cons, firstLeast, firstLeast, ih]
    cases firstLeast (f ∘ g) as with
    | none => rfl
    | some b =>
      simp only [map_some, Function.comp_apply]
      split <;> rfl

/-- **A name is looked up among the declarators.** -/
theorem lookup?_eq_found? {x : Findings} {known : List Known}
    (h : x.names = known.map (·.routerName r)) (name : String) (offset : Nat) :
    x.lookup? name offset = (r.found? known name offset).map (·.handle) := by
  unfold lookup? Reading.found?
  simp only
  rw [h, List.filter_map, firstLeast_map, Option.map_map]
  rfl

/-! ## Where names come from -/

def Reading.MadeAt (r : Reading) (x : Findings) (router : Nat) (d : Site) : Prop :=
  x.keyOf? router = some ⟨r.file.path, d.node.start⟩
  deriving Decidable

/-- **Where the router of a declarator comes from**, among the names known before: it is made there,
or it is that of a name from which the declarator takes its value. -/
inductive Reading.Origin (r : Reading) (x : Findings) (before : List Known) (k : Known) : Prop
  | made (hmade : r.MadeAt x k.handle.router k.site)
  | taken (u : Site) (l : Known) (hu : u ∈ r.file.tree.sites) (hname : u.node.is .identifier)
      (hfrom : TakesFrom k.site u.node)
      (hfound : r.found? before (r.textOf u.node) u.node.start = some l)
      (hrouter : l.handle.router = k.handle.router)

theorem Reading.Origin.of_keys {x y : Findings} {before : List Known} {k : Known}
    (h : r.Origin x before k) (hkeys : ∀ i key, x.keyOf? i = some key → y.keyOf? i = some key) :
    r.Origin y before k := by
  cases h with
  | made hmade => exact .made (hkeys _ _ hmade)
  | taken u l hu hname hfrom hfound hrouter => exact .taken u l hu hname hfrom hfound hrouter

/-- **The names of the findings** are those of declarators of the file, each with the origin of its
router. -/
structure Traced (r : Reading) (x : Findings) (known : List Known) : Prop where
  names : x.names = known.map (·.routerName r)
  sites : ∀ k ∈ known, k.site ∈ r.file.tree.sites ∧ k.site.node.is .variableDeclarator
  origins : ∀ before k after, known = before ++ k :: after → r.Origin x before k

namespace Traced

variable {r : Reading} {x y : Findings} {known : List Known}
variable {site : Site}

/-- Names stay traced as long as routers stay where they are. -/
theorem of_keys (h : Traced r x known) (hnames : y.names = x.names)
    (hkeys : ∀ i key, x.keyOf? i = some key → y.keyOf? i = some key) : Traced r y known where
  names := hnames.trans h.names
  sites := h.sites
  origins before k after heq := (h.origins before k after heq).of_keys hkeys

/-- **A further name is traced** if the router that it stands for has an origin. -/
theorem bind (h : Traced r x known) {handle : Handle} (hsite : site ∈ r.file.tree.sites)
    (hdeclarator : site.node.is .variableDeclarator)
    (hnames : y.names = x.names ++ [⟨r.declaredName site, site.scope, handle⟩])
    (hkeys : ∀ i key, x.keyOf? i = some key → y.keyOf? i = some key)
    (horigin : r.Origin y known ⟨site, handle⟩) : Traced r y (known ++ [⟨site, handle⟩]) where
  names := by
    rw [map_append, ← h.names, hnames]
    rfl
  sites := by
    intro k hk
    rcases mem_append.mp hk with hk | hk
    · exact h.sites k hk
    · cases mem_singleton.mp hk
      exact ⟨hsite, hdeclarator⟩
  origins before k after heq := by
    -- the split is at the new name or before it
    rcases eq_nil_or_concat after with rfl | ⟨rest, last, rfl⟩
    · obtain ⟨rfl, hk⟩ := append_inj' heq rfl
      cases hk
      exact horigin
    · rw [concat_eq_append, ← cons_append, ← append_assoc] at heq
      obtain ⟨rfl, -⟩ := append_inj' heq rfl
      exact (h.origins before k rest rfl).of_keys hkeys

theorem origin_of_lookup (h : Traced r x known) (hsite : site ∈ r.file.tree.sites) {root : Node}
    (hfrom : TakesFrom site root) (hroot : root.is .identifier) {handle : Handle}
    (hlookup : x.lookup? (r.textOf root) root.start = some handle) (base : String) :
    r.Origin x known ⟨site, ⟨handle.router, base⟩⟩ := by
  obtain ⟨u, hu, rfl⟩ := exists_site_of_takesFrom hsite hfrom (isNamed_of_is hroot)
  rw [lookup?_eq_found? h.names] at hlookup
  obtain ⟨l, hl, rfl⟩ := map_eq_some_iff.mp hlookup
  exact .taken u l hu hroot hfrom hl rfl

/-- **What a pass does keeps the names traced.** -/
theorem grows (h : Traced r x known) {d : Option Site} {offset : Nat}
    (hd : ∀ site ∈ d, site ∈ r.file.tree.sites ∧ site.node.is .variableDeclarator)
    (hgrows : x.Grows r d offset y) : ∃ known, Traced r y known := by
  have hkept : y.routers = x.routers → ∀ i key, x.keyOf? i = some key → y.keyOf? i = some key := by
    intro hrouters i key hkey
    rwa [keyOf?, hrouters]
  cases hgrows with
  | kept hrouters hnames => exact ⟨known, h.of_keys hnames (hkept hrouters)⟩
  | made t base _ hkey hrouters hnames =>
    have hkeys : ∀ i key, x.keyOf? i = some key → y.keyOf? i = some key := by
      intro i key hkey
      obtain ⟨u, hu, rfl⟩ := map_eq_some_iff.mp hkey
      obtain ⟨hi, rfl⟩ := List.getElem?_eq_some_iff.mp hu
      rw [keyOf?, hrouters, getElem?_append_left hi, getElem?_eq_getElem hi]
      rfl
    cases d with
    | none => exact ⟨known, h.of_keys (hnames.trans (append_nil _)) hkeys⟩
    | some site =>
      obtain ⟨hsite, hdeclarator⟩ := hd site rfl
      have hmade : r.MadeAt y x.routers.length site := by
        rw [Reading.MadeAt, keyOf?, hrouters, getElem?_concat_length, map_some, hkey]
        rfl
      exact ⟨_, h.bind hsite hdeclarator hnames hkeys (.made hmade)⟩
  | taken site root handle base hsome hfrom hroot hlookup hrouters hnames =>
    obtain ⟨hsite, hdeclarator⟩ := hd site hsome
    have horigin := (h.origin_of_lookup hsite hfrom hroot hlookup base).of_keys (hkept hrouters)
    exact ⟨_, h.bind hsite hdeclarator hnames (hkept hrouters) horigin⟩

end Traced

/-- **The names of a file are traced.** -/
theorem routers_traced (r : Reading) : ∃ known, Traced r r.routers known := by
  refine Reading.routers_induction (motive := fun x => ∃ known, Traced r x known)
    ⟨[], rfl, forall_mem_nil _, fun _ _ _ heq => ?_⟩ ?_
  · simp at heq
  · rintro x y d offset hd hgrows ⟨known, h⟩
    exact h.grows hd hgrows

/-! ## What the search misses -/

/-- What the grammar promises of a tree: no two places hold one node, parts lie in the range of the
whole, and declarators have names. -/
@[mk_iff]
structure Shaped (tree : Node) : Prop where
  regular : Regular tree
  placed : tree.Placed
  named : ∀ d ∈ tree.sites, d.node.is .variableDeclarator → (d.node.child? .name).isSome

instance (tree : Node) : Decidable (Shaped tree) :=
  decidable_of_iff' _ (shaped_iff tree)

/-- How the search for a name comes to a declarator to which the name does not refer. -/
inductive Miss where
  /-- The name stands outside the home of the variable: in another block, in the head of the
  function, or right behind it. -/
  | outside
  /-- A scope inside the home binds the name: with something else than a known router, or with one
  that is known in the same range. -/
  | overlooked
  deriving DecidableEq, Repr

/-- The search for the name at a site among the known declarators misses what the name refers to. -/
def Missed (r : Reading) (known : List Known) (s d : Site) : Miss → Prop
  | .outside => ∀ home ∈ home? d, home ∉ s.above
  | .overlooked =>
    ∃ home ∈ home? d, ∃ step ∈ stepsInside s home, Binds r.source step.1 step.2 (r.textOf s.node) ∧
        ∀ l ∈ known, r.declaredName l.site = r.textOf s.node → home? l.site = some step.2 →
          l.site.scope = d.scope

section Search

variable {r : Reading} {known : List Known} {s : Site} {k : Known}

theorem of_found? {name : String} {offset : Nat} (h : r.found? known name offset = some k) :
    k ∈ known ∧ r.declaredName k.site = name ∧ ∀ l ∈ known, r.declaredName l.site = name →
      l.site.scope.1 ≤ offset ∧ offset ≤ l.site.scope.2 → k.extent ≤ l.extent := by
  obtain ⟨hmem, hleast⟩ := firstLeast_eq_some h
  obtain ⟨hk, hkvisible⟩ := mem_filter.mp hmem
  rw [Known.isVisible, Bool.and_eq_true, Bool.and_eq_true, beq_iff_eq] at hkvisible
  refine ⟨hk, hkvisible.1.1, fun l hl hname hoffset => ?_⟩
  refine hleast l (mem_filter.mpr ⟨hl, ?_⟩)
  simp [Known.isVisible, hname, hoffset]

/-- **A name refers to the declarator that is found for it** unless something is missed. In
particular the routers of inner functions hide those of outer ones. -/
theorem refers_iff_of_found (hshaped : Shaped r.file.tree)
    (hknown : ∀ l ∈ known, l.site ∈ r.file.tree.sites ∧ l.site.node.is .variableDeclarator)
    (hs : s ∈ r.file.tree.sites)
    (hfound : r.found? known (r.textOf s.node) s.node.start = some k) :
    Refers r.source s k.site ↔ ¬ ∃ miss, Missed r known s k.site miss := by
  obtain ⟨hk, hname, hleast⟩ := of_found? hfound
  have hgives : GivesName r.source k.site (r.textOf s.node) := by
    obtain ⟨p, hp⟩ := isSome_iff_exists.mp (hshaped.named k.site (hknown k hk).1 (hknown k hk).2)
    rw [Reading.declaredName, hp] at hname
    exact ⟨p, hp, hname⟩
  rw [refers_iff hgives]
  constructor
  · rintro ⟨hinside, hnearer⟩ ⟨miss, hmiss⟩
    cases miss with
    | outside => exact hinside hmiss
    | overlooked =>
      obtain ⟨home, hhome, step, hstep, hbinds, -⟩ := hmiss
      exact hnearer ⟨home, hhome, step, hstep, hbinds⟩
  · intro hmiss
    have hinside : ¬ ∀ home ∈ home? k.site, home ∉ s.above := fun h => hmiss ⟨.outside, h⟩
    refine ⟨hinside, ?_⟩
    rintro ⟨home, hhome, step, hstep, hbinds⟩
    have habove : home ∈ s.above := by
      by_contra hnot
      exact hinside fun home' hhome' => mem_unique hhome hhome' ▸ hnot
    refine hmiss ⟨.overlooked, home, hhome, step, hstep, hbinds, fun l hl hlname hlhome => ?_⟩
    -- a known declarator of another range would be the nearer one, and would be found
    obtain ⟨hvisible, hsmaller⟩ := scope_lt_of_nearer hshaped.regular hshaped.placed hs
      (hknown k hk).1 (hknown l hl).1 hhome habove hlhome hstep
    by_contra hne
    exact Nat.not_lt.mpr (hleast l hl hlname hvisible) (hsmaller hne)

end Search

/-! ## The way to a router -/

/-- A step on the way from a name to a router: the names known there, the name, its declarator. -/
structure NameStep where
  known : List Known
  use : Site
  declarator : Site

/-- **The way from a name to a router**: to a declarator of that name that makes the router, or to
one that takes its value from a further name, known before, and on from there. -/
inductive Leads (r : Reading) (router : Nat) : List Known → Site → List NameStep → Prop
  | made {known : List Known} {s : Site} {k : Known} (hk : k ∈ known)
      (hname : r.declaredName k.site = r.textOf s.node)
      (hmade : r.MadeAt r.routers router k.site) : Leads r router known s [⟨known, s, k.site⟩]
  | taken {before after : List Known} {s u : Site} {k : Known} {way : List NameStep}
      (hname : r.declaredName k.site = r.textOf s.node) (hu : u ∈ r.file.tree.sites)
      (hident : u.node.is .identifier) (hfrom : TakesFrom k.site u.node)
      (hway : Leads r router before u way) :
      Leads r router (before ++ k :: after) s (⟨before ++ k :: after, s, k.site⟩ :: way)

/-- **What a search finds, a way leads to**, each step of which is a search. -/
theorem leads_of_found {r : Reading} {all : List Known} (htraced : Traced r r.routers all)
    {P : NameStep → Prop}
    (hP : ∀ known rest s k, all = known ++ rest → s ∈ r.file.tree.sites →
      r.found? known (r.textOf s.node) s.node.start = some k → P ⟨known, s, k.site⟩)
    (known rest : List Known) (hall : all = known ++ rest) (s : Site)
    (hs : s ∈ r.file.tree.sites) {k : Known}
    (hfound : r.found? known (r.textOf s.node) s.node.start = some k) :
    ∃ way, Leads r k.handle.router known s way ∧ ∀ step ∈ way, P step := by
  obtain ⟨hk, hname, -⟩ := of_found? hfound
  have hstep := hP known rest s k hall hs hfound
  obtain ⟨before, after, hsplit⟩ := append_of_mem hk
  have horigin := htraced.origins before k (after ++ rest)
    (by rw [hall, hsplit, append_assoc, cons_append])
  cases horigin with
  | made hmade => exact ⟨_, .made hk hname hmade, forall_mem_singleton.mpr hstep⟩
  | taken u l hu hident hfrom hinner hrouter =>
    obtain ⟨way, hway, hsteps⟩ := leads_of_found htraced hP before (k :: after ++ rest)
      (by rw [hall, hsplit, append_assoc]) u hu hinner
    subst hsplit
    exact ⟨_, .taken hname hu hident hfrom (hrouter ▸ hway), forall_mem_cons.mpr ⟨hstep, hsteps⟩⟩
termination_by known.length

/-! ## Chains -/

def Reading.AddsTo (r : Reading) (before : List Site) (outer : Node) (router : Nat) : Prop :=
  ((r.afterChains before).withChain r outer).routers[router]? ≠
    (r.afterChains before).routers[router]?

theorem Reading.afterChains_names (r : Reading) (before : List Site) :
    (r.afterChains before).names = r.routers.names := by
  refine List.foldlRecOn _ _ (motive := fun x : Findings => x.names = r.routers.names) rfl
    fun x h s _ => ?_
  unfold withChain
  split
  · exact h
  · exact h

theorem Reading.AddsTo.chainStart? {before : List Site} {outer : Node} {router : Nat}
    (h : r.AddsTo before outer router) :
    ∃ handle, (r.afterChains before).chainStart? r outer = some handle ∧
      handle.router = router := by
  unfold AddsTo withChain at h
  cases hstart : (r.afterChains before).chainStart? r outer with
  | none =>
    rw [hstart] at h
    exact absurd rfl h
  | some handle =>
    refine ⟨handle, rfl, ?_⟩
    rw [hstart] at h
    by_contra hne
    exact h (getElem?_modify_ne _ _ hne)

/-- **Which router a chain is recorded on.** If a chain that starts with a name adds to a router, a
way leads from the name to the router, and on each step of the way the name refers to the declarator
that is found for it, unless the search misses something there. -/
theorem chain_attributed_iff {r : Reading} (hshaped : Shaped r.file.tree) (before : List Site)
    {outer : Site} (houter : outer ∈ r.file.tree.sites)
    (hroot : (chainRoot outer.node).is .identifier = true) {router : Nat}
    (hadds : r.AddsTo before outer.node router) :
    ∃ known s way, Traced r r.routers known ∧ s ∈ r.file.tree.sites ∧
      s.node = chainRoot outer.node ∧ Leads r router known s way ∧
      ∀ step ∈ way, (Refers r.source step.use step.declarator ↔
        ¬ ∃ miss, Missed r step.known step.use step.declarator miss) := by
  obtain ⟨handle, hstart, rfl⟩ := hadds.chainStart?
  obtain ⟨known, htraced⟩ := routers_traced r
  obtain ⟨s, hs, hnode⟩ : ∃ s ∈ r.file.tree.sites, s.node = chainRoot outer.node :=
    exists_site_of_mem_reached houter (mem_reached_chainRoot (Node.isNamed_of_is hroot)).2
  have hfound : ∃ k, r.found? known (r.textOf s.node) s.node.start = some k ∧
      k.handle = handle := by
    rw [chainStart?, if_pos hroot, ← hnode] at hstart
    rw [lookup?_eq_found? ((r.afterChains_names before).trans htraced.names)] at hstart
    exact map_eq_some_iff.mp hstart
  obtain ⟨k, hk, rfl⟩ := hfound
  obtain ⟨way, hway, hsteps⟩ := leads_of_found htraced
    (P := fun step => Refers r.source step.use step.declarator ↔
      ¬ ∃ miss, Missed r step.known step.use step.declarator miss)
    (fun known' rest s' k' hall hs' hk' => refers_iff_of_found hshaped
      (fun l hl => htraced.sites l (hall ▸ mem_append_left rest hl)) hs' hk')
    known [] (append_nil known).symm s hs hk
  exact ⟨known, s, way, htraced, hs, hnode, hway, hsteps⟩

/-- **A name rightly stands for a router** at its place: each step of a way to the router is to a
declarator to which the name refers. -/
def RightlyOn (r : Reading) (router : Nat) (s : Site) : Prop :=
  ∃ known way, Traced r r.routers known ∧ Leads r router known s way ∧
    ∀ step ∈ way, Refers r.source step.use step.declarator

/-- The name refers to no declarator that makes the router or takes its value from a name. -/
def RefersElsewhere (r : Reading) (router : Nat) (s : Site) : Prop :=
  ∀ d ∈ r.file.tree.sites, Refers r.source s d → ¬ r.MadeAt r.routers router d ∧
    ∀ value ∈ d.node.child? .value, (chainRoot value.unwrapped).is .identifier = false
  deriving Decidable

theorem not_rightlyOn {router : Nat} {s : Site} (h : RefersElsewhere r router s) :
    ¬ RightlyOn r router s := by
  rintro ⟨known, way, htraced, hway, hrefers⟩
  cases hway with
  | @made _ _ k hk hname hmade =>
    exact (h k.site (htraced.sites k hk).1 (hrefers _ mem_cons_self)).1 hmade
  | @taken _ _ _ u k _ hname hu hident hfrom hway =>
    have hk := (htraced.sites k (mem_append_right _ mem_cons_self)).1
    obtain ⟨value, hvalue, hroot⟩ := hfrom
    have hother := (h k.site hk (hrefers _ mem_cons_self)).2 value hvalue
    rw [hroot, hident] at hother
    cases hother

instance (r : Reading) (before : List Site) (outer : Node) (router : Nat) :
    Decidable (r.AddsTo before outer router) := inferInstanceAs (Decidable (_ ≠ _))

/-- A router in a function that hides one outside, and a further name for it. -/
def hidingFile : Reading :=
  importing "let a=new Hono();()=>\x7blet a=new Hono(),b=a;b.use(h)\x7d"

/-- Names that do not refer to the routers that are found for them: a parameter, a name right behind
a function, a name in a block, and a name in the head of a function. -/
def misplacingFiles : List Reading :=
  ["let a=new Hono();a=>a.use(h)", "let a=new Hono();function f()\x7blet a=new Hono()\x7da.use(h)",
    "let a=new Hono();\x7blet a=new Hono();a.use(h)\x7d",
    "(b=a.use(h))=>\x7blet a=new Hono()\x7d"].map importing

/-- A right way of two steps from a name to a router. -/
def RightInTwo (r : Reading) (router : Nat) (s : Site) : Prop :=
  ∃ d ∈ r.file.tree.sites, Refers r.source s d ∧ ∃ u ∈ r.file.tree.sites, TakesFrom d u.node ∧
    ∃ e ∈ r.file.tree.sites, Refers r.source u e ∧ r.MadeAt r.routers router e
  deriving Decidable

theorem attribution_facts :
    (Shaped hidingFile.file.tree ∧ ∃ outer ∈ outermostCalls hidingFile.file.tree,
      (chainRoot outer.node).is .identifier ∧ hidingFile.AddsTo [] outer.node 1 ∧
        ∃ s ∈ hidingFile.file.tree.sites, s.node = chainRoot outer.node ∧
          RightInTwo hidingFile 1 s) ∧
    ∀ r ∈ misplacingFiles, Shaped r.file.tree ∧ ∃ outer ∈ outermostCalls r.file.tree,
      ∃ s ∈ r.file.tree.sites, s.node = chainRoot outer.node ∧
        ∃ router ∈ [0, 1], r.AddsTo [] outer.node router ∧ RefersElsewhere r router s := by
  decide +kernel

/-- The further name rightly leads to the router of the inner function. -/
theorem chain_attributed_iff_hiding : Shaped hidingFile.file.tree ∧
    ∃ outer ∈ outermostCalls hidingFile.file.tree, hidingFile.AddsTo [] outer.node 1 ∧
      (∃ s ∈ hidingFile.file.tree.sites, s.node = chainRoot outer.node ∧
        RightInTwo hidingFile 1 s) ∧
      ∃ known s way, Traced hidingFile hidingFile.routers known ∧ s ∈ hidingFile.file.tree.sites ∧
        s.node = chainRoot outer.node ∧ Leads hidingFile 1 known s way ∧
        ∀ step ∈ way, (Refers hidingFile.source step.use step.declarator ↔
          ¬ ∃ miss, Missed hidingFile step.known step.use step.declarator miss) := by
  obtain ⟨⟨hshaped, outer, houter, hroot, hadds, hright⟩, -⟩ := attribution_facts
  exact ⟨hshaped, outer, houter, hadds, hright,
    chain_attributed_iff hshaped [] (mem_of_mem_filter houter) hroot hadds⟩

/-- **Names are taken for routers to which they do not refer.** -/
theorem names_taken_for_routers : misplacingFiles.length = 4 ∧
    ∀ r ∈ misplacingFiles, Shaped r.file.tree ∧ ∃ outer ∈ outermostCalls r.file.tree,
      ∃ s ∈ r.file.tree.sites, s.node = chainRoot outer.node ∧
        ∃ router, r.AddsTo [] outer.node router ∧ ¬ RightlyOn r router s := by
  refine ⟨rfl, fun r hr => ?_⟩
  obtain ⟨hshaped, outer, houter, s, hs, hnode, router, -, hadds, helsewhere⟩ :=
    attribution_facts.2 r hr
  exact ⟨hshaped, outer, houter, s, hs, hnode, router, hadds, not_rightlyOn helsewhere⟩

end RouteAtlas.Inventory
