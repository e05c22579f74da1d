import RouteAtlas.Proofs.Attribution
import RouteAtlas.Proofs.ConstantScopes

/-!
# Base paths through further names

A router may be known by further names, each declared with the value of a chain of calls on the name
before it. A base path in such a chain counts for the new name and for all names that are taken from
it. It is worked out twice: once for the name, from all of the chain that declares it, and once for
each call, from the calls in front of it. Neither skips or repeats what the other has.

Results:
* `knownFrom_of_handleOf`: the base path that a name stands for.
* `VerbCall.entriesOn`: what a call registers behind the calls in front of it.
* `verb_call_keeps_base_paths`: every base path up to the call is in the path, once and in order.
-/

open List Option

namespace RouteAtlas.Inventory

open Source Http.Pattern Findings Node

variable {base path : String}

/-! ## Chains link by link -/

/-- **A chain of calls on a root**: the root itself, a call of a member of a chain, or a chain in a
wrapper. The calls are in source order. -/
inductive CallChain (root : Node) : List Node → Node → Prop
  | root (hroot : root.isOneOf [.identifier, .newExpression]) : CallChain root [] root
  | call {calls : List Node} {n m : Node} (hcall : n.is .callExpression)
      (hreceiver : receiver? n = some m) (hchain : CallChain root calls m) :
      CallChain root (calls ++ [n]) n
  | wrapped {calls : List Node} {n m : Node} (hwrapper : isWrapper n)
      (hvalue : n.named.head? = some m) (hchain : CallChain root calls m) : CallChain root calls n

namespace CallChain

variable {root n : Node} {calls : List Node}

theorem link_of_call {m : Node} (hcall : n.is .callExpression)
    (hreceiver : receiver? n = some m) : linkStep? n = some m := by
  rw [linkStep?, if_pos hcall, hreceiver]

theorem is_call_of_wrapper (h : isWrapper n) : n.is .callExpression = false := by
  by_contra hcall
  rw [isWrapper_of_call (eq_true_of_ne_false hcall)] at h
  cases h

theorem link_of_wrapper {m : Node} (hwrapper : isWrapper n) (hvalue : n.named.head? = some m) :
    linkStep? n = some m := by
  rw [linkStep?, is_call_of_wrapper hwrapper, hwrapper, hvalue]
  rfl

theorem chainRoot_eq (h : CallChain root calls n) : chainRoot n = root := by
  induction h with
  | root hroot =>
    refine follow_eq_self ?_
    simp only [isOneOf, any_cons, any_nil, Bool.or_false, Bool.or_eq_true] at hroot
    rcases hroot with hroot | hroot <;>
      simp [rootStep?, linkStep?, isAccess, isWrapper, isOneOf, is_of_is hroot]
  | call hcall hreceiver _ ih =>
    rw [Inventory.chainRoot_eq (link_of_call hcall hreceiver), ih]
  | wrapped hwrapper hvalue _ ih =>
    rw [Inventory.chainRoot_eq (link_of_wrapper hwrapper hvalue), ih]

theorem chainCalls_eq (h : CallChain root calls n) : chainCalls n = calls := by
  induction h with
  | root hroot =>
    simp only [isOneOf, any_cons, any_nil, Bool.or_false, Bool.or_eq_true] at hroot
    refine chainCalls_of_stop ?_ ?_ <;> rcases hroot with hroot | hroot <;>
      simp [isWrapper, isOneOf, is_of_is hroot]
  | @call calls n m hcall hreceiver _ ih =>
    obtain ⟨target, htarget, haccess, -⟩ := exists_target_of_receiver? hreceiver
    have hmember : isMemberCall n := by simp [isMemberCall, hcall, htarget, haccess]
    rw [Inventory.chainCalls_eq, link_of_call hcall hreceiver, hmember, map_some, ih]
    rfl
  | @wrapped calls n m hwrapper hvalue _ ih =>
    rw [Inventory.chainCalls_eq, link_of_wrapper hwrapper hvalue, isMemberCall,
      is_call_of_wrapper hwrapper, map_some, ih]
    exact append_nil calls

/-- A call of a chain is the last one of a chain with the calls in front of it. -/
theorem upTo {before after : List Node} {call : Node}
    (h : CallChain root (before ++ call :: after) n) : CallChain root (before ++ [call]) call := by
  generalize hcalls : before ++ call :: after = calls at h
  induction h generalizing after with
  | root => exact absurd hcalls (by simp)
  | @call calls n m hcall hreceiver hchain ih =>
    rcases eq_nil_or_concat after with rfl | ⟨rest, last, rfl⟩
    · obtain ⟨rfl, hlast⟩ := append_inj' hcalls rfl
      cases hlast
      exact .call hcall hreceiver hchain
    · rw [concat_eq_append, ← cons_append, ← append_assoc] at hcalls
      exact ih (append_inj' hcalls rfl).1
  | wrapped _ _ _ ih => exact ih hcalls

end CallChain

/-! ## Base paths of calls -/

theorem segments_joinBase (hbase : Spaceless base) (hpath : Spaceless path) :
    segments (joinBase base path) = segments base ++ segments path := by
  unfold joinBase
  split
  · rename_i hempty
    rw [String.isEmpty_iff.mp hempty]
    rfl
  · rw [segments_join, trim_of_trimmed hbase.trimmed, trim_of_trimmed hpath.trimmed]

theorem spaceless_empty : Spaceless "" := rfl

theorem spaceless_joinBase (hbase : Spaceless base) (hpath : Spaceless path) :
    Spaceless (joinBase base path) := by
  unfold joinBase
  split
  · exact hpath
  · exact hbase.join hpath

theorem segments_foldl_joinBase {paths : List String} (hpaths : ∀ path ∈ paths, Spaceless path)
    (hbase : Spaceless base) : Spaceless (paths.foldl joinBase base) ∧
      segments (paths.foldl joinBase base) = segments base ++ paths.flatMap segments := by
  induction paths generalizing base with
  | nil => exact ⟨hbase, (append_nil _).symm⟩
  | cons path paths ih =>
    obtain ⟨hpath, hpaths⟩ := forall_mem_cons.mp hpaths
    obtain ⟨hspaceless, hsegments⟩ := ih hpaths (spaceless_joinBase hbase hpath)
    refine ⟨hspaceless, ?_⟩
    rw [foldl_cons, hsegments, segments_joinBase hbase hpath, flatMap_cons, append_assoc]

namespace Reading

variable (r : Reading)

/-- The path that a call puts in front of later registrations, if it does so and the path is
known. -/
def basePath? (call : Node) : Option String :=
  if r.roleOf call == .basePath then call.arguments.head?.bind r.constant? else none

def basePaths (calls : List Node) : List String := calls.filterMap r.basePath?

theorem chainBase_eq (value : Node) :
    r.chainBase value = (r.basePaths (chainCalls value)).foldl joinBase "" := by
  rw [chainBase, basePaths, foldl_filterMap]
  congr 1
  funext base call
  unfold basePath?
  split
  · cases call.arguments.head?.bind r.constant? <;> rfl
  · rfl

theorem callOutcome_snd (x : Findings) (base : String) (call : Node) :
    (r.callOutcome x base call).2 = (r.basePath? call).elim base (joinBase base) := by
  unfold callOutcome basePath?
  cases r.roleOf call with
  | basePath =>
    cases call.arguments.head? with
    | none => rfl
    | some arg =>
      simp only [bind_some]
      cases r.constant? arg <;> rfl
  | construction | route | mount | dynamic | other => rfl

theorem baseAfter_eq (x : Findings) (base : String) (calls : List Node) :
    r.baseAfter x base calls = (r.basePaths calls).foldl joinBase base := by
  induction calls generalizing base with
  | nil => rfl
  | cons call calls ih =>
    show r.baseAfter x (r.callOutcome x base call).2 calls = _
    rw [ih, callOutcome_snd, basePaths, basePaths, filterMap_cons]
    cases r.basePath? call <;> rfl

end Reading

/-! ## Names for a router -/

namespace Reading

def inFrontOf (r : Reading) (t : Site) : List Site := r.file.tree.sites.takeWhile (· ≠ t)

theorem sites_eq_inFrontOf {r : Reading} {t : Site} (h : t ∈ r.file.tree.sites) :
    ∃ after, r.file.tree.sites = r.inFrontOf t ++ t :: after ∧ t ∉ r.inFrontOf t := by
  obtain ⟨before, after, hsites, hnot⟩ := eq_append_cons_of_mem h
  have hfront : r.inFrontOf t = before := by
    have hne : ∀ s ∈ before, decide (s ≠ t) :=
      fun s hs => decide_eq_true fun hst => hnot (hst ▸ hs)
    rw [inFrontOf, hsites, takeWhile_append_of_pos hne, takeWhile_cons_of_neg (by simp), append_nil]
  exact ⟨after, hfront ▸ hsites, hfront ▸ hnot⟩

/-- **The one declarator of a name.** -/
@[mk_iff]
structure NamedOnce (r : Reading) (d : Site) : Prop where
  mem : d ∈ r.file.tree.sites
  declarator : d.node.is .variableDeclarator
  name : ∃ n ∈ d.node.child? .name, n.is .identifier
  once : ∀ e ∈ r.file.tree.sites, e.node.is .variableDeclarator →
    r.declaredName e = r.declaredName d → e = d

/-- The one declarator of a name has a chain of calls on a root for its value. The base paths of the
chain that are known have no white space. -/
structure Declares (r : Reading) (d : Site) (root : Node) (calls : List Node) : Prop
    extends r.NamedOnce d where
  value : ∃ v ∈ d.node.child? .value, CallChain root calls v.unwrapped
  spaceless : ∀ path ∈ r.basePaths calls, Spaceless path

/-- An identifier is the name of a declarator, and stands where that can be seen: in the innermost
function around the declarator, or anywhere in the source if there is none. -/
@[mk_iff]
structure Names (r : Reading) (u : Node) (d : Site) : Prop where
  identifier : u.is .identifier
  text : r.textOf u = r.declaredName d
  visible : d.scope.1 ≤ u.start ∧ u.start ≤ d.scope.2

/-- **A name for the router that is made at a declarator**, with the base paths on the way from
there: the name of that declarator itself, or a name that is declared further on with a chain of
calls on such a name. -/
inductive HandleOf (r : Reading) (c : Site) : Site → List String → Prop
  | made {root : Node} {calls : List Node} (hdeclares : r.Declares c root calls)
      (hroot : root.is .newExpression) (hrole : r.roleOf root = .construction)
      -- constructions are told apart by where they start, and in source text no two start alike
      (hfirst : ∀ s ∈ r.inFrontOf c, ∀ k ∈ r.constructionAt? s,
        k.expression.node.start ≠ root.start) : HandleOf r c c (r.basePaths calls)
  | taken {d e : Site} {bases : List String} {root : Node} {calls : List Node}
      (hhandle : HandleOf r c d bases) (hdeclares : r.Declares e root calls)
      (hname : r.Names root d) (hfront : d ∈ r.inFrontOf e) :
      HandleOf r c e (bases ++ r.basePaths calls)

end Reading

/-! ## What the findings know -/

/-- All that the findings have under a name is one router, known in one range. -/
structure Findings.Knows (x : Findings) (name : String) (scope : Nat × Nat) (handle : Handle) :
    Prop where
  known : ∃ b ∈ x.names, b.name = name
  only : ∀ b ∈ x.names, b.name = name → b = ⟨name, scope, handle⟩

namespace Findings

variable {x y : Findings} {r : Reading} {name : String} {scope : Nat × Nat} {handle : Handle}

theorem Knows.lookup? (h : x.Knows name scope handle) {offset : Nat}
    (hoffset : scope.1 ≤ offset ∧ offset ≤ scope.2) : x.lookup? name offset = some handle := by
  obtain ⟨b, hb, hname⟩ := h.known
  have hvisible : b ∈ x.names.filter fun b =>
      b.name == name && b.scope.1 ≤ offset && offset ≤ b.scope.2 := by
    refine mem_filter.mpr ⟨hb, ?_⟩
    rw [h.only b hb hname]
    simp [hoffset]
  unfold Findings.lookup?
  simp only
  cases hfirst : firstLeast (fun b : RouterName => b.scope.2 - b.scope.1)
      (x.names.filter fun b => b.name == name && b.scope.1 ≤ offset && offset ≤ b.scope.2) with
  | none => exact absurd hfirst (firstLeast_ne_none (ne_nil_of_mem hvisible))
  | some found =>
    obtain ⟨hmem, hshown⟩ := mem_filter.mp (firstLeast_eq_some hfirst).1
    have hname : found.name = name := by
      simp only [Bool.and_eq_true, beq_iff_eq] at hshown
      exact hshown.1.1
    rw [h.only found hmem hname]
    rfl

/-- What is known stays so as long as further names do not say otherwise. -/
theorem Knows.append (h : x.Knows name scope handle) {new : List RouterName}
    (hnames : y.names = x.names ++ new)
    (hnew : ∀ b ∈ new, b.name = name → b = ⟨name, scope, handle⟩) : y.Knows name scope handle where
  known := by
    obtain ⟨b, hb, hname⟩ := h.known
    exact ⟨b, hnames ▸ mem_append_left new hb, hname⟩
  only b hb hname := by
    rw [hnames] at hb
    rcases mem_append.mp hb with hb | hb
    · exact h.only b hb hname
    · exact hnew b hb hname

theorem knows_bind (hfresh : ∀ b ∈ x.names, b.name ≠ name) (site : Site) (handle : Handle) :
    (x.bind name site handle).Knows name site.scope handle where
  known := ⟨_, mem_append_right _ (mem_singleton.mpr rfl), rfl⟩
  only b hb hname := by
    rcases mem_append.mp hb with hb | hb
    · exact absurd hname (hfresh b hb)
    · exact mem_singleton.mp hb

/-! ## What one step adds -/

theorem Grows.names {d : Option Site} {offset : Nat} (h : x.Grows r d offset y) : ∃ new,
    y.names = x.names ++ new ∧ ∀ b ∈ new, ∃ site ∈ d, b.name = r.declaredName site := by
  cases h with
  | kept _ hnames => exact ⟨[], hnames.trans (append_nil _).symm, forall_mem_nil _⟩
  | made t base _ _ _ hnames =>
    refine ⟨_, hnames, fun b hb => ?_⟩
    obtain ⟨site, hsite, rfl⟩ := mem_map.mp hb
    exact ⟨site, mem_toList.mp hsite, rfl⟩
  | taken site root handle base hd _ _ _ _ hnames =>
    exact ⟨_, hnames, forall_mem_singleton.mpr ⟨site, hd, rfl⟩⟩

theorem Grows.mem_names {d : Option Site} {offset : Nat} (h : x.Grows r d offset y) :
    ∀ b ∈ y.names, b ∈ x.names ∨ ∃ site ∈ d, b.name = r.declaredName site := by
  obtain ⟨new, hnames, hnew⟩ := h.names
  rw [hnames]
  exact fun b hb => (mem_append.mp hb).imp_right (hnew b)

theorem Knows.grows (h : x.Knows name scope handle) {d : Option Site} {offset : Nat}
    (hgrows : x.Grows r d offset y) (hne : ∀ site ∈ d, r.declaredName site ≠ name) :
    y.Knows name scope handle := by
  obtain ⟨new, hnames, hnew⟩ := hgrows.names
  refine h.append hnames fun b hb hname => ?_
  obtain ⟨site, hsite, hdeclared⟩ := hnew b hb
  exact absurd (hdeclared.symm.trans hname) (hne site hsite)

theorem Grows.owners {d : Option Site} {offset : Nat} (h : x.Grows r d offset y) : ∃ new,
    y.owners = new ++ x.owners ∧ ∀ o ∈ new, o.1 = offset := by
  cases h with
  | kept _ _ howners => exact ⟨[], howners, forall_mem_nil _⟩
  | made t base _ _ _ _ howners => exact ⟨[_], howners, forall_mem_singleton.mpr rfl⟩
  | taken _ _ _ _ _ _ _ _ _ _ howners => exact ⟨[], howners, forall_mem_nil _⟩

theorem names_withFunctions (r : Reading) : (x.withFunctions r).names = x.names :=
  foldlRecOn _ _ (motive := fun y : Findings => y.names = x.names) rfl fun y hy f _ =>
    (y.withFunction_keeps r f).2.1.trans hy

/-- What a run of steps ends with was there at first, or one of the steps has added it. -/
theorem mem_foldl {α β : Type} (f : Findings → List β) {step : Findings → α → Findings}
    {adds : α → β → Prop} (hstep : ∀ x a, ∀ b ∈ f (step x a), b ∈ f x ∨ adds a b) (x : Findings)
    (as : List α) : ∀ b ∈ f (as.foldl step x), b ∈ f x ∨ ∃ a ∈ as, adds a b := by
  refine foldlRecOn as step (motive := fun y => ∀ b ∈ f y, b ∈ f x ∨ ∃ a ∈ as, adds a b)
    (fun b hb => .inl hb) fun y hy a ha b hb => ?_
  rcases hstep y a b hb with hb | hadds
  · exact hy b hb
  · exact .inr ⟨a, ha, hadds⟩

end Findings

/-! ## Constructions -/

variable (r : Reading)

def Reading.afterConstructions (ks : List Construction) : Findings :=
  ks.foldl (·.withConstruction r ·) {}

namespace Reading

variable {r : Reading} {c : Site} {root : Node} {calls : List Node}
variable {ks : List Construction} {x : Findings}

theorem mem_names_afterConstructions {b : RouterName} (hb : b ∈ (r.afterConstructions ks).names) :
    ∃ k ∈ ks, ∃ site ∈ k.declarator, b.name = r.declaredName site :=
  (Findings.mem_foldl Findings.names (fun x k => (x.grows_withConstruction r k).mem_names) {} ks b
    hb).resolve_left not_mem_nil

theorem mem_owners_afterConstructions {o : Nat × Nat} (ho : o ∈ (r.afterConstructions ks).owners) :
    ∃ k ∈ ks, o.1 = k.expression.node.start := by
  have hstep : ∀ (x : Findings) k, ∀ o ∈ (x.withConstruction r k).owners, o ∈ x.owners ∨
      o.1 = k.expression.node.start := by
    intro x k o ho
    obtain ⟨new, howners, hnew⟩ := (x.grows_withConstruction r k).owners
    rw [howners] at ho
    exact (mem_append.mp ho).symm.imp_right (hnew o)
  exact (mem_foldl owners hstep {} ks o ho).resolve_left not_mem_nil

/-- A construction at a place that is not owned makes a router and gives it the name of its
declarator. -/
theorem knows_withConstruction (hdeclares : r.Declares c root calls)
    (hfree : x.owner? root.start = none) (hfresh : ∀ b ∈ x.names, b.name ≠ r.declaredName c) :
    (x.withConstruction r ⟨⟨root, []⟩, some c⟩).Knows (r.declaredName c) c.scope
        ⟨x.routers.length, (r.basePaths calls).foldl joinBase ""⟩ ∧
      (x.withConstruction r ⟨⟨root, []⟩, some c⟩).owner? root.start = some x.routers.length := by
  obtain ⟨value, hvalue, hchain⟩ := hdeclares.value
  have hstep : x.withConstruction r ⟨⟨root, []⟩, some c⟩ =
      ((x.addRouter r (r.declaredName c) c.node false []).bind (r.declaredName c) c
        ⟨x.routers.length, r.chainBase value.unwrapped⟩).own root.start x.routers.length := by
    unfold withConstruction
    simp only [hfree, mem_def.mp hvalue]
    rfl
  rw [hstep]
  refine ⟨?_, lookup_cons_self⟩
  rw [chainBase_eq, hchain.chainCalls_eq]
  have hbound := knows_bind (x := x.addRouter r (r.declaredName c) c.node false [])
    hfresh c ⟨x.routers.length, (r.basePaths calls).foldl joinBase ""⟩
  exact ⟨hbound.known, hbound.only⟩

/-- Further constructions leave it at that, where none of them starts at another place and has a
declarator of the same name. -/
theorem knows_foldl_withConstruction {x : Findings} {handle : Handle}
    (hknows : x.Knows (r.declaredName c) c.scope handle)
    (howned : (x.owner? root.start).isSome) {ks : List Construction}
    (hks : ∀ k ∈ ks, ∀ site, k.declarator = some site →
      r.declaredName site = r.declaredName c → k.expression.node.start = root.start) :
    (ks.foldl (·.withConstruction r ·) x).Knows (r.declaredName c) c.scope handle := by
  refine (foldlRecOn ks _ (motive := fun x : Findings =>
    x.Knows (r.declaredName c) c.scope handle ∧ (x.owner? root.start).isSome)
    ⟨hknows, howned⟩ fun x hx k hk => ?_).1
  have howned : ((x.withConstruction r k).owner? root.start).isSome := by
    obtain ⟨new, howners, -⟩ := (x.grows_withConstruction r k).owners
    rw [owner?, howners, lookup_append, isSome_or, Bool.or_eq_true]
    exact .inr hx.2
  refine ⟨?_, howned⟩
  by_cases htaken : (x.owner? k.expression.node.start).isSome
  · have hsame : x.withConstruction r k = x := if_pos htaken
    rw [hsame]
    exact hx.1
  · refine hx.1.grows (x.grows_withConstruction r k) fun site hsite hname => ?_
    rw [hks k hk site hsite hname] at htaken
    exact htaken hx.2

/-- **The name of a construction's declarator is known** once all constructions are. -/
theorem constructions_knows (hdeclares : r.Declares c root calls)
    (hroot : root.is .newExpression) (hrole : r.roleOf root = .construction)
    (hfirst : ∀ s ∈ r.inFrontOf c, ∀ k ∈ r.constructionAt? s,
      k.expression.node.start ≠ root.start) : ∃ router, r.constructions.Knows (r.declaredName c)
      c.scope ⟨router, (r.basePaths calls).foldl joinBase ""⟩ := by
  have hat : r.constructionAt? c = some ⟨⟨root, []⟩, some c⟩ := by
    obtain ⟨value, hvalue, hchain⟩ := hdeclares.value
    rw [constructionAt?, if_pos hdeclares.declarator, hvalue]
    simp [hchain.chainRoot_eq, hroot, hrole]
  obtain ⟨after, hsites, hc⟩ := sites_eq_inFrontOf hdeclares.mem
  -- a construction whose declarator has the name is that of the one declarator
  have honce : ∀ s ∈ r.file.tree.sites, ∀ k, r.constructionAt? s = some k → ∀ site,
      k.declarator = some site → r.declaredName site = r.declaredName c → s = c := by
    intro s hs k hk site hsite hname
    obtain ⟨rfl, hdeclarator⟩ := declarator_of_constructionAt? hk hsite
    exact hdeclares.once site hs hdeclarator hname
  have hfresh : ∀ b ∈ (r.afterConstructions ((r.inFrontOf c).filterMap r.constructionAt?)).names,
      b.name ≠ r.declaredName c := by
    intro b hb hname
    obtain ⟨k, hk, site, hsite, hdeclared⟩ := mem_names_afterConstructions hb
    obtain ⟨s, hs, hk⟩ := mem_filterMap.mp hk
    have hmem : s ∈ r.file.tree.sites := IsPrefix.subset (List.takeWhile_prefix _) hs
    exact hc (honce s hmem k hk site hsite (hdeclared.symm.trans hname) ▸ hs)
  have hfree : (r.afterConstructions ((r.inFrontOf c).filterMap r.constructionAt?)).owner?
      root.start = none := by
    refine lookup_eq_none_iff.mpr fun o ho => ?_
    obtain ⟨k, hk, hstart⟩ := mem_owners_afterConstructions ho
    obtain ⟨s, hs, hk⟩ := mem_filterMap.mp hk
    have hne := hfirst s hs k hk
    simpa [hstart] using hne.symm
  obtain ⟨hknows, howned⟩ := knows_withConstruction hdeclares hfree hfresh
  have hall : r.constructions = (after.filterMap r.constructionAt?).foldl (·.withConstruction r ·)
      ((r.afterConstructions ((r.inFrontOf c).filterMap r.constructionAt?)).withConstruction r
        ⟨⟨root, []⟩, some c⟩) := by
    rw [constructions, hsites, filterMap_append, filterMap_cons_some hat, foldl_append]
    rfl
  have howned := isSome_of_eq_some howned
  rw [hall]
  refine ⟨_, knows_foldl_withConstruction hknows howned fun k hk site hsite hname => ?_⟩
  obtain ⟨s, hs, hk⟩ := mem_filterMap.mp hk
  have hmem : s ∈ r.file.tree.sites :=
    hsites ▸ mem_append_right _ (mem_cons_of_mem _ hs)
  obtain rfl := honce s hmem k hk site hsite hname
  rw [some.inj (hk.symm.trans hat)]

end Reading

/-! ## Further names -/

def Reading.declarators : List Site :=
  r.file.tree.sites.filter (·.node.is .variableDeclarator)

def Reading.afterNames (sites : List Site) : Findings :=
  sites.foldl (·.withAlias r ·) (r.constructions.withFunctions r)

/-- The name of a declarator stands for a router as soon as the declarator has been read. -/
def Reading.KnownFrom (d : Site) (handle : Handle) : Prop :=
  ∀ read rest, r.declarators = read ++ rest → d ∈ read →
    (r.afterNames read).Knows (r.declaredName d) d.scope handle

/-- The base path behind the calls of a chain that declares a name. -/
def Reading.baseBehind (base : String) (calls : List Node) : String :=
  if calls.isEmpty then base else joinBase base ((r.basePaths calls).foldl joinBase "")

namespace Reading

variable {r : Reading} {c d e : Site} {root : Node} {calls : List Node} {bases : List String}
variable {read : List Site} {handle : Handle}

theorem Declares.mem_declarators (h : r.Declares d root calls) : d ∈ r.declarators :=
  mem_filter.mpr ⟨h.mem, h.declarator⟩

theorem Declares.eq_of_mem (h : r.Declares d root calls) (he : e ∈ r.declarators)
    (hname : r.declaredName e = r.declaredName d) : e = d := by
  obtain ⟨hmem, hdeclarator⟩ := mem_filter.mp he
  exact h.once e hmem hdeclarator hname

theorem knows_withAlias_of_ne {x : Findings} {name : String} {scope : Nat × Nat}
    (h : x.Knows name scope handle) (hne : r.declaredName e ≠ name) :
    (x.withAlias r e).Knows name scope handle := by
  obtain ⟨offset, hgrows⟩ := x.grows_withAlias r e
  refine h.grows hgrows ?_
  rintro _ ⟨⟩
  exact hne

theorem withAlias_of_made (h : r.Declares c root calls) (hroot : root.is .newExpression)
    (x : Findings) : x.withAlias r c = x := by
  obtain ⟨name, hname, hident⟩ := h.name
  obtain ⟨value, hvalue, hchain⟩ := h.value
  unfold withAlias
  simp only [mem_def.mp hname, mem_def.mp hvalue, hident, hchain.chainRoot_eq,
    is_of_ne hroot .identifier (by decide),
    is_of_ne hroot .callExpression (by decide)]
  rfl

theorem withAlias_of_taken (h : r.Declares e root calls) (hroot : root.is .identifier)
    {x : Findings} (hlookup : x.lookup? (r.textOf root) root.start = some handle) :
    x.withAlias r e =
      x.bind (r.declaredName e) e ⟨handle.router, r.baseBehind handle.base calls⟩ := by
  obtain ⟨name, hname, hident⟩ := h.name
  obtain ⟨value, hvalue, hchain⟩ := h.value
  have hdeclared : r.declaredName e = r.textOf name := by
    rw [declaredName, mem_def.mp hname]
    rfl
  unfold withAlias baseBehind
  simp only [mem_def.mp hname, mem_def.mp hvalue, hident, hchain.chainRoot_eq, hroot,
    hlookup, hchain.chainCalls_eq, chainBase_eq, hdeclared]
  cases calls.isEmpty <;> rfl

/-- What stands in front of a declarator has been read when that is the next one. -/
theorem mem_read_of_inFrontOf (h : d ∈ r.inFrontOf e) (hd : d ∈ r.declarators)
    (he : e ∈ r.declarators) {rest : List Site} (hsplit : r.declarators = read ++ e :: rest) :
    d ∈ read := by
  obtain ⟨hmem, hdeclarator⟩ := mem_filter.mp he
  obtain ⟨after, hsites, hnot⟩ := sites_eq_inFrontOf hmem
  have hin : d ∈ (r.inFrontOf e).filter (·.node.is .variableDeclarator) :=
    mem_filter.mpr ⟨h, (mem_filter.mp hd).2⟩
  have hout : e ∉ (r.inFrontOf e).filter (·.node.is .variableDeclarator) :=
    fun hmem => hnot (mem_of_mem_filter hmem)
  rw [declarators, hsites, filter_append] at hsplit
  rcases append_eq_append_iff.mp hsplit with ⟨more, rfl, -⟩ | ⟨more, hfront, hrest⟩
  · exact mem_append_left more hin
  rw [hfront] at hin hout
  cases more with
  | nil => rwa [append_nil] at hin
  | cons s more =>
    obtain rfl : e = s := (cons.inj hrest).1
    exact absurd (mem_append_right _ mem_cons_self) hout

theorem constructionAt?_of_taken (h : r.Declares e root calls)
    (hroot : root.is .identifier) : r.constructionAt? e = none := by
  obtain ⟨value, hvalue, hchain⟩ := h.value
  rw [constructionAt?, if_pos h.declarator, hvalue]
  simp [hchain.chainRoot_eq, is_of_ne hroot .newExpression (by decide)]

theorem mem_names_afterNames {b : RouterName} (hb : b ∈ (r.afterNames read).names) :
    (∃ s ∈ r.declarators, (r.constructionAt? s).isSome ∧ b.name = r.declaredName s) ∨
      ∃ s ∈ read, b.name = r.declaredName s := by
  have hstep : ∀ (x : Findings) s, ∀ b ∈ (x.withAlias r s).names, b ∈ x.names ∨
      b.name = r.declaredName s := by
    intro x s b hb
    obtain ⟨offset, hgrows⟩ := x.grows_withAlias r s
    refine (hgrows.mem_names b hb).imp_right ?_
    rintro ⟨_, ⟨⟩, hdeclared⟩
    exact hdeclared
  refine (Findings.mem_foldl Findings.names hstep _ read b hb).imp_left fun hb => ?_
  rw [names_withFunctions] at hb
  obtain ⟨k, hk, site, hsite, hname⟩ := mem_names_afterConstructions hb
  obtain ⟨s, hs, hk⟩ := mem_filterMap.mp hk
  obtain ⟨rfl, hdeclarator⟩ := declarator_of_constructionAt? hk hsite
  exact ⟨site, mem_filter.mpr ⟨hs, hdeclarator⟩, isSome_of_eq_some hk, hname⟩

/-- Before a declarator that makes no router is read, nothing is known under its name. -/
theorem fresh_afterNames (h : r.Declares e root calls) (hroot : root.is .identifier)
    (hread : ∀ s ∈ read, s ∈ r.declarators) (he : e ∉ read) :
    ∀ b ∈ (r.afterNames read).names, b.name ≠ r.declaredName e := by
  intro b hb hname
  rcases mem_names_afterNames hb with ⟨s, hs, hmade, hsame⟩ | ⟨s, hs, hsame⟩
  · obtain rfl := h.eq_of_mem hs (hsame.symm.trans hname)
    rw [constructionAt?_of_taken h hroot] at hmade
    cases hmade
  · exact he (h.eq_of_mem (hread s hs) (hsame.symm.trans hname) ▸ hs)

theorem knownFrom_made (h : r.Declares c root calls) (hroot : root.is .newExpression)
    (hknows : r.constructions.Knows (r.declaredName c) c.scope handle) : r.KnownFrom c handle := by
  intro read rest hsplit _
  refine foldlRecOn read _ (motive := fun x : Findings =>
    x.Knows (r.declaredName c) c.scope handle) ?_ fun x hx s hs => ?_
  · have hnames : (r.constructions.withFunctions r).names = r.constructions.names ++ [] := by
      rw [names_withFunctions, append_nil]
    exact hknows.append hnames (forall_mem_nil _)
  · have hmem : s ∈ r.declarators := hsplit ▸ mem_append_left rest hs
    by_cases hname : r.declaredName s = r.declaredName c
    · rw [h.eq_of_mem hmem hname, withAlias_of_made h hroot]
      exact hx
    · exact knows_withAlias_of_ne hx hname

/-- **A name that is taken from a known one is known** from its own declarator on. -/
theorem knownFrom_taken (hknown : r.KnownFrom d handle) (hd : d ∈ r.declarators)
    (h : r.Declares e root calls) (hname : r.Names root d) (hfront : d ∈ r.inFrontOf e) :
    r.KnownFrom e ⟨handle.router, r.baseBehind handle.base calls⟩ := by
  intro read
  induction read using reverseRecOn with
  | nil => exact fun _ _ he => absurd he not_mem_nil
  | append_singleton read s ih =>
    intro rest hsplit he
    have hsplit : r.declarators = read ++ s :: rest := by rw [hsplit, append_assoc]; rfl
    have hstep : r.afterNames (read ++ [s]) = (r.afterNames read).withAlias r s :=
      foldl_concat ..
    rw [hstep]
    by_cases hsame : s = e
    · subst hsame
      have hread : d ∈ read := mem_read_of_inFrontOf hfront hd h.mem_declarators hsplit
      have hlookup := (hknown read (s :: rest) hsplit hread).lookup? hname.visible
      rw [← hname.text] at hlookup
      rw [withAlias_of_taken h hname.identifier hlookup]
      by_cases hagain : s ∈ read
      · exact (ih (s :: rest) hsplit hagain).append rfl (forall_mem_singleton.mpr fun _ => rfl)
      · have hmem : ∀ t ∈ read, t ∈ r.declarators :=
          fun t ht => hsplit ▸ mem_append_left _ ht
        exact knows_bind (fresh_afterNames h hname.identifier hmem hagain) s _
    · have hread : e ∈ read := by simpa [Ne.symm hsame] using he
      have hmem : s ∈ r.declarators :=
        hsplit ▸ mem_append_right _ mem_cons_self
      exact knows_withAlias_of_ne (ih (s :: rest) hsplit hread)
        fun hname => hsame (h.eq_of_mem hmem hname)

theorem madeAt_of_knownFrom (h : r.Declares c root calls) (hroot : root.is .newExpression)
    (hknown : r.KnownFrom c handle) : r.MadeAt r.routers handle.router c := by
  have hknows := hknown r.declarators [] (append_nil _).symm h.mem_declarators
  obtain ⟨known, htraced⟩ := routers_traced r
  obtain ⟨b, hb, hname⟩ := hknows.known
  obtain rfl := hknows.only b hb hname
  have hb : _ ∈ r.routers.names := hb
  rw [htraced.names] at hb
  obtain ⟨k, hk, hrouter⟩ := mem_map.mp hb
  obtain ⟨hnamed, -, rfl⟩ := RouterName.mk.inj hrouter
  obtain ⟨hmem, hdeclarator⟩ := htraced.sites k hk
  obtain rfl := h.once k.site hmem hdeclarator hnamed
  obtain ⟨before, after, hsplit⟩ := append_of_mem hk
  cases htraced.origins before k after hsplit with
  | made hmade => exact hmade
  | taken u l hu hident hfrom hfound hsame =>
    -- the value starts with a construction, not with a name
    obtain ⟨value, hvalue, hchain⟩ := h.value
    obtain ⟨other, hother, hstart⟩ := hfrom
    obtain rfl := mem_unique hvalue hother
    rw [← hstart, hchain.chainRoot_eq] at hident
    rw [is_of_ne hroot _ (by decide)] at hident
    cases hident

theorem HandleOf.mem_declarators (h : r.HandleOf c d bases) : d ∈ r.declarators := by
  cases h with
  | made hdeclares | taken _ hdeclares => exact hdeclares.mem_declarators

theorem segments_baseBehind {base : String} (hbase : Spaceless base)
    (hcalls : ∀ path ∈ r.basePaths calls, Spaceless path) : Spaceless (r.baseBehind base calls) ∧
      segments (r.baseBehind base calls) =
        segments base ++ (r.basePaths calls).flatMap segments := by
  unfold baseBehind
  split
  · rename_i hempty
    rw [isEmpty_iff.mp hempty]
    exact ⟨hbase, (append_nil _).symm⟩
  · obtain ⟨hspaceless, hsegments⟩ := segments_foldl_joinBase hcalls spaceless_empty
    refine ⟨spaceless_joinBase hbase hspaceless, ?_⟩
    rw [segments_joinBase hbase hspaceless, hsegments]
    rfl

/-- **Names for a router are known** from their declarators on, each with a base path that has the
segments of all base paths on the way. -/
theorem knownFrom_of_handleOf (h : r.HandleOf c d bases) : ∃ handle,
    r.KnownFrom d handle ∧ r.MadeAt r.routers handle.router c ∧ Spaceless handle.base ∧
      segments handle.base = bases.flatMap segments := by
  induction h with
  | made hdeclares hroot hrole hfirst =>
    obtain ⟨router, hknows⟩ := constructions_knows hdeclares hroot hrole hfirst
    have hknown := knownFrom_made hdeclares hroot hknows
    obtain ⟨hspaceless, hsegments⟩ :=
      segments_foldl_joinBase hdeclares.spaceless spaceless_empty
    exact ⟨_, hknown, madeAt_of_knownFrom hdeclares hroot hknown, hspaceless, hsegments⟩
  | taken hhandle hdeclares hname hfront ih =>
    obtain ⟨handle, hknown, hmade, hbase, hsegments⟩ := ih
    obtain ⟨hspaceless, hbehind⟩ := segments_baseBehind hbase hdeclares.spaceless
    refine ⟨_, knownFrom_taken hknown hhandle.mem_declarators hdeclares hname hfront, hmade,
      hspaceless, ?_⟩
    rw [hbehind, hsegments, flatMap_append]

end Reading

/-! ## Calls on names for a router -/

/-- **A call that is named for a method** and registers handlers for it under a known path. -/
structure Reading.VerbCall (r : Reading) (call : Node) (method path : String)
    (handlers : List Node) : Prop where
  verb : ∃ name, name ∉ ownRules ∧ r.roleOf call = .route name ∧ methodOf? name = some method
  path : ∃ first, call.arguments = first :: handlers ∧ r.constant? first = some path
  handlers : handlers ≠ []

namespace Reading

variable {r : Reading} {d : Site} {root n call : Node} {before after handlers : List Node}
  {handle : Handle} {method path : String}

theorem VerbCall.entries (h : r.VerbCall call method path handlers) (x : Findings) (base : String) :
    (r.callOutcome x base call).1.entries =
      entriesOf r (Registration.routes [method] [joinBase base path] handlers).items := by
  obtain ⟨name, hname, hrole, hmethod⟩ := h.verb
  obtain ⟨first, hargs, hpath⟩ := h.path
  have hroute : r.callOutcome x base call =
      (r.verbOutcome base name call call.arguments, base) := by
    simp only [ownRules, mem_cons, not_or] at hname
    rw [callOutcome, hrole]
    simp [routeOutcome, hname]
  rw [hroute, verbOutcome, hmethod, hargs]
  simp [Reading.path, hpath, routes_eq h.handlers]

theorem chainStart?_of_knownFrom (h : r.KnownFrom d handle) (hd : d ∈ r.declarators)
    (hname : r.Names (chainRoot n) d) : r.routers.chainStart? r n = some handle := by
  have hlookup := (h r.declarators [] (append_nil _).symm hd).lookup? hname.visible
  rw [← hname.text] at hlookup
  rw [chainStart?, if_pos hname.identifier]
  exact hlookup

/-- What a call for a method gives in a chain on a name that is known: its path is behind the base
path of the name and those of the calls in front of it. -/
theorem VerbCall.entriesOn (h : r.VerbCall call method path handlers)
    (hchain : CallChain root (before ++ [call]) call) (hknown : r.KnownFrom d handle)
    (hd : d ∈ r.declarators) (hname : r.Names root d) :
    r.entriesOn r.routers handle.router call = entriesOf r (Registration.routes [method]
      [joinBase ((r.basePaths before).foldl joinBase handle.base) path] handlers).items := by
  rw [← hchain.chainRoot_eq] at hname
  rw [Reading.entriesOn, record?, chainStart?_of_knownFrom hknown hd hname]
  simp [map_some, outcomeOf, hchain.chainCalls_eq, baseAfter_eq, h.entries]

end Reading

/-- What a call of a chain gives on a router is among the entries of the router at last. -/
theorem entriesOn_infix {r : Reading} {outer : Site} (houter : outer ∈ outermostCalls r.file.tree)
    {call : Node} (hcall : call ∈ chainCalls outer.node) {router : Nat} {key : RouterKey}
    (hkey : r.routers.keyOf? router = some key) :
    ∃ t ∈ (r.routers.withRegistrations r).routers, t.key = key ∧
      r.entriesOn r.routers router call <:+: t.entries := by
  obtain ⟨t, ht, rfl⟩ := map_eq_some_iff.mp hkey
  have hrecorded := (recorded_withRegistrations (r := r) r.routers).routers router
  rw [ht] at hrecorded
  refine ⟨_, mem_of_getElem? hrecorded, rfl, .trans ?_ (suffix_append _ _).isInfix⟩
  have hmem : call ∈ (outermostCalls r.file.tree).flatMap fun s => chainCalls s.node :=
    mem_flatMap.mpr ⟨outer, houter, hcall⟩
  obtain ⟨before, after, hcalls⟩ := append_of_mem hmem
  rw [hcalls, flatMap_append, flatMap_cons, ← append_assoc]
  exact infix_append _ _ _

theorem segments_draft {r : Reading} {method : String} {handlers : List Node}
    (hpath : Spaceless path) : ∀ i ∈ (Registration.routes [method] [path] handlers).items,
      segments (i.draft r).path = segments path := by
  intro i hi
  have hsame : i.path = path := by
    simp only [Registration.items, flatMap_cons, flatMap_nil, append_nil,
      mem_append, List.mem_map] at hi
    rcases hi with ⟨_, -, rfl⟩ | ⟨_, -, rfl⟩ <;> rfl
  show segments (join "" i.path) = _
  rw [hsame, segments_join, trim_of_trimmed hpath.trimmed]
  rfl

/-- **Base paths count through further names.** A call for a method, on a name for a router that is
made in the file, adds drafts to that router, one for each handler. Their paths have the segments of
the base paths on the way to the name, then of those in front of the call in its own chain, then of
its own path. -/
theorem verb_call_keeps_base_paths {file : File} {bindings : List Binding} {r : Reading}
    (hr : r = .ofFile file bindings) {c d outer : Site} {bases : List String}
    (hhandle : r.HandleOf c d bases) (houter : outer ∈ outermostCalls file.tree)
    {root call : Node} {before after handlers : List Node}
    (hchain : CallChain root (before ++ call :: after) outer.node) (hname : r.Names root d)
    (hbefore : ∀ base ∈ r.basePaths before, Spaceless base) {method path : String}
    (hverb : r.VerbCall call method path handlers) (hpath : Spaceless path) :
    ∃ t ∈ (contributionWith file bindings).routers, t.key = ⟨file.path, c.node.start⟩ ∧
      ∃ whole, entriesOf r (Registration.routes [method] [whole] handlers).items <:+: t.entries ∧
        ∀ i ∈ (Registration.routes [method] [whole] handlers).items, segments (i.draft r).path =
          (bases ++ r.basePaths before).flatMap segments ++ segments path := by
  obtain ⟨handle, hknown, hmade, hbase, hsegments⟩ := Reading.knownFrom_of_handleOf hhandle
  obtain ⟨hspaceless, hfront⟩ := segments_foldl_joinBase hbefore hbase
  have hcall : call ∈ chainCalls outer.node :=
    hchain.chainCalls_eq ▸ mem_append_right _ mem_cons_self
  have houter : outer ∈ outermostCalls r.file.tree := by rw [hr]; exact houter
  obtain ⟨t, ht, hkey, hentries⟩ := entriesOn_infix houter hcall hmade
  rw [hverb.entriesOn hchain.upTo hknown hhandle.mem_declarators hname] at hentries
  refine ⟨t, ?_, hkey.trans (by rw [hr]; rfl), _, hentries, fun i hi => ?_⟩
  · rw [← Findings.withExports_routers (r := r), hr] at ht
    exact ht
  rw [segments_draft (spaceless_joinBase hspaceless hpath) i hi, segments_joinBase hspaceless hpath,
    hfront, hsegments, flatMap_append]

instance (r : Reading) (d : Site) : Decidable (r.NamedOnce d) :=
  decidable_of_iff' _ (r.namedOnce_iff d)

instance (r : Reading) (u : Node) (d : Site) : Decidable (r.Names u d) :=
  decidable_of_iff' _ (r.names_iff u d)

/-- The value of a declarator is a construction, and the first one that starts where it does. -/
def Reading.Makes (d : Site) : Prop :=
  ∃ v ∈ d.node.child? .value, v.unwrapped.is .newExpression ∧
    r.roleOf v.unwrapped = .construction ∧ ∀ s ∈ r.inFrontOf d, ∀ k ∈ r.constructionAt? s,
      k.expression.node.start ≠ v.unwrapped.start
  deriving Decidable

/-- A chain of two calls on a name: one with a base path, and one that registers. -/
def Reading.GetsBehind (n : Node) (d : Site) (base : String) : Prop :=
  ∃ m ∈ receiver? n, ∃ u ∈ receiver? m, n.is .callExpression ∧
    m.is .callExpression ∧ r.Names u d ∧ r.basePath? m = some base ∧
    r.roleOf n = .route "get"

instance (r : Reading) (n : Node) (d : Site) (base : String) :
    Decidable (r.GetsBehind n d base) := inferInstanceAs (Decidable (∃ m ∈ _, _))

namespace Reading

variable {r : Reading} {c d e : Site} {n : Node} {base : String} {bases : List String}

theorem Names.chain {u : Node} (h : r.Names u d) : CallChain u [] u :=
  .root (by simp [isOneOf, h.identifier])

theorem GetsBehind.chain (h : r.GetsBehind n d base) : ∃ m u, CallChain u ([m] ++ [n]) n ∧
    r.Names u d ∧ r.basePaths [m] = [base] ∧ r.roleOf n = .route "get" := by
  obtain ⟨m, hm, u, hu, hn, hcall, hname, hbase, hget⟩ := h
  exact ⟨m, u, .call hn hm (.call hcall hu hname.chain), hname, by simp [basePaths, hbase], hget⟩

theorem HandleOf.of_makes (hd : r.NamedOnce d) (h : r.Makes d) : r.HandleOf d d [] := by
  obtain ⟨v, hv, hnew, hrole, hfirst⟩ := h
  have hroot : v.unwrapped.isOneOf [.identifier, .newExpression] := by
    simp [isOneOf, hnew]
  exact .made ⟨hd, ⟨v, hv, .root hroot⟩, forall_mem_nil _⟩ hnew hrole hfirst

theorem HandleOf.of_getsBehind (h : r.HandleOf c d bases) (he : r.NamedOnce e)
    (hfront : d ∈ r.inFrontOf e) (hbase : Spaceless base)
    (hvalue : ∃ v ∈ e.node.child? .value, r.GetsBehind v.unwrapped d base) :
    r.HandleOf c e (bases ++ [base]) := by
  obtain ⟨v, hv, hgets⟩ := hvalue
  obtain ⟨m, u, hchain, hname, hm, hget⟩ := hgets.chain
  have hbases : r.basePaths ([m] ++ [v.unwrapped]) = [base] := by
    have hpath : r.basePath? v.unwrapped = none := by
      rw [basePath?, hget]
      rfl
    rw [basePaths, filterMap_append, ← basePaths, hm, filterMap_cons_none hpath]
    rfl
  have hspaceless : ∀ path ∈ r.basePaths ([m] ++ [v.unwrapped]), Spaceless path :=
    hbases ▸ forall_mem_singleton.mpr hbase
  have htaken := h.taken ⟨he, ⟨v, hv, hchain⟩, hspaceless⟩ hname hfront
  rwa [hbases] at htaken

end Reading

/-- A router with a further name behind a base path and a registration. -/
def furtherNames : Reading :=
  importing "const a=new Hono(),b=a.basePath('x').get('',h);b.basePath('y').get('z',h)"

theorem furtherNames_facts : methodOf? "get" = some "GET" ∧
    ∃ a ∈ furtherNames.file.tree.sites, furtherNames.NamedOnce a ∧ furtherNames.Makes a ∧
    ∃ b ∈ furtherNames.file.tree.sites, furtherNames.NamedOnce b ∧ a ∈ furtherNames.inFrontOf b ∧
      (∃ v ∈ b.node.child? .value, furtherNames.GetsBehind v.unwrapped a "x") ∧
    ∃ outer ∈ outermostCalls furtherNames.file.tree, furtherNames.GetsBehind outer.node b "y" ∧
      outer.node.arguments.map furtherNames.constant? = [some "z", none] := by
  decide +kernel

/-- The path of the last call has a segment from the declaration of the further name, one from
its own chain, and its own. -/
theorem verb_call_keeps_base_paths_furtherNames : ∃ a b, furtherNames.HandleOf a b ["x"] ∧
    ∃ outer ∈ outermostCalls furtherNames.file.tree, furtherNames.GetsBehind outer.node b "y" ∧
      ∃ t ∈ (contributionWith furtherNames.file furtherNames.bindings).routers,
        t.key = ⟨furtherNames.file.path, a.node.start⟩ ∧
        ∃ whole h, entriesOf furtherNames (Registration.routes ["GET"] [whole] [h]).items <:+:
            t.entries ∧
          ∀ i ∈ (Registration.routes ["GET"] [whole] [h]).items,
            segments (i.draft furtherNames).path = ["x", "y", "z"] := by
  obtain ⟨hmethod, a, -, ha, hmakes, b, -, hb, hab, hbehind, outer, houter, hcall, hargs⟩ :=
    furtherNames_facts
  have hhandle : furtherNames.HandleOf a b ["x"] :=
    (Reading.HandleOf.of_makes ha hmakes).of_getsBehind hb hab (by decide) hbehind
  refine ⟨a, b, hhandle, outer, houter, hcall, ?_⟩
  obtain ⟨m, root, hchain, hname, hbases, hget⟩ := hcall.chain
  obtain ⟨first, rest, hlist, hpath, hrest⟩ := map_eq_cons_iff.mp hargs
  obtain ⟨h, rfl, -⟩ := map_eq_singleton_iff.mp hrest
  have hverb : furtherNames.VerbCall outer.node "GET" "z" [h] :=
    ⟨⟨"get", by decide, hget, hmethod⟩, ⟨first, hlist, hpath⟩, cons_ne_nil _ _⟩
  have hspaceless : ∀ base ∈ furtherNames.basePaths [m], Spaceless base :=
    hbases ▸ forall_mem_singleton.mpr (by decide)
  have hr : furtherNames = .ofFile furtherNames.file furtherNames.bindings := rfl
  obtain ⟨t, ht, hkey, whole, hentries, hsegments⟩ := verb_call_keeps_base_paths hr hhandle houter
    hchain hname hspaceless hverb (by decide)
  rw [hbases] at hsegments
  exact ⟨t, ht, hkey, whole, h, hentries, hsegments⟩

end RouteAtlas.Inventory
