import RouteAtlas.Proofs.ChainLinks

/-!
# What chains record

A chain that is followed records what its calls give, on the router at its start. What a call gives
is the same in every chain that it is a part of: the chain has the same start, and the same calls
stand in front of it. So a file records what each call gives as often as chains go through the call,
which is twice or more for a call in a wrapper that is called on.
-/

open List

namespace RouteAtlas.Inventory

open Source Findings Reading

/-! ## Findings that chains do not tell apart -/

/-- Two findings know the same routers by the same names. -/
structure Findings.Alike (x y : Findings) : Prop where
  names : x.names = y.names
  owners : x.owners = y.owners
  factories : x.factories = y.factories
  keys : x.keyOf? = y.keyOf?

namespace Findings.Alike

variable {x y z : Findings} {r : Reading}

theorem refl (x : Findings) : Alike x x := ⟨rfl, rfl, rfl, rfl⟩

theorem trans (h : Alike x y) (h' : Alike y z) : Alike x z :=
  ⟨h.names.trans h'.names, h.owners.trans h'.owners, h.factories.trans h'.factories,
    h.keys.trans h'.keys⟩

theorem lookup? (h : Alike x y) : x.lookup? = y.lookup? := by
  unfold Findings.lookup?
  rw [h.names]

theorem owner? (h : Alike x y) : x.owner? = y.owner? := by
  unfold Findings.owner?
  rw [h.owners]

theorem targetOf? (h : Alike x y) : x.targetOf? = y.targetOf? := by
  unfold Findings.targetOf?
  rw [h.keys]

theorem factoryTarget? (h : Alike x y) (n : Node) :
    x.factoryTarget? r n = y.factoryTarget? r n := by
  unfold Findings.factoryTarget?
  rw [h.factories, h.targetOf?]

theorem mountTarget? (h : Alike x y) (n : Node) : r.mountTarget? x n = r.mountTarget? y n := by
  unfold Reading.mountTarget?
  rw [h.lookup?, h.owner?, h.targetOf?, h.factoryTarget?]

theorem callOutcome (h : Alike x y) (base : String) (call : Node) :
    r.callOutcome x base call = r.callOutcome y base call := by
  unfold Reading.callOutcome Reading.mountOutcome
  simp [h.mountTarget?]

theorem chainStart? (h : Alike x y) (n : Node) : x.chainStart? r n = y.chainStart? r n := by
  unfold Findings.chainStart?
  rw [h.lookup?, h.owner?]

theorem recorded (x : Findings) (router : Nat) (entries : List Entry) (errors : List Unsupported) :
    Alike x ((x.register router entries).report errors) where
  names := rfl
  owners := rfl
  factories := rfl
  keys := by
    funext i
    unfold keyOf? register report
    simp only [getElem?_modify]
    cases x.routers[i]? with
    | none => rfl
    | some router => split <;> rfl

end Findings.Alike

/-! ## What a call gives -/

theorem Outcome.append_assoc (a b c : Outcome) : (a.append b).append c = a.append (b.append c) := by
  simp [Outcome.append]

namespace Reading

variable {x y : Findings} {r : Reading}

def baseAfter (r : Reading) (x : Findings) (base : String) (calls : List Node) : String :=
  calls.foldl (fun base call => (r.callOutcome x base call).2) base

/-- What a call gives behind the calls of its own chain, which starts with a base path. -/
def outcomeOf (r : Reading) (x : Findings) (base : String) (call : Node) : Outcome :=
  (r.callOutcome x (r.baseAfter x base (chainCalls call).dropLast) call).1

/-- What a call gives, and the router on which. -/
def record? (r : Reading) (x : Findings) (call : Node) : Option (Nat × Outcome) :=
  (x.chainStart? r call).map fun handle => (handle.router, r.outcomeOf x handle.base call)

def errorsOf (r : Reading) (x : Findings) (call : Node) : List Unsupported :=
  ((r.record? x call).map (·.2.errors)).getD []

def entriesOn (r : Reading) (x : Findings) (router : Nat) (call : Node) : List Entry :=
  match r.record? x call with
  | some (on, outcome) => if on = router then outcome.entries else []
  | none => []

theorem record?_congr (h : x.Alike y) (call : Node) : r.record? x call = r.record? y call := by
  unfold record? outcomeOf baseAfter
  simp [h.chainStart?, h.callOutcome]

theorem callsOutcome_cons (base : String) (call : Node) (calls : List Node) :
    r.callsOutcome x base (call :: calls) = (r.callOutcome x base call).1.append
      (r.callsOutcome x (r.callOutcome x base call).2 calls) := rfl

theorem callsOutcome_append (base : String) (calls more : List Node) :
    r.callsOutcome x base (calls ++ more) = (r.callsOutcome x base calls).append
      (r.callsOutcome x (r.baseAfter x base calls) more) := by
  induction calls generalizing base with
  | nil => rfl
  | cons call calls ih =>
    rw [cons_append, callsOutcome_cons, callsOutcome_cons, ih, Outcome.append_assoc]
    rfl

theorem chainRoot_of_mem (n : Node) : ∀ c ∈ chainCalls n, chainRoot c = chainRoot n := by
  intro c hc
  rw [chainCalls_eq] at hc
  rcases mem_append.1 hc with hinner | hself
  · cases hlink : linkStep? n with
    | none =>
      rw [hlink] at hinner
      cases hinner
    | some m =>
      have := size_lt_of_linkStep? hlink
      rw [hlink] at hinner
      exact (chainRoot_of_mem m c hinner).trans (chainRoot_eq hlink).symm
  · split at hself
    · rw [mem_singleton.1 hself]
    · cases hself
termination_by n.size

theorem chainStart?_congr {n m : Node} (h : chainRoot n = chainRoot m) :
    x.chainStart? r n = x.chainStart? r m := by
  unfold chainStart?
  rw [h]

/-- **What a chain gives is what its calls give**, each of them behind the calls of its own chain.
-/
theorem callsOutcome_chain (base : String) (n : Node) :
    r.callsOutcome x base (chainCalls n) =
      ⟨(chainCalls n).flatMap fun c => (r.outcomeOf x base c).entries,
        (chainCalls n).flatMap fun c => (r.outcomeOf x base c).errors⟩ := by
  have hinner : r.callsOutcome x base (((linkStep? n).map chainCalls).getD []) =
      ⟨(((linkStep? n).map chainCalls).getD []).flatMap fun c => (r.outcomeOf x base c).entries,
        (((linkStep? n).map chainCalls).getD []).flatMap fun c =>
          (r.outcomeOf x base c).errors⟩ := by
    cases hlink : linkStep? n with
    | none => rfl
    | some m =>
      have := size_lt_of_linkStep? hlink
      exact callsOutcome_chain base m
  have hchain := chainCalls_eq n
  rw [hchain, callsOutcome_append, hinner, flatMap_append, flatMap_append]
  cases hmember : isMemberCall n with
  | false => rfl
  | true =>
    -- the call stands behind all others of its chain
    rw [hmember] at hchain
    have hlast : (chainCalls n).dropLast = ((linkStep? n).map chainCalls).getD [] := by
      rw [hchain]
      exact dropLast_concat
    simp only [if_true, outcomeOf, hlast, flatMap_cons]
    rfl
termination_by n.size

end Reading

/-! ## What is recorded -/

def Router.extended (t : Router) (entries : List Entry) : Router :=
  { t with entries := t.entries ++ entries }

/-- Findings after calls, with what the calls give: their errors, and on every router their
entries. -/
structure Recorded (r : Reading) (x : Findings) (calls : List Node) (y : Findings) : Prop where
  errors : y.errors = x.errors ++ calls.flatMap (r.errorsOf x)
  routers : ∀ i : Nat, y.routers[i]? =
    Option.map (fun t : Router => t.extended (calls.flatMap (r.entriesOn x i))) x.routers[i]?
  alike : x.Alike y

namespace Recorded

variable {x y z : Findings} {r : Reading} {calls more : List Node}

theorem nil (r : Reading) (x : Findings) : Recorded r x [] x where
  errors := (append_nil _).symm
  routers i := by
    cases x.routers[i]? with
    | none => rfl
    | some t => simp [Router.extended]
  alike := .refl x

theorem append (h : Recorded r x calls y) (h' : Recorded r y more z) :
    Recorded r x (calls ++ more) z where
  errors := by
    have herrors : r.errorsOf y = r.errorsOf x := by
      funext call
      rw [errorsOf, errorsOf, record?_congr h.alike]
    rw [h'.errors, h.errors, herrors, flatMap_append, append_assoc]
  routers i := by
    have hentries : r.entriesOn y i = r.entriesOn x i := by
      funext call
      rw [entriesOn, entriesOn, record?_congr h.alike]
    rw [h'.routers, h.routers, hentries, Option.map_map]
    congr 1
    funext t
    simp [Router.extended]
  alike := h.alike.trans h'.alike

end Recorded

section

variable {r : Reading}

/-- **A chain records what its calls give.** -/
theorem recorded_withChain (x : Findings) (n : Node) :
    Recorded r x (chainCalls n) (x.withChain r n) := by
  have hrecord : ∀ c ∈ chainCalls n, r.record? x c =
      (x.chainStart? r n).map fun handle => (handle.router, r.outcomeOf x handle.base c) := by
    intro c hc
    rw [record?, chainStart?_congr (chainRoot_of_mem n c hc)]
  unfold withChain
  cases hchain : x.chainStart? r n with
  | none =>
    rw [hchain] at hrecord
    have herrors : (chainCalls n).flatMap (r.errorsOf x) = [] :=
      flatMap_eq_nil_iff.2 fun c hc => by rw [errorsOf, hrecord c hc]; rfl
    have hentries : ∀ i, (chainCalls n).flatMap (r.entriesOn x i) = [] := fun i =>
      flatMap_eq_nil_iff.2 fun c hc => by rw [entriesOn, hrecord c hc]; rfl
    have hnil := Recorded.nil r x
    exact ⟨herrors ▸ hnil.errors, fun i => hentries i ▸ hnil.routers i, hnil.alike⟩
  | some handle =>
    rw [hchain] at hrecord
    have herrors : (chainCalls n).flatMap (r.errorsOf x) =
        (r.callsOutcome x handle.base (chainCalls n)).errors := by
      rw [callsOutcome_chain]
      refine flatMap_congr fun c hc => ?_
      rw [errorsOf, hrecord c hc]
      rfl
    have hentries : ∀ i, (chainCalls n).flatMap (r.entriesOn x i) =
        if handle.router = i then (r.callsOutcome x handle.base (chainCalls n)).entries
        else [] := by
      intro i
      rw [callsOutcome_chain]
      split
      · refine flatMap_congr fun c hc => ?_
        rw [entriesOn, hrecord c hc]
        exact if_pos ‹_›
      · refine flatMap_eq_nil_iff.2 fun c hc => ?_
        rw [entriesOn, hrecord c hc]
        exact if_neg ‹_›
    refine ⟨?_, fun i => ?_, .recorded ..⟩
    · rw [herrors]
      rfl
    · rw [hentries]
      show (x.routers.modify handle.router _)[i]? = _
      rw [getElem?_modify]
      cases x.routers[i]? with
      | none => rfl
      | some t => split <;> simp [Router.extended]

/-- **A file records what the calls of all its chains give.** -/
theorem recorded_withRegistrations (x : Findings) :
    Recorded r x ((outermostCalls r.file.tree).flatMap fun s => chainCalls s.node)
      (x.withRegistrations r) := by
  have hfold : ∀ (sites : List Site) (x : Findings),
      Recorded r x (sites.flatMap fun s => chainCalls s.node)
        (sites.foldl (fun x s => x.withChain r s.node) x) := by
    intro sites
    induction sites with
    | nil => exact Recorded.nil r
    | cons s sites ih =>
      intro x
      exact (recorded_withChain x s.node).append (ih _)
  exact hfold _ x

/-- The number of outermost calls whose chains hold a call. -/
def chainsWith (tree : Node) (c : Site) : Nat :=
  (outermostCalls tree).countP fun o => decide (c.node ∈ chainCalls o.node)

/-- **How often a file records what a call gives.** Each call of a member is in as many chains as
are followed through it, and in at least one. It is in exactly one, for all calls of the file, if
and only if no call of a member stands in a wrapper that is called on. All that the file records, on
any findings, is what these calls give, as often as chains go through them. -/
theorem recorded_once_iff (h : Regular r.file.tree) (x : Findings) :
    (∀ c ∈ memberCalls r.file.tree, 0 < chainsWith r.file.tree c ∧
      chainsWith r.file.tree c = chainsThrough c.node c.above) ∧
    ((∀ c ∈ memberCalls r.file.tree, chainsWith r.file.tree c = 1) ↔
      ∀ c ∈ memberCalls r.file.tree, calledInWrapper c.node c.above = false) ∧
    ∃ calls, Recorded r x calls (x.withRegistrations r) ∧
      calls.Perm ((memberCalls r.file.tree).flatMap fun c =>
        List.replicate (chainsWith r.file.tree c) c.node) := by
  have hchains : ∀ c ∈ memberCalls r.file.tree,
      chainsWith r.file.tree c = chainsThrough c.node c.above :=
    fun c hc => countP_outermostCalls h hc
  refine ⟨fun c hc => ⟨?_, hchains c hc⟩, ?_, _, recorded_withRegistrations x, ?_⟩
  · have hmember : isMemberCall c.node = true := (mem_filter.1 hc).2
    rw [hchains c hc]
    exact chainsThrough_pos (Bool.and_eq_true_iff.1 hmember).1 c.above
  · rw [← chainsThrough_eq_one_iff h]
    exact forall₂_congr fun c hc => by rw [hchains c hc]
  · refine (processed_perm h).trans (.of_eq (flatMap_congr fun c hc => ?_))
    rw [hchains c hc]

/-! ## Chains with and without wrappers -/

def importing (text : String) : Reading :=
  .ofFile (.ofText ⟨"/p"⟩ ⟨"/p/a.ts"⟩ text .typescript 1) [⟨"Hono", "Hono", "hono", .named⟩]

/-- A chain without wrappers between its links, and one in a wrapper that nothing is called on. -/
def plainChains : Reading := importing "const a=new Hono();a.get('',h).get('',g);(a.get('',f))"

/-- Chains with parentheses, with a non-null assertion, and with `await` between their links: of a
route, of a call whose path is not known, and of a mount. -/
def wrappedChains : List Reading :=
  ["const a=new Hono();(a.get('',h)).get('',g)", "const a=new Hono();a.get(p(),h)!.get('',g)",
    "const a=new Hono();(await a.route('',a)).get('',g)"].map importing

theorem chains_facts :
    (Regular plainChains.file.tree ∧ (memberCalls plainChains.file.tree).length = 3 ∧
      ∀ c ∈ memberCalls plainChains.file.tree, calledInWrapper c.node c.above = false) ∧
    ∀ r ∈ wrappedChains, (∃ c ∈ memberCalls r.file.tree, chainsWith r.file.tree c = 2) ∧
      ((∃ t ∈ (r.routers.withRegistrations r).routers, ¬ t.entries.Nodup) ∨
        ¬ (r.routers.withRegistrations r).errors.Nodup) := by
  decide +kernel

/-- Each of the three calls is in one chain. -/
theorem recorded_once_iff_plainChains :
    Regular plainChains.file.tree ∧ (memberCalls plainChains.file.tree).length = 3 ∧
      ∀ c ∈ memberCalls plainChains.file.tree, chainsWith plainChains.file.tree c = 1 := by
  obtain ⟨⟨hregular, hthree, hplain⟩, -⟩ := chains_facts
  exact ⟨hregular, hthree, (recorded_once_iff hregular {}).2.1.2 hplain⟩

/-- **A call in a wrapper that is called on is in two chains**, and what it gives is recorded
twice. -/
theorem wrapped_calls_recorded_twice : wrappedChains.length = 3 ∧
    ∀ r ∈ wrappedChains, (∃ c ∈ memberCalls r.file.tree, chainsWith r.file.tree c = 2) ∧
      ((∃ t ∈ (r.routers.withRegistrations r).routers, ¬ t.entries.Nodup) ∨
        ¬ (r.routers.withRegistrations r).errors.Nodup) :=
  ⟨rfl, chains_facts.2⟩

end

end RouteAtlas.Inventory
