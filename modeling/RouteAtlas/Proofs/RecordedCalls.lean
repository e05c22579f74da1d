import RouteAtlas.Proofs.ChainRecords
import RouteAtlas.Proofs.StoredRouters

/-!
# No call goes unrecorded

A call that registers, mounts or is dispatched by a computed name leaves something behind: an entry
on the router that its chain starts with, or an error. Every way out of reading such a call is gone
through once, function by function; the one that leaves nothing behind is an `on` whose list of
paths is empty. A chain changes no router but its own, and its own router is always there.
-/

open List

namespace RouteAtlas.Inventory

open Source Outcome Reading

/-! ## Calls that give nothing -/

def Outcome.Silent (o : Outcome) : Prop := o.entries = [] ∧ o.errors = []

theorem Outcome.not_silent_error (e : Unsupported) : ¬ (error e).Silent :=
  fun h => cons_ne_nil _ _ h.2

theorem Outcome.silent_append_iff {a b : Outcome} : (a.append b).Silent ↔ a.Silent ∧ b.Silent := by
  simp only [Silent, append, append_eq_nil_iff]
  exact and_and_and_comm

theorem Outcome.silent_foldl_iff (os : List Outcome) (o : Outcome) :
    (os.foldl .append o).Silent ↔ o.Silent ∧ ∀ p ∈ os, p.Silent := by
  induction os generalizing o with
  | nil => simp
  | cons p os ih => rw [foldl_cons, ih, silent_append_iff, forall_mem_cons, and_assoc]

namespace Reading

variable {r : Reading} {call : Node}

theorem not_silent_middleware (path : String) (handlers : List Node) :
    ¬ (r.middleware call path handlers).Silent := by
  unfold middleware
  split
  · exact not_silent_error _
  · rename_i hne
    intro h
    exact hne (List.isEmpty_iff.mpr (map_eq_nil_iff.mp h.1))

theorem silent_routes_iff {path : String} {methods : List String} {handlers : List Node} :
    (r.routes call path methods handlers).Silent ↔ handlers ≠ [] ∧ methods = [] := by
  unfold routes
  cases hlast : handlers.getLast? with
  | none =>
    have hnil : handlers = [] := getLast?_eq_none_iff.mp hlast
    exact iff_of_false (not_silent_error _) fun h => h.1 hnil
  | some last =>
    have hne : handlers ≠ [] := by
      rintro rfl
      cases hlast
    -- the route of each method is an entry
    simp [Outcome.Silent, ← eq_nil_iff_forall_not_mem, hne]

theorem not_silent_useOutcome (base : String) (args : List Node) :
    ¬ (r.useOutcome base call args).Silent := by
  unfold useOutcome
  split
  · split
    · split
      · exact not_silent_middleware _ _
      · exact not_silent_error _
    · exact not_silent_middleware _ _
  · exact not_silent_middleware _ _

theorem paths_eq_nil_iff {n : Node} : r.paths n = .ok [] ↔ n.is .array ∧ n.named = [] := by
  unfold paths
  split
  · rename_i harray
    rw [Constants.texts?, unwrapped_of_kind harray (by decide), if_pos harray]
    cases hnamed : n.named with
    | nil => simp [harray]
    | cons item items =>
      rw [mapM_cons]
      cases r.constants.text? r.source item with
      | none => simp
      | some text => cases items.mapM (r.constants.text? r.source) <;> simp
  · rename_i harray
    refine iff_of_false (fun h => ?_) fun h => harray h.1
    cases hpath : r.path n <;> rw [hpath] at h <;> cases h

/-- The arguments of an `on` that lists no path: methods, some of which are known, and an array
without items. A hole in an array is no item. -/
def NoPaths (r : Reading) (args : List Node) : Prop :=
  ∃ methods paths handlers raw, args = methods :: paths :: handlers ∧
    r.constants.texts? r.source methods = some raw ∧ raw.filterMap Http.Method.parse? ≠ [] ∧
    paths.is .array ∧ paths.named = []

theorem silent_onOutcome_iff {base : String} {args : List Node} :
    (r.onOutcome base call args).Silent ↔ r.NoPaths args := by
  unfold onOutcome NoPaths
  split
  · rename_i methods paths handlers
    split
    · rename_i hraw
      refine iff_of_false (not_silent_error _) ?_
      rintro ⟨_, _, _, raw, hargs, htexts, -⟩
      cases hargs
      cases hraw.symm.trans htexts
    · rename_i raw hraw
      simp only
      split
      · rename_i hmethods
        refine iff_of_false (not_silent_error _) ?_
        rintro ⟨_, _, _, _, hargs, htexts, hknown, -⟩
        cases hargs
        cases hraw.symm.trans htexts
        exact hknown (List.isEmpty_iff.mp hmethods)
      · rename_i hmethods
        have hknown : raw.filterMap Http.Method.parse? ≠ [] := fun h =>
          hmethods (List.isEmpty_iff.mpr h)
        have hargs : (∃ m p hs raw', methods :: paths :: handlers = m :: p :: hs ∧
            r.constants.texts? r.source m = some raw' ∧
            raw'.filterMap Http.Method.parse? ≠ [] ∧ p.is .array ∧ p.named = []) ↔
            r.paths paths = .ok [] := by
          rw [paths_eq_nil_iff]
          constructor
          · rintro ⟨_, _, _, _, hargs, -, -, hempty⟩
            cases hargs
            exact hempty
          · exact fun hempty => ⟨methods, paths, handlers, raw, rfl, hraw, hknown, hempty⟩
        rw [hargs]
        cases hpaths : r.paths paths with
        | error e => exact iff_of_false (not_silent_error _) nofun
        | ok values =>
          simp only [silent_foldl_iff, forall_mem_map, silent_routes_iff, hknown, and_false,
            Except.ok.injEq, eq_nil_iff_forall_not_mem]
          exact and_iff_right ⟨rfl, rfl⟩
  · rename_i hshort
    refine iff_of_false (not_silent_error _) ?_
    rintro ⟨methods, paths, handlers, _, hargs, -⟩
    exact hshort methods paths handlers hargs

theorem not_silent_describedOutcome (base : String) (args : List Node) :
    ¬ (r.describedOutcome base call args).Silent := by
  unfold describedOutcome
  split
  · exact not_silent_error _
  split
  · exact not_silent_error _
  simp only
  split
  · rw [silent_routes_iff]
    exact fun h => cons_ne_nil _ _ h.2
  · exact not_silent_error _

theorem not_silent_verbOutcome {name method : String} (hname : methodOf? name = some method)
    (base : String) (args : List Node) : ¬ (r.verbOutcome base name call args).Silent := by
  simp only [verbOutcome, hname]
  split
  · exact not_silent_error _
  split
  · rw [silent_routes_iff]
    exact fun h => cons_ne_nil _ _ h.2
  · exact not_silent_error _

/-- The registering names with a rule of their own. -/
def ownRules : List String := ["use", "on", "openapi"]

theorem isSome_methodOf? : ∀ name ∈ registrationNames, name ∉ ownRules →
    (methodOf? name).isSome := by
  decide +kernel

theorem silent_routeOutcome_iff {name base : String} (hname : name ∈ registrationNames) :
    (r.routeOutcome base name call).Silent ↔ name = "on" ∧ r.NoPaths call.arguments := by
  unfold routeOutcome
  split
  · rename_i huse
    subst huse
    exact iff_of_false (not_silent_useOutcome _ _) fun h => absurd h.1 (by decide)
  · split
    · rename_i hon
      rw [silent_onOutcome_iff, and_iff_right hon]
    · rename_i huse hon
      refine iff_of_false ?_ fun h => hon h.1
      split
      · exact not_silent_describedOutcome _ _
      rename_i hopenapi
      obtain ⟨method, hmethod⟩ := Option.isSome_iff_exists.mp
        (isSome_methodOf? name hname (by simp [ownRules, huse, hon, hopenapi]))
      exact not_silent_verbOutcome hmethod _ _

theorem not_silent_mountOutcome (x : Findings) (base : String) :
    ¬ (r.mountOutcome x base call).Silent := by
  unfold mountOutcome
  split
  · simp only
    split
    · exact fun h => append_ne_nil_of_right_ne_nil _ (cons_ne_nil _ _) h.2
    · exact fun h => cons_ne_nil _ _ h.1
  · exact not_silent_error _

theorem mem_registrationNames {name : String} (h : r.roleOf call = .route name) :
    name ∈ registrationNames := by
  unfold roleOf RouterNames.roleOf callRole at h
  repeat' split at h
  -- one branch gives a registering name
  all_goals cases h
  rename_i hname
  exact contains_iff_mem.mp hname

end Reading

/-- The call registers handlers, mounts a router, or calls a method whose name is computed. -/
def Role.registers : Role → Bool
  | .route _ | .mount | .dynamic => true
  | .construction | .basePath | .other => false

variable (r : Reading)

def Reading.ListsNoPath (call : Node) : Prop :=
  r.roleOf call = .route "on" ∧ r.NoPaths call.arguments

/-- **The registering calls that give nothing** are those that list no path. -/
theorem callOutcome_silent_iff {r : Reading} {call : Node}
    (hrole : (r.roleOf call).registers) (x : Findings) (base : String) :
    (r.callOutcome x base call).1.Silent ↔ r.ListsNoPath call := by
  unfold callOutcome Reading.ListsNoPath
  cases hcall : r.roleOf call with
  | route name =>
    rw [silent_routeOutcome_iff (mem_registrationNames hcall), Role.route.injEq]
  | mount => exact iff_of_false (not_silent_mountOutcome x base) nofun
  | dynamic => exact iff_of_false (not_silent_error _) nofun
  | construction | basePath | other =>
    rw [hcall] at hrole
    cases hrole

/-! ## What a chain does -/

def Reading.afterChains (chains : List Site) : Findings :=
  chains.foldl (fun x s => x.withChain r s.node) r.routers

theorem Reading.closed_afterChains (chains : List Site) : (r.afterChains chains).Closed :=
  List.foldlRecOn _ _ (motive := Findings.Closed) closed_routers fun _ h s _ => h.withChain s.node

/-- **What a chain records.** A chain that starts with a router, whatever chains of the file were
read before it, adds to this router the entries of its calls, one call after another, and to the
file their errors; all other routers stay as they are. Each call that registers, mounts or is
dispatched by a computed name adds something, but for an `on` that lists no path. -/
theorem chain_records_calls (r : Reading) (before : List Site) (outer : Node) {handle : Handle}
    (hstart : (r.afterChains before).chainStart? r outer = some handle) :
    let x := r.afterChains before
    let y := x.withChain r outer
    let given := r.outcomeOf x handle.base
    (∃ t, x.routers[handle.router]? = some t ∧ y.routers[handle.router]? =
      some (t.extended ((chainCalls outer).flatMap fun c => (given c).entries))) ∧
    y.errors = x.errors ++ (chainCalls outer).flatMap (fun c => (given c).errors) ∧
    (∀ i, i ≠ handle.router → y.routers[i]? = x.routers[i]?) ∧
    ∀ c ∈ chainCalls outer, (r.roleOf c).registers = true →
      ((given c).entries = [] ∧ (given c).errors = [] ↔ r.ListsNoPath c) := by
  intro x y given
  have hrecorded : Recorded r x (chainCalls outer) y := recorded_withChain x outer
  have hrecord : ∀ c ∈ chainCalls outer, r.record? x c = some (handle.router, given c) := by
    intro c hc
    rw [record?, chainStart?_congr (chainRoot_of_mem outer c hc), hstart]
    rfl
  refine ⟨?_, ?_, fun i hi => ?_, fun c _ hrole => callOutcome_silent_iff hrole x _⟩
  · have hrange : handle.router < x.routers.length :=
      (r.closed_afterChains before).chainStart? hstart
    have hentries : (chainCalls outer).flatMap (r.entriesOn x handle.router) =
        (chainCalls outer).flatMap fun c => (given c).entries := by
      refine flatMap_congr fun c hc => ?_
      rw [entriesOn, hrecord c hc]
      exact if_pos rfl
    refine ⟨x.routers[handle.router], getElem?_eq_getElem hrange, ?_⟩
    rw [hrecorded.routers, getElem?_eq_getElem hrange, hentries]
    rfl
  · have herrors : (chainCalls outer).flatMap (r.errorsOf x) =
        (chainCalls outer).flatMap fun c => (given c).errors := by
      refine flatMap_congr fun c hc => ?_
      rw [errorsOf, hrecord c hc]
      rfl
    rw [hrecorded.errors, herrors]
  · have hnone : (chainCalls outer).flatMap (r.entriesOn x i) = [] := by
      refine flatMap_eq_nil_iff.mpr fun c hc => ?_
      rw [entriesOn, hrecord c hc]
      exact if_neg hi.symm
    rw [hrecorded.routers, hnone]
    cases x.routers[i]? with
    | none => rfl
    | some t => simp [Router.extended]

/-- A chain with a route, a mount of something unknown, a computed name, and an `on` that lists no
path. -/
def mixedChain : Reading :=
  importing "const a=new Hono();a.get('',h).route('',b)[c]().on('get',[],h)"

/-- Three of the four calls of the chain leave something behind. -/
theorem chain_records_calls_mixed :
    let x := mixedChain.afterChains []
    ∃ s ∈ outermostCalls mixedChain.file.tree, ∃ handle ∈ x.chainStart? mixedChain s.node,
      (chainCalls s.node).length = 4 ∧
      (∀ c ∈ chainCalls s.node, (mixedChain.roleOf c).registers = true) ∧
      ((chainCalls s.node).map fun c => ((mixedChain.outcomeOf x handle.base c).entries.length,
        (mixedChain.outcomeOf x handle.base c).errors.length)) = [(1, 0), (0, 1), (0, 1), (0, 0)] ∧
      ∀ c ∈ chainCalls s.node, ((mixedChain.outcomeOf x handle.base c).entries = [] ∧
        (mixedChain.outcomeOf x handle.base c).errors = [] ↔ mixedChain.ListsNoPath c) := by
  intro x
  have hchain : ∃ s ∈ outermostCalls mixedChain.file.tree,
      ∃ handle ∈ x.chainStart? mixedChain s.node, (chainCalls s.node).length = 4 ∧
      (∀ c ∈ chainCalls s.node, (mixedChain.roleOf c).registers = true) ∧
      ((chainCalls s.node).map fun c => ((mixedChain.outcomeOf x handle.base c).entries.length,
        (mixedChain.outcomeOf x handle.base c).errors.length)) =
          [(1, 0), (0, 1), (0, 1), (0, 0)] := by
    decide +kernel
  obtain ⟨s, hs, handle, hstart, hfour, hroles, hgiven⟩ := hchain
  refine ⟨s, hs, handle, hstart, hfour, hroles, hgiven, fun c hc => ?_⟩
  exact (chain_records_calls mixedChain [] s.node hstart).2.2.2 c hc (hroles c hc)

end RouteAtlas.Inventory
