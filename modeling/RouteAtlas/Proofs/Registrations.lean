import RouteAtlas.Proofs.Quiet

/-!
# Registering calls

What a call that registers handlers stands for: routes for some methods and paths, or middleware for
a path. A registration lists its items in the order of the paths, then of the methods, then of the
handlers; the outcome of the call is exactly these items, without an error.
-/

open List

namespace RouteAtlas.Inventory

open Source Node Reading Http.Method

variable {r : Reading} {n : Node} {values : List String} {name : String} {args : List Node}

/-! ## Registrations -/

/-- What a call registers: handlers of requests, or middleware for all requests below a path. -/
inductive Registration where
  | routes (methods paths : List String) (handlers : List Node)
  | middleware (path : String) (handlers : List Node)

variable {reg : Registration}

/-- One handler for one method and one path. -/
structure Item where
  kind : ResourceKind
  method : String
  path : String
  handler : Node

namespace Registration

def handlers : Registration → List Node
  | routes _ _ handlers => handlers
  | middleware _ handlers => handlers

/-- The items of a registration: for each path and each method the last handler is a route, and
those before it are middleware. -/
def items : Registration → List Item
  | routes methods paths handlers =>
    paths.flatMap fun path => methods.flatMap fun method =>
      handlers.dropLast.map (⟨.middleware, method, path, ·⟩) ++
        handlers.getLast?.toList.map (⟨.route, method, path, ·⟩)
  | middleware path handlers => handlers.map (⟨.middleware, all, path, ·⟩)

end Registration

namespace Item

variable (r : Reading) (i : Item)

def draft : Draft :=
  ⟨i.kind.tag ++ ":" ++ r.file.relPath ++ "@" ++ toString i.handler.start, i.method,
    Http.Pattern.join "" i.path, i.kind, r.handler i.handler⟩

def resource (order : Nat) : Resource :=
  ⟨i.kind.tag ++ ":" ++ r.file.relPath ++ "@" ++ toString i.handler.start, i.method,
    Http.Pattern.join "" i.path, i.kind, .discovered, r.handler i.handler, order⟩

end Item

def entriesOf (r : Reading) (items : List Item) : List Entry :=
  items.map fun i => .resource (i.draft r)

theorem entriesOf_append (r : Reading) (as bs : List Item) :
    entriesOf r (as ++ bs) = entriesOf r as ++ entriesOf r bs := map_append

/-! ## Literals -/

/-- A string literal: the text between its quotes. -/
structure IsLiteral (r : Reading) (n : Node) (value : String) : Prop where
  string : n.is .string
  inert : Inert n
  quoted : ∃ quote ∈ ['"', '\''],
    n.source r.source = String.ofList (quote :: (value.toList ++ [quote]))

/-- A string literal, or an array of them. -/
inductive AreLiterals (r : Reading) : Node → List String → Prop
  | one {n : Node} {value : String} (h : IsLiteral r n value) : AreLiterals r n [value]
  | array {n : Node} {items : List (Node × String)} (ha : n.is .array) (hi : Inert n)
      (hn : n.named = items.map (·.1)) (h : ∀ i ∈ items, IsLiteral r i.1 i.2) :
      AreLiterals r n (items.map (·.2))

theorem AreLiterals.inert (h : AreLiterals r n values) : Inert n := by
  cases h with
  | one h => exact h.inert
  | array ha hi hn h => exact hi

theorem trimBy_enclosed {p : Char → Bool} {c : Char} (hc : p c = false) (cs : List Char) :
    Text.trimBy p (c :: (cs ++ [c])) = c :: (cs ++ [c]) := by
  simp [Text.trimBy, hc]

theorem unquote?_quoted {q : Char} (hq : q ∈ ['"', '\'']) (value : String) :
    unquote? (Text.trim (String.ofList (q :: (value.toList ++ [q])))) = some value := by
  have hcases : q = '"' ∨ q = '\'' := by simpa using hq
  have hblank : Text.isBlank q = false := by rcases hcases with rfl | rfl <;> rfl
  have hquote : (q == '"' || q == '\'' || q == '\x60') := by
    rcases hcases with rfl | rfl <;> rfl
  simp [unquote?, Text.trim, trimBy_enclosed hblank, hquote]

theorem unwrapped_of_kind {n : Node} {k : Kind} (h : n.is k)
    (hk : [Kind.parenthesizedExpression, .awaitExpression, .nonNullExpression, .asExpression,
      .satisfiesExpression, .typeAssertion].contains k = false) : n.unwrapped = n := by
  refine follow_eq_self ?_
  simp only [contains_cons, Bool.or_eq_false_iff] at hk
  simp [unwrapStep?, isOneOf, is_of_is h, hk]

theorem IsLiteral.constant? {value : String} (h : IsLiteral r n value) :
    r.constant? n = some value := by
  obtain ⟨q, hq, hsource⟩ := h.quoted
  have hself : n.unwrapped = n := unwrapped_of_kind h.string (by decide)
  have hvalue : n.stringValue? r.source = some value := by
    rw [stringValue?, if_pos h.string, text, hsource]
    exact unquote?_quoted hq value
  rw [Reading.constant?, Constants.text?, constantDepth, Constants.textAt?]
  simp [hself, h.string, hvalue]

theorem IsLiteral.path {value : String} (h : IsLiteral r n value) : r.path n = .ok value := by
  rw [Reading.path, h.constant?]

theorem is_of_ne {k : Kind} (h : n.is k) (l : Kind) (hkl : k ≠ l) : n.is l = false := by
  simp [is_of_is h, hkl]

theorem AreLiterals.texts? (h : AreLiterals r n values) :
    r.constants.texts? r.source n = some values := by
  unfold Constants.texts?
  cases h with
  | @one value h =>
    have hvalue : r.constants.text? r.source n = some value := h.constant?
    rw [unwrapped_of_kind h.string (by decide)]
    simp [is_of_ne h.string .array (by decide), hvalue]
  | @array items ha hi hn h =>
    have hall : items.mapM (fun i => r.constants.text? r.source i.1) = some (items.map (·.2)) := by
      clear hn
      induction items with
      | nil => rfl
      | cons i items ih =>
        have hvalue : r.constants.text? r.source i.1 = some i.2 :=
          (h i mem_cons_self).constant?
        rw [mapM_cons, hvalue, ih fun j hj => h j (mem_cons_of_mem i hj)]
        rfl
    rw [unwrapped_of_kind ha (by decide)]
    simp only [ha, hn, mapM_map]
    exact hall

theorem AreLiterals.paths (h : AreLiterals r n values) : r.paths n = .ok values := by
  unfold Reading.paths
  rw [h.texts?]
  cases h with
  | one h =>
    rw [is_of_ne h.string .array (by decide), h.path]
    rfl
  | array ha hi hn h => simp [ha]

/-! ## Outcomes -/

/-- A registering call: its name, its arguments and what it registers. Paths and methods are
literals, there is at least one handler, and at least one method is known. -/
inductive Registers (r : Reading) : (name : String) → (args : List Node) → Registration → Prop
  | verb {name path : String} {first : Node} {handlers : List Node}
      (hname : name ∈ verbNames) (hpath : IsLiteral r first path)
      (hhandlers : handlers ≠ []) :
      Registers r name (first :: handlers) (.routes [Text.upperAscii name] [path] handlers)
  | all {path : String} {first : Node} {handlers : List Node} (hpath : IsLiteral r first path)
      (hhandlers : handlers ≠ []) :
      Registers r "all" (first :: handlers) (.routes [all] [path] handlers)
  | useAt {path : String} {first : Node} {handlers : List Node} (hpath : IsLiteral r first path)
      (hhandlers : handlers ≠ []) :
      Registers r "use" (first :: handlers) (.middleware path handlers)
  /-- Without a path the first handler must have no known text. -/
  | use {first : Node} {handlers : List Node} (hunknown : r.constant? first = none)
      (hstring : first.unwrapped.is .string = false) :
      Registers r "use" (first :: handlers) (.middleware "*" (first :: handlers))
  | on {methods paths : Node} {raw values : List String} {handlers : List Node}
      (hmethods : AreLiterals r methods raw) (hpaths : AreLiterals r paths values)
      (hknown : raw.filterMap parse? ≠ []) (hhandlers : handlers ≠ []) :
      Registers r "on" (methods :: paths :: handlers)
        (.routes (raw.filterMap parse?) values handlers)

theorem Registers.name_known (h : Registers r name args reg) :
    name ≠ "route" ∧ name ≠ "basePath" ∧ registrationNames.contains name := by
  cases h with
  | verb hname hpath hhandlers =>
    revert name
    decide
  | all | useAt | use | on => decide

/-- The arguments of a registering call are inert literals and handlers. -/
theorem Registers.args_cases (h : Registers r name args reg) :
    ∀ a ∈ args, Inert a ∨ a ∈ reg.handlers := by
  intro a ha
  cases h with
  | verb _ hpath hhandlers | all hpath hhandlers | useAt hpath hhandlers =>
    exact (mem_cons.mp ha).imp (fun h : a = _ => h ▸ hpath.inert) id
  | use hunknown hstring => exact .inr ha
  | on hmethods hpaths hknown hhandlers =>
    rcases mem_cons.mp ha with rfl | ha
    · exact .inl hmethods.inert
    · exact (mem_cons.mp ha).imp (fun h : a = _ => h ▸ hpaths.inert) id

@[simp] theorem joinBase_empty (path : String) : joinBase "" path = path := rfl

theorem methodOf?_verb : ∀ name ∈ verbNames, methodOf? name = some (Text.upperAscii name) := by
  decide +kernel

namespace Reading

variable {r : Reading} {handlers : List Node}

theorem middleware_eq (h : handlers ≠ []) (call : Node) (path : String) :
    r.middleware call path handlers =
      ⟨entriesOf r (Registration.middleware path handlers).items, []⟩ := by
  have hne : handlers.isEmpty = false := by simpa using h
  simp only [middleware, hne, entriesOf, Registration.items, map_map]
  rfl

theorem routes_eq (h : handlers ≠ []) (call : Node) (path : String) (methods : List String) :
    r.routes call path methods handlers =
      ⟨entriesOf r (Registration.routes methods [path] handlers).items, []⟩ := by
  have hlast : handlers.getLast? = some (handlers.getLast h) := getLast?_eq_some_getLast h
  simp only [routes, hlast, entriesOf, Registration.items, flatMap_cons, flatMap_nil, append_nil,
    map_flatMap, map_append, map_map]
  rfl

theorem foldl_append_entries (f : String → List Item) : ∀ (paths : List String) (es : List Entry),
    (paths.map fun path => (⟨entriesOf r (f path), []⟩ : Outcome)).foldl Outcome.append ⟨es, []⟩ =
      ⟨es ++ entriesOf r (paths.flatMap f), []⟩
  | [], es => by simp [entriesOf]
  | path :: paths, es => by
    rw [map_cons, foldl_cons, Outcome.append, append_nil,
      foldl_append_entries f paths, flatMap_cons, entriesOf_append, append_assoc]

theorem onOutcome_eq {methods paths : Node} {raw values : List String}
    (hmethods : AreLiterals r methods raw) (hpaths : AreLiterals r paths values)
    (hknown : raw.filterMap parse? ≠ []) (hhandlers : handlers ≠ []) (call : Node) :
    r.onOutcome "" call (methods :: paths :: handlers) =
      ⟨entriesOf r (Registration.routes (raw.filterMap parse?) values handlers).items, []⟩ := by
  have hne : (raw.filterMap parse?).isEmpty = false := by
    simpa [isEmpty_eq_false_iff] using hknown
  have hitems : (Registration.routes (raw.filterMap parse?) values handlers).items =
      values.flatMap fun path =>
        (Registration.routes (raw.filterMap parse?) [path] handlers).items := by
    simp [Registration.items]
  rw [onOutcome, hmethods.texts?, hitems]
  simp only [hne, hpaths.paths, routes_eq hhandlers]
  exact foldl_append_entries _ values []

theorem isPath_eq_false {first : Node} (hunknown : r.constant? first = none)
    (hstring : first.unwrapped.is .string = false) : r.isPath first = false := by
  -- a template always has a text
  have htemplate : first.unwrapped.is .templateString = false := by
    refine eq_false_of_ne_true fun h => ?_
    rw [constant?, Constants.text?, constantDepth, Constants.textAt?] at hunknown
    simp [hstring, is_of_ne h .number (by decide), h] at hunknown
  simp [isPath, isOneOf, hstring, htemplate, hunknown]

end Reading

/-- **What a registering call gives** are the items of its registration, and no error. -/
theorem routeOutcome_eq (h : Registers r name args reg) {call : Node}
    (hargs : call.arguments = args) :
    r.routeOutcome "" name call = ⟨entriesOf r reg.items, []⟩ := by
  unfold routeOutcome
  rw [hargs]
  cases h with
  | @verb _ path first handlers hname hpath hhandlers =>
    have hnot : name ≠ "use" ∧ name ≠ "on" ∧ name ≠ "openapi" := by
      revert name
      decide
    rw [if_neg hnot.1, if_neg hnot.2.1, if_neg hnot.2.2, verbOutcome, methodOf?_verb name hname]
    simp only [hpath.path]
    exact routes_eq hhandlers call path _
  | @all path first handlers hpath hhandlers =>
    rw [verbOutcome]
    simp only [hpath.path]
    exact routes_eq hhandlers call path _
  | @useAt path first handlers hpath hhandlers =>
    have hself := unwrapped_of_kind hpath.string (by decide)
    have hispath : r.isPath first := by
      simp [isPath, isOneOf, hself, hpath.string]
    rw [useOutcome, if_pos hispath, hpath.path]
    exact middleware_eq hhandlers call path
  | use hunknown hstring =>
    rw [useOutcome, isPath_eq_false hunknown hstring]
    exact middleware_eq (cons_ne_nil _ _) call "*"
  | on hmethods hpaths hknown hhandlers =>
    exact onOutcome_eq hmethods hpaths hknown hhandlers call

end RouteAtlas.Inventory
