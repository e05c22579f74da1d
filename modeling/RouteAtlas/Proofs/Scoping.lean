import Mathlib.Logic.Relation
import RouteAtlas.Proofs.Trees
import RouteAtlas.Scope.Free

/-!
# The rules of scoping

Which names a program binds, and where. A scope is a node that introduces names for what stands in
it: a function its own name, its parameters and the variables of its body, a block its declarations,
a loop what its head declares, a clause what it catches. The rules are those of the language and are
stated on the tree alone, apart from how free names are looked for. They can be computed. Names
count as they are written.
-/

open List Option

namespace RouteAtlas.Source

variable {n d : Node} {k : Kind}

/-! ## Nodes that are reached -/

mutual

/-- The nodes that are reached from a node through named nodes with a property. -/
def Node.reached (p : Node → Bool) : Node → List Node
  | .mk label role start stop children =>
    .mk label role start stop children :: reachedOfAll p children

def reachedOfAll (p : Node → Bool) : List Node → List Node
  | [] => []
  | n :: ns => if n.isNamed && p n then n.reached p ++ reachedOfAll p ns else reachedOfAll p ns

end

def Node.Enters (p : Node → Bool) (n c : Node) : Prop := c ∈ n.named ∧ p c

variable {p q : Node → Bool}

theorem reachedOfAll_eq (ns : List Node) :
    reachedOfAll p ns = (ns.filter fun n => n.isNamed && p n).flatMap (·.reached p) := by
  induction ns with
  | nil => rfl
  | cons n ns ih =>
    rw [reachedOfAll, ih, filter_cons]
    split
    · rw [flatMap_cons]
    · rfl

theorem Node.reached_eq : n.reached p = n :: (n.named.filter p).flatMap (·.reached p) := by
  cases n with
  | mk label role start stop children =>
    rw [reached, reachedOfAll_eq, named, List.filter_filter]
    congr 3
    funext c
    exact Bool.and_comm _ _

/-- **The nodes that are reached** are those that steps into children with the property lead to. -/
theorem Node.mem_reached_iff : d ∈ n.reached p ↔ Relation.ReflTransGen (Node.Enters p) n d := by
  constructor
  · intro h
    induction n using children_induction with
    | step n ih =>
      rw [reached_eq] at h
      rcases mem_cons.mp h with rfl | h
      · exact .refl
      · obtain ⟨c, hc, hd⟩ := mem_flatMap.mp h
        have henters : n.Enters p c := mem_filter.mp hc
        exact .head henters (ih c (mem_children_of_named henters.1) hd)
  · intro h
    induction h using Relation.ReflTransGen.head_induction_on with
    | refl =>
      rw [reached_eq]
      exact mem_cons_self
    | head hstep _ ih =>
      rw [reached_eq]
      refine mem_cons_of_mem _ (mem_flatMap.mpr ⟨_, ?_, ih⟩)
      exact mem_filter.mpr hstep

theorem Node.mem_reached_trans {m : Node} (hm : m ∈ n.reached p) (hd : d ∈ m.reached p) :
    d ∈ n.reached p :=
  mem_reached_iff.mpr ((mem_reached_iff.mp hm).trans (mem_reached_iff.mp hd))

theorem Node.mem_reached_mono (hpq : ∀ c, p c → q c) (h : d ∈ n.reached p) : d ∈ n.reached q := by
  have henters : ∀ n c : Node, n.Enters p c → n.Enters q c := fun _ c hc => ⟨hc.1, hpq c hc.2⟩
  exact mem_reached_iff.mpr (Relation.ReflTransGen.mono henters n d (mem_reached_iff.mp h))

/-- What is reached through nodes with a property is reached through nodes that have another one
too, or through one that has not. -/
theorem Node.mem_reached_split (h : d ∈ n.reached p) :
    d ∈ n.reached (fun c => p c && q c) ∨ ∃ m ∈ n.reached p, q m = false ∧ d ∈ m.reached p := by
  simp only [mem_reached_iff] at h ⊢
  induction h using Relation.ReflTransGen.head_induction_on with
  | refl => exact .inl .refl
  | @head n c hc hreach ih =>
    cases hq : q c with
    | false => exact .inr ⟨c, .single hc, hq, hreach⟩
    | true =>
      rcases ih with ih | ⟨m, hm, hrest⟩
      · exact .inl (.head ⟨hc.1, Bool.and_eq_true_iff.mpr ⟨hc.2, hq⟩⟩ ih)
      · exact .inr ⟨m, .head hc hm, hrest⟩

/-! ## Steps outwards -/

/-- The steps from a site outwards: each node around it, with the child that leads to the site. -/
def Site.steps (s : Site) : List (Node × Node) := (s.node :: s.above).zip s.above

theorem Site.mem_above_of_mem_steps {s : Site} {c e : Node} (h : (c, e) ∈ s.steps) : e ∈ s.above :=
  (of_mem_zip h).2

theorem Site.exists_step {s : Site} {e : Node} (h : e ∈ s.above) : ∃ c, (c, e) ∈ s.steps := by
  obtain ⟨n, above⟩ := s
  induction above generalizing n with
  | nil => cases h
  | cons a above ih =>
    rcases mem_cons.mp h with rfl | h
    · exact ⟨n, mem_cons_self⟩
    · obtain ⟨c, hc⟩ := ih a h
      exact ⟨c, mem_cons_of_mem _ hc⟩

end RouteAtlas.Source

namespace RouteAtlas.Scope

open Source Node Kind

/-! ## Names and the nodes around them -/

/-- Nodes that are names, in a use or in a pattern. -/
def isName (k : Kind) : Bool := isReference k || k == .shorthandPropertyIdentifierPattern

/-- What stands right inside the nodes is a label. -/
def isLabelled (above : List Node) : Bool := above.head?.any (·.kindIs holdsLabel)

mutual

/-- The names that stand in a tree, in source order, each with the nodes around it. A label is not a
name. -/
def namesBelow (above : List Node) : Node → List Site
  | .mk (.token _) _ _ _ _ => []
  | .mk (.named kind) role start stop children =>
    let n := mk (.named kind) role start stop children
    if isName kind then if isLabelled above then [] else [⟨n, above⟩]
    else namesOfAll (n :: above) children

def namesOfAll (above : List Node) : List Node → List Site
  | [] => []
  | n :: ns => namesBelow above n ++ namesOfAll above ns

end

variable (n : Node)

def names : List Site := namesBelow [] n

theorem namesOfAll_eq (above ns : List Node) :
    namesOfAll above ns = (ns.filter isNamed).flatMap (namesBelow above) := by
  induction ns with
  | nil => rfl
  | cons n ns ih =>
    obtain ⟨kind | token, role, start, stop, children⟩ := n
    · exact congrArg _ ih
    · exact ih

/-- A name that stands in a tree is one of its nodes, and what is around the tree is around it. -/
theorem of_mem_namesBelow {n : Node} {above : List Node} {s : Site} (hs : s ∈ namesBelow above n) :
    s.node ∈ n.nodes ∧ s.node.kindIs isName ∧ above <:+ s.above := by
  induction n using children_induction generalizing above with
  | step n ih =>
    obtain ⟨kind | token, role, start, stop, children⟩ := n
    · rw [namesBelow] at hs
      split at hs
      · split at hs
        · cases hs
        · cases mem_singleton.mp hs
          exact ⟨self_mem_nodes _, ‹_›, suffix_refl above⟩
      · rw [namesOfAll_eq] at hs
        obtain ⟨c, hc, hs⟩ := mem_flatMap.mp hs
        have hc := (mem_filter.mp hc).1
        obtain ⟨hmem, hname, hsuffix⟩ := ih c hc hs
        exact ⟨mem_nodes_iff.mpr (.inr ⟨c, hc, hmem⟩), hname, (suffix_cons _ above).trans hsuffix⟩
    · cases hs

theorem mem_above_of_mem_names {f : Node} {s : Site} (hf : f.kindIs isName = false)
    (hs : s ∈ names f) : f ∈ s.above := by
  obtain ⟨label, role, start, stop, children⟩ := f
  cases label with
  | token text => cases hs
  | named kind =>
    have hkind : isName kind = false := hf
    rw [names, namesBelow, if_neg (by rw [hkind]; exact Bool.false_ne_true), namesOfAll_eq] at hs
    obtain ⟨c, -, hs⟩ := mem_flatMap.mp hs
    exact (of_mem_namesBelow hs).2.2.subset mem_cons_self

/-! ## Patterns and declarations -/

/-- A pattern binds a name. -/
inductive PatternBinds (source : String) : Node → String → Prop
  | name {p : Node} (hp : p.isOneOf [.identifier, .shorthandPropertyIdentifierPattern]) :
      PatternBinds source p (p.text source)
  | parameter {p q : Node} {x : String} (hp : p.isOneOf [.requiredParameter, .optionalParameter])
      (hq : p.child? .pattern = some q) (hx : PatternBinds source q x) : PatternBinds source p x
  | default {p q : Node} {x : String}
      (hp : p.isOneOf [.assignmentPattern, .objectAssignmentPattern]) (hq : p.child? .left = some q)
      (hx : PatternBinds source q x) : PatternBinds source p x
  | property {p q : Node} {x : String} (hp : p.is .pairPattern)
      (hq : p.child? .value = some q) (hx : PatternBinds source q x) : PatternBinds source p x
  | element {p q : Node} {x : String} (hp : p.isOneOf [.objectPattern, .arrayPattern, .restPattern])
      (hq : q ∈ p.named) (hx : PatternBinds source q x) : PatternBinds source p x

variable {source x : String}

theorem namesOfPatterns_eq (ns : List Node) :
    namesOfPatterns source ns = ns.flatMap (patternNames source) := by
  induction ns with
  | nil => rfl
  | cons n ns ih => rw [namesOfPatterns, ih, flatMap_cons]

theorem isNamed_of_mem_patternNames {p : Node} (h : x ∈ patternNames source p) : p.isNamed := by
  obtain ⟨label, role, start, stop, children⟩ := p
  cases label with
  | named kind => rfl
  | token text =>
    cases h

theorem namesOfPart_eq (role : Role) (ns : List Node) : namesOfPart source role ns =
    ((ns.find? (·.role == some role)).map (patternNames source)).getD [] := by
  induction ns with
  | nil => rfl
  | cons n ns ih =>
    rw [namesOfPart, find?_cons, ih]
    cases n.role == some role <;> rfl

theorem mem_getD_map_iff {α β : Type} {o : Option α} {f : α → List β} {b : β} :
    b ∈ (o.map f).getD [] ↔ ∃ a ∈ o, b ∈ f a := by
  cases o <;> simp

theorem patternBinds_of_mem {p : Node} (h : x ∈ patternNames source p) :
    PatternBinds source p x := by
  induction p using children_induction with
  | step p ih =>
    obtain ⟨kind | token, role, start, stop, children⟩ := p
    · have hpart : ∀ {role : Role}, x ∈ namesOfPart source role children →
          ∃ q, children.find? (·.role == some role) = some q ∧ PatternBinds source q x := by
        intro role h
        rw [namesOfPart_eq] at h
        obtain ⟨q, hq, hx⟩ := mem_getD_map_iff.mp h
        exact ⟨q, hq, ih q (mem_of_find?_eq_some hq) hx⟩
      unfold patternNames at h
      split at h
      case h_1 | h_2 =>
        rw [mem_singleton.mp h]
        exact .name rfl
      case h_3 | h_4 =>
        obtain ⟨q, hq, hx⟩ := hpart h
        exact .parameter rfl hq hx
      case h_5 | h_6 =>
        obtain ⟨q, hq, hx⟩ := hpart h
        exact .default rfl hq hx
      case h_7 =>
        obtain ⟨q, hq, hx⟩ := hpart h
        exact .property rfl hq hx
      case h_8 | h_9 | h_10 =>
        rw [namesOfPatterns_eq] at h
        obtain ⟨q, hq, hx⟩ := mem_flatMap.mp h
        have hnamed := mem_filter.mpr ⟨hq, isNamed_of_mem_patternNames hx⟩
        exact .element rfl hnamed (ih q hq hx)
      case h_11 => cases h
    · cases h

theorem patternNames_of_part {p q : Node} {role : Role}
    (hp : patternNames source p = namesOfPart source role p.children)
    (hq : p.child? role = some q) : patternNames source p = patternNames source q := by
  rw [child?] at hq
  rw [hp, namesOfPart_eq, hq]
  rfl

/-- **The names of a pattern** are those that it binds. -/
theorem mem_patternNames_iff {p : Node} : x ∈ patternNames source p ↔ PatternBinds source p x := by
  refine ⟨patternBinds_of_mem, fun h => ?_⟩
  induction h with
  | name hp =>
    obtain ⟨k, hk, role, start, stop, children, rfl⟩ := exists_of_isOneOf hp
    simp only [mem_cons, not_mem_nil, or_false] at hk
    rcases hk with rfl | rfl <;> exact mem_singleton.mpr rfl
  | parameter hp hq _ ih | default hp hq _ ih =>
    rwa [patternNames_of_part ?_ hq]
    obtain ⟨k, hk, role, start, stop, children, rfl⟩ := exists_of_isOneOf hp
    simp only [mem_cons, not_mem_nil, or_false] at hk
    rcases hk with rfl | rfl <;> rfl
  | property hp hq _ ih =>
    rwa [patternNames_of_part ?_ hq]
    obtain ⟨role, start, stop, children, rfl⟩ := exists_of_is hp
    rfl
  | @element p q x hp hq _ ih =>
    have hall : patternNames source p = namesOfPatterns source p.children := by
      obtain ⟨k, hk, role, start, stop, children, rfl⟩ := exists_of_isOneOf hp
      simp only [mem_cons, not_mem_nil, or_false] at hk
      rcases hk with rfl | rfl | rfl <;> rfl
    rw [hall, namesOfPatterns_eq]
    exact mem_flatMap.mpr ⟨q, mem_children_of_named hq, ih⟩

instance (p : Node) : Decidable (PatternBinds source p x) :=
  decidable_of_iff _ mem_patternNames_iff

/-- A statement declares a name: variables by the patterns of their declarators, all else by its
name. -/
inductive Declares (source : String) : Node → String → Prop
  | declarator {d v p : Node} {x : String}
      (hd : d.isOneOf [.lexicalDeclaration, .variableDeclaration]) (hv : v ∈ d.named)
      (hp : v.child? .name = some p) (hx : PatternBinds source p x) : Declares source d x
  | named {d k : Node} (hd : d.isOneOf nameDeclarations) (hk : d.child? .name = some k) :
      Declares source d (k.text source)

/-- **The names of a declaration** are those that it declares. -/
theorem mem_declaredNames_iff {d : Node} : x ∈ declaredNames source d ↔ Declares source d x := by
  unfold declaredNames
  constructor
  · intro h
    split at h
    · rename_i hd
      obtain ⟨v, hv, hx⟩ := mem_flatMap.mp h
      cases hp : v.child? .name with
      | none =>
        rw [hp] at hx
        cases hx
      | some p =>
        rw [hp] at hx
        exact .declarator hd hv hp (mem_patternNames_iff.mp hx)
    · split at h
      · rename_i hd
        cases hk : d.child? .name with
        | none =>
          rw [hk] at h
          cases h
        | some k =>
          rw [hk] at h
          rw [mem_singleton.mp h]
          exact .named hd hk
      · cases h
  · intro h
    cases h with
    | declarator hd hv hp hx =>
      rw [if_pos hd]
      refine mem_flatMap.mpr ⟨_, hv, ?_⟩
      rw [hp]
      exact mem_patternNames_iff.mpr hx
    | named hd hk =>
      obtain ⟨kind, hkind, his⟩ := List.any_eq_true.mp hd
      have hother : ∀ k ∈ nameDeclarations,
          [lexicalDeclaration, .variableDeclaration].contains k = false := by decide
      rw [isOneOf_of_is his, hother kind hkind, if_pos hd, hk]
      exact mem_singleton.mpr rfl

instance (d : Node) : Decidable (Declares source d x) :=
  decidable_of_iff _ mem_declaredNames_iff

/-! ## The rules -/

/-- Functions and the static blocks of classes have variables of their own. -/
def holdsVariables : Bool := n.kindIs isFunction || n.is .classStaticBlock

/-- The nodes of a body, without what is in inner functions and static blocks. -/
def ownNodes (body : Node) : List Node :=
  if holdsVariables body then [] else body.reached fun c => !holdsVariables c

def parameters (f : Node) : List Node :=
  ((f.child? .parameters).map named).getD [] ++ (f.child? .parameter).toList

/-- Statements are listed in blocks and in the bodies of switches. -/
def isBlock : Bool := n.isOneOf [.statementBlock, .switchBody]

/-- Nodes in a list of statements that hold further statements of the list. -/
def holdsStatements : Bool :=
  n.isOneOf [.switchCase, .switchDefault, .labeledStatement]

/-- The head of a loop over items declares a variable of the function around the loop. -/
def LoopDeclares (source : String) (d : Node) (x : String) : Prop :=
  d.is .forInStatement ∧ (∃ k ∈ d.child? .kind, k.label = .token "var") ∧
    ∃ p ∈ d.child? .left, PatternBinds source p x
  deriving Decidable

/-- The ways in which names are introduced. -/
inductive Way where
  | own
  | parameter
  | typeParameter
  /-- By a `var` statement or the `var` of a counting loop. -/
  | var
  | loopVar
  | caught
  | statement
  /-- By a statement in a clause of a switch or behind a label. -/
  | inner
  /-- By the head of a counting loop, for the loop. -/
  | counter
  /-- By the head of a loop over items, for the loop. -/
  | item
  deriving DecidableEq, Repr

/-- **The names of a scope**, by the way in which it introduces them. -/
def Introduces (source : String) (e : Node) (x : String) : Way → Prop
  | .own =>
    e.kindIs isFunction ∧ ∃ k ∈ e.child? .name, k.is .identifier ∧ k.text source = x
  | .parameter => e.kindIs isFunction ∧ ∃ p ∈ parameters e, PatternBinds source p x
  | .typeParameter =>
    e.kindIs isFunction ∧
      ∃ ps ∈ e.child? .typeParameters, ∃ p ∈ ps.named, ∃ k ∈ p.child? .name, k.text source = x
  | .var =>
    holdsVariables e ∧ ∃ body ∈ e.child? .body, ∃ d ∈ ownNodes body,
      d.is .variableDeclaration ∧ Declares source d x
  | .loopVar =>
    holdsVariables e ∧ ∃ body ∈ e.child? .body, ∃ d ∈ ownNodes body, LoopDeclares source d x
  | .caught => e.is .catchClause ∧ ∃ p ∈ e.child? .parameter, PatternBinds source p x
  | .statement => isBlock e ∧ ∃ d ∈ e.named, Declares source d x
  | .inner =>
    isBlock e ∧ ∃ c ∈ e.named, holdsStatements c ∧ ∃ holder ∈ c.reached holdsStatements,
      ∃ d ∈ holder.named, Declares source d x
  | .counter => e.is .forStatement ∧ ∃ d ∈ e.child? .initializer, Declares source d x
  | .item =>
    e.is .forInStatement ∧ (e.child? .kind).isSome ∧ ∃ p ∈ e.child? .left, PatternBinds source p x

/-- The key and the decorators of a method stand in the method, but outside its scope. -/
def isHead (c : Node) : Bool := c.role == some .name || c.role == some .decorator

/-- The child of a scope is one of the parts in which a name is bound that is introduced in this
way. Parameters are bound in all of a function but its head, variables only in its body. -/
def Way.Reaches (e c : Node) : Way → Prop
  | .parameter | .typeParameter => isHead c = false
  | .var | .loopVar => e.child? .body = some c
  | _ => True

/-- **A name at a site is bound**: it is in the scope of a declaration. -/
def Bound (source : String) (s : Site) (x : String) : Prop :=
  ∃ step ∈ s.steps, ∃ way, Introduces source step.2 x way ∧ way.Reaches step.2 step.1

instance (source : String) (e : Node) (x : String) : (way : Way) →
    Decidable (Introduces source e x way)
  | .own | .parameter | .typeParameter | .var | .loopVar | .caught | .statement | .inner
  | .counter | .item => inferInstanceAs (Decidable (_ ∧ _))

instance (e c : Node) : (way : Way) → Decidable (way.Reaches e c)
  | .parameter | .typeParameter => inferInstanceAs (Decidable (isHead c = false))
  | .var | .loopVar => inferInstanceAs (Decidable (e.child? .body = some c))
  | .own | .caught | .statement | .inner | .counter | .item => inferInstanceAs (Decidable True)

def Way.all : List Way :=
  [.own, .parameter, .typeParameter, .var, .loopVar, .caught, .statement, .inner, .counter, .item]

theorem Way.mem_all (way : Way) : way ∈ Way.all := by
  cases way <;> decide

instance (source : String) (s : Site) (x : String) : Decidable (Bound source s x) :=
  decidable_of_iff (∃ step ∈ s.steps, ∃ way ∈ Way.all,
      Introduces source step.2 x way ∧ way.Reaches step.2 step.1) <| by
    simp only [Bound, Way.mem_all, true_and]

/-! ## What is hidden from the search -/

/-- The nodes that are looked at for the variables of a body: those outside inner functions. -/
def isPlain : Bool := !n.kindIs isFunction

def variableNames (source : String) (d : Node) : List String :=
  if d.is .variableDeclaration then declaredNames source d else []

mutual

theorem hoistedNames_eq : ∀ n : Node,
    hoistedNames source n = (n.reached isPlain).flatMap (variableNames source)
  | .mk label role start stop children => by
    rw [hoistedNames, hoistedOfAll_eq children]
    rfl

theorem hoistedOfAll_eq : ∀ ns : List Node,
    hoistedOfAll source ns = (reachedOfAll isPlain ns).flatMap (variableNames source)
  | [] => rfl
  | n :: ns => by
    rw [hoistedOfAll, reachedOfAll, ← isPlain]
    split
    · rw [flatMap_append, hoistedNames_eq n, hoistedOfAll_eq ns]
    · exact hoistedOfAll_eq ns

end

/-- **The variables that are looked for in a body** are those of the `var` statements outside inner
functions. -/
theorem mem_hoistedNames_iff {body : Node} : x ∈ hoistedNames source body ↔
    ∃ d ∈ body.reached isPlain, d.is .variableDeclaration ∧ Declares source d x := by
  rw [hoistedNames_eq, mem_flatMap]
  refine exists_congr fun d => and_congr_right fun _ => ?_
  rw [variableNames, ← mem_declaredNames_iff]
  split
  · rename_i hd
    exact ⟨fun h => ⟨hd, h⟩, And.right⟩
  · rename_i hd
    exact ⟨nofun, fun h => absurd h.1 hd⟩

/-- A function hides the names of the `var` statements in its body, wherever they stand. -/
def Hoists (source : String) (e : Node) (x : String) : Prop :=
  e.kindIs isFunction ∧ ∃ body ∈ e.child? .body, ∃ d ∈ body.reached isPlain,
    d.is .variableDeclaration ∧ Declares source d x

/-- The ways of introducing a name that hide it in all of the scope. -/
def Way.hides : Way → Bool
  | .own | .parameter | .typeParameter | .caught | .statement | .counter | .item => true
  | .var | .loopVar | .inner => false

/-- A scope hides a name from the search for free names. -/
def Covers (source : String) (e : Node) (x : String) : Prop :=
  ∃ hidden ∈ scopeNames? source e, x ∈ hidden

section Hidden

variable {e : Node}

theorem scopeNames?_function (he : e.kindIs isFunction) :
    scopeNames? source e = some (functionNames source e) := by
  rw [scopeNames?, if_pos he]

theorem mem_parameters_iff {p : Node} :
    p ∈ parameters e ↔ (∃ ps ∈ e.child? .parameters, p ∈ ps.named) ∨ p ∈ e.child? .parameter := by
  rw [parameters, mem_append, mem_getD_map_iff, mem_toList]
  rfl

/-- **What a function hides**: its own name, its parameters, and what it hoists. -/
theorem mem_functionNames_iff (he : e.kindIs isFunction) :
    x ∈ functionNames source e ↔ Hoists source e x ∨ Introduces source e x .own ∨
      Introduces source e x .parameter ∨ Introduces source e x .typeParameter := by
  simp only [functionNames, mem_append, mem_getD_map_iff, mem_flatMap,
    mem_patternNames_iff, mem_hoistedNames_iff]
  constructor
  · rintro ((((hown | ⟨ps, hps, p, hp, hx⟩) | ⟨p, hp, hx⟩) | ⟨ps, hps, hx⟩) | hoisted)
    · split at hown
      · rename_i k hk
        split at hown
        · rename_i hname
          exact .inr (.inl ⟨he, k, hk, hname, (mem_singleton.mp hown).symm⟩)
        · cases hown
      · cases hown
    · exact .inr (.inr (.inl ⟨he, p, mem_parameters_iff.mpr (.inl ⟨ps, hps, hp⟩), hx⟩))
    · exact .inr (.inr (.inl ⟨he, p, mem_parameters_iff.mpr (.inr hp), hx⟩))
    · obtain ⟨p, hp, hname⟩ := mem_filterMap.mp hx
      obtain ⟨k, hk, rfl⟩ := map_eq_some_iff.mp hname
      exact .inr (.inr (.inr ⟨he, ps, hps, p, hp, k, hk, rfl⟩))
    · exact .inl ⟨he, hoisted⟩
  · rintro (⟨-, hoisted⟩ | ⟨-, k, hk, hname, rfl⟩ | ⟨-, p, hp, hx⟩ |
      ⟨-, ps, hps, p, hp, k, hk, rfl⟩)
    · exact .inr hoisted
    · simp [mem_def.mp hk, hname]
    · rcases mem_parameters_iff.mp hp with ⟨ps, hps, hp⟩ | hp
      · exact .inl (.inl (.inl (.inr ⟨ps, hps, p, hp, hx⟩)))
      · exact .inl (.inl (.inr ⟨p, hp, hx⟩))
    · refine .inl (.inr ⟨ps, hps, mem_filterMap.mpr ⟨p, hp, ?_⟩⟩)
      rw [mem_def.mp hk]
      rfl

/-- **What a scope hides from the search for free names.** -/
theorem covers_iff : Covers source e x ↔
    Hoists source e x ∨ ∃ way : Way, way.hides ∧ Introduces source e x way := by
  constructor
  · rintro ⟨hidden, hscope, hx⟩
    unfold scopeNames? at hscope
    split at hscope
    · rename_i he
      cases hscope
      rcases (mem_functionNames_iff he).mp hx with h | h | h | h
      · exact .inl h
      · exact .inr ⟨.own, rfl, h⟩
      · exact .inr ⟨.parameter, rfl, h⟩
      · exact .inr ⟨.typeParameter, rfl, h⟩
    split at hscope
    · rename_i he
      cases hscope
      obtain ⟨d, hd, hx⟩ := mem_flatMap.mp hx
      exact .inr ⟨.statement, rfl, he, d, hd, mem_declaredNames_iff.mp hx⟩
    split at hscope
    · rename_i he
      cases hscope
      obtain ⟨d, hd, hx⟩ := mem_getD_map_iff.mp hx
      exact .inr ⟨.counter, rfl, he, d, hd, mem_declaredNames_iff.mp hx⟩
    split at hscope
    · rename_i he
      cases hscope
      split at hx
      · rename_i hkind
        obtain ⟨p, hp, hx⟩ := mem_getD_map_iff.mp hx
        exact .inr ⟨.item, rfl, he, hkind, p, hp, mem_patternNames_iff.mp hx⟩
      · cases hx
    split at hscope
    · rename_i he
      cases hscope
      obtain ⟨p, hp, hx⟩ := mem_getD_map_iff.mp hx
      exact .inr ⟨.caught, rfl, he, p, hp, mem_patternNames_iff.mp hx⟩
    · cases hscope
  · rintro (h | ⟨way, hway, h⟩)
    · exact ⟨_, scopeNames?_function h.1, (mem_functionNames_iff h.1).mpr (.inl h)⟩
    · cases way with
      | own => exact ⟨_, scopeNames?_function h.1, (mem_functionNames_iff h.1).mpr (.inr (.inl h))⟩
      | parameter =>
        exact ⟨_, scopeNames?_function h.1, (mem_functionNames_iff h.1).mpr (.inr (.inr (.inl h)))⟩
      | typeParameter =>
        exact ⟨_, scopeNames?_function h.1, (mem_functionNames_iff h.1).mpr (.inr (.inr (.inr h)))⟩
      | caught =>
        obtain ⟨he, p, hp, hx⟩ := h
        obtain ⟨role, start, stop, children, rfl⟩ := exists_of_is he
        exact ⟨_, rfl, mem_getD_map_iff.mpr ⟨p, hp, mem_patternNames_iff.mpr hx⟩⟩
      | statement =>
        obtain ⟨he, d, hd, hx⟩ := h
        obtain ⟨k, hk, role, start, stop, children, rfl⟩ := exists_of_isOneOf he
        have hx := mem_flatMap.mpr ⟨d, hd, mem_declaredNames_iff.mpr hx⟩
        simp only [mem_cons, not_mem_nil, or_false] at hk
        rcases hk with rfl | rfl <;> exact ⟨_, rfl, hx⟩
      | counter =>
        obtain ⟨he, d, hd, hx⟩ := h
        obtain ⟨role, start, stop, children, rfl⟩ := exists_of_is he
        exact ⟨_, rfl, mem_getD_map_iff.mpr ⟨d, hd, mem_declaredNames_iff.mpr hx⟩⟩
      | item =>
        obtain ⟨he, hkind, p, hp, hx⟩ := h
        obtain ⟨role, start, stop, children, rfl⟩ := exists_of_is he
        refine ⟨_, rfl, ?_⟩
        rw [if_pos hkind]
        exact mem_getD_map_iff.mpr ⟨p, hp, mem_patternNames_iff.mpr hx⟩
      | var => cases hway
      | loopVar => cases hway
      | inner => cases hway

end Hidden

end RouteAtlas.Scope
