import Mathlib.Data.List.TakeWhile
import RouteAtlas.Proofs.ChainLinks
import RouteAtlas.Proofs.Scoping

/-!
# Variables and what refers to them

Which declaration a name at a place stands for. A variable lives in a part of the tree, its home: a
`var` in the whole body around it, a `let` or a `const` in the list of statements or in the loop
that declares it. A name refers to a variable if it stands in the variable's home and no scope in
between binds the name. The rules are those of the language for programs in strict mode, for values:
names of types are left out. They can be computed.
-/

open List

namespace RouteAtlas.Scope

open Source Inventory

/-! ## Homes -/

/-- Functions, static blocks and namespaces: their variables are not seen outside. -/
def confinesVariables (n : Node) : Bool :=
  holdsVariables n || n.isOneOf [.internalModule, .moduleDeclaration]

/-- The nodes around a site, up to the innermost one that confines its variables. -/
def ownAround (s : Site) : List Node := s.above.takeWhile fun n => !confinesVariables n

/-- Lists of statements, and loops with a head, hold what `let` and `const` declare in them. -/
def holdsDeclarations (n : Node) : Bool :=
  n.isOneOf [.statementBlock, .switchBody, .forStatement, .program]

def isVar (d : Site) : Bool := d.parent?.any (·.is .variableDeclaration)

/-- **The home of the variable of a declarator**: the whole body for a `var`, else the innermost
list of statements or loop. -/
def home? (d : Site) : Option Node :=
  if isVar d then (ownAround d).getLast? else (ownAround d).find? holdsDeclarations

/-! ## Scopes -/

/-- The statement declares variables for the list in which it stands. -/
def isLexical (d : Node) : Bool :=
  d.isOneOf [.lexicalDeclaration, .functionDeclaration, .generatorFunctionDeclaration,
    .classDeclaration, .abstractClassDeclaration, .enumDeclaration]

/-- Statements that hold further statements of the list in which they stand. -/
def continuesList (n : Node) : Bool := holdsStatements n || n.is .exportStatement

def isKnownToItself (e : Node) : Bool :=
  e.isOneOf [.functionExpression, .generatorFunction, .classExpression, .classDeclaration,
    .abstractClassDeclaration]

/-- The forms in which a scope binds a name for values. -/
inductive Form where
  | own
  | parameter
  | var
  | caught
  | listed
  | counter
  | item
  deriving DecidableEq, Repr

variable (source : String)

/-- **A scope binds a name** in some form for its part `c`. -/
def BindsAs (c e : Node) (x : String) : Form → Prop
  | .own => isKnownToItself e ∧ isHead c = false ∧ ∃ k ∈ e.child? .name, k.text source = x
  | .parameter =>
    e.kindIs Kind.isFunction ∧ isHead c = false ∧ ∃ p ∈ parameters e, PatternBinds source p x
  | .var =>
    confinesVariables e ∧ e.child? .body = some c ∧ confinesVariables c = false ∧
      ∃ d ∈ c.reached fun n => !confinesVariables n,
        d.is .variableDeclaration ∧ Declares source d x ∨ LoopDeclares source d x
  | .caught => e.is .catchClause ∧ ∃ p ∈ e.child? .parameter, PatternBinds source p x
  | .listed =>
    e.isOneOf [.statementBlock, .switchBody, .program] ∧ ∃ holder ∈ e.reached continuesList,
      ∃ d ∈ holder.named, isLexical d ∧ Declares source d x
  | .counter =>
    e.is .forStatement ∧ ∃ d ∈ e.child? .initializer, isLexical d ∧ Declares source d x
  | .item =>
    e.is .forInStatement ∧ (∃ k ∈ e.child? .kind, k.label ≠ .token "var") ∧
      ∃ p ∈ e.child? .left, PatternBinds source p x

def Form.all : List Form := [.own, .parameter, .var, .caught, .listed, .counter, .item]

/-- A scope binds a name for its part `c`. -/
def Binds (c e : Node) (x : String) : Prop :=
  ∃ form ∈ Form.all, BindsAs source c e x form

/-! ## References -/

/-- The steps from a site outwards that stay inside a node. -/
def stepsInside (s : Site) (home : Node) : List (Node × Node) :=
  s.steps.takeWhile fun step => step.2 ≠ home

/-- A scope around the site and inside a node binds the name again. -/
def Nearer (s : Site) (home : Node) (x : String) : Prop :=
  ∃ step ∈ stepsInside s home, Binds source step.1 step.2 x

/-- The declarator is written with a plain name. -/
def GivesName (d : Site) (x : String) : Prop :=
  ∃ p ∈ d.node.child? .name, p.text source = x
  deriving Decidable

/-- **A name refers to the variable of a declarator**: it stands in the home of the variable, and
nothing in between binds the name. -/
def Refers (s d : Site) : Prop :=
  GivesName source d (s.node.text source) ∧
    ∃ home ∈ home? d, home ∈ s.above ∧ ¬ Nearer source s home (s.node.text source)

/-- A name refers to a declarator that gives it unless the name stands outside the home or a scope
in between binds it. -/
theorem refers_iff {source : String} {s d : Site}
    (hname : GivesName source d (s.node.text source)) :
    Refers source s d ↔ ¬ (∀ home ∈ home? d, home ∉ s.above) ∧
      ¬ ∃ home ∈ home? d, Nearer source s home (s.node.text source) := by
  constructor
  · rintro ⟨-, home, hhome, habove, hnearer⟩
    refine ⟨fun h => h home hhome habove, ?_⟩
    rintro ⟨home', hhome', hbinds⟩
    obtain rfl : home = home' := Option.mem_unique hhome hhome'
    exact hnearer hbinds
  · rintro ⟨hinside, hnearer⟩
    obtain ⟨home, hhome, habove⟩ : ∃ home ∈ home? d, home ∈ s.above := by
      simpa using hinside
    exact ⟨hname, home, hhome, habove, fun hbinds => hnearer ⟨home, hhome, hbinds⟩⟩

section Decidable

variable (source : String) (c e : Node) (s d : Site) (x : String)

instance : (form : Form) → Decidable (BindsAs source c e x form)
  | .own | .parameter | .var | .caught | .listed | .counter | .item =>
    inferInstanceAs (Decidable (_ ∧ _))

instance : Decidable (Binds source c e x) := inferInstanceAs (Decidable (∃ form ∈ _, _))

instance : Decidable (Nearer source s e x) := inferInstanceAs (Decidable (∃ step ∈ _, _))

instance : Decidable (Refers source s d) := inferInstanceAs (Decidable (_ ∧ _))

end Decidable

/-! ## Homes and ranges -/

section Ranges

variable {tree : Node} {s d k : Site}

/-- A node around a site is a site with the rest of the nodes around it, and has in it all that
stands nearer. -/
theorem mem_sites_of_split (hs : s ∈ tree.sites) {inner outer : List Node} {n : Node}
    (habove : s.above = inner ++ n :: outer) :
    ⟨n, outer⟩ ∈ tree.sites ∧ ∀ c ∈ s.node :: inner, c ∈ n.nodes := by
  obtain ⟨m, above⟩ := s
  subst habove
  induction inner generalizing m with
  | nil =>
    obtain ⟨hn, hm⟩ := mem_sites_above hs
    refine ⟨hn, fun c hc => ?_⟩
    rw [mem_singleton.mp hc]
    exact Node.mem_nodes_of_named hm
  | cons p inner ih =>
    obtain ⟨hp, hm⟩ := mem_sites_above hs
    obtain ⟨hn, hinner⟩ := ih p hp
    refine ⟨hn, forall_mem_cons.mpr ⟨?_, hinner⟩⟩
    exact Node.mem_nodes_trans (hinner p mem_cons_self) (Node.mem_nodes_of_named hm)

theorem eq_of_node_eq (hregular : Regular tree) (hs : s ∈ tree.sites) (hd : d ∈ tree.sites)
    (hnode : s.node = d.node) : s = d :=
  inj_on_of_nodup_map hregular.distinct hs hd hnode

/-- The innermost function of some nodes, or the outermost node. -/
def holder? (above : List Node) : Option Node :=
  above.find? (·.kindIs Kind.isFunction) <|> above.getLast?

theorem mem_of_holder? {above : List Node} {f : Node} (h : holder? above = some f) : f ∈ above := by
  rcases (Option.orElse_eq_some _ _ _).mp h with hf | ⟨-, hf⟩
  · exact mem_of_find?_eq_some hf
  · exact mem_of_getLast? hf

theorem exists_holder (e : Node) (outer : List Node) : ∃ f, holder? (e :: outer) = some f := by
  unfold holder?
  cases (e :: outer).find? (·.kindIs Kind.isFunction) with
  | some f => exact ⟨f, rfl⟩
  | none => exact ⟨_, rfl⟩

theorem holder?_append (inner : List Node) (e : Node) (outer : List Node) :
    (∃ f ∈ inner, f.kindIs Kind.isFunction ∧ holder? (inner ++ e :: outer) = some f) ∨
      holder? (inner ++ e :: outer) = holder? (e :: outer) := by
  unfold holder?
  rw [find?_append]
  cases hf : inner.find? (·.kindIs Kind.isFunction) with
  | some f => exact .inl ⟨f, mem_of_find?_eq_some hf, find?_some hf, rfl⟩
  | none => exact .inr (by rw [getLast?_append_cons]; rfl)

theorem scope_of_holder {f : Node} (h : holder? s.above = some f) :
    s.scope = (f.start, f.stop) := by
  unfold Site.scope
  rw [← holder?, h]

theorem not_function_of_mem_ownAround {n : Node} (h : n ∈ ownAround s) :
    n.kindIs Kind.isFunction = false := by
  have hn : confinesVariables n = false := by
    simpa using mem_takeWhile_imp h
  rw [confinesVariables, holdsVariables, Bool.or_eq_false_iff, Bool.or_eq_false_iff] at hn
  exact hn.1.1

/-- **Between a declarator and the home of its variable there is no function.** -/
theorem scope_of_home {e : Node} (h : home? d = some e) : ∃ inner outer f,
    d.above = inner ++ e :: outer ∧ holder? (e :: outer) = some f ∧
      d.scope = (f.start, f.stop) := by
  have hown : e ∈ ownAround d := by
    unfold home? at h
    split at h
    · exact mem_of_getLast? h
    · exact mem_of_find?_eq_some h
  obtain ⟨inner, between, hsplit⟩ := append_of_mem hown
  obtain ⟨rest, hrest⟩ := takeWhile_prefix (l := d.above) fun n => !confinesVariables n
  have habove : d.above = inner ++ e :: (between ++ rest) := by
    rw [← hrest, ← ownAround, hsplit, append_assoc, cons_append]
  obtain ⟨f, hf⟩ := exists_holder e (between ++ rest)
  refine ⟨inner, between ++ rest, f, habove, hf, scope_of_holder ?_⟩
  rw [habove]
  rcases holder?_append inner e (between ++ rest) with ⟨g, hg, hfunction, -⟩ | heq
  · have hgown : g ∈ ownAround d := hsplit ▸ mem_append_left _ hg
    rw [not_function_of_mem_ownAround hgown] at hfunction
    cases hfunction
  · rw [heq, hf]

/-- The nodes of the steps inside a home are those around the site up to it. -/
theorem map_snd_stepsInside (home : Node) :
    (stepsInside s home).map Prod.snd = s.above.takeWhile (· ≠ home) := by
  have hsteps : s.steps.map Prod.snd = s.above :=
    map_snd_zip (by exact Nat.le_succ _)
  conv => rhs; rw [← hsteps, takeWhile_map]
  rfl

theorem split_of_stepsInside {home : Node} {step : Node × Node} (hhome : home ∈ s.above)
    (hstep : step ∈ stepsInside s home) : ∃ inner between outer,
      s.above = inner ++ step.2 :: (between ++ home :: outer) := by
  have hmem : step.2 ∈ s.above.takeWhile (· ≠ home) := by
    rw [← map_snd_stepsInside]
    exact mem_map_of_mem hstep
  obtain ⟨nearer, outer, habove, hnot⟩ := eq_append_cons_of_mem hhome
  have htake : s.above.takeWhile (· ≠ home) = nearer := by
    rw [habove, takeWhile_append_of_pos, takeWhile_cons_of_neg, append_nil]
    · simp
    · intro n hn
      simpa using fun heq : n = home => hnot (heq ▸ hn)
  obtain ⟨inner, between, hnearer⟩ := append_of_mem (htake ▸ hmem)
  exact ⟨inner, between, outer, by rw [habove, hnearer, append_assoc, cons_append]⟩

/-- **The range of the innermost function of the outer nodes** around a site holds all that stands
nearer. -/
theorem range_of_holder (hplaced : tree.Placed) (hs : s ∈ tree.sites) {inner outer : List Node}
    {f : Node} (habove : s.above = inner ++ outer) (hf : holder? outer = some f) :
    ∀ c ∈ s.node :: inner, f.start ≤ c.start ∧ c.start ≤ c.stop ∧ c.stop ≤ f.stop := by
  intro c hc
  obtain ⟨between, rest, rfl⟩ := append_of_mem (mem_of_holder? hf)
  rw [← append_assoc] at habove
  obtain ⟨hsite, hinside⟩ := mem_sites_of_split hs habove
  have hfplaced : f.Placed :=
    (hplaced.range_of_mem (Node.node_mem_nodes_of_mem_sitesBelow hsite)).1
  have hnearer : c ∈ s.node :: (inner ++ between) := mem_append_left between hc
  obtain ⟨hc, hstart, hstop⟩ := hfplaced.range_of_mem (hinside c hnearer)
  exact ⟨hstart, hc.start_le_stop, hstop⟩

/-- **A declarator whose home is nearer** has the place in its scope, and if its scope is another
one, it is the smaller one. -/
theorem scope_lt_of_nearer (hregular : Regular tree) (hplaced : tree.Placed) (hs : s ∈ tree.sites)
    (hd : d ∈ tree.sites) (hk : k ∈ tree.sites) {home : Node} {step : Node × Node}
    (hdhome : home? d = some home) (hhome : home ∈ s.above) (hkhome : home? k = some step.2)
    (hstep : step ∈ stepsInside s home) :
    (k.scope.1 ≤ s.node.start ∧ s.node.start ≤ k.scope.2) ∧
      (k.scope ≠ d.scope → k.scope.2 - k.scope.1 < d.scope.2 - d.scope.1) := by
  obtain ⟨inner, between, outer, habove⟩ := split_of_stepsInside hhome hstep
  obtain ⟨dinner, douter, g, hdabove, hg, hdscope⟩ := scope_of_home hdhome
  obtain ⟨kinner, kouter, f, hkabove, hf, hkscope⟩ := scope_of_home hkhome
  -- the homes are the same places, seen from the declarators and from the use
  have hsite : ⟨step.2, between ++ home :: outer⟩ ∈ tree.sites := (mem_sites_of_split hs habove).1
  obtain rfl : kouter = between ++ home :: outer := congrArg Site.above
    (eq_of_node_eq hregular (mem_sites_of_split hk hkabove).1 hsite rfl)
  obtain rfl : douter = outer := congrArg Site.above
    (eq_of_node_eq hregular (mem_sites_of_split hd hdabove).1 (mem_sites_of_split hsite rfl).1 rfl)
  rw [hkscope, hdscope]
  constructor
  · obtain ⟨hstart, hle, hstop⟩ := range_of_holder hplaced hs habove hf s.node mem_cons_self
    exact ⟨hstart, Nat.le_trans hle hstop⟩
  · intro hne
    rcases holder?_append (step.2 :: between) home douter with ⟨f', hf', -, hholder⟩ | hholder
    · obtain rfl : f' = f := Option.some.inj (hholder.symm.trans hf)
      have hgabove : s.above = (inner ++ step.2 :: between) ++ home :: douter := by
        rw [habove, append_assoc, cons_append]
      obtain ⟨hstart, hle, hstop⟩ := range_of_holder hplaced hs hgabove hg f'
        (mem_cons_of_mem _ (mem_append_right _ hf'))
      have hends : ¬ (f'.start = g.start ∧ f'.stop = g.stop) := fun h => hne (Prod.ext h.1 h.2)
      omega
    · obtain rfl : f = g := Option.some.inj (hf.symm.trans (hholder.trans hg))
      exact absurd rfl hne

end Ranges

end RouteAtlas.Scope
