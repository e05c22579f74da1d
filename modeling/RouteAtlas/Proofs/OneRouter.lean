import Mathlib.Control.Basic
import RouteAtlas.Proofs.ChainLinks
import RouteAtlas.Proofs.FirstWins

/-!
# Files with one router

A file that imports the router class, makes one router and then only registers handlers on it. Its
handlers may be any code that leaves the router alone. The six passes over such a file find the one
router with the items of all registrations in source order, and its inventory lists them.
-/

open List Option

namespace RouteAtlas.Inventory

open Source Node Reading Findings

/-- A file under analysis with the names that it imports. -/
def readingOf (file : File) : Reading := .ofFile file (bindingsOf file.text file.tree)

theorem tree_readingOf (file : File) : (readingOf file).file.tree = file.tree := rfl

/-! ## The shape of the file -/

/-- A declaration such as `const app = new Hono()`. -/
structure RouterDeclaration (source var : String) where
  node : Node
  declarator : Node
  name : Node
  value : Node
  made : Node
  is_declaration : node.is .lexicalDeclaration
  node_named : node.named = [declarator]
  is_declarator : declarator.is .variableDeclarator
  name_eq : declarator.child? .name = some name
  name_text : name.text source = var
  value_eq : declarator.child? .value = some value
  is_new : value.is .newExpression
  made_eq : value.target? = some made
  is_class : made.is .identifier
  class_text : made.text source = "Hono"
  others_inert : ∀ c ∈ declarator.named, c = value ∨ Inert c
  parts_inert : ∀ c ∈ value.named, Inert c

/-- A statement that calls a method of a variable, such as `app.get(path, handler)`. -/
structure MethodCall (r : Reading) (var : String) where
  node : Node
  call : Node
  member : Node
  object : Node
  property : Node
  arguments : Node
  is_statement : node.is .expressionStatement
  node_named : node.named = [call]
  is_call : call.is .callExpression
  member_eq : call.child? .function = some member
  is_member : member.is .memberExpression
  object_eq : member.child? .object = some object
  is_object : object.is .identifier
  object_text : r.textOf object = var
  property_eq : member.child? .property = some property
  arguments_eq : call.child? .arguments = some arguments
  arguments_inactive : arguments.kindIs isActive = false
  others_inert : ∀ c ∈ call.named, c = arguments ∨ Inert c
  comments_inert : ∀ c ∈ arguments.named, c.is .comment → Inert c

/-- A statement that registers handlers on the router of a variable; the handlers leave the router
alone. -/
structure Registering (r : Reading) (var : String) extends MethodCall r var where
  registration : Registration
  registers : Registers r (r.textOf property) call.arguments registration
  quiet : ∀ h ∈ registration.handlers, Quiet r var h

/-- A file that imports the router class, declares one router and registers handlers on it. Comments
may stand anywhere between the statements. -/
structure OneRouter (file : File) (var : String) where
  imported : Node
  specifier : String
  declaration : RouterDeclaration file.text var
  statements : List (Registering (readingOf file) var)
  is_program : file.tree.is .program
  placed : file.tree.Placed
  named_eq : file.tree.named.filter (!·.is .comment) =
    imported :: declaration.node :: statements.map (·.node)
  comments_inert : ∀ c ∈ file.tree.named, c.is .comment → Inert c
  is_import : imported.is .importStatement
  import_inert : Inert imported
  import_binds : importBindings file.text imported = [⟨"Hono", "Hono", specifier, .named⟩]
  is_framework : isFrameworkModule specifier

/-! ## Calls of a method -/

namespace MethodCall

variable {r : Reading} {var : String} (c : MethodCall r var)

theorem target?_call : c.call.target? = some c.member := by
  rw [target?, c.member_eq]
  rfl

theorem isAccess_member : isAccess c.member := isOneOf_of_is c.is_member _

theorem call_mem_nodes : c.call ∈ c.node.nodes :=
  mem_nodes_of_named (by rw [c.node_named]; exact .head [])

theorem argument_mem_nodes {a : Node} (ha : a ∈ c.arguments.named) : a ∈ c.node.nodes :=
  mem_nodes_trans c.call_mem_nodes (mem_nodes_trans (mem_nodes_of_child? c.arguments_eq)
    (mem_nodes_of_named ha))

theorem object_mem_nodes : c.object ∈ c.node.nodes :=
  mem_nodes_trans c.call_mem_nodes (mem_nodes_trans (mem_nodes_of_child? c.member_eq)
    (mem_nodes_of_child? c.object_eq))

theorem linkStep?_call : linkStep? c.call = some c.object := by
  simp [linkStep?, receiver?, c.is_call, c.target?_call, c.isAccess_member, c.object_eq]

theorem chainRoot_call : chainRoot c.call = c.object := by
  rw [chainRoot_eq c.linkStep?_call]
  refine follow_eq_self ?_
  simp [rootStep?, linkStep?, isAccess, isWrapper, isOneOf, is_of_is c.is_object]

theorem chainCalls_call : chainCalls c.call = [c.call] := by
  have hobject : chainCalls c.object = [] := chainCalls_of_stop (is_of_ne c.is_object _ (by decide))
    (by simp [isWrapper, isOneOf, is_of_is c.is_object])
  rw [chainCalls_eq, c.linkStep?_call, map_some, hobject]
  simp [isMemberCall, c.is_call, c.target?_call, c.isAccess_member]

theorem roleOf_call {args : List Node} {reg : Registration}
    (h : Registers r (r.textOf c.property) args reg) :
    r.roleOf c.call = .route (r.textOf c.property) := by
  have hparts : c.member.memberParts? r.source = some (c.object, r.textOf c.property) := by
    simp [memberParts?, c.is_member, c.object_eq, c.property_eq, textOf]
  obtain ⟨hroute, hbase, hknown⟩ := h.name_known
  rw [roleOf, RouterNames.roleOf, is_of_ne c.is_call .newExpression (by decide), c.is_call]
  simp only [Bool.false_eq_true, if_false, if_true, callRole, c.target?_call, hparts,
    is_of_ne c.is_member .subscriptExpression (by decide), hroute, hbase, hknown]

end MethodCall

/-! ## The file -/

namespace OneRouter

variable {file : File} {var : String} (p : OneRouter file var)
variable {st : Registering (readingOf file) var}

include p

def items : List Item := p.statements.flatMap (·.registration.items)

/-! ### Children of the file -/

/-- What comments do not contribute to, the other children make up. -/
theorem flatMap_named {β : Type} (f : Node → List β) (hf : ∀ c ∈ file.tree.named,
    c.is .comment → f c = []) :
    file.tree.named.flatMap f =
      f p.imported ++ (f p.declaration.node ++ p.statements.flatMap fun st => f st.node) := by
  have hdrop : ∀ ns : List Node, (∀ c ∈ ns, c.is .comment → f c = []) →
      ns.flatMap f = (ns.filter (!·.is .comment)).flatMap f := by
    intro ns hns
    induction ns with
    | nil => rfl
    | cons n ns ih =>
      rw [flatMap_cons, ih fun c hc => hns c (mem_cons_of_mem n hc)]
      by_cases hn : n.is .comment
      · simp [hn, hns n mem_cons_self hn]
      · simp [hn]
  rw [hdrop _ hf, p.named_eq, flatMap_cons, flatMap_cons, flatMap_map]

theorem mem_named {n : Node} (h : n = p.imported ∨ n = p.declaration.node ∨
    ∃ st ∈ p.statements, n = st.node) : n ∈ file.tree.named := by
  have hmem : n ∈ file.tree.named.filter (!·.is .comment) := by
    rw [p.named_eq]
    rcases h with rfl | rfl | ⟨st, hst, rfl⟩
    · simp
    · simp
    · exact mem_cons_of_mem _ (mem_cons_of_mem _ (List.mem_map_of_mem hst))
  exact (mem_filter.mp hmem).1

theorem bindings_eq : bindingsOf file.text file.tree = [⟨"Hono", "Hono", p.specifier, .named⟩] := by
  have hrequire : requireBindings file.text p.declaration.declarator = [] := by
    rw [requireBindings, p.declaration.name_eq, p.declaration.value_eq]
    simp only [requiredModule?, is_of_ne p.declaration.is_new .callExpression (by decide)]
    rfl
  rw [bindingsOf, p.flatMap_named]
  · have hstatements : ∀ st ∈ p.statements, st.node.kind? = some .expressionStatement :=
      fun st _ => kind?_of_is st.is_statement
    simp +contextual [is, isOneOf, kind?_of_is p.is_import,
      kind?_of_is p.declaration.is_declaration, p.declaration.node_named, hrequire,
      p.import_binds, hstatements]
  · intro c _ hc
    simp [isOneOf, is_of_is hc]

theorem onlyFramework : OnlyFramework (readingOf file).bindings := by
  have hbindings : (readingOf file).bindings = [_] := p.bindings_eq
  rw [OnlyFramework, hbindings, forall_mem_singleton]
  exact ⟨p.is_framework, nofun⟩

theorem names_eq : (readingOf file).names = ⟨["Hono"], []⟩ := by
  rw [readingOf, ofFile, p.bindings_eq]
  simp [RouterNames.ofBindings, p.is_framework, routerClasses]

/-! ### Active sites -/

theorem activeSites_tree : activeSites [] file.tree = activeSites [file.tree] p.declaration.node ++
      p.statements.flatMap fun st => activeSites [file.tree] st.node := by
  have hinactive : file.tree.kindIs isActive = false := kindIs_of_is p.is_program _
  rw [activeSites_eq, hinactive, p.flatMap_named _ fun c hc hcomment =>
    activeSites_inert (p.comments_inert c hc hcomment) _, activeSites_inert p.import_inert]
  simp

def offset : Nat := p.declaration.value.start

def site : Site := ⟨p.declaration.declarator, [p.declaration.node, file.tree]⟩

theorem activeSites_declaration : ∃ rest : List Site,
    activeSites [file.tree] p.declaration.node = p.site :: rest ∧
    ∀ s ∈ rest, s.node = p.declaration.value := by
  have hnode : p.declaration.node.kindIs isActive = false :=
    kindIs_of_is p.declaration.is_declaration _
  have hdeclarator : p.declaration.declarator.kindIs isActive :=
    kindIs_of_is p.declaration.is_declarator _
  refine ⟨_, activeSites_around hnode p.declaration.node_named hdeclarator _, ?_⟩
  intro s hs
  obtain ⟨c, hc, hs⟩ := mem_flatMap.mp hs
  rcases p.declaration.others_inert c hc with rfl | hinert
  · rw [activeSites_eq, flatMap_eq_nil_iff.mpr fun d hd =>
      activeSites_inert (p.declaration.parts_inert d hd) _] at hs
    split at hs
    · rw [mem_singleton.mp hs]
    · cases hs
  · rw [activeSites_inert hinert] at hs
    cases hs

/-- Statements lie behind the declaration, so nothing in them starts where the router is made. -/
theorem statement_away (hst : st ∈ p.statements) : AwayFrom p.offset st.node := by
  have hdecl := p.mem_named (.inr (.inl rfl))
  have hstmt := p.mem_named (.inr (.inr ⟨st, hst, rfl⟩))
  -- the two are children of the file, in this order
  have hordered : p.declaration.node.stop ≤ st.node.start := by
    have hsub : (p.imported :: p.declaration.node :: p.statements.map (·.node)).Pairwise
        (·.stop ≤ ·.start) := by
      rw [← p.named_eq]
      exact (p.placed.ordered.sublist filter_sublist).sublist filter_sublist
    exact (pairwise_cons.mp (pairwise_cons.mp hsub).2).1 _ (List.mem_map_of_mem hst)
  have hdeclPlaced := (p.placed.range_of_mem (mem_nodes_of_named hdecl)).1
  have hstmtPlaced := (p.placed.range_of_mem (mem_nodes_of_named hstmt)).1
  -- the expression that makes the router is not empty, since the class in it has a name
  have hdeclarator : p.declaration.declarator ∈ p.declaration.node.children :=
    mem_children_of_named (by rw [p.declaration.node_named]; exact mem_cons_self)
  have hvalue : p.declaration.value ∈ p.declaration.node.nodes :=
    mem_nodes_trans (mem_nodes_of_child hdeclarator) (mem_nodes_of_child? p.declaration.value_eq)
  obtain ⟨hvaluePlaced, -, hvalueStop⟩ := hdeclPlaced.range_of_mem hvalue
  obtain ⟨-, hmadeStart, hmadeStop⟩ := hvaluePlaced.range_of_mem
    (mem_nodes_of_child (mem_children_of_target? p.declaration.made_eq))
  have hmade : p.declaration.made.start < p.declaration.made.stop :=
    start_lt_stop_of_text_ne (by rw [p.declaration.class_text]; decide)
  intro m hm
  obtain ⟨-, hmStart, -⟩ := hstmtPlaced.range_of_mem hm
  unfold offset
  omega

theorem activeSites_statement (hst : st ∈ p.statements) :
    ∃ rest : List Site, activeSites [file.tree] st.node = ⟨st.call, [st.node, file.tree]⟩ :: rest ∧
    ∀ s ∈ rest, Quiet (readingOf file) var s.node ∧ AwayFrom p.offset s.node := by
  have hnode : st.node.kindIs isActive = false := kindIs_of_is st.is_statement _
  have hcall : st.call.kindIs isActive := kindIs_of_is st.is_call _
  refine ⟨_, activeSites_around hnode st.node_named hcall _, ?_⟩
  intro s hs
  obtain ⟨c, hc, hs⟩ := mem_flatMap.mp hs
  rcases st.others_inert c hc with rfl | hinert
  · rw [activeSites_eq, st.arguments_inactive] at hs
    obtain ⟨a, ha, hs⟩ := mem_flatMap.mp hs
    have hin := node_mem_nodes_of_mem_sitesBelow (mem_filter.mp hs).1
    by_cases hcomment : a.is .comment
    · rw [activeSites_inert (st.comments_inert a ha hcomment)] at hs
      cases hs
    have harg : a ∈ st.call.arguments := by
      rw [arguments, st.arguments_eq]
      exact mem_filter.mpr ⟨ha, by simpa using hcomment⟩
    rcases st.registers.args_cases a harg with hinert | hhandler
    · rw [activeSites_inert hinert] at hs
      cases hs
    · refine ⟨(st.quiet a hhandler).of_mem hin, (p.statement_away hst).of_mem ?_⟩
      exact mem_nodes_trans (st.argument_mem_nodes ha) hin
  · rw [activeSites_inert hinert] at hs
    cases hs

/-- An active site of the statements is the call of one of them, or is quiet. -/
theorem statement_site_cases {s : Site}
    (hs : s ∈ p.statements.flatMap fun st => activeSites [file.tree] st.node) :
    (∃ st ∈ p.statements, s = ⟨st.call, [st.node, file.tree]⟩) ∨
      Quiet (readingOf file) var s.node ∧ AwayFrom p.offset s.node := by
  obtain ⟨st, hst, hs⟩ := mem_flatMap.mp hs
  obtain ⟨inner, hactive, hquiet⟩ := p.activeSites_statement hst
  rw [hactive] at hs
  exact (mem_cons.mp hs).imp (fun h => ⟨st, hst, h⟩) (hquiet s)

/-! ### The passes -/

variable (entries : List Entry)

def router : Router :=
  let at_ := p.declaration.declarator.position file.text
  ⟨⟨file.path, p.declaration.declarator.start⟩, var, at_.line + 1, at_.character + 1, false,
    entries⟩

/-- The findings that know the router with some entries, and nothing else. -/
def findings : Findings :=
  { routers := [p.router entries]
    names := [⟨var, (file.tree.start, file.tree.stop), ⟨0, ""⟩⟩]
    owners := [(p.offset, 0)] }

theorem findings_knowsOnly :
    KnowsOnly (p.findings entries) var (file.tree.start, file.tree.stop) p.offset :=
  ⟨rfl, rfl, rfl⟩

theorem site_scope : p.site.scope = (file.tree.start, file.tree.stop) := by
  simp [site, Site.scope, kindIs_of_is p.declaration.is_declaration,
    kindIs_of_is p.is_program, Kind.isFunction, Kind.isFunctionDeclaration,
    Kind.isFunctionValue]

theorem value_unwrapped : p.declaration.value.unwrapped = p.declaration.value :=
  unwrapped_of_kind p.declaration.is_new (by decide)

theorem chainRoot_value : chainRoot p.declaration.value = p.declaration.value := by
  refine follow_eq_self ?_
  simp [rootStep?, linkStep?, isAccess, isWrapper, isOneOf, is_of_is p.declaration.is_new]

theorem chainBase_value : (readingOf file).chainBase p.declaration.value = "" := by
  rw [chainBase, chainCalls_of_stop (is_of_ne p.declaration.is_new _ (by decide))
    (by simp [isWrapper, isOneOf, is_of_is p.declaration.is_new])]
  rfl

theorem roleOf_value : (readingOf file).roleOf p.declaration.value = .construction := by
  have hmakes : (readingOf file).names.makesRouter file.text p.declaration.value := by
    rw [RouterNames.makesRouter, p.declaration.made_eq]
    simp [p.declaration.is_class, p.names_eq, p.declaration.class_text]
  rw [roleOf, RouterNames.roleOf, if_pos p.declaration.is_new]
  exact if_pos hmakes

theorem constructionAt?_site :
    (readingOf file).constructionAt? p.site = some ⟨⟨p.declaration.value, []⟩, some p.site⟩ := by
  have hsite : p.site.node.is .variableDeclarator := p.declaration.is_declarator
  have hvalue : p.site.node.child? .value = some p.declaration.value := p.declaration.value_eq
  simp [constructionAt?, hsite, hvalue, p.value_unwrapped, p.chainRoot_value,
    p.declaration.is_new, p.roleOf_value]

theorem withConstruction_site : ({} : Findings).withConstruction (readingOf file)
    ⟨⟨p.declaration.value, []⟩, some p.site⟩ = p.findings [] := by
  have hname : p.site.node.child? .name = some p.declaration.name := p.declaration.name_eq
  have hvalue : p.site.node.child? .value = some p.declaration.value := p.declaration.value_eq
  have htext : (readingOf file).textOf p.declaration.name = var := p.declaration.name_text
  simp only [Findings.withConstruction, hname, hvalue, map_some, htext, p.value_unwrapped,
    p.chainBase_value, Findings.bind,
    p.site_scope]
  rfl

/-- **The first pass finds the router.** -/
theorem constructions_eq : (readingOf file).constructions = p.findings [] := by
  obtain ⟨rest, hdecl, hrest⟩ := p.activeSites_declaration
  have hstatements : ∀ s ∈ p.statements.flatMap fun st => activeSites [file.tree] st.node,
      (readingOf file).constructionAt? s = none := by
    intro s hs
    obtain ⟨st, -, rfl⟩ | ⟨hquiet, -⟩ := p.statement_site_cases hs
    · simp [constructionAt?, is_of_is st.is_call]
    · exact hquiet.constructionAt?
  -- the expression itself is known from the declarator
  have hknown : ∀ c ∈ rest.filterMap (readingOf file).constructionAt?,
      (p.findings []).withConstruction (readingOf file) c = p.findings [] := by
    intro c hc
    obtain ⟨s, hs, hc⟩ := mem_filterMap.mp hc
    have hnew : s.node.is .newExpression := hrest s hs ▸ p.declaration.is_new
    have hrole : (readingOf file).roleOf s.node = .construction := hrest s hs ▸ p.roleOf_value
    simp only [constructionAt?, is_of_ne hnew .variableDeclarator (by decide), hnew,
      hrole, Bool.false_eq_true, if_false, beq_self_eq_true, Bool.and_self, if_true,
      Option.some.injEq] at hc
    subst hc
    have howner : ((p.findings []).owner? s.node.start).isSome := by
      simp [hrest s hs, findings, owner?, offset]
    exact if_pos howner
  rw [constructions, tree_readingOf, filterMap_sites fun s h => constructionAt?_inactive h,
    p.activeSites_tree, hdecl, filterMap_append,
    filterMap_cons_some (f := fun s => (readingOf file).constructionAt? s)
      p.constructionAt?_site, filterMap_eq_nil_iff.mpr hstatements,
    append_nil, foldl_cons, p.withConstruction_site]
  exact foldl_eq_self hknown

/-- **No function makes a router.** -/
theorem withFunctions_eq : (p.findings []).withFunctions (readingOf file) = p.findings [] := by
  obtain ⟨rest, hdecl, hrest⟩ := p.activeSites_declaration
  refine foldl_eq_self fun f hf => ?_
  rw [tree_readingOf, filterMap_sites (fun s h => functionAt?_inactive h), p.activeSites_tree] at hf
  obtain ⟨s, hs, hf⟩ := mem_filterMap.mp hf
  rcases mem_append.mp hs with hs | hs
  · rw [hdecl] at hs
    have hvalue := kind?_of_is p.declaration.is_new
    rcases mem_cons.mp hs with rfl | hs
    · simp [functionAt?, site, kindIs, is, Kind.isFunctionDeclaration,
        kind?_of_is p.declaration.is_declarator,
        p.declaration.value_eq, hvalue, Kind.isFunctionValue] at hf
    · simp [functionAt?, kindIs, is, isOneOf, hrest s hs, hvalue, Kind.isFunctionDeclaration] at hf
  · obtain ⟨st, -, rfl⟩ | ⟨hquiet, haway⟩ := p.statement_site_cases hs
    · simp [functionAt?, kindIs, is, isOneOf, kind?_of_is st.is_call,
        Kind.isFunctionDeclaration] at hf
    · exact (p.findings_knowsOnly []).withFunction_quiet hquiet haway hf

/-- **No declaration gives the router a further name.** -/
theorem withAliases_eq : (p.findings []).withAliases (readingOf file) = p.findings [] := by
  obtain ⟨rest, hdecl, hrest⟩ := p.activeSites_declaration
  refine foldl_eq_self fun s hs => ?_
  rw [tree_readingOf, filter_sites (fun s h => is_of_inactive h rfl), p.activeSites_tree] at hs
  obtain ⟨hs, his⟩ := mem_filter.mp hs
  rcases mem_append.mp hs with hs | hs
  · rw [hdecl] at hs
    rcases mem_cons.mp hs with rfl | hs
    · simp [withAlias, site, p.declaration.name_eq, p.declaration.value_eq,
        p.value_unwrapped, p.chainRoot_value,
        is_of_ne p.declaration.is_new .identifier (by decide),
        is_of_ne p.declaration.is_new .callExpression (by decide)]
    · rw [hrest s hs, is_of_ne p.declaration.is_new _ (by decide)] at his
      cases his
  · obtain ⟨st, -, rfl⟩ | ⟨hquiet, haway⟩ := p.statement_site_cases hs
    · rw [is_of_ne st.is_call _ (by decide)] at his
      cases his
    · exact (p.findings_knowsOnly []).withAlias_quiet p.onlyFramework hquiet haway

/-! ### Registrations -/

/-- **A statement adds the items of its registration to the router.** -/
theorem withChain_statement (hst : st ∈ p.statements) (entries : List Entry) :
    (p.findings entries).withChain (readingOf file) st.call =
      p.findings (entries ++ entriesOf (readingOf file) st.registration.items) := by
  have hrange := (p.placed.range_of_mem (mem_nodes_trans
    (mem_nodes_of_named (p.mem_named (.inr (.inr ⟨st, hst, rfl⟩)))) st.object_mem_nodes))
  have hlookup : (p.findings entries).lookup? var st.object.start = some ⟨0, ""⟩ :=
    (p.findings_knowsOnly entries).lookup?_var hrange.2.1
      (Nat.le_trans hrange.1.start_le_stop hrange.2.2)
  have hstart : (p.findings entries).chainStart? (readingOf file) st.call = some ⟨0, ""⟩ := by
    simp [chainStart?, st.chainRoot_call, st.is_object, st.object_text, hlookup]
  have houtcome : (readingOf file).callsOutcome (p.findings entries) "" [st.call] =
      ⟨entriesOf (readingOf file) st.registration.items, []⟩ := by
    simp [callsOutcome, callOutcome, st.roleOf_call st.registers,
      routeOutcome_eq st.registers rfl, Outcome.append]
  simp only [withChain, hstart, st.chainCalls_call, houtcome]
  rfl

theorem foldl_statements (q : Site → Bool)
    (hq : ∀ s, q s = (s.node.is .callExpression && isOutermostCall s)) :
    ∀ (sts : List (Registering (readingOf file) var)), (∀ st ∈ sts, st ∈ p.statements) →
    ∀ entries : List Entry, ((sts.flatMap fun st => activeSites [file.tree] st.node).filter q).foldl
        (fun x s => x.withChain (readingOf file) s.node) (p.findings entries) =
      p.findings (entries ++ entriesOf (readingOf file) (sts.flatMap (·.registration.items)))
  | [], _, entries => by simp [entriesOf]
  | st :: sts, hsts, entries => by
    have hst := hsts st mem_cons_self
    obtain ⟨rest, hactive, hquiet⟩ := p.activeSites_statement hst
    have hcall : q ⟨st.call, [st.node, file.tree]⟩ := by
      have houter : isOutermostCall ⟨st.call, [st.node, file.tree]⟩ := by
        simp [isOutermostCall, isAccess, isOneOf, is_of_is st.is_statement]
      rw [hq, houter, Bool.and_true]
      exact st.is_call
    have hrest : (rest.filter q).foldl (fun x s => x.withChain (readingOf file) s.node)
        (p.findings (entries ++ entriesOf (readingOf file) st.registration.items)) =
        p.findings (entries ++ entriesOf (readingOf file) st.registration.items) :=
      foldl_eq_self fun s hs =>
        have hs := hquiet s (mem_filter.mp hs).1
        (p.findings_knowsOnly _).withChain_quiet hs.1 hs.2
    rw [flatMap_cons, hactive, filter_append, filter_cons_of_pos hcall,
      cons_append, foldl_cons, p.withChain_statement hst, foldl_append, hrest,
      foldl_statements q hq sts fun st' h => hsts st' (mem_cons_of_mem st h),
      flatMap_cons, entriesOf_append, append_assoc]

/-- **The registrations add the items of all statements in source order.** -/
theorem withRegistrations_eq : (p.findings []).withRegistrations (readingOf file) =
    p.findings (entriesOf (readingOf file) p.items) := by
  obtain ⟨rest, hdecl, hrest⟩ := p.activeSites_declaration
  have hnone : (p.site :: rest).filter (fun s => s.node.is .callExpression && isOutermostCall s) =
      [] := by
    rw [filter_eq_nil_iff]
    intro s hs
    rcases mem_cons.mp hs with rfl | hs
    · have his : p.site.node.is .callExpression = false :=
        is_of_ne p.declaration.is_declarator _ (by decide)
      simp [his]
    · simp [hrest s hs, is_of_is p.declaration.is_new]
  have hinactive : ∀ s : Site, s.node.kindIs isActive = false →
      (s.node.is .callExpression && isOutermostCall s) = false := fun s h => by
    rw [is_of_inactive h rfl, Bool.false_and]
  rw [withRegistrations, tree_readingOf, filter_sites hinactive, p.activeSites_tree, hdecl,
    filter_append, hnone, nil_append,
    p.foldl_statements _ (fun _ => rfl) p.statements (fun _ h => h) []]
  rfl

/-- **The file gives nothing out.** -/
theorem withExports_eq :
    (p.findings entries).withExports (readingOf file) = p.findings entries := by
  refine foldl_eq_self fun n hn => ?_
  by_cases hcomment : n.is .comment
  · simp [is_of_is hcomment]
  have hmem : n ∈ file.tree.named.filter (!·.is .comment) :=
    mem_filter.mpr ⟨hn, by simpa using hcomment⟩
  rw [p.named_eq] at hmem
  rcases mem_cons.mp hmem with rfl | hmem
  · simp [is_of_is p.is_import]
  rcases mem_cons.mp hmem with rfl | hmem
  · simp [is_of_is p.declaration.is_declaration]
  obtain ⟨st, -, rfl⟩ := List.mem_map.mp hmem
  have hassign : (p.findings entries).withAssignment (readingOf file) st.node =
      p.findings entries := by
    rw [withAssignment, st.node_named]
    simp [is_of_is st.is_call]
  rw [is_of_ne st.is_statement .exportStatement (by decide), st.is_statement]
  exact hassign

/-- **What the file contributes**: the router with the items of all statements. -/
theorem contributionOf_eq : contributionOf file =
    ⟨file.path, file.relPath, file.version, [p.router (entriesOf (readingOf file) p.items)], [],
      bindingsOf file.text file.tree, []⟩ := by
  have hfindings : ((readingOf file).routers.withRegistrations (readingOf file)).withExports
      (readingOf file) = p.findings (entriesOf (readingOf file) p.items) := by
    rw [Reading.routers, p.constructions_eq, p.withFunctions_eq, p.withAliases_eq,
      p.withRegistrations_eq, p.withExports_eq]
  unfold contributionOf contributionWith
  simp only
  rw [← readingOf, hfindings]
  rfl

end OneRouter

/-! ## The inventory of one router -/

theorem Item.draft_resource (r : Reading) (i : Item) (order : Nat) :
    (i.draft r).resource "" order = i.resource r order := by
  simp [Draft.resource, draft, resource]

theorem foldl_visitEntry_drafts {ι : Type} {net : Network} {inside : List RouterKey}
    {relPath : String} (draft : ι → Draft) : ∀ (items : List ι) (w : Walk),
    (items.map fun i => LinkedEntry.resource (draft i)).foldl (visitEntry net inside "" relPath) w =
      { w with resources := w.resources ++ items.mapIdx fun order i =>
          (draft i).resource "" (w.resources.length + order) }
  | [], w => by simp
  | i :: items, w => by
    rw [map_cons, foldl_cons, visitEntry, foldl_visitEntry_drafts draft items]
    simp [Walk.emit, Nat.add_assoc, Nat.add_comm 1]

theorem walkAll_drafts {ι : Type} (t : LinkedRouter) (items : List ι) (draft : ι → Draft)
    (hfactory : t.fromFactory = false)
    (hentries : t.entries = items.map fun i => .resource (draft i)) :
    (walkAll [t]).resources = items.mapIdx (fun order i => (draft i).resource "" order) ∧
      (walkAll [t]).errors = [] := by
  have hmounted : Network.isMounted [t] t.key = false := by
    simp [Network.isMounted, hentries, LinkedEntry.target?]
  have hroots : Network.roots [t] = [t.key] := by
    simp [Network.roots, LinkedRouter.isValid, hfactory, hmounted]
  have hrouter : Network.router? [t] t.key = some t := by
    simp [Network.router?, RouterKey.same_refl]
  have hwalk : walkAll [t] = visit [t] [t.key] "" t {} := by
    simp [walkAll, hroots, hrouter]
  rw [hwalk, visit_eq, hentries, foldl_visitEntry_drafts draft]
  simp

/-- Two resources stand for the same registration: routes for the same requests, or middleware that
is registered at one place for the same requests. -/
def Resource.sameRegistration (a b : Resource) : Bool :=
  a.kind == b.kind && a.method == b.method && a.path == b.path && (a.kind == .route || a.id == b.id)

theorem Resource.sameRegistration_eq (a b : Resource) :
    a.sameRegistration b = (a.identity == b.identity) := by
  rw [Bool.eq_iff_iff, beq_iff_eq]
  cases hb : b.kind with
  | route =>
    rw [identity_eq_route_iff hb]
    cases ha : a.kind <;> simp [sameRegistration, ha, hb]
  | middleware =>
    rw [identity_eq_middleware_iff hb]
    cases ha : a.kind <;> simp [sameRegistration, ha, hb, and_comm]

def inventoryOf {σ : Type} (root : Path) (file : File)
    (resolve : String → Path → StateM σ (Option Path)) (s : σ) : Analysis :=
  (((({ root } : Graph).replace (contributionOf file)).analyze resolve).run s).1

/-- **The inventory of a file with one router** has no errors and lists the items of the
registrations in source order, each numbered by its position; of the items that stand for the same
registration the first one stays. -/
theorem analyze_lists_registrations {file : File} {var : String} (p : OneRouter file var)
    (root : Path) {σ : Type} (resolve : String → Path → StateM σ (Option Path)) (s : σ) :
    (inventoryOf root file resolve s).errors = [] ∧ (inventoryOf root file resolve s).resources =
        (p.items.mapIdx fun order i => i.resource (readingOf file) order).eraseDupsBy
          Resource.sameRegistration := by
  have hcontributions : (({ root } : Graph).replace (contributionOf file)).contributions =
      [contributionOf file] := rfl
  have hnetwork : (((({ root } : Graph).replace (contributionOf file)).network resolve).run s).1 =
      [⟨⟨file.path, p.declaration.declarator.start⟩, file.relPath, false,
        p.items.map fun i => .resource (i.draft (readingOf file))⟩] := by
    rw [Graph.network, Graph.keyedRouters, hcontributions, p.contributionOf_eq]
    exact congrArg (fun es : List LinkedEntry × σ => [LinkedRouter.mk _ file.relPath false es.1])
      (Graph.run_mapM_linkEntry _ file.path s p.items)
  obtain ⟨hresources, herrors⟩ := walkAll_drafts
    ⟨⟨file.path, p.declaration.declarator.start⟩, file.relPath, false,
      p.items.map fun i => .resource (i.draft (readingOf file))⟩
    p.items (·.draft (readingOf file)) rfl rfl
  have hnone : (contributionOf file).errors = [] := by rw [p.contributionOf_eq]
  have hrun : inventoryOf root file resolve s = Graph.analysisOf
      (({ root } : Graph).replace (contributionOf file))
      (((({ root } : Graph).replace (contributionOf file)).network resolve).run s).1 := rfl
  rw [hrun, hnetwork]
  constructor
  · simp only [Graph.analysisOf, hcontributions, flatMap_singleton, hnone, herrors, append_nil]
  · have hsame : Resource.sameRegistration = fun a b => a.identity == b.identity := by
      funext a b
      exact a.sameRegistration_eq b
    have hall : ∀ rs : List Resource, rs.filter
        (fun r => !([] : List (ResourceKind × String × String × String)).contains r.identity) =
          rs :=
      fun rs => filter_eq_self.mpr fun _ _ => rfl
    have hextras : (({ root } : Graph).replace (contributionOf file)).extras = [] := rfl
    simp only [Graph.analysisOf, hresources, hextras, Graph.withExtras, Item.draft_resource]
    rw [hsame, firstOfEach_eq_eraseDupsBy, hall]

/-! ### A method that is named twice -/

namespace NamedTwice

open Node

def quoted (start stop : Nat) : Node :=
  spanning .string [token "'" start (start + 1), leaf .stringFragment (start + 1) (stop - 1),
    token "'" (stop - 1) stop]

def imported : Node :=
  spanning .importStatement [token "import" 0 6,
    spanning .importClause [spanning .namedImports [token "\x7b" 7 8,
      spanning .importSpecifier [(leaf .identifier 9 13).withRole .name], token "\x7d" 14 15]],
    token "from" 16 20, (quoted 21 27).withRole .source]

def value : Node :=
  (spanning .newExpression [token "new" 40 43, (leaf .identifier 44 48).withRole .constructor,
    (spanning .arguments [token "(" 48 49, token ")" 49 50]).withRole .arguments]).withRole .value

def declarator : Node :=
  spanning .variableDeclarator [(leaf .identifier 34 37).withRole .name, token "=" 38 39, value]

def member : Node :=
  (spanning .memberExpression [(leaf .identifier 51 54).withRole .object, token "." 54 55,
    (leaf .propertyIdentifier 55 57).withRole .property]).withRole .function

def methods : Node :=
  spanning .array [token "[" 58 59, quoted 59 64, token "," 64 65, quoted 65 70, token "]" 70 71]

def arguments : Node :=
  (spanning .arguments [token "(" 57 58, methods, token "," 71 72, quoted 72 76, token "," 76 77,
    leaf .identifier 77 78, token "," 78 79, leaf .identifier 79 80, token ")" 80 81]).withRole
    .arguments

def call : Node := spanning .callExpression [member, arguments]

def tree : Node :=
  spanning .program [imported,
    spanning .lexicalDeclaration [(token "const" 28 33).withRole .kind, declarator],
    spanning .expressionStatement [call]]

/-- A route for `GET` and once more for `GET`, behind middleware. -/
def text : String :=
  "import \x7b Hono \x7d from 'hono'\nconst app = new Hono()\napp.on(['get','GET'],'/x',m,h)"

def file : File := ⟨⟨"/p/a.ts"⟩, "a.ts", text, tree, .typescript, 1⟩

theorem file_eq : File.ofText ⟨"/p"⟩ ⟨"/p/a.ts"⟩ text .typescript 1 = file := by
  have htree : parse .typescript text = tree := by decide +kernel
  have hrel : Path.shownFrom ⟨"/p"⟩ ⟨"/p/a.ts"⟩ = "a.ts" := by decide +kernel
  rw [File.ofText, htree, hrel, file]

def declaration : RouterDeclaration text "app" :=
  ⟨spanning .lexicalDeclaration [(token "const" 28 33).withRole .kind, declarator], declarator,
    (leaf .identifier 34 37).withRole .name, value, (leaf .identifier 44 48).withRole .constructor,
    rfl, rfl, rfl, rfl, by decide +kernel, rfl, rfl, rfl, rfl, by decide +kernel,
    by decide +kernel, by decide +kernel⟩

theorem isLiteral {start stop : Nat} {value : String} (hinert : Inert (quoted start stop))
    (hsource : (quoted start stop).source text = String.ofList ('\'' :: (value.toList ++ ['\'']))) :
    IsLiteral (readingOf file) (quoted start stop) value :=
  ⟨rfl, hinert, '\'', by decide, hsource⟩

def statement : Registering (readingOf file) "app" where
  toMethodCall := ⟨spanning .expressionStatement [call], call, member,
    (leaf .identifier 51 54).withRole .object, (leaf .propertyIdentifier 55 57).withRole .property,
    arguments, rfl, rfl, rfl, rfl, rfl, rfl, rfl, by decide +kernel, rfl, rfl, rfl,
    by decide +kernel, by decide +kernel⟩
  registration := .routes ["GET", "GET"] ["/x"] [leaf .identifier 77 78, leaf .identifier 79 80]
  registers := by
    have hname : (readingOf file).textOf ((leaf .propertyIdentifier 55 57).withRole .property) =
        "on" := by decide +kernel
    have hlist : ∀ i ∈ [(quoted 59 64, "get"), (quoted 65 70, "GET")],
        IsLiteral (readingOf file) i.1 i.2 := by
      simp only [forall_mem_cons]
      exact ⟨isLiteral (by decide +kernel) (by decide +kernel),
        isLiteral (by decide +kernel) (by decide +kernel), nofun⟩
    have hmethods : AreLiterals (readingOf file) methods ["get", "GET"] :=
      .array rfl (by decide +kernel) rfl hlist
    have hpaths : AreLiterals (readingOf file) (quoted 72 76) ["/x"] :=
      .one (isLiteral (by decide +kernel) (by decide +kernel))
    have hknown : ["get", "GET"].filterMap Http.Method.parse? = ["GET", "GET"] := by
      decide +kernel
    rw [hname, ← hknown]
    exact .on hmethods hpaths (by rw [hknown]; nofun) nofun
  quiet := by decide +kernel

def oneRouter : OneRouter file "app" :=
  ⟨imported, "hono", declaration, [statement], rfl, by decide +kernel, rfl, by decide +kernel, rfl,
    by decide +kernel, by decide +kernel, by decide +kernel⟩

/-- What one handler adds to the router. -/
def entry (id : String) (kind : ResourceKind) (name : String) (column : Nat) : Entry :=
  .resource ⟨id, "GET", "/x", kind,
    ⟨name, .identifier, some "a.ts", some ⟨3, column, 3, column + 1⟩, none⟩⟩

theorem contribution_eq : contributionOf file = ⟨⟨"/p/a.ts"⟩, "a.ts", 1,
      [⟨⟨⟨"/p/a.ts"⟩, 34⟩, "app", 2, 7, false,
        let entries :=
          [entry "MIDDLEWARE:a.ts@77" .middleware "m" 27, entry "ROUTE:a.ts@79" .route "h" 29]
        entries ++ entries⟩],
      [], [⟨"Hono", "Hono", "hono", .named⟩], []⟩ := by
  decide +kernel

end NamedTwice

theorem analyze_lists_registrations_namedTwice :
    (inventoryOf ⟨"/p"⟩ NamedTwice.file unresolved ()).errors = [] ∧
      (inventoryOf ⟨"/p"⟩ NamedTwice.file unresolved ()).resources =
        (NamedTwice.oneRouter.items.mapIdx fun order i =>
          i.resource (readingOf NamedTwice.file) order).eraseDupsBy Resource.sameRegistration :=
  analyze_lists_registrations NamedTwice.oneRouter ⟨"/p"⟩ unresolved ()

def Resource.sameRoute (a b : Resource) : Bool :=
  a.kind == .route && b.kind == .route && a.method == b.method && a.path == b.path

/-- **Middleware that is registered twice for the same requests is listed once**, not only a route:
dropping no more than later routes would leave it twice. -/
theorem middleware_listed_once :
    ((inventoryOf ⟨"/p"⟩ (.ofText ⟨"/p"⟩ ⟨"/p/a.ts"⟩ NamedTwice.text .typescript 1) unresolved
      ()).resources.map fun r => (r.kind, r.method, r.path)) =
        [(.middleware, "GET", "/x"), (.route, "GET", "/x")] ∧
    (((NamedTwice.oneRouter.items.mapIdx fun order i =>
      i.resource (readingOf NamedTwice.file) order).eraseDupsBy Resource.sameRoute).map fun r =>
        (r.kind, r.method, r.path)) =
        [(.middleware, "GET", "/x"), (.route, "GET", "/x"), (.middleware, "GET", "/x")] := by
  constructor
  · rw [NamedTwice.file_eq, inventoryOf, NamedTwice.contribution_eq]
    decide +kernel
  · decide +kernel

end RouteAtlas.Inventory
