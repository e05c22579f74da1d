import RouteAtlas.Proofs.Declarations
import RouteAtlas.Proofs.Expansions
import RouteAtlas.Proofs.InnermostMatches
import RouteAtlas.Proofs.PlacedSources

/-!
# No name of a function is lost

The context of a function has one entry for each name that the function uses from outside, in the
order of the source, and so has the context of every function behind an entry, in whatever file.
This rests on two things. The function that is expanded is the one that was found: its bytes lead
back to it, since a tree is placed and no other function of the same bytes lies inside. And whatever
becomes of a name on its way through imports, re-exports and declarations, it gets an entry: where
it leads nowhere, the entry says so, or names the package.
-/

open List Option

namespace RouteAtlas.Expansion

open Files Source Inventory Modules Finder Node Expansion.Module

/-! ## From bytes to a node -/

mutual

theorem mem_nodes_of_mem_pathWithin : ∀ {tree n : Node} {start stop : Nat},
    n ∈ pathWithin start stop tree → n ∈ tree.nodes
  | .mk label role first last children, n, start, stop, h => by
    rcases mem_cons.mp h with rfl | h
    · exact mem_cons_self
    · exact mem_cons_of_mem _ (mem_nodes_of_mem_pathAmong h)

theorem mem_nodes_of_mem_pathAmong : ∀ {ns : List Node} {n : Node} {start stop : Nat},
    n ∈ pathAmong start stop ns → n ∈ nodesOfAll ns
  | m :: ns, n, start, stop, h => by
    rw [pathAmong] at h
    split at h
    · exact mem_append_right _ (mem_nodes_of_mem_pathAmong h)
    split at h
    · exact nomatch h
    · exact mem_append_left _ (mem_nodes_of_mem_pathWithin h)

end

mutual

/-- The way to the bytes of a node of a placed tree comes to the node and goes on below it. -/
theorem pathWithin_split : ∀ {tree n : Node}, tree.Placed → n ∈ tree.nodes → n.start < n.stop →
    ∃ above below, pathWithin n.start n.stop tree = above ++ n :: below ∧
      ∀ m ∈ below, m ∈ nodesOfAll n.children
  | .mk label role start stop children, n, h, hn, hlt => by
    rcases mem_cons.mp hn with rfl | hn
    · exact ⟨[], _, rfl, fun m hm => mem_nodes_of_mem_pathAmong hm⟩
    · obtain ⟨above, below, hpath, hbelow⟩ := pathAmong_split h hn hlt
      exact ⟨_ :: above, below, by rw [pathWithin, hpath]; rfl, hbelow⟩

theorem pathAmong_split : ∀ {ns : List Node} {start stop : Nat} {n : Node},
    Node.PlacedIn start stop ns → n ∈ nodesOfAll ns → n.start < n.stop →
    ∃ above below, pathAmong n.start n.stop ns = above ++ n :: below ∧
      ∀ m ∈ below, m ∈ nodesOfAll n.children
  | m :: ns, start, stop, n, ⟨_, hm, hns⟩, hn, hlt => by
    rw [pathAmong]
    rcases mem_append.mp hn with hn | hn
    · -- The node lies in the range of `m`, so the way goes down here.
      obtain ⟨-, hstart, hstop⟩ := hm.range_of_mem hn
      rw [if_neg (by simp only [Bool.or_eq_true, decide_eq_true_eq]; omega), if_neg (by omega)]
      exact pathWithin_split hm hn hlt
    · -- The node lies behind `m`, which is passed over.
      obtain ⟨-, hstart, -⟩ := hns.range_of_mem hn
      rw [if_pos (by simp only [Bool.or_eq_true, decide_eq_true_eq]; omega)]
      exact pathAmong_split hns hn hlt

end

/-- **The bytes of a function lead back to it**, if no function of the same bytes lies inside. -/
theorem nodeWithin?_eq_some {tree n : Node} (htree : tree.Placed) (hn : n ∈ tree.nodes)
    (hlt : n.start < n.stop) (hfunction : n.kindIs Kind.isFunction)
    (hinner : ∀ m ∈ nodesOfAll n.children, m.start = n.start → m.stop = n.stop →
      m.kindIs Kind.isFunction = false) : nodeWithin? tree n.start n.stop = some n := by
  obtain ⟨above, below, hpath, hbelow⟩ := pathWithin_split htree hn hlt
  have hnone : ((below.filter fun m => m.start = n.start && m.stop = n.stop).reverse).find?
      (·.kindIs Kind.isFunction) = none := by
    refine find?_eq_none.mpr fun m hm => ?_
    obtain ⟨hmem, hrange⟩ := mem_filter.mp (mem_reverse.mp hm)
    obtain ⟨hstart, hstop⟩ : m.start = n.start ∧ m.stop = n.stop := by simpa using hrange
    rw [hinner m (hbelow m hmem) hstart hstop]
    exact Bool.false_ne_true
  dsimp only [nodeWithin?]
  rw [hpath, filter_append, filter_cons_of_pos (by simp), reverse_append,
    reverse_cons, append_assoc, find?_append, hnone, singleton_append,
    find?_cons_of_pos hfunction]
  rfl

/-! ## The function that was found -/

section Locating

variable {t : Tree} {root : Path} {text : String} {found : FoundFunction}

theorem not_isMatch_empty {search : String} (h : search ≠ "") : isMatch search "" = false := by
  rw [Bool.eq_false_iff]
  intro hmatch
  simp only [isMatch, Text.contains, Bool.or_eq_true, Bool.and_eq_true, beq_iff_eq,
    Text.occurs_iff] at hmatch
  rcases hmatch with hempty | ⟨-, hinfix⟩
  · exact h hempty.symm
  · exact h (String.toList_eq_nil_iff.mp (infix_nil.mp hinfix))

/-- A search in a file gives one of its functions, to which its bytes lead back. -/
theorem function_of_searchFile? {search : String} {path : Path} (hsearch : search ≠ "")
    (h : searchFile? t search path = some found) :
    ∃ m function, load? t path = some m ∧ find? m.text search m.tree = some function ∧
      found = .ofNode path m.text function ∧
      nodeWithin? m.tree found.start found.stop = some function := by
  unfold searchFile? searchFile at h
  cases hlanguage : Language.ofPath? path with
  | none => simp [hlanguage, Except.toOption] at h
  | some language =>
    cases htext : t.text? path with
    | none => simp [hlanguage, htext, Except.toOption] at h
    | some source =>
      simp only [hlanguage, htext] at h
      obtain ⟨function, hfind, rfl⟩ := map_eq_some_iff.mp h
      have hfound := found_find? source search (parse language source)
      rw [hfind] at hfound
      obtain ⟨⟨first, hfirst, hin⟩, hwanted, hinnermost⟩ := hfound
      obtain ⟨hfunction, hmatch⟩ := Bool.and_eq_true_iff.mp hwanted
      have hmem := mem_nodes_trans (mem_of_find?_eq_some hfirst) hin
      have hm : load? t path = some ⟨path, source, parse language source,
          bindingsOf source (parse language source)⟩ := by
        rw [load?, htext, hlanguage]
        rfl
      refine ⟨_, function, hm, hfind, rfl, ?_⟩
      refine nodeWithin?_eq_some (placed_parse language source) hmem ?_ hfunction ?_
      · refine Nat.lt_of_not_le fun hle => ?_
        rw [source_of_stop_le hle, not_isMatch_empty hsearch] at hmatch
        cases hmatch
      · -- A function of the same bytes inside would have been found instead.
        intro n hn hstart hstop
        have hnot := hinnermost n hn
        rwa [isWanted, Node.source, hstart, hstop, ← Node.source, hmatch, Bool.and_true] at hnot

/-- **The direct search gives a function of a file**, to which its bytes lead back. -/
theorem function_of_locateDirect? (h : locateDirect? t root text = some found) :
    ∃ m function, load? t found.file = some m ∧
      find? m.text (normalize text) m.tree = some function ∧
      found = .ofNode found.file m.text function ∧
      nodeWithin? m.tree found.start found.stop = some function := by
  dsimp only [locateDirect?] at h
  split at h
  · exact nomatch h
  rename_i hsearch
  obtain ⟨path, -, hpath⟩ := exists_of_findSome?_eq_some h
  obtain ⟨m, function, hm, hfind, hfound, hrest⟩ :=
    function_of_searchFile? (fun hempty => hsearch (by rw [hempty]; rfl)) hpath
  have hfile : found.file = path := by rw [hfound]; rfl
  exact ⟨m, function, hfile ▸ hm, hfind, hfile ▸ hfound, hrest⟩

end Locating

/-! ## What names stand for -/

/-- **What a name of a module stands for**: the declaration that an import of the name leads to, or
without an import the module's own. -/
inductive StandsFor (t : Tree) (m : Module) (name : String) (d : Declaration) : Prop
  | imported (b : Binding) (hb : findBinding? m.bindings name = some b) (target : Path)
      (r r₁ r₂ : Resolver)
      (htarget : (Resolver.resolve? t b.specifier m.path).run r = (some target, r₁))
      (hexported : (exported? t exportHops target b.imported).run r₁ = (some d, r₂))
  | declared (hfree : findBinding? m.bindings name = none)
      (hdeclared : m.declaration? name = some d)

theorem StandsFor.within {t : Tree} {m : Module} {name : String} {d : Declaration}
    (h : StandsFor t m name d) (hm : load? t m.path = some m) : d.Within t := by
  cases h with
  | imported b hb target r r₁ r₂ htarget hexported => exact within_exported? hexported
  | declared hfree hdeclared => exact within_declaration? hm hdeclared

def Declaration.definition (root : Path) (d : Declaration) : Definition :=
  definitionAt root d.file.path (d.statement.range d.file.text) (d.statement.source d.file.text)

mutual

/-- **A complete context** of a function: one entry for each name that the function uses from
outside, in order, and each entry complete. -/
inductive Complete (t : Tree) (root : Path) : Module → Node → List ContextEntry → Prop
  | mk {m : Module} {function : Node} {context : List ContextEntry}
      (names : context.map (fun entry => (entry.name, entry.position)) =
        (Scope.freeNames m.text function).map fun u => (u.name, u.position))
      (entries : ∀ entry ∈ context, CompleteEntry t root m entry) :
      Complete t root m function context

/-- A complete entry for a name that is used in a module. -/
inductive CompleteEntry (t : Tree) (root : Path) : Module → ContextEntry → Prop
  /-- The name leads nowhere: the entry says so, or has the name of a package. -/
  | unknown {m : Module} {entry : ContextEntry} (hdefinition : entry.definition = none)
      (hflag : entry.unresolved = entry.package.isNone) (hcontext : entry.context = [])
      (hundeclared : findBinding? m.bindings entry.name = none → m.declaration? entry.name = none) :
      CompleteEntry t root m entry
  | known {m : Module} {entry : ContextEntry} (hdefinition : entry.definition.isSome)
      (hflag : entry.unresolved = false) (hcontext : entry.context = []) :
      CompleteEntry t root m entry
  /-- The name stands for a function of the project, whose context is complete. -/
  | expanded {m : Module} {entry : ContextEntry} {d : Declaration} {function : Node}
      (hname : StandsFor t m entry.name d) (hwithin : d.Within t)
      (hfunction : d.function = some function)
      (hdefinition : entry.definition = some (d.definition root))
      (hcontext : Complete t root d.file function entry.context) :
      CompleteEntry t root m entry

end

section Walking

variable {t : Tree} {root : Path} {m : Module} {name : String} {r r' : Resolver} {f : Finding}

/-- What is found for a name: a declaration that it stands for, or something else, which is known
unless it is marked. -/
def Finding.Sound (t : Tree) (m : Module) (name : String) : Finding → Prop
  | .declared d => StandsFor t m name d
  | .plain definition package unresolved =>
    unresolved = (definition.isNone && package.isNone) ∧
      (definition = none → findBinding? m.bindings name = none → m.declaration? name = none)

theorem sound_importFinding? {b : Binding} (hb : findBinding? m.bindings name = some b)
    (h : (importFinding? t root m b).run r = (some f, r')) : f.Sound t m name := by
  have himported : findBinding? m.bindings name ≠ none := by
    rw [hb]
    exact some_ne_none b
  unfold importFinding? at h
  rw [StateT.run_bind] at h
  generalize htarget : (Resolver.resolve? t b.specifier m.path).run r = resolved at h
  obtain ⟨target, r₁⟩ := resolved
  cases target with
  | none =>
    by_cases hbare : isBare b.specifier
    · simp only [hbare] at h
      cases h
      exact ⟨rfl, fun _ hnone => absurd hnone himported⟩
    · simp only [hbare] at h
      cases h
  | some target =>
    change (targetFinding? t root b target).run r₁ = (some f, r') at h
    unfold targetFinding? at h
    split at h
    · cases h
      exact ⟨rfl, fun hnone => absurd hnone (some_ne_none _)⟩
    split at h
    · obtain ⟨hf, -⟩ := Prod.mk.inj h
      obtain ⟨text, -, rfl⟩ := map_eq_some_iff.mp hf
      exact ⟨rfl, fun hnone => absurd hnone (some_ne_none _)⟩
    · rw [StateT.run_bind] at h
      generalize hexported : (exported? t exportHops target b.imported).run r₁ = found at h
      obtain ⟨d, r₂⟩ := found
      obtain ⟨hf, -⟩ := Prod.mk.inj h
      obtain ⟨d, rfl, rfl⟩ := map_eq_some_iff.mp hf
      exact .imported b hb target r r₁ r₂ htarget hexported

/-- **What is found for a name is sound.** -/
theorem sound_finding (t : Tree) (root : Path) (m : Module) (name : String) (r : Resolver) :
    ((finding t root m name).run r).1.Sound t m name := by
  unfold finding
  cases hb : findBinding? m.bindings name with
  | none =>
    cases hd : m.declaration? name with
    | none => exact ⟨rfl, fun _ _ => hd⟩
    | some d => exact .declared hb hd
  | some b =>
    rw [StateT.run_bind]
    generalize hfound : (importFinding? t root m b).run r = found
    obtain ⟨f, r'⟩ := found
    cases f with
    | none =>
      refine ⟨rfl, fun _ hnone => ?_⟩
      rw [hb] at hnone
      cases hnone
    | some f => exact sound_importFinding? hb hfound

variable {deeper : Deeper} {u : Scope.FreeName} {j : Journey} {us : List Scope.FreeName} {n : Note}

theorem mem_notesOf (h : n ∈ (notesOf t root deeper m us j).1) :
    ∃ u j', n = (noteOf t root deeper m u j').1 := by
  induction us generalizing j with
  | nil => exact nomatch h
  | cons u us ih =>
    rcases mem_cons.mp h with rfl | h
    · exact ⟨u, j, rfl⟩
    · exact ih h

theorem mem_entriesOf {entry : ContextEntry} : ∀ {ns : List Note}, entry ∈ entriesOf root ns →
    ∃ n ∈ ns, entry = n.entry root
  | n :: ns, h => by
    rcases mem_cons.mp h with rfl | h
    · exact ⟨n, mem_cons_self, rfl⟩
    · obtain ⟨n', hn', rfl⟩ := mem_entriesOf h
      exact ⟨n', mem_cons_of_mem n hn', rfl⟩

theorem map_entriesOf : ∀ ns : List Note,
    (entriesOf root ns).map (fun entry => (entry.name, entry.position)) = ns.map Note.use
  | [] => rfl
  | n :: ns => by
    rw [entriesOf, map_cons, map_entriesOf ns]
    cases n <;> rfl

/-- The walk into functions, if there is one, makes complete contexts. -/
def Deeper.Completes (t : Tree) (root : Path) (deeper : Deeper) : Prop :=
  ∀ walk ∈ deeper, ∀ (m : Module) (function : Node) (j : Journey), load? t m.path = some m →
      Complete t root m function (entriesOf root (walk m function j).1)

theorem completeEntry_noteFor (hdeeper : deeper.Completes t root) {d : Declaration}
    (hname : StandsFor t m u.name d) (hwithin : d.Within t) :
    CompleteEntry t root m ((noteFor deeper u d j).1.entry root) := by
  have hknown : CompleteEntry t root m ((Note.declared u.name u.position d []).entry root) := by
    exact .known rfl rfl rfl
  cases hfunction : d.function with
  | none => rwa [noteFor_none hfunction]
  | some function =>
    cases hmet : d.isMet j.visited with
    | true => rwa [noteFor_met hfunction hmet]
    | false =>
      rw [noteFor_first hfunction hmet]
      cases deeper with
      | none => exact hknown
      | some walk =>
        exact .expanded hname hwithin hfunction rfl (hdeeper walk rfl _ _ _ hwithin.loaded)

theorem completeEntry_noteOf (hdeeper : deeper.Completes t root)
    (hm : load? t m.path = some m) :
    CompleteEntry t root m ((noteOf t root deeper m u j).1.entry root) := by
  have hsound := sound_finding t root m u.name j.resolver
  dsimp only [noteOf]
  generalize (finding t root m u.name).run j.resolver = found at hsound
  obtain ⟨f, r⟩ := found
  cases f with
  | declared d => exact completeEntry_noteFor hdeeper hsound (StandsFor.within hsound hm)
  | plain definition package unresolved =>
    cases definition with
    | none => exact .unknown rfl hsound.1 rfl (hsound.2 rfl)
    | some definition => exact .known rfl hsound.1 rfl

theorem complete_notesOf (hdeeper : deeper.Completes t root) (hm : load? t m.path = some m)
    (function : Node) (j : Journey) :
    Complete t root m function
      (entriesOf root (notesOf t root deeper m (Scope.freeNames m.text function) j).1) := by
  refine .mk (by rw [map_entriesOf, map_use_notesOf]) fun entry hentry => ?_
  obtain ⟨n, hn, rfl⟩ := mem_entriesOf hentry
  obtain ⟨u, j', rfl⟩ := mem_notesOf hn
  exact completeEntry_noteOf hdeeper hm

/-- **A walk makes a complete context**, to every depth. -/
theorem complete_notesFor (levels : Nat) (m : Module) (function : Node) (j : Journey)
    (hm : load? t m.path = some m) :
    Complete t root m function (entriesOf root (notesFor t root levels m function j).1) := by
  induction levels generalizing m function j with
  | zero =>
    refine complete_notesOf (fun walk hwalk => ?_) hm function j
    exact absurd hwalk (not_mem_none walk)
  | succ levels ih =>
    refine complete_notesOf (fun walk hwalk m function j hm => ?_) hm function j
    obtain rfl := mem_some.mp hwalk
    exact ih m function j hm

end Walking

/-! ## Expanding a function of a project -/

section Expanding

variable {σ : Type} {t : Tree} {root : Path} {e : Expander σ} {text : String}
  {found : FoundFunction}

/-- **No name is lost.** The context of a function that the direct search finds has exactly one
entry for each name that the function uses from outside, in order, with the name and its place. The
same holds of every context inside, for the function of the declaration that the entry's name stands
for, which is one of the project. An entry without a definition is marked as unresolved, or has the
name of a package. -/
theorem context_complete (maxDepth : Nat) (options : LocateOptions) (he : e.servers = none)
    (hhints : locateHinted? t root options.hints = none)
    (hdirect : locateDirect? t root text = some found) :
    ∃ m function context, Module.load? t found.file = some m ∧
      find? m.text (normalize text) m.tree = some function ∧
      found = .ofNode found.file m.text function ∧
      ((expand t root maxDepth text options).run e).1 =
        some ⟨found.file, found.span, found.text, context⟩ ∧
      Complete t root m function context := by
  obtain ⟨m, function, hm, hfind, hfound, hnode⟩ := function_of_locateDirect? hdirect
  have hlocate : locate? t root text options = some found := by
    rw [locate?, hhints, hdirect]
    rfl
  refine ⟨m, function, entriesOf root (notesFor t root (maxDepth - 1) m function e.journey).1, hm,
    hfind, hfound, ?_, ?_⟩
  · unfold expand
    simp only [hlocate, hm, hnode]
    rw [StateT.run_bind, mirrors_contextFor (maxDepth - 1) m function e he]
    rfl
  · exact complete_notesFor (maxDepth - 1) m function e.journey (path_of_load? hm ▸ hm)

/-- The text of a function that uses two others, of which one uses the other, and that a name that
stands for nothing. -/
def Chained.sought : String := "function h()\x7ba;b\x7d"

/-- Contexts are nested three deep, and the innermost has an entry that leads nowhere. -/
theorem context_complete_chained :
    ∃ found m function context,
      locateDirect? Chained.tree Chained.project Chained.sought = some found ∧
      ((expand Chained.tree Chained.project 3 Chained.sought {}).run Chained.expander).1 =
        some ⟨found.file, found.span, found.text, context⟩ ∧
      (∃ a ∈ context, ∃ b ∈ a.context, ∃ c ∈ b.context, c.unresolved = true) ∧
      Complete Chained.tree Chained.project m function context := by
  have hfacts : (locateDirect? Chained.tree Chained.project Chained.sought).isSome ∧
      ∃ f ∈ ((expand Chained.tree Chained.project 3 Chained.sought {}).run Chained.expander).1,
        ∃ a ∈ f.context, ∃ b ∈ a.context, ∃ c ∈ b.context, c.unresolved = true := by
    decide +kernel
  obtain ⟨hlocated, f, hf, hnested⟩ := hfacts
  obtain ⟨found, hfound⟩ := isSome_iff_exists.mp hlocated
  obtain ⟨m, function, context, -, -, -, hrun, hcomplete⟩ :=
    context_complete (e := Chained.expander) 3 {} rfl rfl hfound
  obtain rfl : ⟨found.file, found.span, found.text, context⟩ = f :=
    some.inj (hrun.symm.trans hf)
  exact ⟨found, m, function, context, hfound, hrun, hnested, hcomplete⟩

end Expanding

end RouteAtlas.Expansion
