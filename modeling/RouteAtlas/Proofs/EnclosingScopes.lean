import RouteAtlas.Proofs.CompleteContexts
import RouteAtlas.Proofs.Variables

/-!
# Names that a scope around a function binds

A name that a function uses from outside may be bound between the function and the top of its file:
by a parameter of a function around it, or by a declaration in a block around it. An expansion does
not look there. What it attaches to a name is what the file has under the name at its top, an import
or a declaration, wherever the function stands. So where a scope in between binds the name and the
file has the name too, the wrong definition is attached.
-/

open Option

namespace RouteAtlas.Expansion

open Files Source Inventory Modules Modules.Resolver Finder

/-! ## Scopes around a function -/

/-- **A scope around a function binds a name** for values below the top of the file: a function, a
block, a loop or a clause. The name by which a declared class knows itself is not counted, since it
stands for the same class outside. -/
def BoundAround (source : String) (top : Node) (f : Site) (x : String) : Prop :=
  ∃ step ∈ Scope.stepsInside f top,
    step.2.isOneOf [.classDeclaration, .abstractClassDeclaration] = false ∧
      Scope.Binds source step.1 step.2 x

instance (source : String) (top : Node) (f : Site) (x : String) :
    Decidable (BoundAround source top f x) :=
  inferInstanceAs (Decidable (∃ step ∈ _, _))

/-- Something is attached to a name that a scope around the function binds. -/
def Misattributed (source : String) (top : Node) (f : Site) (entry : ContextEntry) : Prop :=
  BoundAround source top f entry.name ∧ entry.unresolved = false

instance (source : String) (top : Node) (f : Site) (entry : ContextEntry) :
    Decidable (Misattributed source top f entry) :=
  inferInstanceAs (Decidable (_ ∧ _))

/-! ## The top of a file -/

section Top

variable (t : Tree) (root : Path) (find : String → Path → Option Path)

/-- What an imported name leads to, given the file of its module; without a file this is at best a
package. -/
def importAtTop? (b : Binding) : Option Path → Option Finding
  | none => if isBare b.specifier then some (.plain none (some (splitBare b.specifier).1) false)
    else none
  | some target =>
    if target.inNodeModules then
      some (.plain (some (definitionAt root target zeroRange thirdPartyText)) (packageOf? target)
        false)
    else if b.kind = .namespace then
      (t.text? target).map fun text =>
        .plain (some (definitionAt root target wholeRange text)) none false
    else (follow (offerIn t find) exportHops target b.imported).map .declared

/-- **What a file has under a name at its top**: what an import of the name leads to, or else a
declaration of the file itself. -/
def atTop? (m : Module) (name : String) : Option Finding :=
  match findBinding? m.bindings name with
  | some b => importAtTop? t root find b (find b.specifier m.path)
  | none => (m.declaration? name).map .declared

end Top

/-- Where something is defined that a name stands for. -/
def Finding.definition? (root : Path) : Finding → Option Definition
  | .plain definition _ _ => definition
  | .declared d => some (d.definition root)

def Finding.package? : Finding → Option String
  | .plain _ package _ => package
  | .declared _ => none

/-- **An entry shows what its name stands for**, and is marked if that is nothing. -/
structure Shows (root : Path) (entry : ContextEntry) (found : Option Finding) : Prop where
  definition : entry.definition = found.bind (Finding.definition? root)
  package : entry.package = found.bind Finding.package?
  unresolved : entry.unresolved = found.isNone

/-! ## What a walk attaches -/

section Walking

variable {t : Tree} {root : Path} {last : Resolver} {m : Module} {deeper : Deeper}

theorem tells_importFinding? (b : Binding) :
    Tells last (importFinding? t root m b)
      (importAtTop? t root (last.finds t) b (last.finds t b.specifier m.path)) := by
  refine (tells_resolve? last t b.specifier m.path).bind
    (v := importAtTop? t root (last.finds t) b) fun found => ?_
  cases found with
  | none => exact .pure _
  | some target =>
    change Tells last (targetFinding? t root b target) _
    rw [targetFinding?, importAtTop?]
    split
    · exact .pure _
    split
    · exact .pure _
    · exact (tells_exported? t exportHops target b.imported).map (Option.map Finding.declared)

/-- **A later resolver tells what a name stands for**: it is what the file has at its top. -/
theorem tells_finding (last : Resolver) (m : Module) (name : String) :
    Tells last (finding t root m name)
      ((atTop? t root (last.finds t) m name).getD (.plain none none true)) := by
  unfold finding atTop?
  cases findBinding? m.bindings name with
  | none => exact .pure _
  | some b => exact (tells_importFinding? b).map (Option.getD · (.plain none none true))

theorem unmarked_atTop? {find : String → Path → Option Path} {name : String}
    {definition : Option Definition} {package : Option String} {unresolved : Bool}
    (h : atTop? t root find m name = some (.plain definition package unresolved)) :
    unresolved = false := by
  unfold atTop? at h
  split at h
  · unfold importAtTop? at h
    split at h
    · split at h
      · cases h
        rfl
      · cases h
    split at h
    · cases h
      rfl
    split at h
    · obtain ⟨text, -, htext⟩ := map_eq_some_iff.mp h
      cases htext
      rfl
    · obtain ⟨d, -, hd⟩ := map_eq_some_iff.mp h
      cases hd
  · obtain ⟨d, -, hd⟩ := map_eq_some_iff.mp h
    cases hd

theorem name_entry {n : Note} : (n.entry root).name = n.use.1 := by
  cases n <;> rfl

theorem name_noteOf {u : Scope.FreeName} {j : Journey} :
    ((noteOf t root deeper m u j).1.entry root).name = u.name := by
  rw [name_entry]
  obtain ⟨definition, package, unresolved, r, h⟩ | ⟨d, r, h⟩ :=
    noteOf_cases (t := t) (m := m) (u := u) (j := j)
  · rw [h]
    rfl
  · rw [h, use_noteFor]

theorem shows_note {u : Scope.FreeName} {found : Option Finding} {j : Journey}
    (hfound : ∀ definition package unresolved,
      found = some (.plain definition package unresolved) → unresolved = false) :
    Shows root (((found.getD (.plain none none true)).note deeper u j).1.entry root) found := by
  cases found with
  | none =>
    exact ⟨rfl, rfl, rfl⟩
  | some f =>
    cases f with
    | plain definition package unresolved =>
      obtain rfl := hfound definition package unresolved rfl
      exact ⟨rfl, rfl, rfl⟩
    | declared d =>
      dsimp only [Option.getD, Finding.note, noteFor]
      split
      · exact ⟨rfl, rfl, rfl⟩
      · split <;> exact ⟨rfl, rfl, rfl⟩

/-- The walk into functions, if there is one, only adds to what the resolver knows. -/
def Deeper.Grows (deeper : Deeper) : Prop :=
  ∀ walk ∈ deeper, ∀ (m : Module) (function : Node) (j : Journey),
    j.resolver.Later (walk m function j).2.resolver

theorem later_note (hdeeper : deeper.Grows) (f : Finding) (u : Scope.FreeName) (j : Journey) :
    j.resolver.Later (f.note deeper u j).2.resolver := by
  cases f with
  | plain => exact .refl _
  | declared d =>
    dsimp only [Finding.note, noteFor]
    split
    · exact .refl _
    split
    · exact .refl _
    cases deeper with
    | none => exact .refl _
    | some walk =>
      exact hdeeper walk rfl _ _ { j with visited := (d.file.path, d.name) :: j.visited }

theorem later_noteOf (hdeeper : deeper.Grows) (u : Scope.FreeName) (j : Journey) :
    j.resolver.Later (noteOf t root deeper m u j).2.resolver := by
  have hgrows : j.resolver.Later ((finding t root m u.name).run j.resolver).2 :=
    (tells_finding j.resolver m u.name).grows j.resolver
  exact hgrows.trans (later_note hdeeper _ u { j with resolver := _ })

theorem later_notesOf (hdeeper : deeper.Grows) : ∀ (us : List Scope.FreeName) (j : Journey),
    j.resolver.Later (notesOf t root deeper m us j).2.resolver
  | [], _ => .refl _
  | u :: us, j => (later_noteOf hdeeper u j).trans (later_notesOf hdeeper us _)

theorem grows_none : Deeper.Grows none := fun walk hwalk => absurd hwalk (not_mem_none walk)

theorem grows_notesFor (root : Path) (levels : Nat) :
    Deeper.Grows (some (notesFor t root levels)) := by
  induction levels with
  | zero =>
    intro walk hwalk m function j
    obtain rfl := mem_some.mp hwalk
    exact later_notesOf grows_none _ j
  | succ levels ih =>
    intro walk hwalk m function j
    obtain rfl := mem_some.mp hwalk
    exact later_notesOf ih _ j

theorem shows_noteOf (hdeeper : deeper.Grows) {u : Scope.FreeName} {j : Journey}
    (hlast : (noteOf t root deeper m u j).2.resolver.Later last) :
    Shows root ((noteOf t root deeper m u j).1.entry root)
      (atTop? t root (last.finds t) m u.name) := by
  have hlater := (later_note hdeeper _ u _).trans hlast
  have hfound := (tells_finding last m u.name).told j.resolver hlater
  rw [noteOf, hfound]
  exact shows_note fun _ _ _ h => unmarked_atTop? h

theorem shows_notesOf (hdeeper : deeper.Grows) : ∀ (us : List Scope.FreeName) (j : Journey),
    (notesOf t root deeper m us j).2.resolver.Later last →
    ∀ entry ∈ entriesOf root (notesOf t root deeper m us j).1,
      Shows root entry (atTop? t root (last.finds t) m entry.name)
  | [], _, _, _, h => nomatch h
  | u :: us, j, hlast, entry, h => by
    rcases List.mem_cons.mp h with rfl | h
    · rw [name_noteOf]
      exact shows_noteOf hdeeper ((later_notesOf hdeeper us _).trans hlast)
    · exact shows_notesOf hdeeper us _ hlast entry h

/-- **A walk attaches what the file has at its top**, whatever function it starts from, seen from
the resolver with which it ends. -/
theorem shows_notesFor (levels : Nat) (function : Node) (j : Journey) :
    ∀ entry ∈ entriesOf root (notesFor t root levels m function j).1,
      Shows root entry (atTop? t root
        ((notesFor t root levels m function j).2.resolver.finds t) m entry.name) := by
  cases levels with
  | zero => exact shows_notesOf grows_none _ j (.refl _)
  | succ levels => exact shows_notesOf (grows_notesFor root levels) _ j (.refl _)

end Walking

/-! ## Located functions -/

section Locating

variable {σ : Type} {t : Tree} {root : Path} {e e' : Expander σ} {maxDepth : Nat} {text : String}
  {options : LocateOptions} {expanded : ExpandedFunction}

theorem shows_expand (he : e.servers = none)
    (h : (expand t root maxDepth text options).run e = (some expanded, e')) :
    ∃ found m, locate? t root text options = some found ∧ Module.load? t found.file = some m ∧
      ∀ entry ∈ expanded.context,
        Shows root entry (atTop? t root (e'.resolver.finds t) m entry.name) := by
  unfold expand at h
  cases hfound : locate? t root text options with
  | none =>
    rw [hfound] at h
    cases h
  | some found =>
    cases hm : Module.load? t found.file with
    | none =>
      simp only [hfound, hm] at h
      cases h
    | some m =>
      refine ⟨found, m, rfl, hm, ?_⟩
      simp only [hfound, hm] at h
      cases hnode : nodeWithin? m.tree found.start found.stop with
      | none =>
        simp only [hnode] at h
        cases h
        exact fun entry hentry => nomatch hentry
      | some function =>
        simp only [hnode] at h
        rw [StateT.run_bind, mirrors_contextFor (maxDepth - 1) m function e he] at h
        cases h
        exact shows_notesFor (maxDepth - 1) function e.journey

/-- **A definition is attached by the name alone.** Every entry in the context of a function that
was found shows what the file has under the name at its top, wherever in the file the function
stands. So something is attached wrongly exactly if a scope around the function binds the name and
the file has it at its top too. -/
theorem attached_by_name_alone (he : e.servers = none)
    (hrun : (expand t root maxDepth text options).run e = (some expanded, e')) :
    ∃ found m, locate? t root text options = some found ∧ Module.load? t found.file = some m ∧
      ∀ entry ∈ expanded.context,
        Shows root entry (atTop? t root (e'.resolver.finds t) m entry.name) ∧
        ∀ f ∈ m.tree.sites, nodeWithin? m.tree found.start found.stop = some f.node →
          (Misattributed m.text m.tree f entry ↔ BoundAround m.text m.tree f entry.name ∧
            (atTop? t root (e'.resolver.finds t) m entry.name).isSome) := by
  obtain ⟨found, m, hfound, hm, hshows⟩ := shows_expand he hrun
  refine ⟨found, m, hfound, hm, fun entry hentry => ⟨hshows entry hentry, fun f _ _ => ?_⟩⟩
  rw [Misattributed, (hshows entry hentry).unresolved, isNone_eq_false_iff]

namespace Inner

/-- A function at the top of a file, and one inside another function that has a parameter of the
same name. -/
def tree : Tree :=
  { entries := [(["p"], .directory), (["p", "a.ts"],
      .file "function h()\x7b\x7dfunction o(h)\x7breturn()=>h()\x7d".toUTF8.toList)] }

def sought : String := "()=>h()"

/-- The function inside is found and expanded, and the definition of the function at the top is
attached to the name of the parameter. -/
theorem attached :
    ∃ found ∈ locate? tree Chained.project sought {},
      ∃ f ∈ ((expand tree Chained.project 1 sought {}).run Chained.expander).1,
      ∃ m ∈ Module.load? tree found.file, ∃ s ∈ m.tree.sites,
        nodeWithin? m.tree found.start found.stop = some s.node ∧
        ∃ entry ∈ f.context, Misattributed m.text m.tree s entry ∧
          ∃ definition ∈ entry.definition, definition.text = "function h()\x7b\x7d" := by
  decide +kernel

end Inner

/-- The definition of the function at the top is attached, since the file declares it. -/
theorem attached_by_name_alone_inner :
    ∃ found m s f e', locate? Inner.tree Chained.project Inner.sought {} = some found ∧
      nodeWithin? m.tree found.start found.stop = some s.node ∧
      (expand Inner.tree Chained.project 1 Inner.sought {}).run Chained.expander = (some f, e') ∧
      ∃ entry ∈ f.context, BoundAround m.text m.tree s entry.name ∧
        (atTop? Inner.tree Chained.project (e'.resolver.finds Inner.tree) m entry.name).isSome := by
  obtain ⟨found, hfound, f, hf, m, hm, s, hs, hnode, entry, hentry, hwrong, -⟩ := Inner.attached
  obtain ⟨⟨told, e'⟩, hrun⟩ : ∃ result,
    (expand Inner.tree Chained.project 1 Inner.sought {}).run Chained.expander = result := ⟨_, rfl⟩
  rw [hrun] at hf
  obtain rfl : told = some f := hf
  obtain ⟨found', m', hfound', hm', hcontext⟩ := attached_by_name_alone rfl hrun
  obtain rfl := some.inj (hfound'.symm.trans hfound)
  obtain rfl := some.inj (hm'.symm.trans hm)
  exact ⟨found', m', s, f, e', hfound, hnode, hrun, entry, hentry,
    ((hcontext entry hentry).2 s hs hnode).mp hwrong⟩

/-- **A parameter is taken for a function at the top of the file.** The name that the inner function
uses is bound by a parameter of the function around it; the definition that is attached is that of
another function, at the top. -/
theorem parameter_taken_for_function :
    ∃ found m s f entry definition,
      locate? Inner.tree Chained.project Inner.sought {} = some found ∧
      Module.load? Inner.tree found.file = some m ∧ s ∈ m.tree.sites ∧
      nodeWithin? m.tree found.start found.stop = some s.node ∧
      ((expand Inner.tree Chained.project 1 Inner.sought {}).run Chained.expander).1 = some f ∧
      entry ∈ f.context ∧ BoundAround m.text m.tree s entry.name ∧
      entry.definition = some definition ∧ definition.text = "function h()\x7b\x7d" := by
  obtain ⟨found, hfound, f, hf, m, hm, s, hs, hnode, entry, hentry, hwrong, definition,
    hdefinition, htext⟩ := Inner.attached
  exact ⟨found, m, s, f, entry, definition, hfound, hm, hs, hnode, hf, hentry, hwrong.1,
    hdefinition, htext⟩

end Locating

end RouteAtlas.Expansion
