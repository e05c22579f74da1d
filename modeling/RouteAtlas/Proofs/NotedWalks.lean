import RouteAtlas.Expansion.Expand
import RouteAtlas.Proofs.Linking

/-!
# What an expansion meets, and in which order

Without a language server an expansion is a walk: name after name, into the functions behind them,
down to a depth. Here the walk keeps for every entry the declaration that it stands for, which the
entry itself does not tell: it has the name of the use, not that of the declaration.
-/

namespace RouteAtlas.Expansion

open Files Source Inventory Modules

/-! ## The walk -/

/-- What a name stands for: a declaration of the project, or something else, which is not
expanded. -/
inductive Finding where
  | plain (definition : Option Definition) (package : Option String) (unresolved : Bool)
  | declared (d : Declaration)

/-- An entry of a context, with the declaration that it stands for. -/
inductive Note where
  | plain (name : String) (position : Position) (definition : Option Definition)
      (package : Option String) (unresolved : Bool)
  | declared (name : String) (position : Position) (d : Declaration) (context : List Note)

/-- The entry of a name with its declaration and a context. -/
def Declaration.entry (root : Path) (d : Declaration) (name : String) (position : Position)
    (context : List ContextEntry) : ContextEntry :=
  { name, kind := d.kind, position
    definition := some (definitionAt root d.file.path (d.statement.range d.file.text)
      (d.statement.source d.file.text))
    context }

mutual

def Note.entry (root : Path) : Note → ContextEntry
  | .plain name position definition package unresolved =>
    { name, position, definition, package, unresolved }
  | .declared name position d context => d.entry root name position (entriesOf root context)

def entriesOf (root : Path) : List Note → List ContextEntry
  | [] => []
  | n :: ns => n.entry root :: entriesOf root ns

end

/-- What a walk carries along. -/
structure Journey where
  resolver : Resolver
  /-- The functions that were met, by file and name. -/
  visited : List (Path × String) := []

def Declaration.isMet (d : Declaration) (visited : List (Path × String)) : Bool :=
  visited.any fun key => key.1.same d.file.path && key.2 = d.name

section Walking

variable (t : Tree) (root : Path)

/-- What an imported name stands for, if its module is the given file. -/
def targetFinding? (b : Binding) (target : Path) : StateM Resolver (Option Finding) :=
  if target.inNodeModules then
    return some (.plain (some (definitionAt root target zeroRange thirdPartyText))
      (packageOf? target) false)
  else if b.kind = .namespace then
    return (t.text? target).map fun text =>
      .plain (some (definitionAt root target wholeRange text)) none false
  else
    return (← exported? t exportHops target b.imported).map .declared

def importFinding? (m : Module) (b : Binding) : StateM Resolver (Option Finding) := do
  match ← Resolver.resolve? t b.specifier m.path with
  | none =>
    return if isBare b.specifier then some (.plain none (some (splitBare b.specifier).1) false)
      else none
  | some target => targetFinding? t root b target

/-- What a name stands for that is used in a module. -/
def finding (m : Module) (name : String) : StateM Resolver Finding := do
  match findBinding? m.bindings name with
  | some b => return (← importFinding? t root m b).getD (.plain none none true)
  | none => return ((m.declaration? name).map .declared).getD (.plain none none true)

/-- How the function of a declaration is walked into, if it may be. -/
abbrev Deeper := Option (Module → Node → Journey → List Note × Journey)

def noteFor (deeper : Deeper) (u : Scope.FreeName) (d : Declaration) (j : Journey) :
    Note × Journey :=
  match d.function with
  | none => (.declared u.name u.position d [], j)
  | some function =>
    if d.isMet j.visited then (.declared u.name u.position d [], j)
    else
      let j := { j with visited := (d.file.path, d.name) :: j.visited }
      let below := deeper.elim ([], j) fun walk => walk d.file function j
      (.declared u.name u.position d below.1, below.2)

section

variable {deeper : Deeper} {u : Scope.FreeName} {d : Declaration} {function : Node} {j : Journey}

theorem noteFor_none (h : d.function = none) :
    noteFor deeper u d j = (.declared u.name u.position d [], j) := by
  simp [noteFor, h]

theorem noteFor_met (h : d.function = some function) (hmet : d.isMet j.visited) :
    noteFor deeper u d j = (.declared u.name u.position d [], j) := by
  simp [noteFor, h, hmet]

theorem noteFor_first (h : d.function = some function) (hmet : d.isMet j.visited = false) :
    noteFor deeper u d j = let j := { j with visited := (d.file.path, d.name) :: j.visited }
      let below := deeper.elim ([], j) fun walk => walk d.file function j
      (.declared u.name u.position d below.1, below.2) := by
  simp [noteFor, h, hmet]

end

def Finding.note (deeper : Deeper) (u : Scope.FreeName) : Finding → Journey → Note × Journey
  | .plain definition package unresolved, j =>
    (.plain u.name u.position definition package unresolved, j)
  | .declared d, j => noteFor deeper u d j

def noteOf (deeper : Deeper) (m : Module) (u : Scope.FreeName) (j : Journey) : Note × Journey :=
  let found := (finding t root m u.name).run j.resolver
  found.1.note deeper u { j with resolver := found.2 }

variable {t root} in
theorem noteOf_cases {deeper : Deeper} {m : Module} {u : Scope.FreeName} {j : Journey} :
    (∃ definition package unresolved r, noteOf t root deeper m u j =
      (.plain u.name u.position definition package unresolved, { j with resolver := r })) ∨
    ∃ d r, noteOf t root deeper m u j = noteFor deeper u d { j with resolver := r } := by
  unfold noteOf
  generalize (finding t root m u.name).run j.resolver = found
  obtain ⟨f, r⟩ := found
  cases f with
  | plain definition package unresolved => exact .inl ⟨definition, package, unresolved, r, rfl⟩
  | declared d => exact .inr ⟨d, r, rfl⟩

/-- The notes of names that are used in a module. -/
def notesOf (deeper : Deeper) (m : Module) : List Scope.FreeName → Journey → List Note × Journey
  | [], j => ([], j)
  | u :: us, j =>
    let first := noteOf t root deeper m u j
    let rest := notesOf deeper m us first.2
    (first.1 :: rest.1, rest.2)

/-- The notes of the names that a function uses from outside, with further functions walked into
down to so many levels below it. -/
def notesFor : (levels : Nat) → Module → Node → Journey → List Note × Journey
  | 0, m, function => notesOf t root none m (Scope.freeNames m.text function)
  | levels + 1, m, function =>
    notesOf t root (some (notesFor levels)) m (Scope.freeNames m.text function)

end Walking

/-! ## Expansion is the walk -/

variable {σ : Type} {t : Tree} {root : Path} {m : Module} {e : Expander σ} {nested : Nested σ}
  {deeper : Deeper} {u : Scope.FreeName}

def Expander.journey (e : Expander σ) : Journey := ⟨e.resolver, e.visited⟩

def Expander.after (e : Expander σ) (j : Journey) : Expander σ :=
  { e with resolver := j.resolver, visited := j.visited }

/-- A step of an expansion without servers gives what a step of the walk gives, and leaves off where
that does. -/
def Mirrors {α β : Type} (told : β → α) (step : StateM (Expander σ) α)
    (walk : Journey → β × Journey) : Prop :=
  ∀ e : Expander σ, e.servers = none →
    step.run e = (told (walk e.journey).1, e.after (walk e.journey).2)

/-- The expansion of functions mirrors the walk into them. -/
inductive Nested.Mirrors (root : Path) : Nested σ → Deeper → Prop
  | none : Nested.Mirrors root none none
  | some {expand : Module → Node → StateM (Expander σ) (List ContextEntry)}
      {walk : Module → Node → Journey → List Note × Journey}
      (h : ∀ m function, Expansion.Mirrors (entriesOf root) (expand m function) (walk m function)) :
      Nested.Mirrors root (some expand) (some walk)

theorem run_firstVisit (d : Declaration) (e : Expander σ) :
    (firstVisit d.file.path d.name).run e = if d.isMet e.visited then (false, e)
      else (true, { e with visited := (d.file.path, d.name) :: e.visited }) := by
  change StateT.run (if d.isMet e.visited = true then _ else _) e = _
  split <;> rfl

/-- The entry of a declaration mirrors its note. -/
theorem mirrors_entryFor (h : nested.Mirrors root deeper) (u : Scope.FreeName) (d : Declaration) :
    Mirrors (Note.entry root) (entryFor root nested u.name u.position d) (noteFor deeper u d) := by
  intro e he
  unfold entryFor
  cases hfunction : d.function with
  | none =>
    rw [noteFor_none hfunction]
    rfl
  | some function =>
    simp only [StateT.run_bind, run_firstVisit]
    cases hmet : d.isMet e.visited with
    | true =>
      rw [noteFor_met hfunction hmet]
      rfl
    | false =>
      rw [noteFor_first hfunction hmet]
      cases h with
      | none => rfl
      | some h =>
        -- The function counts as met before its own names are looked at.
        have hbelow := h d.file function { e with visited := (d.file.path, d.name) :: e.visited } he
        exact congrArg (fun below => (d.entry root u.name u.position below.1, below.2)) hbelow

theorem findBinding?_localName {bindings : List Binding} {name : String} {b : Binding}
    (h : findBinding? bindings name = some b) : b.localName = name := by
  have hb := List.find?_some h
  simp only [Bool.and_eq_true, beq_iff_eq] at hb
  exact hb.2

theorem run_withResolver_bind {α β : Type} (look : StateM Resolver α)
    (next : α → StateM (Expander σ) β) (e : Expander σ) :
    (withResolver look >>= next).run e =
      (next (look.run e.resolver).1).run { e with resolver := (look.run e.resolver).2 } := rfl

/-- Without a server nothing more is known of a name. -/
theorem run_fromServer? (he : e.servers = none) :
    (fromServer? t root nested m u).run e =
      (some { name := u.name, position := u.position, unresolved := true }, e) := by
  obtain ⟨resolver, visited, servers, serverless⟩ := e
  obtain rfl : servers = none := he
  rfl

/-- An entry that may be missing mirrors the note of what its name stands for, if that is known. -/
def MirrorsFinding (root : Path) (deeper : Deeper) (u : Scope.FreeName)
    (step : StateM (Expander σ) (Option ContextEntry)) (look : StateM Resolver (Option Finding)) :
    Prop :=
  ∀ e : Expander σ, e.servers = none → step.run e = let found := look.run e.resolver
    found.1.elim (none, { e with resolver := found.2 }) fun f =>
      let noted := f.note deeper u ⟨found.2, e.visited⟩
      (some (noted.1.entry root), e.after noted.2)

theorem mirrors_fromTarget? {b : Binding} (h : nested.Mirrors root deeper)
    (hb : b.localName = u.name) (target : Path) :
    MirrorsFinding root deeper u (fromTarget? t root nested b u.position target)
      (targetFinding? t root b target) := by
  intro e he
  unfold fromTarget? targetFinding?
  rw [hb]
  split
  · rfl
  split
  · cases t.text? target <;> rfl
  rw [run_withResolver_bind, StateT.run_bind]
  generalize (exported? t exportHops target b.imported).run e.resolver = found
  obtain ⟨d, r⟩ := found
  cases d with
  | none => rfl
  | some d =>
    exact congrArg (fun told => (some told.1, told.2))
      (mirrors_entryFor h u d { e with resolver := r } he)

theorem mirrors_fromImport? {b : Binding} (h : nested.Mirrors root deeper)
    (hb : b.localName = u.name) :
    MirrorsFinding root deeper u (fromImport? t root nested m b u.position)
      (importFinding? t root m b) := by
  intro e he
  unfold fromImport? importFinding?
  rw [run_withResolver_bind, StateT.run_bind]
  generalize (Resolver.resolve? t b.specifier m.path).run e.resolver = resolved
  obtain ⟨target, r⟩ := resolved
  cases target with
  | some target => exact mirrors_fromTarget? h hb target { e with resolver := r } he
  | none =>
    unfold missedImport?
    rw [hb]
    by_cases hbare : isBare b.specifier = true <;> simp only [hbare] <;> rfl

theorem mirrors_explain? (h : nested.Mirrors root deeper) (u : Scope.FreeName) :
    Mirrors (fun n => some (n.entry root)) (explain? t root nested m u)
      (noteOf t root deeper m u) := by
  intro e he
  unfold explain? noteOf finding
  cases hb : findBinding? m.bindings u.name with
  | none =>
    cases hd : m.declaration? u.name with
    | none => exact run_fromServer? he
    | some d => exact congrArg (fun r => (some r.1, r.2)) (mirrors_entryFor h u d e he)
  | some b =>
    rw [StateT.run_bind, StateT.run_bind, mirrors_fromImport? h (findBinding?_localName hb) e he]
    simp only [Expander.journey]
    generalize (importFinding? t root m b).run e.resolver = found
    obtain ⟨f, r⟩ := found
    cases f with
    | none => exact run_fromServer? (e := { e with resolver := r }) he
    | some f => rfl

theorem mirrors_mapM_explain? (h : nested.Mirrors root deeper) (us : List Scope.FreeName) :
    Mirrors (fun ns => (entriesOf root ns).map some) (us.mapM (explain? t root nested m))
      (notesOf t root deeper m us) := by
  induction us with
  | nil => exact fun e he => rfl
  | cons u us ih =>
    intro e he
    rw [run_mapM_cons, mirrors_explain? h u e he]
    have hrest := ih (e.after (noteOf t root deeper m u e.journey).2) he
    simp only [hrest]
    rfl

theorem mirrors_entriesFor (h : nested.Mirrors root deeper) (function : Node) :
    Mirrors (entriesOf root) (entriesFor t root nested m function)
      (notesOf t root deeper m (Scope.freeNames m.text function)) := by
  intro e he
  unfold entriesFor
  rw [StateT.run_bind, mirrors_mapM_explain? h _ e he]
  -- Without servers every name has an entry, so none is filtered out.
  refine congrArg (fun told => (told, e.after _)) ?_
  rw [List.filterMap_map]
  exact List.filterMap_some

/-- **Expansion is the walk**: the context is what the notes tell. -/
theorem mirrors_contextFor (levels : Nat) (m : Module) (function : Node) :
    Mirrors (σ := σ) (entriesOf root) (contextFor t root levels m function)
      (notesFor t root levels m function) := by
  induction levels generalizing m function with
  | zero => exact mirrors_entriesFor .none function
  | succ levels ih => exact mirrors_entriesFor (.some ih) function

end RouteAtlas.Expansion
