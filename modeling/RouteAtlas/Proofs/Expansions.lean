import RouteAtlas.Proofs.NotedWalks

/-!
# What is expanded, and how often

Read in order, each entry before those of its own context, an expansion obeys one rule: a function
is expanded where it is met for the first time, if that is above the depth, and nowhere else. So no
function is expanded twice, and the depth is kept. But a function that is first met at the bottom is
not expanded at all, even if it is met again further up; and a file that is reached by two paths
counts as two.
-/

open List

namespace RouteAtlas.Expansion

open Files Source Modules Note

variable {n : Note} {j : Journey} {deeper : Deeper}

/-! ## Entries in order -/

namespace Note

def context : Note → List Note
  | .plain .. => []
  | .declared _ _ _ context => context

def use : Note → String × Position
  | .plain name position .. => (name, position)
  | .declared name position .. => (name, position)

def function? : Note → Option Declaration
  | .plain .. => none
  | .declared _ _ d _ => if d.function.isSome then some d else none

def freeNames (n : Note) : List Scope.FreeName :=
  match n.function? with
  | none => []
  | some d => d.function.elim [] (Scope.freeNames d.file.text)

def isMet (n : Note) (visited : List (Path × String)) : Bool := n.function?.any (·.isMet visited)

def mark (n : Note) (visited : List (Path × String)) : List (Path × String) :=
  match n.function? with
  | none => visited
  | some d => if d.isMet visited then visited else (d.file.path, d.name) :: visited

end Note

/-- A note and its depth. -/
structure Occurrence where
  depth : Nat
  note : Note

mutual

def Note.occurrences (depth : Nat) : Note → List Occurrence
  | .plain name position definition package unresolved =>
    [⟨depth, .plain name position definition package unresolved⟩]
  | .declared name position d context =>
    ⟨depth, .declared name position d context⟩ :: occurrencesIn (depth + 1) context

/-- Some notes and the ones below them, in order. -/
def occurrencesIn (depth : Nat) : List Note → List Occurrence
  | [] => []
  | n :: ns => n.occurrences depth ++ occurrencesIn depth ns

end

def marks (visited : List (Path × String)) (os : List Occurrence) : List (Path × String) :=
  os.foldl (fun visited o => o.note.mark visited) visited

/-- **The rule of an expansion.** An occurrence has the names of its function in its context, if the
function is met for the first time and above the bound, and else nothing. -/
def Obeys (bound : Nat) (visited : List (Path × String)) (o : Occurrence) : Prop :=
  o.note.context.map use = if o.note.isMet visited || bound ≤ o.depth then []
    else o.note.freeNames.map fun u => (u.name, u.position)

def Lawful (bound : Nat) : List (Path × String) → List Occurrence → Prop
  | _, [] => True
  | visited, o :: os => Obeys bound visited o ∧ Lawful bound (o.note.mark visited) os

variable {t : Tree} {root : Path} {m : Module} {bound depth : Nat} {visited : List (Path × String)}
  {o : Occurrence} {os before after : List Occurrence} {d d' : Declaration}

theorem lawful_append : Lawful bound visited (before ++ after) ↔
    Lawful bound visited before ∧ Lawful bound (marks visited before) after := by
  induction before generalizing visited with
  | nil => simp [Lawful, marks]
  | cons o before ih =>
    rw [cons_append, Lawful, Lawful, ih, and_assoc]
    rfl

theorem marks_append : marks visited (before ++ after) = marks (marks visited before) after :=
  foldl_append

/-! ## Walks obey the rule -/

/-- The outcome of a walk: its notes obey the rule, and what it has met is what they show. -/
structure Walked (bound depth : Nat) (visited : List (Path × String)) (ns : List Note)
    (j : Journey) : Prop where
  lawful : Lawful bound visited (occurrencesIn depth ns)
  visited_eq : j.visited = marks visited (occurrencesIn depth ns)

/-- The walk into functions from a depth: there is one above the bound only. -/
inductive Deeper.Walks (bound depth : Nat) : Deeper → Prop
  | none (hdepth : bound ≤ depth) : Deeper.Walks bound depth none
  | some {walk : Module → Node → Journey → List Note × Journey} (hdepth : depth < bound)
      (hwalk : ∀ m function j,
        Walked bound (depth + 1) j.visited (walk m function j).1 (walk m function j).2)
      (huses : ∀ m function j, (walk m function j).1.map use =
        (Scope.freeNames m.text function).map fun u => (u.name, u.position)) :
      Deeper.Walks bound depth (some walk)

theorem Walked.single (hobeys : Obeys bound visited ⟨depth, n⟩)
    (hbelow : Walked bound (depth + 1) (n.mark visited) n.context j) :
    Walked bound depth visited [n] j := by
  have hoccurrences : occurrencesIn depth [n] =
      ⟨depth, n⟩ :: occurrencesIn (depth + 1) n.context := by
    cases n <;> simp [occurrencesIn, occurrences, context]
  constructor
  · rw [hoccurrences]
    exact ⟨hobeys, hbelow.lawful⟩
  · rw [hoccurrences]
    exact hbelow.visited_eq

theorem Walked.nil : Walked bound depth j.visited [] j := ⟨trivial, rfl⟩

theorem Walked.cons {ns : List Note} {j' : Journey} (hfirst : Walked bound depth visited [n] j)
    (hrest : Walked bound depth j.visited ns j') : Walked bound depth visited (n :: ns) j' := by
  have hn : occurrencesIn depth [n] = n.occurrences depth := by
    rw [occurrencesIn, occurrencesIn, append_nil]
  have hvisited := hfirst.visited_eq
  constructor
  · rw [occurrencesIn, lawful_append, ← hn, ← hvisited]
    exact ⟨hfirst.lawful, hrest.lawful⟩
  · rw [occurrencesIn, marks_append, ← hn, ← hvisited]
    exact hrest.visited_eq

theorem walked_noteFor (h : deeper.Walks bound depth) (u : Scope.FreeName) (d : Declaration)
    (j : Journey) :
    Walked bound depth j.visited [(noteFor deeper u d j).1] (noteFor deeper u d j).2 := by
  cases hfunction : d.function with
  | none =>
    have hnone : (declared u.name u.position d []).function? = none := by
      simp [function?, hfunction]
    rw [noteFor_none hfunction]
    refine .single ?_ ?_
    · simp [Obeys, context, freeNames, hnone]
    · rw [mark, hnone]
      exact .nil
  | some function =>
    have hsome : ∀ context, (declared u.name u.position d context).function? = some d := by
      simp [function?, hfunction]
    cases hmet : d.isMet j.visited with
    | true =>
      rw [noteFor_met hfunction hmet]
      refine .single ?_ ?_
      · simp [Obeys, context, isMet, hsome, hmet]
      · simp only [mark, hsome, hmet]
        exact .nil
    | false =>
      rw [noteFor_first hfunction hmet]
      refine .single ?_ ?_
      · cases h with
        | none hdepth => simp [Obeys, context, hdepth]
        | some hdepth _ huses =>
          simp [Obeys, context, isMet, freeNames, hsome, hmet, hfunction, huses,
            Nat.not_le.mpr hdepth]
      · let met : Journey := { j with visited := (d.file.path, d.name) :: j.visited }
        simp only [mark, hsome, hmet]
        cases h with
        | none _ => exact Walked.nil (j := met)
        | some _ hwalk _ => exact hwalk d.file function met

theorem use_noteFor {u : Scope.FreeName} {d : Declaration} :
    (noteFor deeper u d j).1.use = (u.name, u.position) := by
  unfold noteFor
  split
  · rfl
  · split <;> rfl

theorem walked_notesOf (h : deeper.Walks bound depth) (us : List Scope.FreeName) (j : Journey) :
    Walked bound depth j.visited (notesOf t root deeper m us j).1
      (notesOf t root deeper m us j).2 := by
  induction us generalizing j with
  | nil => exact .nil
  | cons u us ih =>
    refine .cons ?_ (ih _)
    obtain ⟨definition, package, unresolved, r, hplain⟩ | ⟨d, r, hdeclared⟩ :=
      noteOf_cases (t := t) (m := m) (u := u)
    · rw [hplain]
      refine .single ?_ (Walked.nil (j := { j with resolver := r }))
      simp [Obeys, context, freeNames, function?]
    · rw [hdeclared]
      exact walked_noteFor h u d { j with resolver := r }

theorem map_use_notesOf (us : List Scope.FreeName) (j : Journey) :
    (notesOf t root deeper m us j).1.map use = us.map fun u => (u.name, u.position) := by
  induction us generalizing j with
  | nil => rfl
  | cons u us ih =>
    rw [notesOf, map_cons, ih]
    refine congrArg (· :: _) ?_
    obtain ⟨definition, package, unresolved, r, hplain⟩ | ⟨d, r, hdeclared⟩ :=
      noteOf_cases (t := t) (m := m) (u := u)
    · rw [hplain]
      rfl
    · rw [hdeclared]
      exact use_noteFor

/-- **A walk obeys the rule**, with the depth to which it may go as its bound. -/
theorem walked_notesFor (levels : Nat) (m : Module) (function : Node) (j : Journey) :
    Walked (depth + levels) depth j.visited (notesFor t root levels m function j).1
      (notesFor t root levels m function j).2 := by
  induction levels generalizing depth m function j with
  | zero => exact walked_notesOf (.none (Nat.le_refl depth)) _ j
  | succ levels ih =>
    refine walked_notesOf (.some (by omega) (fun m function j => ?_) fun m function j => ?_) _ j
    rotate_left
    · cases levels <;> exact map_use_notesOf _ j
    rw [show depth + (levels + 1) = depth + 1 + levels by omega]
    exact ih m function j

/-! ## What follows from the rule -/

def Declaration.same (d d' : Declaration) : Bool :=
  d.file.path.same d'.file.path && d.name == d'.name

theorem Declaration.same_iff :
    d.same d' ↔ d.file.path.components = d'.file.path.components ∧ d.name = d'.name := by
  simp [Declaration.same, Path.same]

theorem Declaration.same_comm : d.same d' = d'.same d := by
  rw [Bool.eq_iff_iff, same_iff, same_iff, eq_comm, @eq_comm _ d.name]

theorem Declaration.isMet_iff : d.isMet visited ↔
    ∃ key ∈ visited, key.1.components = d.file.path.components ∧ key.2 = d.name := by
  simp [Declaration.isMet, Path.same]

/-- What is met after an occurrence: what was met before, and its own function. -/
theorem Declaration.isMet_mark_iff : d.isMet (n.mark visited) ↔
    d.isMet visited ∨ ∃ d' ∈ n.function?, d'.same d := by
  unfold mark
  cases n.function? with
  | none => simp
  | some d' =>
    simp only [Option.mem_some, exists_eq_left', same_iff]
    cases hmet : d'.isMet visited with
    | false => simp [isMet_iff, or_comm]
    | true =>
      refine ⟨Or.inl, ?_⟩
      rintro (h | ⟨hfile, hname⟩)
      · exact h
      · obtain ⟨key, hkey, hpath, hkeyname⟩ := isMet_iff.mp hmet
        exact isMet_iff.mpr ⟨key, hkey, hpath.trans hfile, hkeyname.trans hname⟩

theorem Declaration.isMet_marks_iff : d.isMet (marks visited os) ↔
    d.isMet visited ∨ ∃ o ∈ os, ∃ d' ∈ o.note.function?, d'.same d := by
  induction os generalizing visited with
  | nil => simp [marks]
  | cons o os ih =>
    rw [show marks visited (o :: os) = marks (o.note.mark visited) os from rfl, ih,
      isMet_mark_iff, or_assoc]
    simp [mem_cons]

theorem Obeys.context_ne_nil_iff (h : Obeys bound visited o) : o.note.context ≠ [] ↔
    o.note.isMet visited = false ∧ o.depth < bound ∧ o.note.freeNames ≠ [] := by
  rw [ne_eq, ← map_eq_nil_iff (f := use), h, ← Nat.not_le]
  cases o.note.isMet visited <;> by_cases hdepth : bound ≤ o.depth <;> simp [hdepth]

theorem Lawful.obeys (h : Lawful bound visited (before ++ o :: after)) :
    Obeys bound (marks visited before) o :=
  (lawful_append.mp h).2.1

theorem Lawful.context_eq_nil (h : Lawful bound visited os) (ho : o ∈ os)
    (hd : d ∈ o.note.function?) (hmet : d.isMet visited) : o.note.context = [] := by
  obtain ⟨before, after, rfl⟩ := append_of_mem ho
  by_cases hcontext : o.note.context = []
  · exact hcontext
  have hfirst := (h.obeys.context_ne_nil_iff.mp hcontext).1
  rw [isMet, Option.mem_def.mp hd, Option.any_some,
    Declaration.isMet_marks_iff.mpr (.inl hmet)] at hfirst
  cases hfirst

theorem Note.function?_of_freeNames_ne_nil (h : n.freeNames ≠ []) : ∃ d, n.function? = some d := by
  unfold freeNames at h
  cases hd : n.function? with
  | none => simp [hd] at h
  | some d => exact ⟨d, rfl⟩

/-- **No function is expanded twice.** -/
theorem Lawful.pairwise (h : Lawful bound visited os) : os.Pairwise fun a b =>
    a.note.context ≠ [] → b.note.context ≠ [] →
      ∃ d ∈ a.note.function?, ∃ d' ∈ b.note.function?, d.same d' = false := by
  induction os generalizing visited with
  | nil => exact .nil
  | cons o os ih =>
    obtain ⟨hobeys, hrest⟩ := h
    refine pairwise_cons.mpr ⟨fun b hb ho hcontext => ?_, ih hrest⟩
    obtain ⟨d, hd⟩ := function?_of_freeNames_ne_nil (hobeys.context_ne_nil_iff.mp ho).2.2
    obtain ⟨before, after, rfl⟩ := append_of_mem hb
    have hnames := (hrest.obeys.context_ne_nil_iff.mp hcontext).2.2
    obtain ⟨d', hd'⟩ := function?_of_freeNames_ne_nil hnames
    refine ⟨d, hd, d', hd', Bool.eq_false_iff.mpr fun hsame => hcontext ?_⟩
    exact hrest.context_eq_nil hb hd' (Declaration.isMet_mark_iff.mpr (.inr ⟨d, hd, hsame⟩))

/-- **A function is expanded where it is first met**, if that is above the bound, and nowhere
else. -/
theorem Lawful.expanded_iff (h : Lawful bound visited (before ++ o :: after))
    (hd : d ∈ o.note.function?) (hnew : d.isMet visited = false)
    (hfirst : ∀ a ∈ before, ∀ d' ∈ a.note.function?, d'.same d = false) :
    (∃ a ∈ before ++ o :: after, (∃ d' ∈ a.note.function?, d'.same d) ∧
      a.note.context ≠ []) ↔ o.depth < bound ∧ o.note.freeNames ≠ [] := by
  have hmet : o.note.isMet (marks visited before) = false := by
    rw [isMet, Option.mem_def.mp hd, Option.any_some, Bool.eq_false_iff, ne_eq,
      Declaration.isMet_marks_iff]
    rintro (hmet | ⟨a, ha, d', hd', hsame⟩)
    · rw [hnew] at hmet
      cases hmet
    · rw [hfirst a ha d' hd'] at hsame
      cases hsame
  have hobeys := h.obeys.context_ne_nil_iff
  rw [hmet] at hobeys
  constructor
  · rintro ⟨a, ha, ⟨d', hd', hsame⟩, hcontext⟩
    rcases mem_append.mp ha with ha | ha
    · rw [hfirst a ha d' hd'] at hsame
      cases hsame
    rcases mem_cons.mp ha with rfl | ha
    · exact (hobeys.mp hcontext).2
    -- Behind the first occurrence the function counts as met.
    rw [Declaration.same_comm] at hsame
    refine absurd ((lawful_append.mp h).2.2.context_eq_nil ha hd' ?_) hcontext
    exact Declaration.isMet_mark_iff.mpr (.inr ⟨d, hd, hsame⟩)
  · rintro hexpanded
    refine ⟨o, mem_append_right _ mem_cons_self, ⟨d, hd, ?_⟩, hobeys.mpr ⟨rfl, hexpanded⟩⟩
    exact Declaration.same_iff.mpr ⟨rfl, rfl⟩

/-! ## How deep a context is -/

mutual

def ContextEntry.depth : ContextEntry → Nat
  | ⟨_, _, _, _, _, context, _⟩ => contextDepth context + 1

def contextDepth : List ContextEntry → Nat
  | [] => 0
  | entry :: entries => max entry.depth (contextDepth entries)

end

/-- **A context is no deeper than the rule allows**: below the bound nothing has a context. -/
theorem contextDepth_le : ∀ {ns : List Note} {depth : Nat} {visited : List (Path × String)},
    Lawful bound visited (occurrencesIn depth ns) → depth ≤ bound →
      contextDepth (entriesOf root ns) + depth ≤ bound + 1
  | [], _, _, _, hdepth => by
    rw [entriesOf, contextDepth]
    omega
  | .plain .. :: ns, _, _, h, hdepth => by
    have hrest := contextDepth_le (lawful_append.mp h).2 hdepth
    simp only [entriesOf, entry, contextDepth, ContextEntry.depth]
    omega
  | .declared name position d context :: ns, depth, _, h, hdepth => by
    obtain ⟨⟨hobeys, hbelow⟩, hrest⟩ := lawful_append.mp h
    have hrest := contextDepth_le hrest hdepth
    have hfirst : contextDepth (entriesOf root context) + depth ≤ bound := by
      by_cases hcontext : context = []
      · simpa [hcontext, entriesOf, contextDepth] using hdepth
      · exact Nat.le_of_succ_le_succ
          (contextDepth_le hbelow (hobeys.context_ne_nil_iff.mp hcontext).2.1)
    simp only [entriesOf, entry, Declaration.entry, contextDepth, ContextEntry.depth]
    omega

/-! ## Expanding a function of a project -/

/-- The notes of an expansion: those of the function with the given text. -/
def expansion? (t : Tree) (root : Path) (maxDepth : Nat) (text : String)
    (options : Finder.LocateOptions) (j : Journey) : Option (List Note) :=
  (Finder.locate? t root text options).bind fun found =>
    (Module.load? t found.file).map fun m =>
      (nodeWithin? m.tree found.start found.stop).elim [] fun function =>
        (notesFor t root (maxDepth - 1) m function j).1

theorem entry_context : (n.entry root).context = entriesOf root n.context := by
  cases n <;> rfl

theorem entry_context_eq_nil_iff : (n.entry root).context = [] ↔ n.context = [] := by
  rw [entry_context]
  cases n.context with
  | nil => simp [entriesOf]
  | cons _ _ => simp [entriesOf]

theorem le_depth_of_mem_occurrencesIn : ∀ {ns : List Note} {depth : Nat} {o : Occurrence},
    o ∈ occurrencesIn depth ns → depth ≤ o.depth
  | .plain .. :: ns, depth, o, h => by
    rcases mem_cons.mp h with rfl | h
    · exact Nat.le_refl _
    · exact le_depth_of_mem_occurrencesIn h
  | .declared .. :: ns, depth, o, h => by
    rcases mem_append.mp h with h | h
    · rcases mem_cons.mp h with rfl | h
      · exact Nat.le_refl _
      · exact Nat.le_of_succ_le (le_depth_of_mem_occurrencesIn h)
    · exact le_depth_of_mem_occurrencesIn h

section Expanding

variable {σ : Type} {e : Expander σ} {text : String} {options : Finder.LocateOptions}
  {found : Finder.FoundFunction} {maxDepth : Nat}

/-- What an expansion without servers gives: the entries of its notes, which obey the rule and are
nested no deeper than they may be. -/
theorem expand_eq (he : e.servers = none)
    (hfound : Finder.locate? t root text options = some found)
    (hm : Module.load? t found.file = some m) :
    ∃ f notes, ((expand t root maxDepth text options).run e).1 = some f ∧
      expansion? t root maxDepth text options e.journey = some notes ∧
      f.context = entriesOf root notes ∧ contextDepth f.context ≤ max 1 maxDepth ∧
      Lawful (max 1 maxDepth) e.visited (occurrencesIn 1 notes) := by
  unfold expand expansion?
  simp only [hfound, hm, Option.bind_some, Option.map_some]
  cases nodeWithin? m.tree found.start found.stop with
  | none =>
    exact ⟨⟨found.file, found.span, found.text, []⟩, [], rfl, rfl, rfl, Nat.zero_le _, trivial⟩
  | some function =>
    let notes := (notesFor t root (maxDepth - 1) m function e.journey).1
    have hlawful : Lawful (max 1 maxDepth) e.visited (occurrencesIn 1 notes) := by
      rw [show max 1 maxDepth = 1 + (maxDepth - 1) by omega]
      exact (walked_notesFor (maxDepth - 1) m function e.journey).lawful
    refine ⟨⟨found.file, found.span, found.text, entriesOf root notes⟩, notes, ?_, rfl, rfl, ?_, ?_⟩
    · rw [StateT.run_bind, mirrors_contextFor (maxDepth - 1) m function e he]
      rfl
    · exact Nat.le_of_succ_le_succ (contextDepth_le hlawful (Nat.le_max_left 1 maxDepth))
    · exact hlawful

theorem located_of_expansion? {j : Journey} {notes : List Note}
    (h : expansion? t root maxDepth text options j = some notes) :
    ∃ found m, Finder.locate? t root text options = some found ∧
      Module.load? t found.file = some m := by
  obtain ⟨found, hfound, h⟩ := Option.bind_eq_some_iff.mp h
  obtain ⟨m, hm, -⟩ := Option.map_eq_some_iff.mp h
  exact ⟨found, m, hfound, hm⟩

/-- The notes of an expansion are what it tells. -/
theorem expand_told (he : e.servers = none) {notes : List Note}
    (h : expansion? t root maxDepth text options e.journey = some notes) :
    ∃ f, ((expand t root maxDepth text options).run e).1 = some f ∧
      f.context = entriesOf root notes := by
  obtain ⟨found, m, hfound, hm⟩ := located_of_expansion? h
  obtain ⟨f, notes', hrun, hnotes, hcontext, -, -⟩ := expand_eq he hfound hm
  obtain rfl : notes = notes' := Option.some.inj (h.symm.trans hnotes)
  exact ⟨f, hrun, hcontext⟩

end Expanding

namespace Chained

def project : Path := ⟨"/p"⟩

/-- A project with one file, in which `h` uses `a` and `b`, and `a` uses `b`. -/
def tree : Tree :=
  { entries := [(["p"], .directory), (["p", "a.ts"],
      .file "function b()\x7bc\x7dfunction a()\x7bb\x7dfunction h()\x7ba;b\x7d".toUTF8.toList)] }

def options : Finder.LocateOptions :=
  { hints := ⟨some "function h()\x7ba;b\x7d", some "a.ts"⟩ }

def expander : Expander Unit := { resolver := { root := project } }

def notes? (maxDepth : Nat) : Option (List Note) :=
  expansion? tree project maxDepth "" options expander.journey

end Chained

namespace Aliased

/-- A project in which a file is imported through an alias, which leads to it by way of another
directory, and by its own path. -/
def tree : Tree :=
  { entries := [["p"], ["p", "l"], ["p", "s"]].map (·, .directory) ++
      [(["p", "tsconfig.json"], "\x7b\"compilerOptions\":\x7b\"baseUrl\":\"s\"," ++
          "\"paths\":\x7b\"@h\":[\"../l/h\"]\x7d\x7d\x7d"),
        (["p", "l", "h.ts"], "export function h()\x7bc\x7d"),
        (["p", "s", "a.ts"],
          "import\x7bh\x7dfrom'@h';import\x7bh as k\x7dfrom'../l/h';function f()\x7bh;k\x7d")].map
        fun file => (file.1, .file file.2.toUTF8.toList) }

def options : Finder.LocateOptions :=
  { hints := ⟨some "function f()\x7bh;k\x7d", some "s/a.ts"⟩ }

end Aliased

/-- An entry above the depth stands for a function that uses names from outside, but no entry of the
function has a context of its own. -/
def Loses (root : Path) (maxDepth : Nat) (notes : List Note) : Prop :=
  ∃ o ∈ occurrencesIn 1 notes, o.depth < maxDepth ∧ o.note.freeNames ≠ [] ∧
    ∃ d ∈ o.note.function?, ∀ a ∈ occurrencesIn 1 notes, ∀ d' ∈ a.note.function?,
      d'.same d → (a.note.entry root).context = []

instance (root : Path) (maxDepth : Nat) (notes : List Note) :
    Decidable (Loses root maxDepth notes) :=
  inferInstanceAs (Decidable (∃ _, _ ∧ _))

/-- Two entries stand for functions of one name in one file of a tree, whatever its paths. -/
def Occurrence.ShareFile (t : Tree) (a b : Occurrence) : Prop :=
  ∃ d ∈ a.note.function?, ∃ d' ∈ b.note.function?, d.name = d'.name ∧
    ∃ place ∈ t.real? d.file.path, t.real? d'.file.path = some place
  deriving Decidable

/-- Entries of different names stand for functions of one name in one file, and both have a context
of their own. -/
def ExpandsTwice (t : Tree) (root : Path) (notes : List Note) : Prop :=
  ∃ a ∈ occurrencesIn 1 notes, ∃ b ∈ occurrencesIn 1 notes, a.note.use ≠ b.note.use ∧
    (a.note.entry root).context ≠ [] ∧ (b.note.entry root).context ≠ [] ∧ a.ShareFile t b
  deriving Decidable

/-- The second entry is that of `b` below `a`: on the second of three levels it is new. With two
levels the expansion of `b` is lost. -/
theorem Chained.second_entry :
    (∃ notes ∈ Chained.notes? 2, Loses Chained.project 2 notes) ∧
    ∃ notes ∈ Chained.notes? 3, ∃ o ∈ (occurrencesIn 1 notes).tail.head?, o.depth = 2 ∧
      o.note.freeNames ≠ [] ∧ ∃ d ∈ o.note.function?,
        ∀ a ∈ (occurrencesIn 1 notes).head?, ∀ d' ∈ a.note.function?, d'.same d = false := by
  decide +kernel

section Results

variable {σ : Type} {e : Expander σ} {text : String} {options : Finder.LocateOptions}
  {found : Finder.FoundFunction} {maxDepth : Nat}

/-- **Expansion ends, within its depth, and expands nothing twice.** For a function that is found in
a file that can be read, there is a result; its entries are nested at most as deep as wanted, one
level at least; and any two entries with a context of their own stand for functions of different
files or of different names. A file is known by its path. -/
theorem expand_once (he : e.servers = none)
    (hfound : Finder.locate? t root text options = some found)
    (hm : Module.load? t found.file = some m) :
    ∃ f notes, ((expand t root maxDepth text options).run e).1 = some f ∧
      expansion? t root maxDepth text options e.journey = some notes ∧
      f.context = entriesOf root notes ∧ contextDepth f.context ≤ max 1 maxDepth ∧
      (occurrencesIn 1 notes).Pairwise fun a b =>
        (a.note.entry root).context ≠ [] → (b.note.entry root).context ≠ [] →
          ∃ d ∈ a.note.function?, ∃ d' ∈ b.note.function?, d.same d' = false := by
  obtain ⟨f, notes, hrun, hnotes, hcontext, hdepth, hlawful⟩ :=
    expand_eq he hfound hm
  refine ⟨f, notes, hrun, hnotes, hcontext, hdepth, ?_⟩
  simp only [ne_eq, entry_context_eq_nil_iff]
  exact hlawful.pairwise

/-- Two functions use a third one, which is expanded at most once. -/
theorem expand_once_chained :
    ∃ f notes, ((expand Chained.tree Chained.project 3 "" Chained.options).run
        Chained.expander).1 = some f ∧ Chained.notes? 3 = some notes ∧
      f.context = entriesOf Chained.project notes ∧ contextDepth f.context ≤ 3 ∧
      (occurrencesIn 1 notes).Pairwise fun a b =>
        (a.note.entry Chained.project).context ≠ [] → (b.note.entry Chained.project).context ≠ [] →
          ∃ d ∈ a.note.function?, ∃ d' ∈ b.note.function?, d.same d' = false := by
  obtain ⟨notes, hnotes, -⟩ := Chained.second_entry.1
  obtain ⟨found, m, hfound, hm⟩ := located_of_expansion? hnotes
  exact expand_once rfl hfound hm

/-- **A file that has two paths is expanded twice**: the function of one file, imported under two
names through an alias and directly, has a context of its own in both entries. -/
theorem file_expanded_twice :
    ∃ f notes, ((expand Aliased.tree Chained.project 2 "" Aliased.options).run
        Chained.expander).1 = some f ∧ f.context = entriesOf Chained.project notes ∧
      ExpandsTwice Aliased.tree Chained.project notes := by
  have htwice : ∃ notes ∈ expansion? Aliased.tree Chained.project 2 "" Aliased.options
      Chained.expander.journey, ExpandsTwice Aliased.tree Chained.project notes := by
    decide +kernel
  obtain ⟨notes, hnotes, htwice⟩ := htwice
  obtain ⟨f, hrun, hcontext⟩ := expand_told rfl hnotes
  exact ⟨f, notes, hrun, hcontext, htwice⟩

/-- **A function is expanded exactly if it is first met above the depth.** Of all entries that stand
for one function, take the first in order. One of them has a context of its own exactly if that
first one is above the depth and the function uses names from outside. -/
theorem expanded_iff_first_above (he : e.servers = none) (hvisited : e.visited = [])
    (hfound : Finder.locate? t root text options = some found)
    (hm : Module.load? t found.file = some m) :
    ∃ f notes, ((expand t root maxDepth text options).run e).1 = some f ∧
      expansion? t root maxDepth text options e.journey = some notes ∧
      f.context = entriesOf root notes ∧
      ∀ before o after d, occurrencesIn 1 notes = before ++ o :: after → d ∈ o.note.function? →
        (∀ a ∈ before, ∀ d' ∈ a.note.function?, d'.same d = false) →
        ((∃ a ∈ occurrencesIn 1 notes, (∃ d' ∈ a.note.function?, d'.same d = true) ∧
          (a.note.entry root).context ≠ []) ↔ o.depth < maxDepth ∧ o.note.freeNames ≠ []) := by
  obtain ⟨f, notes, hrun, hnotes, hcontext, -, hlawful⟩ :=
    expand_eq he hfound hm
  refine ⟨f, notes, hrun, hnotes, hcontext, fun before o after d hsplit hd hfirst => ?_⟩
  have hmem : o ∈ occurrencesIn 1 notes := by
    rw [hsplit]
    exact mem_append_right before mem_cons_self
  have hdepth : 1 ≤ o.depth := le_depth_of_mem_occurrencesIn hmem
  rw [hsplit] at hlawful ⊢
  simp only [ne_eq, entry_context_eq_nil_iff]
  rw [show o.depth < maxDepth ↔ o.depth < max 1 maxDepth by omega]
  exact hlawful.expanded_iff hd (by rw [hvisited]; rfl) hfirst

/-- A function that is first met on the second of three levels is expanded. -/
theorem expanded_iff_first_above_chained :
    ∃ f notes, ((expand Chained.tree Chained.project 3 "" Chained.options).run
        Chained.expander).1 = some f ∧ Chained.notes? 3 = some notes ∧
      f.context = entriesOf Chained.project notes ∧
      ∃ o ∈ (occurrencesIn 1 notes).tail.head?, o.depth = 2 ∧ ∃ d ∈ o.note.function?,
        ∃ a ∈ occurrencesIn 1 notes, (∃ d' ∈ a.note.function?, d'.same d = true) ∧
          (a.note.entry Chained.project).context ≠ [] := by
  obtain ⟨notes, hnotes, o, ho, hdepth, hnames, d, hd, hfirst⟩ := Chained.second_entry.2
  obtain ⟨found, m, hfound, hm⟩ := located_of_expansion? hnotes
  obtain ⟨f, notes', hrun, hnotes', hcontext, hexpanded⟩ :=
    expanded_iff_first_above (e := Chained.expander) rfl rfl hfound hm
  obtain rfl : notes = notes' := Option.some.inj (hnotes.symm.trans hnotes')
  refine ⟨f, notes, hrun, hnotes, hcontext, o, ho, hdepth, d, hd, ?_⟩
  generalize occurrencesIn 1 notes = os at ho hfirst hexpanded ⊢
  match os with
  | first :: second :: rest =>
    obtain rfl : second = o := Option.some.inj ho
    have hnew : ∀ a ∈ [first], ∀ d' ∈ a.note.function?, d'.same d = false := fun a ha =>
      hfirst a (by rw [mem_singleton.mp ha]; rfl)
    exact (hexpanded [first] second rest d rfl hd hnew).mpr ⟨by omega, hnames⟩

/-- **Expansion is lost to the order of names**: `b` is met below `a` first, where the depth of two
is reached, so it is not expanded on the first level either, although it uses a name from outside.
-/
theorem expansion_lost_at_bottom :
    ∃ f notes, ((expand Chained.tree Chained.project 2 "" Chained.options).run
        Chained.expander).1 = some f ∧ f.context = entriesOf Chained.project notes ∧
      Loses Chained.project 2 notes := by
  obtain ⟨notes, hnotes, hlost⟩ := Chained.second_entry.1
  obtain ⟨f, hrun, hcontext⟩ := expand_told rfl hnotes
  exact ⟨f, notes, hrun, hcontext, hlost⟩

end Results

end RouteAtlas.Expansion
