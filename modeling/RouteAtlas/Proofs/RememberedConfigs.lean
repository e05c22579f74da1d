import RouteAtlas.Proofs.Lookups
import RouteAtlas.Proofs.Respellings

/-!
# Configurations that are remembered

A resolver looks for the configuration of a directory once and remembers what it found, and also
that it found nothing. It is asked in turn for configurations and for modules, and told to forget.
Two texts may name one directory, as `a/b` and `a/./b` do: what is remembered for it then belongs to
the text that was asked for first.

Results:
* `Resolver.Remembers.after`: what is known after some calls.
* `Resolver.answers_like_new`: nobody can tell a resolver that remembers from a new one.
-/

open List Option

namespace RouteAtlas.Modules

open Files

variable {t : Tree}

namespace Resolver

variable {r r' : Resolver} {root : Path} {asked : List Path}

/-! ## Calls -/

/-- What is asked of a resolver, or told it. -/
inductive Call where
  | config (dir : Path)
  | resolve (specifier : String) (importer : Path)
  | forget

/-- What a call is answered with. -/
inductive Answer where
  | config (found : Option Config)
  | file (found : Except ResolveError Path)
  | none

namespace Call

def run (t : Tree) : Call → StateM Resolver Answer
  | .config dir => .config <$> configFor t dir
  | .resolve specifier importer => .file <$> Resolver.resolve t specifier importer
  | .forget => do
    modify Resolver.forget
    return .none

/-- The directory whose configuration the call needs. -/
def asks? : Call → Option Path
  | .config dir => some dir
  | .resolve specifier importer => if isBare specifier then importer.parent? else Option.none
  | .forget => Option.none

/-- The directories that were asked for since the last time that all was forgotten, after one more
call. -/
def note (asked : List Path) : Call → List Path
  | .forget => []
  | c => asked ++ c.asks?.toList

end Call

/-- The directories that some calls have asked for since the last time that all was forgotten. -/
def askedBy (calls : List Call) : List Path := calls.foldl Call.note []

def after (t : Tree) (r : Resolver) (calls : List Call) : Resolver :=
  calls.foldl (fun r c => ((c.run t).run r).2) r

/-! ## What is remembered -/

/-- What is known after some directories were asked for: for each of them, what the files give for
its first spelling. -/
structure Remembers (t : Tree) (root : Path) (asked : List Path) (r : Resolver) : Prop where
  sameRoot : r.root = root
  kept : ∀ dir, r.kept? dir = (asked.find? (·.same dir)).map (lookUp { root } t)

namespace Remembers

theorem configFor (h : Remembers t root asked r) (dir : Path) :
    Remembers t root (asked ++ [dir]) ((configFor t dir).run r).2 where
  sameRoot := (root_run_configFor t dir r).trans h.sameRoot
  kept other := by
    rw [kept?_run_configFor, h.kept, lookUp_congr (s := { root }) h.sameRoot, find?_append,
      find?_singleton]
    cases asked.find? (·.same other) with
    | some d => rfl
    | none => split <;> rfl

theorem run (h : Remembers t root asked r) (c : Call) :
    Remembers t root (c.note asked) ((c.run t).run r).2 := by
  cases c with
  | forget => exact ⟨h.sameRoot, fun dir => rfl⟩
  | config dir => exact h.configFor dir
  | resolve specifier importer =>
    have hstate : (((Call.resolve specifier importer).run t).run r).2 =
        ((resolve? t specifier importer).run r).2 :=
      congrArg Prod.snd (run_resolve t specifier importer r)
    rw [hstate, run_resolve?_snd]
    simp only [Call.note, Call.asks?]
    cases (if isBare specifier = true then importer.parent? else Option.none) with
    | none => simpa using h
    | some dir => exact h.configFor dir

theorem after (h : Remembers t root asked r) (calls : List Call) :
    Remembers t root (calls.foldl Call.note asked) (after t r calls) := by
  induction calls generalizing asked r with
  | nil => exact h
  | cons c calls ih => exact ih (h.run c)

theorem config? (h : Remembers t root asked r) (dir : Path) :
    r.config? t dir = lookUp { root } t ((asked.find? (·.same dir)).getD dir) := by
  rw [Resolver.config?, h.kept, lookUp_congr (s := { root }) h.sameRoot]
  cases asked.find? (·.same dir) <;> rfl

end Remembers

/-! ## Answers -/

/-- Two answers that are the same, up to the spelling of paths. -/
inductive Answer.Same : Answer → Answer → Prop
  | config {c d : Option Config} (h : Option.Rel Config.Same c d) : Same (.config c) (.config d)
  | file {p q : Path} (h : p.same q) : Same (.file (.ok p)) (.file (.ok q))
  | error (e : ResolveError) : Same (.file (.error e)) (.file (.error e))
  | none : Same .none .none

theorem finds_same (specifier : String) (importer : Path) (hroot : r.root = r'.root)
    (h : ∀ dir, importer.parent? = some dir → isBare specifier →
      Option.Rel Config.Same (r.config? t dir) (r'.config? t dir)) :
    Option.Rel (fun p q => p.same q = true) (r.finds t specifier importer)
      (r'.finds t specifier importer) := by
  rw [finds_eq, finds_eq, ← settle_congr hroot]
  cases hparent : importer.parent? with
  | none => exact .none
  | some dir =>
    by_cases hbare : isBare specifier
    · simp only [bind_some, hbare, if_true, map_eq_bind]
      exact rel_bind (bareFile?_same (h dir hparent hbare) specifier dir) fun _ _ hpq =>
        .some (settle_respelled r hpq)
    · simp only [hbare]
      exact rel_self (fun _ => beq_self_eq_true _) _

/-- A call is answered by the root and the configuration that it needs. -/
theorem answer_same {c : Call} (hroot : r.root = r'.root) (h : ∀ dir, c.asks? = some dir →
      Option.Rel Config.Same (r.config? t dir) (r'.config? t dir)) :
    ((c.run t).run r).1.Same ((c.run t).run r').1 := by
  cases c with
  | forget => exact .none
  | config dir =>
    have hconfig := h dir rfl
    rw [← run_configFor_fst, ← run_configFor_fst] at hconfig
    exact .config hconfig
  | resolve specifier importer =>
    have hfinds := finds_same specifier importer hroot fun dir hparent hbare =>
      h dir (by simp [Call.asks?, hbare, hparent])
    have hanswer : ∀ r : Resolver, (((Call.resolve specifier importer).run t).run r).1 = .file
        ((r.finds t specifier importer).elim (.error (.notFound specifier importer)) .ok) := by
      intro r
      show Answer.file ((Resolver.resolve t specifier importer).run r).1 = _
      rw [run_resolve]
    rw [hanswer, hanswer]
    generalize r.finds t specifier importer = found at hfinds
    generalize r'.finds t specifier importer = found' at hfinds
    cases hfinds with
    | none => exact .error _
    | some h => exact .file h

/-- **A resolver answers as if it was new**, whatever it has been asked and told before: with the
same configuration, the same file or the same error. Paths are the same if their components are. The
configuration for a directory is the nearest one at it or above it, but not above the root of the
project if the directory lies there. -/
theorem answers_like_new (t : Tree) (root : Path) (calls : List Call) (c : Call) :
    ((c.run t).run (after t { root } calls)).1.Same ((c.run t).run { root }).1 ∧
    ∀ start path, nearestConfig? t start root = some path ↔
      ∃ n dir, start.up? n = some dir ∧ (root.isBelow start = true → root.isBelow dir = true) ∧
        path = dir.join configName ∧ t.isFile path = true ∧
        ∀ m < n, ∀ nearer, start.up? m = some nearer →
          t.isFile (nearer.join configName) = false := by
  have hnew : Remembers t root [] { root } := ⟨rfl, fun _ => rfl⟩
  have hafter : Remembers t root (askedBy calls) (after t { root } calls) := hnew.after calls
  refine ⟨answer_same hafter.sameRoot fun dir _ => ?_, fun start path => nearestConfig?_eq_some_iff⟩
  rw [hafter.config?, hnew.config?]
  refine lookUp_same { root } ?_
  cases hfound : (askedBy calls).find? (·.same dir) with
  | none => exact beq_self_eq_true _
  | some d => simpa using find?_some hfound

end Resolver

end RouteAtlas.Modules
