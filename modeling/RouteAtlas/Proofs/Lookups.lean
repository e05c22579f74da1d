import RouteAtlas.Inventory.Graph
import RouteAtlas.Modules.Resolver

/-!
# Look-ups that are remembered

A resolver keeps every configuration that it has looked up, so whatever asks it for files runs in a
state. Two runs may begin with different resolvers, and two spellings of one directory share the
configuration of the one that was asked for first. But what a resolver knows it keeps: seen from a
resolver that knows all that a run has come to know, the answers of the run are those of a plain
function (`Resolver.finds`).
-/

open Option

namespace RouteAtlas

open Files

namespace Modules.Resolver

variable {t : Tree} {α β : Type}

/-! ## What a resolver knows -/

variable (r : Resolver)

/-- What a resolver keeps for a directory. -/
def kept? (dir : Path) : Option (Option Config) :=
  (r.known.find? fun (d, _) => d.same dir).map (·.2)

/-- **The second resolver knows all that the first one knows.** -/
structure Later (r r' : Resolver) : Prop where
  root : r'.root = r.root
  keeps : ∀ dir config, r.kept? dir = some config → r'.kept? dir = some config

theorem Later.refl : r.Later r := ⟨rfl, fun _ _ h => h⟩

theorem Later.trans {a b c : Resolver} (h : a.Later b) (h' : b.Later c) : a.Later c where
  root := h'.root.trans h.root
  keeps dir config hknown := h'.keeps dir config (h.keeps dir config hknown)

/-- The resolver with a configuration for one more directory. -/
def learn (dir : Path) (config : Option Config) : Resolver :=
  { r with known := (dir, config) :: r.known }

theorem kept?_learn (dir other : Path) (config : Option Config) :
    (r.learn dir config).kept? other = if dir.same other then some config else r.kept? other := by
  simp only [kept?, learn]
  split
  · rename_i hsame
    simp [hsame]
  · rename_i hother
    simp [hother]

theorem kept?_congr {dir other : Path} (h : dir.same other) : r.kept? dir = r.kept? other := by
  have hcomponents : dir.components = other.components := by simpa [Path.same] using h
  simp [kept?, Path.same, hcomponents]

theorem run_configFor (t : Tree) (dir : Path) (r : Resolver) :
    (configFor t dir).run r = (r.kept? dir).elim
      (r.lookUp t dir, r.learn dir (r.lookUp t dir)) fun config => (config, r) := by
  unfold kept?
  cases h : r.known.find? fun (d, _) => d.same dir
  all_goals
    simp only [configFor, StateT.run_bind, StateT.run_get, pure_bind, h]
    rfl

/-- The configuration for a directory: the one that is kept, or else what the files give. -/
def config? (t : Tree) (dir : Path) : Option Config :=
  (r.kept? dir).getD (r.lookUp t dir)

theorem run_configFor_fst (t : Tree) (dir : Path) (r : Resolver) :
    ((configFor t dir).run r).1 = r.config? t dir := by
  rw [run_configFor, config?]
  cases r.kept? dir <;> rfl

theorem root_run_configFor (t : Tree) (dir : Path) (r : Resolver) :
    ((configFor t dir).run r).2.root = r.root := by
  rw [run_configFor]
  cases r.kept? dir <;> rfl

/-- A directory that was asked for is known, and what was known before counts first. -/
theorem kept?_run_configFor (t : Tree) (dir other : Path) (r : Resolver) :
    ((configFor t dir).run r).2.kept? other =
      (r.kept? other).or (if dir.same other then some (r.lookUp t dir) else Option.none) := by
  have hcongr : dir.same other → r.kept? other = r.kept? dir := fun h => (r.kept?_congr h).symm
  rw [run_configFor]
  cases hkept : r.kept? dir with
  | some config =>
    split <;> simp_all
  | none =>
    show (r.learn dir (r.lookUp t dir)).kept? other = _
    rw [kept?_learn]
    split <;> simp_all

/-! ## Answers told by a later resolver -/

/-- **A resolver tells the answer of a step**: the step only adds to what is known, and it has given
this answer whenever the resolver knows all that was known behind it. -/
structure Tells (last : Resolver) (step : StateM Resolver α) (answer : α) : Prop where
  grows : ∀ r : Resolver, r.Later (step.run r).2
  told : ∀ r : Resolver, (step.run r).2.Later last → (step.run r).1 = answer

namespace Tells

variable {last : Resolver} {answer : α}
variable {step : StateM Resolver α}

theorem later (h : Tells last step answer) {a : α} {r r' : Resolver} (hrun : step.run r = (a, r')) :
    r.Later r' := by
  have hgrows := h.grows r
  rwa [hrun] at hgrows

theorem eq (h : Tells last step answer) {a : α} {r r' : Resolver} (hrun : step.run r = (a, r'))
    (hlast : r'.Later last) : a = answer := by
  have htold := h.told r (by rwa [hrun])
  rwa [hrun] at htold

theorem pure (a : α) : Tells last (Pure.pure a) a where
  grows r := .refl r
  told _ _ := rfl

theorem bind {next : α → StateM Resolver β} {v : α → β} (h : Tells last step answer)
    (hnext : ∀ a, Tells last (next a) (v a)) :
    Tells last (step >>= next) (v answer) where
  grows r := (h.grows r).trans ((hnext _).grows _)
  told r hlast := by
    have hstep : (step.run r).1 = answer := h.told r (((hnext _).grows _).trans hlast)
    have hrest := (hnext (step.run r).1).told (step.run r).2 hlast
    rw [hstep] at hrest
    exact Eq.trans (congrArg (fun a => ((next a).run (step.run r).2).1) hstep) hrest

theorem map (f : α → β) (h : Tells last step answer) : Tells last (f <$> step) (f answer) where
  grows := h.grows
  told r hlast := congrArg f (h.told r hlast)

theorem mapM {f : α → StateM Resolver β} {v : α → β} (h : ∀ a, Tells last (f a) (v a)) :
    ∀ as : List α, Tells last (as.mapM f) (as.map v)
  | [] => .pure []
  | a :: as => by
    rw [List.mapM_cons]
    exact (h a).bind (v := fun b => b :: as.map v) fun b =>
      (mapM h as).bind (v := fun bs => b :: bs) fun bs => .pure (b :: bs)

theorem findSomeM? {f : α → StateM Resolver (Option β)} {v : α → Option β}
    (h : ∀ a, Tells last (f a) (v a)) :
    ∀ as : List α, Tells last (as.findSomeM? f) (as.findSome? v)
  | [] => .pure none
  | a :: as => by
    have hfirst : (a :: as).findSome? v = (v a).or (as.findSome? v) := by
      rw [List.findSome?_cons]
      cases v a <;> rfl
    rw [hfirst]
    refine (h a).bind (v := fun found => found.or (as.findSome? v)) fun found => ?_
    cases found with
    | none => exact findSomeM? h as
    | some b => exact .pure (some b)

end Tells

theorem tells_configFor (last : Resolver) (t : Tree) (dir : Path) :
    Tells last (configFor t dir) (last.config? t dir) where
  grows r :=
    { root := root_run_configFor t dir r
      keeps := fun other config h => by rw [kept?_run_configFor, h]; rfl }
  told r hlast := by
    have hknown : ((configFor t dir).run r).2.kept? dir = some (r.config? t dir) := by
      rw [kept?_run_configFor, if_pos (by simp [Path.same]), config?]
      cases r.kept? dir <;> rfl
    rw [run_configFor_fst, config?.eq_def last, hlast.keeps dir _ hknown]
    rfl

def finds (t : Tree) (specifier : String) (importer : Path) : Option Path :=
  ((resolve? t specifier importer).run r).1

theorem finds_eq (t : Tree) (specifier : String) (importer : Path) :
    r.finds t specifier importer = importer.parent?.bind fun dir =>
      (if isBare specifier then bareFile? t (r.config? t dir) specifier dir
        else pathFile? t specifier dir).map (r.settle t) := by
  unfold finds resolve?
  cases importer.parent? with
  | none => rfl
  | some dir =>
    by_cases hbare : isBare specifier
    · simp only [hbare, if_true, bind_some, StateT.run_bind, run_configFor, config?]
      cases r.kept? dir with
      | none => rfl
      | some config => rfl
    · simp only [hbare, bind_some]
      generalize pathFile? t specifier dir = found
      rfl

theorem run_resolve?_snd (t : Tree) (specifier : String) (importer : Path) (r : Resolver) :
    ((resolve? t specifier importer).run r).2 =
      (if isBare specifier then importer.parent? else Option.none).elim r
        fun dir => ((configFor t dir).run r).2 := by
  unfold resolve?
  cases importer.parent? with
  | none => cases isBare specifier <;> rfl
  | some dir =>
    by_cases hbare : isBare specifier
    · simp only [hbare]
      rfl
    · simp only [hbare]
      rfl

theorem run_resolve (t : Tree) (specifier : String) (importer : Path) (r : Resolver) :
    (resolve t specifier importer).run r =
      ((r.finds t specifier importer).elim (.error (.notFound specifier importer)) .ok,
        ((resolve? t specifier importer).run r).2) := by
  unfold resolve finds
  rw [StateT.run_bind]
  generalize (resolve? t specifier importer).run r = step
  obtain ⟨_ | found, r'⟩ := step <;> rfl

theorem settle_congr {r r' : Resolver} (h : r.root = r'.root) (t : Tree) :
    r.settle t = r'.settle t := by
  funext path
  simp [settle, h]

theorem lookUp_congr {r s : Resolver} (h : r.root = s.root) (t : Tree) :
    r.lookUp t = s.lookUp t := by
  funext path
  simp [lookUp, h]

/-- Paths lead to the same files for all resolvers of a project. -/
theorem finds_eq_of_root {r r' : Resolver} (hroot : r.root = r'.root) {specifier : String}
    (hbare : isBare specifier = false) (t : Tree) (importer : Path) :
    r.finds t specifier importer = r'.finds t specifier importer := by
  rw [finds_eq, finds_eq, hbare, settle_congr hroot]
  rfl

/-- **A later resolver tells which files were found.** -/
theorem tells_resolve? (last : Resolver) (t : Tree) (specifier : String) (importer : Path) :
    Tells last (resolve? t specifier importer) (last.finds t specifier importer) := by
  rw [finds_eq]
  unfold resolve?
  cases importer.parent? with
  | none => exact .pure none
  | some dir =>
    -- only the root of the resolver matters to where a file settles
    have hsettled : ∀ found : Option Path,
        Tells last (do return found.map ((← get).settle t)) (found.map (last.settle t)) :=
      fun found =>
        { grows := fun r => .refl r
          told := fun r hlast => by
            rw [settle_congr hlast.root]
            rfl }
    by_cases hbare : isBare specifier
    · simp only [hbare]
      exact ((tells_configFor last t dir).bind (v := fun config => bareFile? t config specifier dir)
        fun config => .pure _).bind (v := fun found => found.map (last.settle t)) hsettled
    · simp only [hbare, bind_some]
      exact (Tells.pure (pathFile? t specifier dir)).bind
        (v := fun found => found.map (last.settle t)) hsettled

end Modules.Resolver

/-! ## Linking with a resolver that remembers -/

namespace Inventory

open Modules Modules.Resolver

variable (link : MountTarget → Path → Option RouterKey)

/-- An entry of a file with its mount linked by a plain function. -/
def Entry.linkedBy (file : Path) :
    Entry → LinkedEntry
  | .resource draft => .resource draft
  | .mount m => .mount m (link m.target file)

/-- A router of a file with its mounts linked by a plain function. -/
def Router.linkedBy (c : Contribution) (t : Router) : LinkedRouter :=
  ⟨t.key, c.relPath, t.fromFactory, t.entries.map (·.linkedBy link c.file)⟩

namespace Graph

variable {last : Resolver}

variable (g : Graph)

variable (find : String → Path → Option Path)

/-- The router that a target stands for in a file, if a plain function finds the files. -/
def plainLink? (hops : Nat) (target : MountTarget) (file : Path) : Option RouterKey :=
  Id.run (g.link? (fun specifier importer => pure (find specifier importer)) hops target file)

/-- The router that a file gives out under a name, if a plain function finds the files. -/
def plainExported? (hops : Nat) (file : Path) (name : String) : Option RouterKey :=
  (g.contribution? file).bind fun c => (c.exports.lookup name).elim
    ((c.bindings.filterMap (passedOn? name)).findSome? (g.plainLink? find hops · file))
    (g.plainLink? find hops · file)

theorem plainLink?_imported (hops : Nat)
    (specifier name : String) (file : Path) :
    g.plainLink? find (hops + 1) (.imported specifier name) file =
      (find specifier file).bind fun path => g.plainExported? find hops path name := by
  unfold plainLink? link?
  cases find specifier file with
  | none => rfl
  | some path =>
    simp only [pure_bind, bind_some, exported?, plainExported?]
    cases g.contribution? path with
    | none => rfl
    | some c =>
      cases hexport : c.exports.lookup name with
      | some target => simp [hexport, plainLink?]
      | none =>
        simp only [hexport, bind_some]
        exact List.findSomeM?_pure (m := Id)

/-- **Linking asks for files and nothing else**: a later resolver tells which router is linked. -/
theorem tells_link? (t : Tree) (hops : Nat) : ∀ (target : MountTarget) (file : Path),
    Tells last (g.link? (resolve? t) hops target file)
      (g.plainLink? (last.finds t) hops target file) := by
  induction hops with
  | zero => exact fun target file => by cases target <;> exact .pure none
  | succ hops ih =>
    intro target file
    cases target with
    | router key => exact .pure _
    | imported specifier name =>
      rw [plainLink?_imported]
      refine (tells_resolve? last t specifier file).bind
        (v := fun found => found.bind fun path => g.plainExported? (last.finds t) hops path name)
        fun found => ?_
      cases found with
      | none => exact .pure none
      | some path =>
        simp only [exported?, bind_some, plainExported?]
        cases g.contribution? path with
        | none => exact .pure none
        | some c =>
          simp only [bind_some]
          cases c.exports.lookup name with
          | some target => exact ih target path
          | none => exact .findSomeM? (fun target => ih target path) _

/-- **A later resolver tells the network of a graph**: every mount is linked by one function. -/
theorem tells_network (t : Tree) :
    Tells last (g.network (resolve? t)) (g.keyedRouters.map fun p =>
      p.2.linkedBy (g.plainLink? (last.finds t) exportHops) p.1) := by
  refine .mapM (fun p => (Tells.mapM (fun entry => ?_) p.2.entries).map
    (LinkedRouter.mk p.2.key p.1.relPath p.2.fromFactory)) g.keyedRouters
  cases entry with
  | resource draft => exact .pure _
  | mount mount =>
    exact (g.tells_link? t exportHops mount.target p.1.file).map (LinkedEntry.mount mount)

end Graph

end Inventory

end RouteAtlas
