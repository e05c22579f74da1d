import Mathlib.Data.Option.Basic
import RouteAtlas.Inventory.Extract
import RouteAtlas.Proofs.Pattern

/-!
# Drafts of a file

Whatever a file looks like, the paths of its drafts are joined patterns and start with a slash. The
passes are gone through one by one (`Reading.routers_induction`): only registrations make drafts
(`Reading.Gives`), and the other passes add routers without drafts (`Findings.Grows`) or leave the
routers alone and give them out (`Findings.GivesOut`).
-/

open List Option

namespace RouteAtlas.Inventory

open Source

/-- The path of a draft starts with a slash; mounts have no draft. -/
def Entry.Slashed : Entry → Prop
  | .resource d => d.path.toList.head? = some '/'
  | .mount _ => True

def AllSlashed (entries : List Entry) : Prop := ∀ e ∈ entries, e.Slashed

/-! ## What a call gives -/

/-- **What a call gives**: the draft of a handler, or the mount of a target that the findings have.
-/
inductive Reading.Gives (r : Reading) (x : Findings) : Entry → Prop
  | draft (method path : String) (kind : ResourceKind) (n : Node) :
      Gives r x (r.draft method path kind n)
  | mount {n : Node} {m : Mount} (h : r.mountTarget? x n = some m.target) : Gives r x (.mount m)

theorem Reading.Gives.slashed {r : Reading} {x : Findings} {e : Entry} (h : r.Gives x e) :
    e.Slashed := by
  cases h with
  | draft method path kind n => exact Http.Pattern.join_head "" path
  | mount => trivial

namespace Reading

variable (r : Reading) (x : Findings)

theorem middleware_gives (call : Node) (path : String) (handlers : List Node) :
    ∀ e ∈ (r.middleware call path handlers).entries, r.Gives x e := by
  unfold middleware
  split
  · exact forall_mem_nil _
  · intro e he
    obtain ⟨n, -, rfl⟩ := mem_map.mp he
    exact .draft ..

theorem routes_gives (call : Node) (path : String) (methods : List String) (handlers : List Node) :
    ∀ e ∈ (r.routes call path methods handlers).entries, r.Gives x e := by
  unfold routes
  split
  · exact forall_mem_nil _
  intro e he
  obtain ⟨method, -, he⟩ := mem_flatMap.mp he
  rcases mem_append.mp he with he | he
  · obtain ⟨n, -, rfl⟩ := mem_map.mp he
    exact .draft ..
  · cases mem_singleton.mp he
    exact .draft ..

variable (base : String)

theorem useOutcome_gives (call : Node) (args : List Node) :
    ∀ e ∈ (r.useOutcome base call args).entries, r.Gives x e := by
  unfold useOutcome
  split
  · split
    · split
      · exact r.middleware_gives x _ _ _
      · exact forall_mem_nil _
    · exact r.middleware_gives x _ _ _
  · exact r.middleware_gives x _ _ _

theorem onOutcome_gives (call : Node) (args : List Node) :
    ∀ e ∈ (r.onOutcome base call args).entries, r.Gives x e := by
  unfold onOutcome
  split
  · split
    · exact forall_mem_nil _
    · simp only
      split
      · exact forall_mem_nil _
      split
      · exact forall_mem_nil _
      refine List.foldlRecOn _ _ (motive := fun o : Outcome => ∀ e ∈ o.entries, r.Gives x e)
        (forall_mem_nil _) fun _ h o ho => forall_mem_append.mpr ⟨h, ?_⟩
      obtain ⟨path, -, rfl⟩ := mem_map.mp ho
      exact r.routes_gives x _ _ _ _
  · exact forall_mem_nil _

theorem describedOutcome_gives (call : Node) (args : List Node) :
    ∀ e ∈ (r.describedOutcome base call args).entries, r.Gives x e := by
  unfold describedOutcome
  split
  · exact forall_mem_nil _
  split
  · exact forall_mem_nil _
  simp only
  split
  · exact r.routes_gives x _ _ _ _
  · exact forall_mem_nil _

theorem verbOutcome_gives (base name : String) (call : Node) (args : List Node) :
    ∀ e ∈ (r.verbOutcome base name call args).entries, r.Gives x e := by
  unfold verbOutcome
  split
  · exact forall_mem_nil _
  split
  · exact forall_mem_nil _
  · split
    · exact r.routes_gives x _ _ _ _
    · exact forall_mem_nil _

theorem routeOutcome_gives (base name : String) (call : Node) :
    ∀ e ∈ (r.routeOutcome base name call).entries, r.Gives x e := by
  unfold routeOutcome
  split
  · exact r.useOutcome_gives x _ _ _
  split
  · exact r.onOutcome_gives x _ _ _
  · split
    · exact r.describedOutcome_gives x _ _ _
    · exact r.verbOutcome_gives x _ _ _ _

theorem mountOutcome_gives (call : Node) :
    ∀ e ∈ (r.mountOutcome x base call).entries, r.Gives x e := by
  unfold mountOutcome
  split
  · simp only
    split
    · exact forall_mem_nil _
    · rename_i htarget
      exact forall_mem_singleton.mpr (.mount htarget)
  · exact forall_mem_nil _

theorem callOutcome_gives (call : Node) :
    ∀ e ∈ (r.callOutcome x base call).1.entries, r.Gives x e := by
  unfold callOutcome
  split
  · split
    · exact forall_mem_nil _
    · split <;> exact forall_mem_nil _
  · exact r.routeOutcome_gives x _ _ _
  · exact r.mountOutcome_gives x _ _
  all_goals exact forall_mem_nil _

/-- **What the calls of a chain give.** -/
theorem callsOutcome_gives : ∀ (calls : List Node) (base : String),
    ∀ e ∈ (r.callsOutcome x base calls).entries, r.Gives x e
  | [], _ => forall_mem_nil _
  | call :: calls, base =>
    forall_mem_append.mpr ⟨r.callOutcome_gives x base call, callsOutcome_gives calls _⟩

end Reading

/-! ## What the passes do to routers -/

/-- The declarator takes the value of a chain that starts with the node. -/
def TakesFrom (d : Site) (u : Node) : Prop :=
  ∃ value ∈ d.node.child? .value, chainRoot value.unwrapped = u

def Reading.declaredName (r : Reading) (d : Site) : String :=
  ((d.node.child? .name).map r.textOf).getD anonymous

/-- **What a pass does at one place**, which may be a declarator. -/
inductive Findings.Grows (r : Reading) (x : Findings) (d : Option Site) (offset : Nat)
    (y : Findings) : Prop
  | kept (hrouters : y.routers = x.routers) (hnames : y.names = x.names)
      (howners : y.owners = x.owners)
  /-- A router is made, with nothing but mounts on it. A declarator gives it a name. -/
  | made (t : Router) (base : String) (hmounts : ∀ e ∈ t.entries, ∃ m, e = .mount m)
      (hkey : t.key = ⟨r.file.path, d.elim offset (·.node.start)⟩)
      (hrouters : y.routers = x.routers ++ [t])
      (hnames : y.names = x.names ++
        d.toList.map fun site => ⟨r.declaredName site, site.scope, ⟨x.routers.length, base⟩⟩)
      (howners : y.owners = (offset, x.routers.length) :: x.owners)
  /-- The declarator gives a further name to the router of another name. -/
  | taken (site : Site) (root : Node) (handle : Handle) (base : String) (hd : d = some site)
      (hfrom : TakesFrom site root) (hroot : root.is .identifier)
      (hlookup : x.lookup? (r.textOf root) root.start = some handle)
      (hrouters : y.routers = x.routers)
      (hnames : y.names = x.names ++ [⟨r.declaredName site, site.scope, ⟨handle.router, base⟩⟩])
      (howners : y.owners = x.owners)

namespace Findings

def Slashed (x : Findings) : Prop := ∀ t ∈ x.routers, AllSlashed t.entries

variable {x : Findings} {r : Reading}

variable (name : String)

theorem giveOut_names (target : Option MountTarget) : (x.giveOut name target).names = x.names := by
  cases target <;> rfl

theorem giveOut_owners (target : Option MountTarget) :
    (x.giveOut name target).owners = x.owners := by
  cases target <;> rfl

@[simp] theorem giveOut_routers (target : Option MountTarget) :
    (x.giveOut name target).routers = x.routers := by
  cases target <;> rfl

theorem Slashed.of_routers_eq {y : Findings} (h : x.Slashed) (heq : y.routers = x.routers) :
    y.Slashed := by
  unfold Slashed
  rw [heq]
  exact h

theorem mem_register {router : Nat} {entries : List Entry} {t : Router}
    (ht : t ∈ (x.register router entries).routers) :
    ∃ u ∈ x.routers, ∀ e ∈ t.entries, e ∈ u.entries ∨ e ∈ entries := by
  obtain ⟨i, hi⟩ := getElem?_of_mem ht
  rw [Findings.register, getElem?_modify] at hi
  obtain ⟨u, hu, rfl⟩ := map_eq_some_iff.mp hi
  refine ⟨u, mem_of_getElem? hu, fun e he => ?_⟩
  split at he
  · exact mem_append.mp he
  · exact .inl he

theorem Slashed.register (h : x.Slashed) {router : Nat} {entries : List Entry}
    (he : AllSlashed entries) : (x.register router entries).Slashed := by
  intro t ht e hmem
  obtain ⟨u, hu, hentries⟩ := mem_register ht
  exact (hentries e hmem).elim (h u hu e) (he e)

theorem Slashed.grows {y : Findings} {d : Option Site} {offset : Nat} (h : x.Slashed)
    (hgrows : x.Grows r d offset y) : y.Slashed := by
  cases hgrows with
  | kept hrouters => exact h.of_routers_eq hrouters
  | made t base hmounts _ hrouters =>
    intro u hu
    rw [hrouters] at hu
    rcases mem_append.mp hu with hu | hu
    · exact h u hu
    · intro e he
      obtain ⟨m, rfl⟩ := hmounts e (mem_singleton.mp hu ▸ he)
      trivial
  | taken _ _ _ _ _ _ _ _ hrouters => exact h.of_routers_eq hrouters

theorem grows_withConstruction (x : Findings) (r : Reading) (c : Construction) :
    x.Grows r c.declarator c.expression.node.start (x.withConstruction r c) := by
  unfold withConstruction
  simp only
  split
  · exact .kept rfl rfl rfl
  split
  · rename_i site hsite
    rw [hsite]
    exact .made _ _ (forall_mem_nil _) rfl rfl rfl rfl
  · rename_i hsite
    rw [hsite]
    split
    · exact .made _ "" (forall_mem_nil _) rfl (giveOut_routers ..)
        ((giveOut_names ..).trans (append_nil _).symm) (giveOut_owners ..)
    · exact .made _ "" (forall_mem_nil _) rfl rfl (append_nil _).symm rfl

theorem withFunction_keeps (x : Findings) (r : Reading) (f : NamedFunction) :
    (x.withFunction r f).routers = x.routers ∧ (x.withFunction r f).names = x.names ∧
      (x.withFunction r f).owners = x.owners := by
  unfold withFunction
  split
  · exact ⟨rfl, rfl, rfl⟩
  split
  · exact ⟨giveOut_routers .., giveOut_names .., giveOut_owners ..⟩
  · exact ⟨rfl, rfl, rfl⟩

theorem grows_withAlias (x : Findings) (r : Reading) (site : Site) :
    ∃ offset, x.Grows r (some site) offset (x.withAlias r site) := by
  unfold withAlias
  split
  · rename_i nameNode value hname hvalue
    have hdeclared : r.textOf nameNode = r.declaredName site := by
      rw [Reading.declaredName, hname]
      rfl
    refine ⟨(chainRoot value.unwrapped).start, ?_⟩
    rw [hdeclared]
    simp only
    split
    · exact .kept rfl rfl rfl
    split
    · rename_i hroot
      split
      · exact .kept rfl rfl rfl
      · rename_i handle hlookup
        split
        all_goals exact .taken site _ handle _ rfl ⟨value, hvalue, rfl⟩ hroot hlookup rfl rfl rfl
    · split
      · split
        · exact .kept rfl rfl rfl
        · exact .made _ _ (forall_mem_singleton.mpr ⟨_, rfl⟩) rfl rfl rfl rfl
      · exact .kept rfl rfl rfl
  · exact ⟨0, .kept rfl rfl rfl⟩

theorem Slashed.withChain (h : x.Slashed) (outer : Node) : (x.withChain r outer).Slashed := by
  unfold Findings.withChain
  split
  · exact h
  · exact .of_routers_eq (h.register fun e he => (r.callsOutcome_gives x _ _ e he).slashed) rfl

/-! ### Exports -/

/-- The target is a name of another module, or a router that there is. -/
def Offers (x : Findings) (t : MountTarget) : Prop :=
  ∀ key, t = .router key → ∃ u ∈ x.routers, u.key = key

theorem Offers.of_routers_eq {y : Findings} {t : MountTarget} (h : x.Offers t)
    (heq : y.routers = x.routers) : y.Offers t := by
  unfold Offers
  rw [heq]
  exact h

/-- **What exports do**: targets are given out, one after another. -/
inductive GivesOut (x : Findings) : Findings → Prop
  | start : GivesOut x x
  | next {y : Findings} (h : GivesOut x y) (name : String) {target : Option MountTarget}
      (ht : ∀ t ∈ target, y.Offers t) : GivesOut x (y.giveOut name target)

theorem GivesOut.routers {y : Findings} (h : x.GivesOut y) : y.routers = x.routers := by
  induction h with
  | start => rfl
  | next _ name _ ih => rw [giveOut_routers, ih]

theorem GivesOut.trans {y z : Findings} (h : x.GivesOut y) (h' : y.GivesOut z) : x.GivesOut z := by
  induction h' with
  | start => exact h
  | next _ name ht ih => exact .next ih name ht

/-- What each step of a run gives out, the run gives out. -/
theorem GivesOut.foldl {α : Type} {step : Findings → α → Findings}
    (hstep : ∀ y a, GivesOut y (step y a)) (as : List α) : x.GivesOut (as.foldl step x) :=
  List.foldlRecOn as step (motive := x.GivesOut) .start fun y h a _ => h.trans (hstep y a)

theorem offers_targetOf? {router : Nat} : ∀ t ∈ x.targetOf? router, x.Offers t := by
  rintro _ ht _ rfl
  obtain ⟨key, hkey, ⟨⟩⟩ := map_eq_some_iff.mp ht
  obtain ⟨u, hu, rfl⟩ := map_eq_some_iff.mp hkey
  exact ⟨u, mem_of_getElem? hu, rfl⟩

theorem offers_imported {specifier name : String} : x.Offers (.imported specifier name) := nofun

theorem offers_binding {b : Option Binding} :
    ∀ t ∈ b.map fun b => MountTarget.imported b.specifier b.imported, x.Offers t := by
  intro t ht
  obtain ⟨b, -, rfl⟩ := map_eq_some_iff.mp ht
  exact offers_imported

theorem offers_named? {name : String} {offset : Nat} :
    ∀ t ∈ x.named? r name offset, x.Offers t := by
  unfold named?
  split
  · exact offers_targetOf?
  · split
    · exact offers_targetOf?
    · exact offers_binding

theorem offers_valueTarget? {n : Node} : ∀ t ∈ x.valueTarget? r n, x.Offers t := by
  unfold valueTarget?
  split
  · exact offers_named?
  · intro t ht
    obtain ⟨router, -, ht⟩ := bind_eq_some_iff.mp ht
    exact offers_targetOf? t ht

theorem givesOut_withDeclaration (isDefault : Bool) (n : Node) :
    x.GivesOut (x.withDeclaration r isDefault n) := by
  unfold withDeclaration
  split
  · refine .foldl (fun y declarator => ?_) n.named
    split
    · exact .next .start _ offers_named?
    · exact .start
  · split
    · split
      · split
        · refine .next (.next .start _ offers_named?) _ fun t ht => ?_
          exact (offers_named? t ht).of_routers_eq (giveOut_routers ..)
        · exact .next .start _ offers_named?
      · exact .start
    · exact .start

theorem givesOut_withClause (offset : Nat) (clause : Node) :
    x.GivesOut (x.withClause r offset clause) := by
  refine .foldl (fun y item => ?_) clause.named
  split
  · exact .next .start _ offers_named?
  · exact .start

theorem givesOut_withExport (n : Node) : x.GivesOut (x.withExport r n) := by
  unfold withExport
  simp only
  split
  · exact .start
  split
  · exact givesOut_withDeclaration _ _
  split
  · exact .next .start _ offers_valueTarget?
  split
  · refine .next .start _ fun t ht => ?_
    obtain ⟨v, -, ht⟩ := bind_eq_some_iff.mp ht
    exact offers_valueTarget? t ht
  · exact .foldl (fun y clause => givesOut_withClause _ clause) _

theorem givesOut_withAssignment (n : Node) : x.GivesOut (x.withAssignment r n) := by
  unfold withAssignment
  split
  · exact .start
  split
  · split
    · exact .next .start _ offers_valueTarget?
    · exact .start
  · exact .start

/-- **Exports give out targets and do nothing else.** -/
theorem givesOut_withExports : x.GivesOut (x.withExports r) := by
  refine .foldl (fun y n => ?_) _
  split
  · exact givesOut_withExport n
  · split
    · exact givesOut_withAssignment n
    · exact .start

theorem withExports_routers : (x.withExports r).routers = x.routers := givesOut_withExports.routers

end Findings

/-! ## The whole file -/

theorem declarator_of_constructionAt? {r : Reading} {s site : Site} {c : Construction}
    (h : r.constructionAt? s = some c) (hc : c.declarator = some site) :
    site = s ∧ s.node.is .variableDeclarator := by
  unfold Reading.constructionAt? at h
  split at h
  · rename_i hs
    refine ⟨?_, hs⟩
    obtain ⟨value, -, h⟩ := bind_eq_some_iff.mp h
    obtain ⟨-, -, h⟩ := bind_eq_some_iff.mp h
    cases h
    exact (some.inj hc).symm
  · split at h
    · cases h
      cases hc
    · cases h

/-- **The passes go from place to place.** -/
theorem Reading.routers_induction {r : Reading} {motive : Findings → Prop} (start : motive {})
    (step : ∀ {x y d offset}, (∀ site ∈ d, site ∈ r.file.tree.sites ∧
      site.node.is .variableDeclarator) → x.Grows r d offset y → motive x → motive y) :
    motive r.routers := by
  have hconstructions : motive r.constructions :=
    List.foldlRecOn _ _ start fun x h c hc => by
      obtain ⟨s, hs, hat⟩ := mem_filterMap.mp hc
      refine step (fun site hsite => ?_) (x.grows_withConstruction r c) h
      obtain ⟨rfl, hdeclarator⟩ := declarator_of_constructionAt? hat hsite
      exact ⟨hs, hdeclarator⟩
  have hfunctions : motive (r.constructions.withFunctions r) :=
    List.foldlRecOn _ _ hconstructions fun x h f _ => by
      obtain ⟨hrouters, hnames, howners⟩ := x.withFunction_keeps r f
      have hkept : x.Grows r none 0 (x.withFunction r f) := .kept hrouters hnames howners
      exact step (by simp) hkept h
  refine List.foldlRecOn _ _ hfunctions fun x h site hsite => ?_
  obtain ⟨offset, hgrows⟩ := x.grows_withAlias r site
  refine step (fun s hs => ?_) hgrows h
  cases hs
  exact mem_filter.mp hsite

theorem Findings.Slashed.withRegistrations {x : Findings} {r : Reading} (h : x.Slashed) :
    (x.withRegistrations r).Slashed :=
  List.foldlRecOn _ _ (motive := Findings.Slashed) h fun _ h s _ => h.withChain s.node

/-- **The drafts of a file have paths that start with a slash**, whatever its tree is. -/
theorem contributionWith_slashed (file : File) (bindings : List Binding) :
    ∀ t ∈ (contributionWith file bindings).routers, AllSlashed t.entries := by
  have hrouters : (Reading.ofFile file bindings).routers.Slashed :=
    Reading.routers_induction (forall_mem_nil _) fun _ hgrows h => h.grows hgrows
  have h := hrouters.withRegistrations (r := Reading.ofFile file bindings)
  exact h.of_routers_eq Findings.withExports_routers

end RouteAtlas.Inventory
