import RouteAtlas.Proofs.ChainLinks
import RouteAtlas.Proofs.Drafts

/-!
# Routers that the findings store

All that the passes over a file store are routers that there are. Names, owners and factories are
indices in range, and what is mounted or given out as a router of the file has the key of one.

Results:
* `Findings.Closed.withChain`, and one such lemma for each pass: every pass keeps this.
* `Reading.closed_after`: it holds at every stage of the passes.
-/

open List Option

namespace RouteAtlas.Inventory

open Source Reading Findings

variable {x y : Findings} {r : Reading}

/-! ## Names and owners -/

theorem firstLeast_ne_none {α : Type} {f : α → Nat} {as : List α} (h : as ≠ []) :
    firstLeast f as ≠ none := by
  cases as with
  | nil => exact absurd rfl h
  | cons a as =>
    rw [firstLeast]
    split
    · split <;> exact some_ne_none _
    · exact some_ne_none _

/-- The first least item is one of the items, and none is smaller. -/
theorem firstLeast_eq_some {α : Type} {f : α → Nat} {as : List α} {a : α}
    (h : firstLeast f as = some a) : a ∈ as ∧ ∀ b ∈ as, f a ≤ f b := by
  induction as generalizing a with
  | nil => cases h
  | cons c as ih =>
    rw [firstLeast] at h
    cases hrest : firstLeast f as with
    | none =>
      rw [hrest] at h
      cases h
      obtain rfl : as = [] := by_contra fun hne => firstLeast_ne_none hne hrest
      exact ⟨mem_cons_self, forall_mem_singleton.mpr (Nat.le_refl _)⟩
    | some b =>
      rw [hrest] at h
      obtain ⟨hmem, hleast⟩ := ih hrest
      simp only at h
      split at h
      · rename_i hlt
        cases h
        exact ⟨mem_cons_of_mem c hmem, forall_mem_cons.mpr ⟨Nat.le_of_lt hlt, hleast⟩⟩
      · rename_i hle
        cases h
        exact ⟨mem_cons_self, forall_mem_cons.mpr ⟨Nat.le_refl _, fun d hd =>
          Nat.le_trans (Nat.le_of_not_lt hle) (hleast d hd)⟩⟩

namespace Findings

/-- Names and expressions stand for routers of the file. -/
structure InRange (x : Findings) : Prop where
  names : ∀ b ∈ x.names, b.handle.router < x.routers.length
  owners : ∀ o ∈ x.owners, o.2 < x.routers.length

namespace InRange

variable {name : String} {handle : Handle} {offset : Nat}

theorem of_le (h : x.InRange) (hnames : y.names = x.names) (howners : y.owners = x.owners)
    (hle : x.routers.length ≤ y.routers.length) : y.InRange where
  names b hb := Nat.lt_of_lt_of_le (h.names b (hnames ▸ hb)) hle
  owners o ho := Nat.lt_of_lt_of_le (h.owners o (howners ▸ ho)) hle

theorem lookup? (h : x.InRange) (hlookup : x.lookup? name offset = some handle) :
    handle.router < x.routers.length := by
  obtain ⟨b, hb, rfl⟩ := map_eq_some_iff.mp hlookup
  exact h.names b (mem_of_mem_filter (firstLeast_eq_some hb).1)

theorem owner? (h : x.InRange) {router : Nat} (howner : x.owner? offset = some router) :
    router < x.routers.length := by
  obtain ⟨before, after, howners, -⟩ := lookup_eq_some_iff.mp howner
  exact h.owners (offset, router) (howners ▸ mem_append_right before mem_cons_self)

theorem chainStart? (h : x.InRange) {outer : Node} (hstart : x.chainStart? r outer = some handle) :
    handle.router < x.routers.length := by
  unfold Findings.chainStart? at hstart
  simp only at hstart
  split at hstart
  · exact h.lookup? hstart
  split at hstart
  · obtain ⟨i, hi, rfl⟩ := map_eq_some_iff.mp hstart
    exact h.owner? hi
  · cases hstart

end InRange

end Findings

/-! ## What the findings store -/

/-- **What the findings store is there**: names, owners and factories are indices of routers, and
the routers that are mounted or given out are among those of the file. -/
structure Findings.Closed (x : Findings) : Prop extends x.InRange where
  factories : ∀ f ∈ x.factories, f.2.router < x.routers.length
  mounts : ∀ t ∈ x.routers, ∀ m, .mount m ∈ t.entries → x.Offers m.target
  exports : ∀ e ∈ x.exports, x.Offers e.2

namespace Findings

theorem keys_register (router : Nat) (entries : List Entry) :
    (x.register router entries).routers.map (·.key) = x.routers.map (·.key) := by
  refine ext_getElem? fun i => ?_
  simp only [register, getElem?_map, getElem?_modify]
  cases x.routers[i]? with
  | none => rfl
  | some t =>
    split <;> rfl

theorem Offers.of_keys {t : MountTarget} (h : x.Offers t)
    (hkeys : x.routers.map (·.key) ⊆ y.routers.map (·.key)) : y.Offers t := by
  intro key hkey
  obtain ⟨u, hu, rfl⟩ := h key hkey
  exact mem_map.mp (hkeys (mem_map_of_mem hu))

theorem mem_setNamed {α : Type} {name : String} {value : α} {e : String × α} :
    ∀ {l : List (String × α)}, e ∈ setNamed name value l → e.2 = value ∨ e ∈ l
  | [], h => .inl (congrArg Prod.snd (mem_singleton.mp h))
  | (k, v) :: l, h => by
    rw [setNamed] at h
    split at h
    · rcases mem_cons.mp h with rfl | h
      · exact .inl rfl
      · exact .inr (mem_cons_of_mem _ h)
    · rcases mem_cons.mp h with rfl | h
      · exact .inr mem_cons_self
      · exact (mem_setNamed h).imp_right (mem_cons_of_mem _)

namespace Closed

variable {name : String} {entries : List Entry}

theorem addRouter (h : x.Closed) (name : String) (n : Node) (fromFactory : Bool)
    (he : ∀ m, .mount m ∈ entries → x.Offers m.target) :
    (x.addRouter r name n fromFactory entries).Closed := by
  have hkeys : x.routers.map (·.key) ⊆
      (x.addRouter r name n fromFactory entries).routers.map (·.key) := by
    rw [Findings.addRouter, map_append]
    exact subset_append_left _ _
  have hle : x.routers.length ≤ (x.addRouter r name n fromFactory entries).routers.length := by
    simp [Findings.addRouter]
  refine ⟨h.toInRange.of_le rfl rfl hle, fun f hf => Nat.lt_of_lt_of_le (h.factories f hf) hle,
    fun t ht m hm => ?_, fun e hmem => (h.exports e hmem).of_keys hkeys⟩
  rcases mem_append.mp ht with ht | ht
  · exact (h.mounts t ht m hm).of_keys hkeys
  · rw [mem_singleton.mp ht] at hm
    exact (he m hm).of_keys hkeys

theorem bind (h : x.Closed) (name : String) (site : Site) {handle : Handle}
    (hrouter : handle.router < x.routers.length) : (x.bind name site handle).Closed :=
  { h with names := forall_mem_append.mpr ⟨h.names, forall_mem_singleton.mpr hrouter⟩ }

theorem own (h : x.Closed) (offset : Nat) {router : Nat} (hrouter : router < x.routers.length) :
    (x.own offset router).Closed :=
  { h with owners := forall_mem_cons.mpr ⟨hrouter, h.owners⟩ }

theorem giveOut (h : x.Closed) (name : String) {target : Option MountTarget}
    (ht : ∀ t ∈ target, x.Offers t) : (x.giveOut name target).Closed := by
  cases target with
  | none => exact h
  | some t =>
    refine { h with exports := fun e he => ?_ }
    rcases mem_setNamed he with heq | he
    · rw [heq]
      exact ht t rfl
    · exact h.exports e he

theorem givesOut (h : x.Closed) (hgives : x.GivesOut y) : y.Closed := by
  induction hgives with
  | start => exact h
  | next _ name ht ih => exact ih.giveOut name ht

theorem routerOf? (h : x.Closed) {expr : Node} {handle : Handle}
    (hrouter : x.routerOf? r expr = some handle) : handle.router < x.routers.length := by
  unfold Findings.routerOf? at hrouter
  simp only at hrouter
  split at hrouter
  · exact h.lookup? hrouter
  · split at hrouter
    · obtain ⟨i, hi, rfl⟩ := map_eq_some_iff.mp hrouter
      exact h.owner? hi
    · cases hrouter

theorem withConstruction (h : x.Closed) (c : Construction) : (x.withConstruction r c).Closed := by
  have hadd : ∀ name n, (x.addRouter r name n false []).Closed :=
    fun name n => h.addRouter name n false fun _ hm => absurd hm not_mem_nil
  have hlt : ∀ name n, x.routers.length < (x.addRouter r name n false []).routers.length :=
    fun name n => by simp [Findings.addRouter]
  unfold Findings.withConstruction
  simp only
  split
  · exact h
  split
  · exact ((hadd _ _).bind _ _ (hlt _ _)).own _ (hlt _ _)
  · split
    · exact ((hadd _ _).own _ (hlt _ _)).giveOut _ offers_targetOf?
    · exact (hadd _ _).own _ (hlt _ _)

theorem withFunction (h : x.Closed) (f : NamedFunction) : (x.withFunction r f).Closed := by
  unfold Findings.withFunction
  split
  · exact h
  · rename_i handle hreturned
    have hrouter : handle.router < x.routers.length := by
      obtain ⟨body, -, hreturned⟩ := bind_eq_some_iff.mp hreturned
      split at hreturned
      · obtain ⟨n, -, hn⟩ := exists_of_findSome?_eq_some hreturned
        obtain ⟨expr, -, hexpr⟩ := bind_eq_some_iff.mp hn
        exact h.routerOf? hexpr
      · exact h.routerOf? hreturned
    have hfactory : ∀ {y : Findings}, y.Closed → y.routers = x.routers →
        { y with factories := (f.name, handle) :: y.factories }.Closed := fun hy hrouters =>
      { hy with factories := forall_mem_cons.mpr ⟨hrouters ▸ hrouter, hy.factories⟩ }
    split
    · exact hfactory (h.giveOut _ offers_targetOf?) (giveOut_routers ..)
    · exact hfactory h rfl

theorem offers_moduleMember? {n : Node} : ∀ t ∈ r.moduleMember? n, x.Offers t := by
  intro t ht
  obtain ⟨_, -, ht⟩ := bind_eq_some_iff.mp ht
  obtain ⟨_, -, ht⟩ := bind_eq_some_iff.mp ht
  obtain ⟨_, -, ht⟩ := bind_eq_some_iff.mp ht
  obtain ⟨_, -, ht⟩ := bind_eq_some_iff.mp ht
  cases ht
  exact offers_imported

theorem offers_factoryTarget? {call : Node} : ∀ t ∈ x.factoryTarget? r call, x.Offers t := by
  intro t ht
  obtain ⟨function, -, ht⟩ := bind_eq_some_iff.mp ht
  split at ht
  · split at ht
    · exact offers_targetOf? t ht
    · obtain ⟨_, -, ht⟩ := bind_eq_some_iff.mp ht
      obtain ⟨_, -, ht⟩ := bind_eq_some_iff.mp ht
      cases ht
      exact offers_imported
  · split at ht
    · exact offers_moduleMember? t ht
    · cases ht

theorem offers_mountTarget? {n : Node} : ∀ t ∈ r.mountTarget? x n, x.Offers t := by
  unfold mountTarget?
  split
  · split
    · exact offers_targetOf?
    · exact offers_binding
  split
  · exact offers_factoryTarget?
  split
  · exact offers_moduleMember?
  split
  · intro t ht
    obtain ⟨_, -, ht⟩ := bind_eq_some_iff.mp ht
    exact offers_targetOf? t ht
  · exact fun _ ht => absurd ht (not_mem_none _)

theorem withAlias (h : x.Closed) (site : Site) : (x.withAlias r site).Closed := by
  unfold Findings.withAlias
  split
  · simp only
    split
    · exact h
    split
    · split
      · exact h
      · rename_i hlookup
        have hrouter := h.lookup? hlookup
        split <;> exact h.bind _ _ hrouter
    split
    · split
      · exact h
      · rename_i target htarget
        refine ((h.addRouter _ _ _ fun m hm => ?_).own _ ?_).bind _ _ ?_
        · cases mem_singleton.mp hm
          exact offers_factoryTarget? _ htarget
        all_goals simp [Findings.addRouter, Findings.own]
    · exact h
  · exact h

theorem register (h : x.Closed) (router : Nat)
    (he : ∀ m, .mount m ∈ entries → x.Offers m.target) : (x.register router entries).Closed := by
  have hkeys : x.routers.map (·.key) ⊆ (x.register router entries).routers.map (·.key) := by
    rw [keys_register]
    exact Subset.refl _
  have hlength : (x.register router entries).routers.length = x.routers.length := length_modify ..
  refine ⟨h.toInRange.of_le rfl rfl hlength.ge, fun f hf => hlength ▸ h.factories f hf,
    fun t ht m hm => ?_, fun e hmem => (h.exports e hmem).of_keys hkeys⟩
  obtain ⟨u, hu, hentries⟩ := mem_register ht
  rcases hentries _ hm with hm | hm
  · exact (h.mounts u hu m hm).of_keys hkeys
  · exact (he m hm).of_keys hkeys

theorem withChain (h : x.Closed) (outer : Node) : (x.withChain r outer).Closed := by
  unfold Findings.withChain
  split
  · exact h
  · refine { h.register _ fun m hm => ?_ with }
    cases r.callsOutcome_gives x _ _ _ hm with
    | mount htarget => exact offers_mountTarget? _ htarget

end Closed

end Findings

/-! ## Every stage of the passes -/

namespace Reading

/-- **The steps of the passes over a file**, in order. -/
def steps (r : Reading) : List (Findings → Findings) :=
  (r.file.tree.sites.filterMap r.constructionAt?).map (fun c x => x.withConstruction r c) ++
  (r.file.tree.sites.filterMap r.functionAt?).map (fun f x => x.withFunction r f) ++
  (r.file.tree.sites.filter (·.node.is .variableDeclarator)).map (fun s x => x.withAlias r s) ++
  (outermostCalls r.file.tree).map (fun s x => x.withChain r s.node) ++ [(·.withExports r)]

def after (steps : List (Findings → Findings)) : Findings := steps.foldl (fun x step => step x) {}

theorem after_steps : after r.steps = (r.routers.withRegistrations r).withExports r := by
  simp only [after, steps, foldl_append, foldl_map]
  rfl

theorem closed_step {step : Findings → Findings} (hstep : step ∈ r.steps) (h : x.Closed) :
    (step x).Closed := by
  simp only [steps, mem_append, List.mem_map, mem_singleton] at hstep
  rcases hstep with (((⟨c, -, rfl⟩ | ⟨f, -, rfl⟩) | ⟨s, -, rfl⟩) | ⟨s, -, rfl⟩) | rfl
  · exact h.withConstruction c
  · exact h.withFunction f
  · exact h.withAlias s
  · exact h.withChain s.node
  · exact h.givesOut givesOut_withExports

/-- **What the findings store is there at every stage.** -/
theorem closed_after {before rest : List (Findings → Findings)} (h : r.steps = before ++ rest) :
    (after before).Closed := by
  refine foldlRecOn before _ (motive := Findings.Closed) ?_ fun x hx step hstep =>
    closed_step (h ▸ mem_append_left rest hstep) hx
  exact ⟨⟨forall_mem_nil _, forall_mem_nil _⟩, forall_mem_nil _, forall_mem_nil _, forall_mem_nil _⟩

theorem closed_routers : r.routers.Closed := by
  have hstage := closed_after (r := r) (append_assoc _ _ _)
  simp only [after, foldl_append, foldl_map] at hstage
  exact hstage

end Reading

end RouteAtlas.Inventory
