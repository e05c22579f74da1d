import RouteAtlas.Proofs.Drafts
import RouteAtlas.Proofs.Linking
import RouteAtlas.Proofs.MountChains

/-!
# First wins

Of several resources with one identity an inventory keeps the first: of the discovered ones the
first in the order of the walk, and a further resource only if nothing before it has its method and
path. Both rules are `firstOfEach`, once with the identity of resources and once, behind the routes
that are there, with the method and path of what is added (`withExtras_eq`).

Results:
* `notMem_keptWalked_iff`, `mem_keptAll_iff_of_discovered`: which resources are kept.
* `keptAll_ordered`, `keptAll_routes_distinct`: what is kept is in order, each route once.
* `analyze_first_wins`: the inventory of any graph keeps the first.
-/

open List

namespace RouteAtlas.Inventory

open Resource Inventory.Graph

/-! ## The first item with each key -/

section FirstOfEach

variable {α κ : Type} [BEq κ] {key : α → κ}

theorem firstOfEach_sublist : ∀ (as : List α) (seen : List κ), (firstOfEach key seen as).Sublist as
  | [], _ => .slnil
  | a :: as, seen => by
    rw [firstOfEach]
    split
    · exact (firstOfEach_sublist as seen).cons a
    · exact (firstOfEach_sublist as _).cons_cons a

theorem firstOfEach_eq_eraseDupsBy :
    ∀ (as : List α) (seen : List κ), firstOfEach key seen as =
      (as.filter fun a => !seen.contains (key a)).eraseDupsBy fun a b => key a == key b
  | [], _ => rfl
  | a :: as, seen => by
    rw [firstOfEach, filter_cons]
    split
    · rename_i h
      simp only [h]
      exact firstOfEach_eq_eraseDupsBy as seen
    · rename_i h
      simp only [h, Bool.not_false, if_true, eraseDupsBy_cons, filter_filter]
      have hseen : (fun b => !(key a :: seen).contains (key b)) =
          fun b => decide ((key b == key a) = false) && !seen.contains (key b) := by
        funext b
        rw [contains_cons, Bool.not_or, Bool.decide_eq_false]
      rw [firstOfEach_eq_eraseDupsBy as, hseen]

variable [LawfulBEq κ]

theorem key_notMem_of_mem_firstOfEach : ∀ {as : List α} {seen : List κ} {a : α},
    a ∈ firstOfEach key seen as → key a ∉ seen
  | c :: as, seen, a, h => by
    rw [firstOfEach] at h
    split at h
    · exact key_notMem_of_mem_firstOfEach h
    rename_i hc
    rcases mem_cons.mp h with rfl | h
    · simpa using hc
    · exact fun hmem => key_notMem_of_mem_firstOfEach h (mem_cons_of_mem _ hmem)

theorem firstOfEach_distinct : ∀ (as : List α) (seen : List κ),
    (firstOfEach key seen as).Pairwise (key · ≠ key ·)
  | [], _ => .nil
  | a :: as, seen => by
    rw [firstOfEach]
    split
    · exact firstOfEach_distinct as seen
    · refine .cons (fun b hb heq => ?_) (firstOfEach_distinct as _)
      exact key_notMem_of_mem_firstOfEach hb (heq ▸ mem_cons_self)

theorem exists_mem_firstOfEach : ∀ {as : List α} {a : α} (seen : List κ), a ∈ as →
    key a ∈ seen ∨ ∃ b ∈ firstOfEach key seen as, key b = key a
  | c :: as, a, seen, h => by
    rw [firstOfEach]
    rcases mem_cons.mp h with rfl | h
    · split
      · rename_i hs
        exact .inl (contains_iff_mem.mp hs)
      · exact .inr ⟨a, mem_cons_self, rfl⟩
    · split
      · exact exists_mem_firstOfEach seen h
      · rcases exists_mem_firstOfEach (key c :: seen) h with hs | ⟨b, hb, hkey⟩
        · exact (mem_cons.mp hs).imp (fun heq => ⟨c, mem_cons_self, heq.symm⟩) id |>.symm
        · exact .inr ⟨b, mem_cons_of_mem c hb, hkey⟩

/-- **An item is kept if and only if its key is new**: not among the keys that were seen, and not
that of an item before it. -/
theorem mem_firstOfEach_iff : ∀ {as : List α} {seen : List κ} {i : Nat} {a : α}, as.Nodup →
    as[i]? = some a →
    (a ∈ firstOfEach key seen as ↔ key a ∉ seen ∧ ∀ j < i, ∀ b, as[j]? = some b → key b ≠ key a)
  | c :: as, seen, 0, a, hn, ha => by
    obtain rfl : a = c := (Option.some.inj ha).symm
    have hnot : a ∉ as := (nodup_cons.mp hn).1
    rw [firstOfEach]
    split
    · rename_i hs
      have hseen : key a ∈ seen := contains_iff_mem.mp hs
      exact ⟨fun h => absurd ((firstOfEach_sublist as seen).subset h) hnot,
        fun h => absurd hseen h.1⟩
    · rename_i hs
      have hseen : key a ∉ seen := fun h => hs (contains_iff_mem.mpr h)
      exact ⟨fun _ => ⟨hseen, fun j hj => absurd hj (Nat.not_lt_zero j)⟩, fun _ => mem_cons_self⟩
  | c :: as, seen, i + 1, a, hn, ha => by
    obtain ⟨hnot, hn'⟩ := nodup_cons.mp hn
    have ha' : as[i]? = some a := ha
    have hne : a ≠ c := fun h => hnot (h ▸ mem_of_getElem? ha')
    -- the condition on the items before `a`, with the first of them apart
    have hsplit : (∀ j < i + 1, ∀ b, (c :: as)[j]? = some b → key b ≠ key a) ↔
        key c ≠ key a ∧ ∀ j < i, ∀ b, as[j]? = some b → key b ≠ key a := by
      constructor
      · exact fun h => ⟨h 0 (Nat.succ_pos i) c rfl, fun j hj b hb =>
          h (j + 1) (Nat.succ_lt_succ hj) b hb⟩
      · rintro ⟨hc, h⟩ (_ | j) hj b hb
        · cases Option.some.inj hb
          exact hc
        · exact h j (Nat.lt_of_succ_lt_succ hj) b hb
    rw [firstOfEach, hsplit]
    split
    · rename_i hs
      have hseen : key c ∈ seen := contains_iff_mem.mp hs
      rw [mem_firstOfEach_iff hn' ha']
      exact and_congr_right fun h => ⟨fun hj => ⟨fun heq => h (heq ▸ hseen), hj⟩, And.right⟩
    · rw [mem_cons, or_iff_right hne, mem_firstOfEach_iff hn' ha', mem_cons, not_or]
      exact ⟨fun ⟨⟨hc, hs⟩, hj⟩ => ⟨hs, Ne.symm hc, hj⟩, fun ⟨hs, hc, hj⟩ => ⟨⟨Ne.symm hc, hs⟩, hj⟩⟩

/-- What is kept depends only on which keys were seen. -/
theorem firstOfEach_congr : ∀ (as : List α) {seen seen' : List κ},
    (∀ k, k ∈ seen ↔ k ∈ seen') → firstOfEach key seen as = firstOfEach key seen' as
  | [], _, _, _ => rfl
  | a :: as, seen, seen', h => by
    have hc : seen.contains (key a) = seen'.contains (key a) := by
      rw [Bool.eq_iff_iff, contains_iff_mem, contains_iff_mem, h]
    have hcons : ∀ k, k ∈ key a :: seen ↔ k ∈ key a :: seen' := fun k => by
      rw [mem_cons, mem_cons, h]
    rw [firstOfEach, firstOfEach, hc, firstOfEach_congr as h, firstOfEach_congr as hcons]

end FirstOfEach

/-! ## Further resources -/

namespace Graph

variable {resources : List Resource} {order : Nat} {kept : List (Extra × Nat)}

/-- The requests that the routes among some resources answer. -/
def routeKeys (resources : List Resource) : List (String × String) :=
  (resources.filter (·.kind == .route)).map fun r => (r.method, r.path)

theorem mem_routeKeys {method path : String} :
    (method, path) ∈ routeKeys resources ↔
      ∃ r ∈ resources, r.kind = .route ∧ r.method = method ∧ r.path = path := by
  simp [routeKeys, and_assoc]

def extraKey (e : Extra × Nat) : String × String := (e.1.method, e.1.path)

/-- The further resources that are kept behind some resources, with their positions. -/
def keptExtras (resources : List Resource) (index : Nat) (es : List Extra) : List (Extra × Nat) :=
  firstOfEach extraKey (routeKeys resources) (es.zipIdx index)

/-- Kept resources are numbered one after another. -/
def numberExtras (order : Nat) (kept : List (Extra × Nat)) : List Resource :=
  kept.mapIdx fun k e => extraResource e.1 e.2 (order + k)

@[simp] theorem extraResource_kind (e : Extra) (index order : Nat) :
    (extraResource e index order).kind = .route := rfl

@[simp] theorem extraResource_method (e : Extra) (index order : Nat) :
    (extraResource e index order).method = e.method := rfl

@[simp] theorem extraResource_path (e : Extra) (index order : Nat) :
    (extraResource e index order).path = e.path := rfl

theorem any_sameIdentity_extraResource (e : Extra)
    (index order : Nat) :
    resources.any (·.sameIdentity (extraResource e index order)) =
      (routeKeys resources).contains (extraKey (e, index)) := by
  rw [Bool.eq_iff_iff, contains_iff_mem, mem_routeKeys, any_eq_true]
  simp only [sameIdentity, Bool.and_eq_true, beq_iff_eq]
  exact exists_congr fun r => and_congr_right fun _ => ⟨fun ⟨⟨hm, hp⟩, hk⟩ => ⟨hk, hm, hp⟩,
    fun ⟨hk, hm, hp⟩ => ⟨⟨hm, hp⟩, hk⟩⟩

/-- **Adding further resources keeps the first of each** behind the routes that are there. -/
theorem withExtras_eq : ∀ (order index : Nat) (resources : List Resource) (es : List Extra),
    withExtras order index resources es =
      resources ++ numberExtras order (keptExtras resources index es)
  | _, _, resources, [] => by simp [withExtras, keptExtras, firstOfEach, numberExtras]
  | order, index, resources, e :: es => by
    rw [withExtras, any_sameIdentity_extraResource, keptExtras, zipIdx_cons, firstOfEach]
    split
    · exact withExtras_eq order (index + 1) resources es
    have hkept : keptExtras (resources ++ [extraResource e index order]) (index + 1) es =
        firstOfEach extraKey (extraKey (e, index) :: routeKeys resources) (es.zipIdx (index + 1)) :=
      firstOfEach_congr _ fun k => by simp [routeKeys, extraKey, or_comm]
    rw [withExtras_eq, hkept]
    simp [numberExtras, Nat.add_assoc, Nat.add_comm 1]

/-- A further resource tells by its identifier which one it is. -/
theorem extraResource_inj {e f : Extra} {i j m n : Nat}
    (h : extraResource e i m = extraResource f j n) : i = j := by
  have ho : e.origin = f.origin := congrArg origin h
  have hid := congrArg Resource.id h
  simp only [extraResource, ho, String.append_right_inj] at hid
  have hdigits : Nat.toDigits 10 i = Nat.toDigits 10 j := String.ofList_inj.mp hid
  rw [← Nat.ofDigitChars_ten_toDigits (n := i), hdigits, Nat.ofDigitChars_ten_toDigits]

theorem numberExtras_getElem? (kept : List (Extra × Nat)) (k : Nat) :
    (numberExtras order kept)[k]? = (kept[k]?).map fun e => extraResource e.1 e.2 (order + k) := by
  simp [numberExtras]

theorem mem_numberExtras {r : Resource} :
    r ∈ numberExtras order kept → ∃ e ∈ kept, ∃ k, r = extraResource e.1 e.2 (order + k) := by
  intro h
  obtain ⟨k, hk⟩ := getElem?_of_mem h
  rw [numberExtras_getElem?] at hk
  obtain ⟨e, he, rfl⟩ := Option.map_eq_some_iff.mp hk
  exact ⟨e, mem_of_getElem? he, k, rfl⟩

theorem exists_mem_numberExtras {e : Extra × Nat} (h : e ∈ kept) :
    ∃ n, extraResource e.1 e.2 n ∈ numberExtras order kept := by
  obtain ⟨k, hk⟩ := getElem?_of_mem h
  refine ⟨order + k, mem_of_getElem? (i := k) ?_⟩
  rw [numberExtras_getElem?, hk]
  rfl

/-- Every further resource is answered for, by itself or by the route that it is dropped for. -/
theorem exists_route_of_mem_extras {es : List Extra} {e : Extra} (h : e ∈ es) :
    ∃ r ∈ withExtras order 0 resources es,
      r.kind = .route ∧ r.method = e.method ∧ r.path = e.path := by
  obtain ⟨i, hi⟩ := getElem?_of_mem h
  have hmem : (e, i) ∈ es.zipIdx := mk_mem_zipIdx_iff_getElem?.mpr hi
  rw [withExtras_eq]
  have hanswered : extraKey (e, i) ∈ routeKeys resources ∨
      ∃ f ∈ firstOfEach extraKey (routeKeys resources) es.zipIdx, extraKey f = extraKey (e, i) :=
    exists_mem_firstOfEach _ hmem
  rcases hanswered with hkey | ⟨f, hf, hkey⟩
  · obtain ⟨r, hr, hroute⟩ := mem_routeKeys.mp hkey
    exact ⟨r, mem_append_left _ hr, hroute⟩
  · obtain ⟨n, hn⟩ := exists_mem_numberExtras hf
    exact ⟨_, mem_append_right _ hn, rfl, Prod.mk.inj hkey⟩

/-- A relation of neighbours and of all later ones carries over from what is kept. -/
theorem numberExtras_pairwise {R : Resource → Resource → Prop}
    {S : Extra × Nat → Extra × Nat → Prop} (hk : kept.Pairwise S)
    (h : ∀ e f m n, S e f → m < n → R (extraResource e.1 e.2 m) (extraResource f.1 f.2 n)) :
    (numberExtras order kept).Pairwise R := by
  rw [pairwise_iff_getElem]
  intro i j hi hj hij
  simp only [numberExtras, getElem_mapIdx]
  exact h _ _ _ _ (pairwise_iff_getElem.mp hk i j _ _ hij) (Nat.add_lt_add_left hij order)

/-- **A further resource is kept if and only if its requests are new**: no resource that is there is
a route for them, and no further resource before it has them. -/
theorem mem_keptExtras_iff {es : List Extra} {i : Nat} {e : Extra} (he : es[i]? = some e) :
    (e, i) ∈ keptExtras resources 0 es ↔
      (∀ r ∈ resources, r.kind = .route → (r.method, r.path) ≠ (e.method, e.path)) ∧
      ∀ j < i, ∀ f, es[j]? = some f → (f.method, f.path) ≠ (e.method, e.path) := by
  have hi : (es.zipIdx 0)[i]? = some (e, i) := by
    rw [getElem?_zipIdx, he]
    simp
  have hrange : ((es.zipIdx 0).map Prod.snd).Nodup := zipIdx_map_snd 0 es ▸ nodup_range'
  have hnodup : (es.zipIdx 0).Nodup :=
    (pairwise_map.mp hrange).imp fun hne heq => hne (congrArg Prod.snd heq)
  rw [keptExtras, mem_firstOfEach_iff hnodup hi]
  refine and_congr ?_ (forall₂_congr fun j hj => ⟨fun h f hf => h (f, j) ?_, fun h b hb => ?_⟩)
  · rw [extraKey, mem_routeKeys]
    simp [not_exists]
  · rw [getElem?_zipIdx, hf]
    simp
  · rw [getElem?_zipIdx] at hb
    obtain ⟨f, hf, rfl⟩ := Option.map_eq_some_iff.mp hb
    exact h f hf

theorem le_foldl_max : ∀ (ns : List Nat) (a : Nat),
    a ≤ ns.foldl max a ∧ ∀ n ∈ ns, n ≤ ns.foldl max a
  | [], a => ⟨Nat.le_refl a, fun _ h => nomatch h⟩
  | m :: ns, a => by
    obtain ⟨hle, hall⟩ := le_foldl_max ns (max a m)
    refine ⟨Nat.le_trans (Nat.le_max_left a m) hle, fun n hn => ?_⟩
    rcases mem_cons.mp hn with rfl | hn
    · exact Nat.le_trans (Nat.le_max_right a n) hle
    · exact hall n hn

theorem lt_nextOrder {r : Resource} (h : r ∈ resources) : r.order < nextOrder resources :=
  (le_foldl_max _ 0).2 _ (mem_map_of_mem h)

/-! ## Graphs that operations lead to -/

/-- The graphs that come about by operations. -/
inductive Reached : Graph → Prop
  | new (root : Path) : Reached { root }
  | replace {g : Graph} (h : Reached g) (file : Source.File) (bindings : List Binding) :
      Reached (g.replace (contributionWith file bindings))
  | remove {g : Graph} (h : Reached g) (file : Path) : Reached (g.remove file)
  | addCustom {g : Graph} (h : Reached g) (method path handlerText : String) :
      Reached (g.addCustom method path handlerText)
  | addImported {g : Graph} (h : Reached g) (method path : String) :
      Reached (g.addImported method path)

theorem mem_putContribution {c d : Contribution} : ∀ {cs : List Contribution},
    d ∈ putContribution c cs → d = c ∨ d ∈ cs
  | [], h => .inl (mem_singleton.mp h)
  | a :: cs, h => by
    rw [putContribution] at h
    split at h
    · exact mem_cons.mp h
    · exact (mem_cons.mp h).imp_right (mem_cons_of_mem a)
    · rcases mem_cons.mp h with rfl | h
      · exact .inr mem_cons_self
      · exact (mem_putContribution h).imp_right (mem_cons_of_mem a)

/-- What holds of every graph that operations lead to: the paths of its drafts and of its further
resources start with a slash, and further resources are not discovered. -/
structure Sound (g : Graph) : Prop where
  drafts : ∀ c ∈ g.contributions, ∀ t ∈ c.routers, AllSlashed t.entries
  paths : ∀ e ∈ g.extras, e.path.toList.head? = some '/'
  origins : ∀ e ∈ g.extras, e.origin ≠ .discovered

theorem Sound.addExtra {g : Graph} (h : g.Sound) (method path : String) {origin : Origin}
    (handlerText : String) (ho : origin ≠ .discovered) :
    (g.addExtra method path origin handlerText).Sound where
  drafts := h.drafts
  paths e he := by
    rcases mem_append.mp he with he | he
    · exact h.paths e he
    · rw [mem_singleton.mp he]
      exact Http.Pattern.join_head "" path
  origins e he := by
    rcases mem_append.mp he with he | he
    · exact h.origins e he
    · rw [mem_singleton.mp he]
      exact ho

theorem Reached.sound {g : Graph} (h : Reached g) : g.Sound := by
  induction h with
  | new root => exact ⟨nofun, nofun, nofun⟩
  | replace h file bindings ih =>
    refine ⟨fun c hc => ?_, ih.paths, ih.origins⟩
    rcases mem_putContribution hc with rfl | hc
    · exact contributionWith_slashed file bindings
    · exact ih.drafts c hc
  | remove h file ih =>
    exact ⟨fun c hc => ih.drafts c (mem_filter.mp hc).1, ih.paths, ih.origins⟩
  | addCustom h method path handlerText ih => exact ih.addExtra method path handlerText nofun
  | addImported h method path ih => exact ih.addExtra method path "" nofun

end Graph

/-! ## What the walk lists -/

/-- A resource that a walk lists: it is discovered, its number is its position, and its path starts
with a slash. -/
structure WalkedAt (i : Nat) (r : Resource) : Prop where
  order : r.order = i
  origin : r.origin = .discovered
  slashed : r.path.toList.head? = some '/'

theorem walkAll_walkedAt {net : Network}
    (h : ∀ t ∈ net, ∀ d, .resource d ∈ t.entries → d.path.toList.head? = some '/') {i : Nat}
    {r : Resource} (hr : (walkAll net).resources[i]? = some r) : WalkedAt i r := by
  obtain ⟨ls, heq, hdrafts⟩ := walkAll_listed net
  rw [heq, getElem?_mapIdx] at hr
  obtain ⟨l, hl, rfl⟩ := Option.map_eq_some_iff.mp hr
  obtain ⟨t, ht, hd⟩ := hdrafts l (mem_of_getElem? hl)
  refine ⟨rfl, rfl, ?_⟩
  show l.path.toList.head? = _
  unfold Listing.path
  split
  · exact h t ht l.draft hd
  · exact Http.Pattern.join_head _ _

theorem Resource.identity_eq_route_iff {q r : Resource} (hr : r.kind = .route) :
    q.identity = r.identity ↔ q.kind = .route ∧ (q.method, q.path) = (r.method, r.path) := by
  cases hq : q.kind <;> simp [identity, hq, hr]

theorem Resource.identity_eq_middleware_iff {q r : Resource} (hr : r.kind = .middleware) :
    q.identity = r.identity ↔
      q.kind = .middleware ∧ (q.id, q.method, q.path) = (r.id, r.method, r.path) := by
  cases hq : q.kind <;> simp [identity, hq, hr]

/-! ## Inventories -/

/-- **First wins**: what an inventory keeps of the resources that a walk lists, in the order of the
walk, and of further resources. -/
structure FirstWins (walked : List Resource) (extras : List Extra) (resources : List Resource) :
    Prop where
  ordered : resources.Pairwise (·.order < ·.order)
  /-- No two routes answer the same requests, wherever they come from. -/
  routes_distinct : resources.Pairwise fun a b => a.kind = .route → b.kind = .route →
    (a.method, a.path) ≠ (b.method, b.path)
  /-- No middleware is registered twice for the same requests at one place. -/
  middleware_distinct : resources.Pairwise fun a b => a.kind = .middleware → b.kind = .middleware →
    a.origin = .discovered → b.origin = .discovered →
    (a.id, a.method, a.path) ≠ (b.id, b.method, b.path)
  /-- Behind a further resource stand only further resources. -/
  discovered_first : resources.Pairwise fun a b => b.origin = .discovered → a.origin = .discovered
  slashed : ∀ r ∈ resources, r.path.toList.head? = some '/'
  /-- Nothing is there but what the walk lists and what was added. -/
  mem_or_extra : ∀ r ∈ resources, (r.origin = .discovered ∧ r ∈ walked) ∨ (r.origin ≠ .discovered ∧
      ∃ (i : Nat) (e : Extra), extras[i]? = some e ∧ r = extraResource e i r.order)
  route_absent_iff : ∀ (i : Nat) (r : Resource), walked[i]? = some r → r.kind = .route →
    (r ∉ resources ↔ ∃ j < i, ∃ q, walked[j]? = some q ∧ q.kind = .route ∧
      (q.method, q.path) = (r.method, r.path))
  middleware_absent_iff : ∀ (i : Nat) (r : Resource), walked[i]? = some r → r.kind = .middleware →
    (r ∉ resources ↔ ∃ j < i, ∃ q, walked[j]? = some q ∧ q.kind = .middleware ∧
      (q.id, q.method, q.path) = (r.id, r.method, r.path))
  extra_absent_iff : ∀ (i : Nat) (e : Extra), extras[i]? = some e →
    ((∀ order, extraResource e i order ∉ resources) ↔
      (∃ r ∈ resources, r.origin = .discovered ∧ r.kind = .route ∧
        (r.method, r.path) = (e.method, e.path)) ∨
      ∃ j < i, ∃ f, extras[j]? = some f ∧ (f.method, f.path) = (e.method, e.path))

section Inventories

variable {walked : List Resource} {extras : List Extra}
variable {r : Resource} {i : Nat}

theorem ordered_of_getElem? (h : ∀ (i : Nat) r, walked[i]? = some r → r.order = i) :
    walked.Pairwise (·.order < ·.order) := by
  rw [pairwise_iff_getElem]
  intro i j hi hj hij
  rwa [h i _ (getElem?_eq_getElem hi), h j _ (getElem?_eq_getElem hj)]

section Walked

variable (hw : ∀ (i : Nat) r, walked[i]? = some r → WalkedAt i r)
include hw

theorem WalkedAt.nodup : walked.Nodup :=
  (ordered_of_getElem? fun i r h => (hw i r h).order).imp fun hlt heq => by simp [heq] at hlt

theorem WalkedAt.of_mem (h : r ∈ walked) : WalkedAt r.order r := by
  obtain ⟨i, hi⟩ := getElem?_of_mem h
  have hr := hw i r hi
  rw [hr.order]
  exact hr

end Walked

/-- What an inventory keeps of the discovered resources. -/
def keptWalked (walked : List Resource) : List Resource := firstOfEach identity [] walked

/-- An inventory, with what is kept of both kinds apart. -/
def keptAll (walked : List Resource) (extras : List Extra) : List Resource :=
  keptWalked walked ++ numberExtras (nextOrder (keptWalked walked))
    (keptExtras (keptWalked walked) 0 extras)

theorem mem_keptWalked (h : r ∈ keptWalked walked) : r ∈ walked :=
  (firstOfEach_sublist walked []).subset h

theorem notMem_keptWalked_iff (hn : walked.Nodup) (hr : walked[i]? = some r) :
    r ∉ keptWalked walked ↔ ∃ j < i, ∃ q, walked[j]? = some q ∧ q.identity = r.identity := by
  rw [keptWalked, mem_firstOfEach_iff hn hr]
  simp

theorem getElem?_of_mem_keptExtras {resources : List Resource} {e : Extra × Nat}
    (h : e ∈ keptExtras resources 0 extras) : extras[e.2]? = some e.1 :=
  mem_zipIdx_iff_getElem?.mp ((firstOfEach_sublist _ _).subset h)

theorem keptAll_ordered (h : ∀ (i : Nat) r, walked[i]? = some r → r.order = i) :
    (keptAll walked extras).Pairwise (·.order < ·.order) := by
  refine pairwise_append.mpr ⟨(ordered_of_getElem? h).sublist (firstOfEach_sublist walked []),
    numberExtras_pairwise (pairwise_of_forall fun _ _ => trivial)
      fun _ _ m n _ h => h, fun a ha b hb => ?_⟩
  obtain ⟨e, -, k, rfl⟩ := mem_numberExtras hb
  exact Nat.lt_of_lt_of_le (lt_nextOrder ha) (Nat.le_add_right _ k)

theorem keptAll_routes_distinct : (keptAll walked extras).Pairwise fun a b =>
    a.kind = .route → b.kind = .route → (a.method, a.path) ≠ (b.method, b.path) := by
  refine pairwise_append.mpr ⟨?_, ?_, fun a ha b hb hka _ heq => ?_⟩
  · refine (firstOfEach_distinct walked []).imp fun {a b} hne hka hkb heq => hne ?_
    exact (identity_eq_route_iff hkb).mpr ⟨hka, heq⟩
  · exact numberExtras_pairwise (firstOfEach_distinct _ _) fun e f m n hne _ _ _ => hne
  · -- a kept addition has requests that no kept route has
    obtain ⟨e, he, k, rfl⟩ := mem_numberExtras hb
    refine key_notMem_of_mem_firstOfEach he (mem_routeKeys.mpr ⟨a, ha, hka, ?_⟩)
    simpa using heq

theorem keptAll_middleware_distinct : (keptAll walked extras).Pairwise fun a b =>
    a.kind = .middleware → b.kind = .middleware →
    (a.id, a.method, a.path) ≠ (b.id, b.method, b.path) := by
  refine pairwise_append.mpr ⟨?_, ?_, fun a ha b hb _ hkb => ?_⟩
  · refine (firstOfEach_distinct walked []).imp fun {a b} hne hka hkb heq => hne ?_
    exact (identity_eq_middleware_iff hkb).mpr ⟨hka, heq⟩
  · exact numberExtras_pairwise (pairwise_of_forall fun _ _ => trivial)
      fun e f m n _ _ hk => nomatch hk
  · obtain ⟨e, -, k, rfl⟩ := mem_numberExtras hb
    cases hkb

theorem numberExtras_origin (ho : ∀ e ∈ extras, e.origin ≠ .discovered) {resources : List Resource}
    {order : Nat} (h : r ∈ numberExtras order (keptExtras resources 0 extras)) :
    r.origin ≠ .discovered ∧
      ∃ (i : Nat) (e : Extra), extras[i]? = some e ∧ r = extraResource e i r.order := by
  obtain ⟨e, he, k, rfl⟩ := mem_numberExtras h
  have hget := getElem?_of_mem_keptExtras he
  exact ⟨ho e.1 (mem_of_getElem? hget), e.2, e.1, hget, rfl⟩

theorem mem_keptAll_iff_of_discovered (ho : ∀ e ∈ extras, e.origin ≠ .discovered)
    (hr : r.origin = .discovered) : r ∈ keptAll walked extras ↔ r ∈ keptWalked walked := by
  rw [keptAll, mem_append]
  exact or_iff_left fun h => (numberExtras_origin ho h).1 hr

theorem exists_extraResource_mem_keptAll_iff
    (hw : ∀ (i : Nat) r, walked[i]? = some r → WalkedAt i r)
    (ho : ∀ e ∈ extras, e.origin ≠ .discovered) {e : Extra} (he : extras[i]? = some e) :
    (∃ order, extraResource e i order ∈ keptAll walked extras) ↔
      (∀ r ∈ keptWalked walked, r.kind = .route → (r.method, r.path) ≠ (e.method, e.path)) ∧
      ∀ j < i, ∀ f, extras[j]? = some f → (f.method, f.path) ≠ (e.method, e.path) := by
  rw [← mem_keptExtras_iff he]
  constructor
  · rintro ⟨n, hn⟩
    rcases mem_append.mp hn with hn | hn
    · exact absurd (WalkedAt.of_mem hw (mem_keptWalked hn)).origin (ho e (mem_of_getElem? he))
    · obtain ⟨f, hf, _, heq⟩ := mem_numberExtras hn
      obtain rfl : i = f.2 := extraResource_inj heq
      rwa [Option.some.inj (he.symm.trans (getElem?_of_mem_keptExtras hf))]
  · intro h
    obtain ⟨n, hn⟩ := exists_mem_numberExtras (e := (e, i)) h
    exact ⟨n, mem_append_right _ hn⟩

/-- **Deduplication keeps the first of each.** -/
theorem keptAll_firstWins (hw : ∀ (i : Nat) r, walked[i]? = some r → WalkedAt i r)
    (hp : ∀ e ∈ extras, e.path.toList.head? = some '/')
    (ho : ∀ e ∈ extras, e.origin ≠ .discovered) :
    FirstWins walked extras (keptAll walked extras) where
  ordered := keptAll_ordered fun i r h => (hw i r h).order
  routes_distinct := keptAll_routes_distinct
  middleware_distinct := keptAll_middleware_distinct.imp fun h hka hkb _ _ => h hka hkb
  discovered_first := by
    refine pairwise_append.mpr ⟨pairwise_of_forall_mem_list fun a ha _ _ _ => ?_,
      pairwise_of_forall_mem_list fun _ _ b hb hd => ?_, fun _ _ b hb hd => ?_⟩
    · exact (WalkedAt.of_mem hw (mem_keptWalked ha)).origin
    · exact absurd hd (numberExtras_origin ho hb).1
    · exact absurd hd (numberExtras_origin ho hb).1
  slashed r hr := by
    rcases mem_append.mp hr with hr | hr
    · exact (WalkedAt.of_mem hw (mem_keptWalked hr)).slashed
    · obtain ⟨-, i, e, he, heq⟩ := numberExtras_origin ho hr
      rw [heq]
      exact hp e (mem_of_getElem? he)
  mem_or_extra r hr := by
    rcases mem_append.mp hr with hr | hr
    · have hmem := mem_keptWalked hr
      exact .inl ⟨(WalkedAt.of_mem hw hmem).origin, hmem⟩
    · exact .inr (numberExtras_origin ho hr)
  route_absent_iff i r hr hk := by
    rw [mem_keptAll_iff_of_discovered ho (hw i r hr).origin,
      notMem_keptWalked_iff (WalkedAt.nodup hw) hr]
    simp [identity_eq_route_iff hk]
  middleware_absent_iff i r hr hk := by
    rw [mem_keptAll_iff_of_discovered ho (hw i r hr).origin,
      notMem_keptWalked_iff (WalkedAt.nodup hw) hr]
    simp [identity_eq_middleware_iff hk]
  extra_absent_iff i e he := by
    rw [← not_exists, exists_extraResource_mem_keptAll_iff hw ho he,
      Classical.not_and_iff_not_or_not]
    refine or_congr ?_ ?_
    · simp only [Classical.not_forall, Classical.not_not]
      refine exists_congr fun r => ⟨fun ⟨hr, hk, hkey⟩ => ?_, fun ⟨hr, hd, hk, hkey⟩ => ?_⟩
      · exact ⟨mem_append_left _ hr, (WalkedAt.of_mem hw (mem_keptWalked hr)).origin, hk, hkey⟩
      · exact ⟨(mem_keptAll_iff_of_discovered ho hd).mp hr, hk, hkey⟩
    · simp [Classical.not_forall]

end Inventories

/-- **The inventory of every graph that operations lead to keeps the first of each**, however
imports are resolved and whatever the resolution remembers. -/
theorem analyze_first_wins {g : Graph} (hg : g.Reached) {σ : Type}
    (resolve : String → Path → StateM σ (Option Path)) (s : σ) :
    FirstWins (walkAll ((g.network resolve).run s).1).resources g.extras
      ((g.analyze resolve).run s).1.resources := by
  have hsound := hg.sound
  have hw : ∀ (i : Nat) r, (walkAll ((g.network resolve).run s).1).resources[i]? = some r →
      WalkedAt i r := by
    refine fun i r hr => walkAll_walkedAt (fun u hu d hd => ?_) hr
    obtain ⟨c, hc, t, ht, hmem⟩ := draft_of_mem_network hu hd
    exact hsound.drafts c hc t ht _ hmem
  have heq : ((g.analyze resolve).run s).1.resources =
      keptAll (walkAll ((g.network resolve).run s).1).resources g.extras :=
    withExtras_eq _ 0 _ g.extras
  rw [heq]
  exact keptAll_firstWins hw hsound.paths hsound.origins

/-! ### Two routes and two additions for the same requests -/

/-- A file that registers two routes for the same requests. -/
def twoRoutes : Contribution :=
  contributionWith (.ofText ⟨"/p"⟩ ⟨"/p/a.ts"⟩ "new Hono().get('a',f).get('/a',g)" .typescript 1)
    [⟨"Hono", "Hono", "hono", .named⟩]

/-- The file in a graph, with an addition for the same requests and one for others. -/
def clashing : Graph :=
  ((({ root := ⟨"/p"⟩ } : Graph).replace twoRoutes).addCustom "get" "/a" "h").addImported "post" "b"

theorem analyze_first_wins_clashing :
    clashing.Reached ∧
    FirstWins (walkAll ((clashing.network unresolved).run ()).1).resources clashing.extras
      ((clashing.analyze unresolved).run ()).1.resources ∧
    (((clashing.analyze unresolved).run ()).1.resources.map fun r =>
      (r.method, r.path, r.origin, r.order)) =
        [("GET", "/a", .discovered, 0), ("POST", "/b", .imported, 1)] := by
  have hg : clashing.Reached := by
    unfold clashing twoRoutes
    exact .addImported (.addCustom (.replace (.new ⟨"/p"⟩) _ _) _ _ _) _ _
  exact ⟨hg, analyze_first_wins hg unresolved (), by decide +kernel⟩

end RouteAtlas.Inventory
