import RouteAtlas.Proofs.CleanPaths

/-!
# Absolute paths

An absolute path is a root and the steps behind it: names, and steps that go up. Cleaning works the
steps out one by one and writes what they come to, so a path is clean exactly if it goes up nowhere
but right below the root, where there is nothing to take back. Looking for a file changes the end of
a path only.
-/

open List String

namespace RouteAtlas

open Files Text Tree Path.Component

variable {t : Tree} {path : Path} {place : Place}

/-! ## Pieces of a text -/

namespace Text

theorem not_mem_of_mem_piecesBy {p : Char → Bool} {cs w : List Char} (hw : w ∈ piecesBy p cs) :
    ∀ c ∈ w, p c = false := by
  fun_induction piecesBy p cs generalizing w with
  | case1 =>
    rw [mem_singleton.mp hw]
    exact fun c hc => absurd hc not_mem_nil
  | case2 c cs hc ih =>
    rcases mem_cons.mp hw with rfl | hw
    · exact fun c hc => absurd hc not_mem_nil
    · exact ih hw
  | case3 c cs hc hnil ih => exact absurd hnil (piecesBy_ne_nil p cs)
  | case4 c cs hc first rest hpieces ih =>
    rcases mem_cons.mp hw with rfl | hw
    · have hfirst := ih (hpieces ▸ mem_cons_self)
      intro d hd
      rcases mem_cons.mp hd with rfl | hd
      · exact Bool.eq_false_iff.mpr hc
      · exact hfirst d hd
    · exact ih (hpieces ▸ mem_cons_of_mem first hw)

theorem no_slash_of_mem_pieces {s part : String} (h : part ∈ pieces '/' s) : '/' ∉ part.toList := by
  obtain ⟨w, hw, rfl⟩ := mem_map.mp h
  intro hmem
  have := not_mem_of_mem_piecesBy hw '/' (by simpa using hmem)
  cases this

theorem piecesBy_append_of_not {p : Char → Bool} {ds : List Char} (hd : ∀ d ∈ ds, p d = false)
    (cs : List Char) : ∃ front last, piecesBy p cs = front ++ [last] ∧
      piecesBy p (cs ++ ds) = front ++ [last ++ ds] := by
  induction cs with
  | nil => exact ⟨[], [], rfl, by simp [piecesBy_eq_splitOnP, splitOnP_eq_singleton hd]⟩
  | cons c cs ih =>
    obtain ⟨front, last, hcs, hall⟩ := ih
    rw [cons_append, piecesBy, piecesBy, hcs, hall]
    split
    · exact ⟨[] :: front, last, rfl, rfl⟩
    · cases front with
      | nil => exact ⟨[], c :: last, rfl, rfl⟩
      | cons w front => exact ⟨(c :: w) :: front, last, rfl, rfl⟩

theorem pieces_append_of_no_slash {b : String} (hb : '/' ∉ b.toList) (a : String) :
    ∃ front last, pieces '/' a = front ++ [last] ∧ pieces '/' (a ++ b) = front ++ [last ++ b] := by
  have hp : ∀ c ∈ b.toList, (c == '/') = false := fun c hc =>
    beq_false_of_ne fun he => hb (he ▸ hc)
  obtain ⟨front, last, ha, hab⟩ := piecesBy_append_of_not hp a.toList
  refine ⟨front.map ofList, ofList last, by simp [pieces, ha], ?_⟩
  rw [pieces, toList_append, hab]
  simp

end Text

/-! ## Steps behind the root -/

namespace Path

variable {p : Path} {c : Component} {cs : List Component}

def steps (p : Path) : List Component := (pieces '/' p.text).filterMap Component.ofPart?

/-- The component in front of the steps: the root or a leading `.`. -/
def lead (p : Path) : List Component :=
  if p.isAbsolute then [.root]
  else if (pieces '/' p.text).head? == some "." then [.current]
  else []

theorem components_eq (p : Path) : p.components = p.lead ++ p.steps := by
  simp only [components, lead]
  split
  · rfl
  · split <;> rfl

theorem components_of_isAbsolute (h : p.isAbsolute) : p.components = .root :: p.steps := by
  rw [components_eq, lead, h]
  rfl

theorem isStep_of_mem_steps (h : c ∈ p.steps) : c.IsStep := by
  obtain ⟨part, hpart, hc⟩ := mem_filterMap.mp h
  have hslash := no_slash_of_mem_pieces hpart
  unfold Component.ofPart? at hc
  split at hc
  · cases hc
  rename_i hplain
  split at hc
  · cases hc
    trivial
  · rename_i hdots
    cases hc
    exact ⟨fun h => hplain (.inl h), fun h => hplain (.inr h), hdots, hslash⟩

theorem isAbsolute_of_components (h : p.components = .root :: cs) :
    p.isAbsolute ∧ p.steps = cs := by
  by_cases hp : p.isAbsolute
  · rw [components_of_isAbsolute hp] at h
    exact ⟨hp, (List.cons.inj h).2⟩
  have hroot : .root ∈ p.lead ++ p.steps := components_eq p ▸ h ▸ mem_cons_self
  rcases mem_append.mp hroot with hroot | hroot
  · unfold lead at hroot
    split at hroot <;> simp_all
  · cases isStep_of_mem_steps hroot

theorem Component.IsStep.no_slash (h : c.IsStep) : '/' ∉ c.text.toList := by
  cases c with
  | root | current => cases h
  | parent => decide
  | name text => exact h.2.2.2

theorem exists_place (hcs : ∀ c ∈ cs, c.IsStep) (hup : .parent ∉ cs) :
    ∃ place : Place, IsPlace place ∧ cs = place.map .name := by
  induction cs with
  | nil => exact ⟨[], isPlace_nil, rfl⟩
  | cons c cs ih =>
    rw [mem_cons, not_or] at hup
    obtain ⟨place, hplace, rfl⟩ := ih (fun d hd => hcs d (mem_cons_of_mem c hd)) hup.2
    have hc := hcs c mem_cons_self
    cases c with
    | root | current => cases hc
    | parent => exact absurd rfl hup.1
    | name text => exact ⟨text :: place, (IsName.isPlace hc).append hplace, rfl⟩

/-- The root in front of the steps of an absolute path. -/
def rootIf (absolute : Bool) : List Component := if absolute then [.root] else []

/-- A leading `.` is no step, and a walk that ignores it sees the steps only. -/
theorem foldl_components {α : Type} {f : α → Component → α} (hf : ∀ a, f a .current = a) (a : α) :
    p.components.foldl f a = p.steps.foldl f ((rootIf p.isAbsolute).foldl f a) := by
  rw [components_eq, lead, rootIf]
  cases p.isAbsolute with
  | true => rfl
  | false => by_cases hdot : (pieces '/' p.text).head? = some "." <;> simp [hdot, hf]

theorem head?_pieces_of_isAbsolute (h : p.isAbsolute) : (pieces '/' p.text).head? = some "" := by
  obtain ⟨cs, hcs⟩ := head?_eq_some_iff.mp (eq_of_beq h)
  simp [pieces, hcs, piecesBy]

theorem steps_ofComponents (hcs : ∀ c ∈ cs, c.IsStep) (absolute : Bool) :
    (ofComponents (rootIf absolute ++ cs)).isAbsolute = absolute ∧
      (ofComponents (rootIf absolute ++ cs)).steps = cs := by
  have hpieces : cs ≠ [] →
      pieces '/' ("/".intercalate (cs.map Component.text)) = cs.map Component.text := by
    refine fun hne => pieces_intercalate (fun part hpart => ?_) (by simpa using hne)
    obtain ⟨c, hc, rfl⟩ := mem_map.mp hpart
    exact (hcs c hc).no_slash
  cases absolute with
  | true =>
    refine ⟨by simp [ofComponents, isAbsolute, rootIf], ?_⟩
    have htext : (ofComponents (.root :: cs)).text =
        "" ++ "/" ++ "/".intercalate (cs.map Component.text) := rfl
    rw [rootIf, if_pos rfl, singleton_append, steps, htext, pieces_append_slash]
    by_cases hne : cs = []
    · subst hne; rfl
    · rw [hpieces hne, filterMap_append, filterMap_text hcs]
      rfl
  | false =>
    cases cs with
    | nil => exact ⟨rfl, rfl⟩
    | cons c cs =>
      have hc := (hcs c mem_cons_self).ofPart?_text
      have htext : (ofComponents (c :: cs)).text =
          "/".intercalate ((c :: cs).map Component.text) := by
        cases c with
        | root => cases hcs _ mem_cons_self
        | current | parent | name => rfl
      rw [← htext] at hpieces
      refine ⟨Bool.eq_false_iff.mpr fun habs => ?_, ?_⟩
      · -- an absolute path has nothing in front of its first slash
        have hfirst := head?_pieces_of_isAbsolute habs
        rw [rootIf, if_neg Bool.false_ne_true, nil_append, hpieces (by simp)] at hfirst
        rw [Option.some.inj hfirst] at hc
        cases hc
      · exact (congrArg _ (hpieces (by simp))).trans (filterMap_text hcs)

/-! ## Cleaning -/

/-- What steps come to: how far above their start they go, and the names below that point, the last
one in front. -/
structure Reach where
  up : Nat := 0
  names : List String := []

def Reach.step (r : Reach) : Component → Reach
  | .parent => ⟨if r.names = [] then r.up + 1 else r.up, r.names.tail⟩
  | .name text => ⟨r.up, text :: r.names⟩
  | _ => r

def reach (p : Path) : Reach := p.steps.foldl Reach.step {}

/-- What cleaning keeps of it. Going up takes back an earlier step up as it does a name, so of the
steps up in front one is left if their number is odd, and none otherwise. -/
def Reach.kept (r : Reach) : List Component :=
  List.replicate (r.up % 2) .parent ++ r.names.reverse.map .name

theorem cleanStep_kept (hc : c.IsStep) (absolute : Bool) (r : Reach) :
    cleanStep (r.kept.reverse ++ rootIf absolute) c =
      (r.step c).kept.reverse ++ rootIf absolute := by
  obtain ⟨up, back⟩ := r
  cases c with
  | root | current => cases hc
  | name text =>
    cases h : (Reach.kept ⟨up, back⟩).reverse ++ rootIf absolute <;>
      simp_all [Reach.kept, Reach.step, cleanStep]
  | parent =>
    cases back with
    | nil =>
      rcases Nat.mod_two_eq_zero_or_one up with h | h <;> cases absolute <;>
        simp [Reach.kept, Reach.step, cleanStep, rootIf, h, Nat.add_mod]
    | cons name back => simp [Reach.kept, Reach.step, cleanStep]

theorem foldl_cleanStep_kept (hcs : ∀ c ∈ cs, c.IsStep) (absolute : Bool) :
    ∀ r, cs.foldl cleanStep (r.kept.reverse ++ rootIf absolute) =
      (cs.foldl Reach.step r).kept.reverse ++ rootIf absolute := by
  induction cs with
  | nil => exact fun _ => rfl
  | cons c cs ih =>
    intro r
    rw [foldl_cons, cleanStep_kept (hcs c mem_cons_self)]
    exact ih (fun d hd => hcs d (mem_cons_of_mem c hd)) _

/-- **Cleaning writes what the steps come to**, one step up at most and the names below it. -/
theorem clean_eq : p.clean = ofComponents (rootIf p.isAbsolute ++ p.reach.kept) := by
  have hroot : (rootIf p.isAbsolute).foldl cleanStep [] =
      (Reach.kept {}).reverse ++ rootIf p.isAbsolute := by
    cases p.isAbsolute <;> rfl
  rw [clean, cleanComponents, foldl_components (fun _ => rfl), hroot,
    foldl_cleanStep_kept fun _ => isStep_of_mem_steps, reverse_append, reverse_reverse]
  cases p.isAbsolute <;> rfl

theorem foldl_step_names (r : Reach) :
    (place.map Component.name).foldl Reach.step r = ⟨r.up, place.reverse ++ r.names⟩ := by
  induction place generalizing r with
  | nil => rfl
  | cons name place ih => simp [ih, Reach.step]

theorem isName_of_step (hc : c.IsStep) {r : Reach}
    (h : ∀ n ∈ r.names, IsName n) : ∀ n ∈ (r.step c).names, IsName n := by
  cases c with
  | root | current => cases hc
  | parent => exact fun n hn => h n (mem_of_mem_tail hn)
  | name text =>
    intro n hn
    rcases mem_cons.mp hn with rfl | hn
    · exact hc
    · exact h n hn

theorem isStep_of_mem_kept (h : c ∈ p.reach.kept) : c.IsStep := by
  have hnames : ∀ cs : List Component, (∀ c ∈ cs, c.IsStep) → ∀ r : Reach,
      (∀ n ∈ r.names, IsName n) → ∀ n ∈ (cs.foldl Reach.step r).names, IsName n := by
    intro cs hcs
    induction cs with
    | nil => exact fun _ h => h
    | cons c cs ih =>
      exact fun r hr => ih (fun d hd => hcs d (mem_cons_of_mem c hd)) _
        (isName_of_step (hcs c mem_cons_self) hr)
  rcases mem_append.mp h with h | h
  · exact eq_of_mem_replicate h ▸ trivial
  · obtain ⟨n, hn, rfl⟩ := mem_map.mp h
    exact hnames p.steps (fun _ => isStep_of_mem_steps) {} (by simp) n (mem_reverse.mp hn)

theorem isAbsolute_clean (p : Path) : p.clean.isAbsolute = p.isAbsolute :=
  clean_eq ▸ (steps_ofComponents (fun _ => isStep_of_mem_kept) _).1

theorem steps_clean : p.clean.steps = p.reach.kept :=
  clean_eq ▸ (steps_ofComponents (fun _ => isStep_of_mem_kept) _).2

theorem reach_clean (p : Path) : p.clean.reach = ⟨p.reach.up % 2, p.reach.names⟩ := by
  rw [reach, steps_clean, Reach.kept, foldl_append, foldl_step_names]
  rcases Nat.mod_two_eq_zero_or_one p.reach.up with h | h <;> rw [h] <;> simp [Reach.step]

theorem clean_clean (p : Path) : p.clean.clean = p.clean := by
  rw [clean_eq, isAbsolute_clean, reach_clean, clean_eq]
  simp [Reach.kept]

/-- Nothing is taken back in steps that go up only in front. -/
theorem kept_reach (hup : .parent ∉ p.steps.tail) : p.reach.kept = p.steps := by
  have hsteps : ∀ c ∈ p.steps, c.IsStep := fun _ => isStep_of_mem_steps
  rw [reach]
  cases h : p.steps with
  | nil => rfl
  | cons c cs =>
    rw [h] at hup hsteps
    obtain ⟨hc, hcs⟩ := forall_mem_cons.mp hsteps
    obtain ⟨place, -, rfl⟩ := exists_place hcs hup
    rw [foldl_cons, foldl_step_names]
    cases c with
    | root | current => cases hc
    | parent | name => simp [Reach.step, Reach.kept]

theorem clean_pathOf (hp : IsPlace place) : (pathOf place).clean = pathOf place := by
  have hsteps := components_pathOf hp
  rw [components_of_isAbsolute (isAbsolute_pathOf place), cons_inj_right] at hsteps
  have hup : .parent ∉ (pathOf place).steps.tail :=
    fun hmem => by simpa [hsteps] using mem_of_mem_tail hmem
  rw [clean_eq, kept_reach hup, hsteps, isAbsolute_pathOf]
  simp [rootIf, ofComponents, pathOf, Function.comp_def, Component.text]

theorem placeOf_pathOf (t : Tree) (hp : IsPlace place) : t.placeOf (pathOf place) = place := by
  rw [placeOf, isAbsolute_pathOf, if_pos rfl, clean_pathOf hp, components_pathOf hp,
    filterMap_cons_none (by rfl), filterMap_map]
  exact filterMap_some

/-- Cleaning leaves the path as it is; a path may have several texts. -/
def IsClean (p : Path) : Prop := p.clean.same p
  deriving Decidable

/-- **An absolute path is clean exactly if it goes up nowhere but right below the root.** -/
theorem isClean_iff (hp : p.isAbsolute) : p.IsClean ↔ .parent ∉ p.steps.tail := by
  rw [IsClean, same, beq_iff_eq, components_of_isAbsolute hp,
    components_of_isAbsolute ((isAbsolute_clean p).trans hp), cons_inj_right, steps_clean]
  refine ⟨fun h => h ▸ ?_, kept_reach⟩
  rw [Reach.kept]
  rcases Nat.mod_two_eq_zero_or_one p.reach.up with h | h <;> rw [h]
  · exact fun hmem => by simpa using mem_of_mem_tail hmem
  · simp

theorem isClean_clean (p : Path) : p.clean.IsClean := by
  rw [IsClean, clean_clean, same, beq_self_eq_true]

theorem no_parent_iff (hp : p.isAbsolute) :
    .parent ∉ p.components ↔ p.IsClean ∧ p.steps.head? ≠ some .parent := by
  rw [isClean_iff hp, components_of_isAbsolute hp]
  cases p.steps with
  | nil => simp
  | cons c cs => simp [eq_comm, and_comm]

/-! ## Files found at a path -/

theorem isAbsolute_iff : p.isAbsolute ↔ p.text.toList.head? = some '/' := by
  rw [isAbsolute, beq_iff_eq]

theorem isAbsolute_join {base : Path} (h : base.isAbsolute) (rel : String) :
    (base.join rel).isAbsolute := by
  rw [isAbsolute_iff] at h ⊢
  rw [join]
  split
  · rename_i hrel
    rcases Bool.or_eq_true_iff.mp hrel with hrel | hempty
    · simpa using hrel
    · rw [of_decide_eq_true hempty] at h
      cases h
  · split <;> simp [h]

theorem steps_join {base : Path} {name : String} (hbase : base.isAbsolute)
    (hname : IsName name) : (base.join name).steps = base.steps ++ [.name name] := by
  have hne : base.text ≠ "" := by
    intro h
    rw [isAbsolute_iff, h] at hbase
    cases hbase
  have hpart := Component.ofPart?_of_isName hname
  have hslash := pieces_of_no_slash hname.2.2.2
  rw [join, hname.head?_ne, if_neg (by simpa using hne)]
  split
  · -- the empty piece behind the last slash is no step
    rename_i hlast
    obtain ⟨front, hfront⟩ := getLast?_eq_some_iff.mp (eq_of_beq hlast)
    have hbase : base.text = ofList front ++ "/" ++ "" :=
      toList_inj.mp (by simp [hfront])
    have hjoined : base.text ++ name = ofList front ++ "/" ++ name := by simp [hbase]
    rw [steps, steps, hjoined, hbase, pieces_append_slash, pieces_append_slash, hslash]
    have hempty : (pieces '/' "").filterMap Component.ofPart? = [] := rfl
    simp [hpart, hempty]
  · rw [steps, pieces_append_slash, hslash]
    simp [hpart, steps]

/-- A file is found at a path: all its steps but the last one, which is a name, are those of the
path, the last one of the path apart. -/
structure FoundAt (path file : Path) : Prop where
  absolute : file.isAbsolute
  steps : ∃ front name, file.steps = front ++ [.name name] ∧
    (path.steps = front ∨ ∃ last, path.steps = front ++ [last])

theorem mem_tail_concat {α : Type} {a b : α} {l : List α} (h : a ≠ b) :
    a ∈ (l ++ [b]).tail ↔ a ∈ l.tail := by
  cases l with
  | nil => simp
  | cons c l => simp [h]

namespace FoundAt

variable {path file : Path}

theorem isClean (h : FoundAt path file) (hpath : path.isAbsolute) (hclean : path.IsClean) :
    file.IsClean := by
  obtain ⟨front, name, hfile, hfront⟩ := h.steps
  rw [isClean_iff h.absolute, hfile, mem_tail_concat (by simp)]
  rw [isClean_iff hpath] at hclean
  rcases hfront with hfront | ⟨last, hfront⟩
  · rwa [hfront] at hclean
  intro hup
  rw [hfront] at hclean
  cases front with
  | nil => cases hup
  | cons c front => exact hclean (mem_append_left _ hup)

/-- The other way round, if the path does not end by going up. -/
theorem isClean_of_file (h : FoundAt path file) (hpath : path.isAbsolute)
    (hname : path.fileName?.isSome) (hclean : file.IsClean) : path.IsClean := by
  obtain ⟨front, name, hfile, hfront⟩ := h.steps
  rw [isClean_iff h.absolute, hfile, mem_tail_concat (by simp)] at hclean
  rw [isClean_iff hpath]
  rcases hfront with hfront | ⟨last, hfront⟩
  · rwa [hfront]
  have hlast : last ≠ .parent := by
    rintro rfl
    rw [fileName?, components_of_isAbsolute hpath, hfront, ← cons_append, getLast?_concat] at hname
    cases hname
  rwa [hfront, mem_tail_concat hlast.symm]

end FoundAt

/-- What can stand at the end of a name: no slash, and not a dot at the very end. -/
def IsEnding (tail : String) : Prop :=
  '/' ∉ tail.toList ∧ tail.toList.getLast?.any (· != '.')
  deriving Decidable

theorem IsEnding.isName {tail : String} (h : IsEnding tail) {lead : String}
    (hlead : '/' ∉ lead.toList) : IsName (lead ++ tail) := by
  obtain ⟨hslash, hany⟩ := h
  obtain ⟨c, hlast, hdot⟩ := (Option.any_eq_true _ _).mp hany
  have hend : (lead ++ tail).toList.getLast? = some c := by
    simp [hlast]
  have hne : ∀ s : String, s.toList.getLast? ≠ some c → lead ++ tail ≠ s := by
    rintro s hs rfl
    exact hs hend
  have hc : some '.' ≠ some c := fun h => bne_iff_ne.mp hdot (Option.some.inj h).symm
  exact ⟨hne "" (by simp), hne "." hc, hne ".." hc, by simp [hlead, hslash]⟩

/-- A file whose path differs from a path only in the end of the last name. -/
theorem foundAt_of_append {path : Path} {stem tail tail' : String}
    (habs : path.isAbsolute) (htext : path.text = stem ++ tail) (htail : '/' ∉ tail.toList)
    (htail' : IsEnding tail') : path.FoundAt ⟨stem ++ tail'⟩ := by
  obtain ⟨front, last, hstem, hpath⟩ := pieces_append_of_no_slash htail stem
  obtain ⟨front', last', hstem', hfile⟩ := pieces_append_of_no_slash htail'.1 stem
  obtain ⟨rfl, hlast⟩ := append_inj' (hstem.symm.trans hstem') rfl
  obtain rfl := singleton_inj.mp hlast
  have hslash : '/' ∉ last.toList :=
    no_slash_of_mem_pieces (s := stem) (by simp [hstem])
  have hname := Component.ofPart?_of_isName (htail'.isName hslash)
  constructor
  · rw [isAbsolute_iff] at habs ⊢
    rw [htext] at habs
    cases hs : stem.toList with
    | cons c cs =>
      rw [toList_append, hs] at habs
      rw [toList_append, hs]
      exact habs
    | nil =>
      rw [toList_append, hs] at habs
      exact absurd (mem_of_head? habs) htail
  · refine ⟨front.filterMap Component.ofPart?, last ++ tail', ?_, ?_⟩
    · rw [Path.steps, hfile]
      simp [hname]
    · rw [Path.steps, htext, hpath]
      cases h : Component.ofPart? (last ++ tail) with
      | none => exact .inl (by simp [h])
      | some c => exact .inr ⟨c, by simp [h]⟩

end Path

/-! ## Places without dots -/

/-- A way to follow parts leads from places to places. -/
def LeadsToPlaces (follow : Place → List String → Option Place) : Prop :=
  ∀ ⦃place q parts⦄, IsPlace place → (∀ part ∈ parts, '/' ∉ part.toList) →
    follow place parts = some q → IsPlace q

theorem leadsToPlaces_followBy {onLink : Place → List String → Option Place}
    (honLink : LeadsToPlaces onLink) : LeadsToPlaces (t.followBy onLink) := by
  intro place q parts hplace hparts h
  induction parts generalizing place with
  | nil => exact Option.some.inj h ▸ hplace
  | cons part parts ih =>
    have hrest : ∀ p ∈ parts, '/' ∉ p.toList := fun p hp => hparts p (mem_cons_of_mem part hp)
    unfold followBy at h
    split at h
    · cases h
    split at h
    · exact ih hplace hrest h
    rename_i hplain
    split at h
    · exact ih (fun n hn => hplace n (dropLast_subset place hn)) hrest h
    rename_i hdots
    split at h
    · cases h
    · -- a link stands for its target
      refine honLink ?_ ?_ h
      · split
        · exact isPlace_nil
        · exact hplace
      · intro p hp
        rcases mem_append.mp hp with hp | hp
        · exact no_slash_of_mem_pieces hp
        · exact hrest p hp
    · refine ih (hplace.append (IsName.isPlace ?_)) hrest h
      simp only [Bool.or_eq_true, decide_eq_true_eq, not_or] at hplain
      exact ⟨hplain.1, hplain.2, hdots, hparts part mem_cons_self⟩

theorem leadsToPlaces_followFrom : ∀ links, LeadsToPlaces (t.followFrom links)
  | 0 => leadsToPlaces_followBy fun _ _ _ _ _ h => by cases h
  | links + 1 => leadsToPlaces_followBy (leadsToPlaces_followFrom links)

theorem followed_of_real (habs : path.isAbsolute) (h : t.real? path = some place) :
    t.followFrom mostLinks [] (pieces '/' path.text) = some place := by
  rw [real?, habs] at h
  exact (Option.ite_none_left_eq_some.mp h).2

theorem isPlace_of_real (habs : path.isAbsolute) (h : t.real? path = some place) : IsPlace place :=
  leadsToPlaces_followFrom _ isPlace_nil (fun _ hp => no_slash_of_mem_pieces hp)
    (followed_of_real habs h)

/-- Without links, parts that do not go up lead to the place that they name. -/
theorem names_of_followFrom (hlinks : ∀ place target, t.entry? place ≠ some (.link target))
    {links : Nat} {place q : Place} {parts : List String} (hup : ".." ∉ parts)
    (h : t.followFrom links place parts = some q) :
    q.map .name = place.map .name ++ parts.filterMap ofPart? := by
  obtain ⟨onLink, hfollow⟩ := t.exists_followBy links
  rw [hfollow] at h
  induction parts generalizing place with
  | nil =>
    cases h
    simp
  | cons part parts ih =>
    rw [mem_cons, not_or] at hup
    unfold followBy at h
    split at h
    · cases h
    split at h
    · rename_i hblank
      have hpart : ofPart? part = none := by
        rw [ofPart?, if_pos (by simpa using hblank)]
      rw [filterMap_cons_none hpart]
      exact ih hup.2 h
    · rename_i hplain
      rw [if_neg (Ne.symm hup.1)] at h
      split at h
      · cases h
      · exact absurd (by assumption) (hlinks _ _)
      have hpart : ofPart? part = some (.name part) := by
        simp only [Bool.or_eq_true, decide_eq_true_eq] at hplain
        rw [ofPart?, if_neg hplain, if_neg (Ne.symm hup.1)]
      rw [filterMap_cons_some hpart, ih hup.2 h]
      simp

theorem names_of_real (hlinks : ∀ place target, t.entry? place ≠ some (.link target))
    (habs : path.isAbsolute) (hup : .parent ∉ path.components)
    (h : t.real? path = some place) : path.components = .root :: place.map .name := by
  rw [Path.components_of_isAbsolute habs] at hup ⊢
  have hparts : ".." ∉ pieces '/' path.text := fun hmem =>
    hup (mem_cons_of_mem _ (mem_filterMap.mpr ⟨"..", hmem, rfl⟩))
  rw [names_of_followFrom hlinks hparts (followed_of_real habs h)]
  rfl

end RouteAtlas
