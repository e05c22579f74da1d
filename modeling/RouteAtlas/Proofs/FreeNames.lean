import RouteAtlas.Proofs.Scoping
import RouteAtlas.Source.Parse

/-!
# Free names and the rules of scoping

The search for free names keeps, on its way down, the names that the scopes around it hide. A name
is reported exactly if some use of it stands where no scope around hides it. Against the rules, the
search hides too little in three places and too much in six; everywhere else it follows them.
-/

open List

namespace RouteAtlas.Scope

open Source Kind

variable {source x : String} {f : Node} {s : Site}

/-! ## The search, name by name -/

def ownNames (source : String) (f : Node) : List String :=
  match f.child? .name with
  | some name => [name.text source]
  | none => []

/-- The names that are hidden below the given nodes of a function, as the search keeps them. -/
def hiddenAt (source : String) (f : Node) (above : List Node) : List (List String) :=
  above.filterMap (scopeNames? source) ++ [ownNames source f]

/-- The search takes the name at a site for a free use. -/
def isFreeUse (source : String) (f : Node) (s : Site) : Bool :=
  !s.node.is .shorthandPropertyIdentifierPattern &&
    isFree (hiddenAt source f s.above) (s.node.text source)

def useAt (source : String) (s : Site) : Use := ⟨s.node.text source, s.node.start⟩

theorem hiddenAt_cons (n : Node) (above : List Node) :
    hiddenAt source f (n :: above) = (scopeNames? source n).toList ++ hiddenAt source f above := by
  unfold hiddenAt
  cases h : scopeNames? source n with
  | none => rw [filterMap_cons_none h]; rfl
  | some names => rw [filterMap_cons_some h]; rfl

mutual

/-- **The search, name by name**: what it keeps on its way down is what the nodes around hide. -/
theorem uses_eq (f : Node) : ∀ (n : Node) (above : List Node),
    uses source (hiddenAt source f above) (isLabelled above) n =
      ((namesBelow above n).filter (isFreeUse source f)).map (useAt source)
  | .mk (.token _) _ _ _ _, above => by
    rfl
  | .mk (.named kind) role start stop children, above => by
    rw [uses, namesBelow]
    by_cases href : isReference kind
    · have hname : isName kind := by rw [isName, href, Bool.true_or]
      have hplain : (Node.mk (.named kind) role start stop children).is
          .shorthandPropertyIdentifierPattern = false := by
        cases kind <;> first | rfl | cases href
      simp only [href, hname, if_true]
      cases isLabelled above with
      | true => simp
      | false =>
        simp only [Bool.not_false, Bool.and_true, Bool.false_eq_true, if_false, filter_cons,
          isFreeUse, hplain, Bool.true_and]
        split <;> rfl
    · by_cases hpattern : (kind == .shorthandPropertyIdentifierPattern)
      · have hname : isName kind := by rw [isName, hpattern, Bool.or_true]
        have htarget : (Node.mk (.named kind) role start stop children).is
            .shorthandPropertyIdentifierPattern := hpattern
        simp only [href, hpattern, hname]
        cases isLabelled above with
        | true => simp
        | false => simp [isFreeUse, htarget]
      · have hname : isName kind = false := by
          rw [isName, Bool.eq_false_iff.mpr href, Bool.eq_false_iff.mpr hpattern]
          rfl
        have hall := usesOfAll_eq f children (.mk (.named kind) role start stop children :: above)
        rw [hiddenAt_cons] at hall
        simp only [href, hpattern, hname, if_false, Bool.false_eq_true]
        split
        · rename_i names hscope
          rwa [hscope] at hall
        · rename_i hscope
          rwa [hscope] at hall

theorem usesOfAll_eq (f : Node) : ∀ (ns above : List Node),
    usesOfAll source (hiddenAt source f above) (isLabelled above) ns =
      ((namesOfAll above ns).filter (isFreeUse source f)).map (useAt source)
  | [], above => by
    rfl
  | n :: ns, above => by
    rw [usesOfAll, namesOfAll, uses_eq f n above, usesOfAll_eq f ns above,
      filter_append, map_append]

end

theorem firstUses_sublist {us : List Use} {seen : List String} :
    (firstUses seen us).Sublist us := by
  induction us generalizing seen with
  | nil => exact .slnil
  | cons u us ih =>
    rw [firstUses]
    split
    · exact ih.cons u
    · exact ih.cons_cons u

theorem name_mem_firstUses_iff {us : List Use} {seen : List String} :
    (∃ u ∈ firstUses seen us, u.name = x) ↔ x ∉ seen ∧ ∃ u ∈ us, u.name = x := by
  induction us generalizing seen with
  | nil => simp [firstUses]
  | cons v us ih =>
    rw [firstUses]
    split
    · grind
    · grind

def freeUses (source : String) (f : Node) : List Use :=
  ((names f).filter (isFreeUse source f)).map (useAt source)

theorem freeNames_eq : freeNames source f =
    (firstUses [] (freeUses source f)).map fun u => ⟨u.name, positionAt source u.byte, u.byte⟩ := by
  rw [freeUses, names, ← uses_eq]
  rfl

theorem mem_freeNames {u : FreeName} (hu : u ∈ freeNames source f) :
    ∃ s ∈ names f, isFreeUse source f s ∧
      u = ⟨s.node.text source, positionAt source s.node.start, s.node.start⟩ := by
  rw [freeNames_eq] at hu
  obtain ⟨v, hv, rfl⟩ := mem_map.mp hu
  obtain ⟨s, hs, rfl⟩ := mem_map.mp (firstUses_sublist.subset hv)
  obtain ⟨hs, hfree⟩ := mem_filter.mp hs
  exact ⟨s, hs, hfree, rfl⟩

/-- **The names that are reported** are those with a free use. -/
theorem name_mem_freeNames_iff : x ∈ (freeNames source f).map (·.name) ↔
    ∃ s ∈ names f, s.node.text source = x ∧ isFreeUse source f s := by
  rw [freeNames_eq, map_map, mem_map]
  refine Iff.trans name_mem_firstUses_iff ?_
  constructor
  · rintro ⟨-, u, hu, rfl⟩
    obtain ⟨s, hs, rfl⟩ := mem_map.mp hu
    obtain ⟨hs, hfree⟩ := mem_filter.mp hs
    exact ⟨s, hs, rfl, hfree⟩
  · rintro ⟨s, hs, rfl, hfree⟩
    exact ⟨not_mem_nil, useAt source s, mem_map_of_mem (mem_filter.mpr ⟨hs, hfree⟩), rfl⟩

theorem any_hiddenAt_iff {above : List Node} :
    (hiddenAt source f above).any (·.contains x) ↔
      (∃ e ∈ above, Covers source e x) ∨ ∃ k ∈ f.child? .name, k.text source = x := by
  simp only [hiddenAt, any_append, Bool.or_eq_true, any_filterMap, any_eq_true]
  refine or_congr (exists_congr fun e => and_congr_right fun _ => ?_) ?_
  · unfold Covers
    cases scopeNames? source e <;> simp
  · unfold ownNames
    cases f.child? .name <;> simp [eq_comm]

/-- **A use is free** if no scope around it hides the name and the function is not named so. -/
theorem isFreeUse_iff (hx : s.node.text source = x) : isFreeUse source f s ↔
    s.node.is .shorthandPropertyIdentifierPattern = false ∧ x ∉ globals ∧
      (¬ ∃ e ∈ s.above, Covers source e x) ∧ ¬ ∃ k ∈ f.child? .name, k.text source = x := by
  rw [isFreeUse, hx, isFree, ← not_or, ← any_hiddenAt_iff, ← contains_iff_mem]
  cases s.node.is .shorthandPropertyIdentifierPattern <;>
    cases (hiddenAt source f s.above).any (·.contains x) <;> cases globals.contains x <;> decide

def functionsIn (text : String) : List Node :=
  ((parse .javascript text).sites.map (·.node)).filter (·.kindIs isFunction)

/-! ## What is overlooked -/

/-- A node stands in the body of a function, outside inner functions. -/
def InBody (g n : Node) : Prop :=
  g.kindIs isFunction ∧ ∃ body ∈ g.child? .body, n ∈ body.reached isPlain

/-- A scope introduces a name in a way that the search does not see at the site: by the `var` of a
loop over items, by a statement in a clause of a switch or behind a label, or by a variable of a
static block that is not in the body of a function around the site. -/
def Overlooked (s : Site) (e : Node) : Way → Prop
  | .loopVar | .inner => True
  | .var => e.is .classStaticBlock ∧ ∀ g ∈ s.above, ∀ body ∈ e.child? .body, ¬ InBody g body
  | _ => False

theorem mem_reached_of_mem_ownNodes {body d : Node} (h : d ∈ ownNodes body) :
    d ∈ body.reached isPlain := by
  unfold ownNodes at h
  split at h
  · cases h
  · refine Node.mem_reached_mono (fun c hc => ?_) h
    rw [holdsVariables, Bool.not_or, Bool.and_eq_true] at hc
    exact hc.1

theorem hoists_of_function {e : Node} (he : e.kindIs isFunction)
    (h : Introduces source e x .var) : Hoists source e x := by
  obtain ⟨-, body, hbody, d, hd, hvar⟩ := h
  exact ⟨he, body, hbody, d, mem_reached_of_mem_ownNodes hd, hvar⟩

/-- A function hoists the variables of the static blocks in its body, too. -/
theorem hoists_of_inBody {g e body : Node} (hbody : body ∈ e.child? .body) (hg : InBody g body)
    (h : Introduces source e x .var) : Hoists source g x := by
  obtain ⟨-, body', hbody', d, hd, hvar⟩ := h
  obtain ⟨hfunction, outer, houter, hin⟩ := hg
  obtain rfl : body = body' := Option.mem_unique hbody hbody'
  exact ⟨hfunction, outer, houter, d,
    Node.mem_reached_trans hin (mem_reached_of_mem_ownNodes hd), hvar⟩

/-- What no scope around a site covers is overlooked in every scope that introduces it. -/
theorem overlooked_of_not_covered (hfree : ¬ ∃ e ∈ s.above, Covers source e x) {e : Node}
    (he : e ∈ s.above) {way : Way} (h : Introduces source e x way) : Overlooked s e way := by
  have hhoists : ∀ g ∈ s.above, ¬ Hoists source g x := fun g hg hoists =>
    hfree ⟨g, hg, covers_iff.mpr (.inl hoists)⟩
  cases hhides : way.hides with
  | true => exact absurd ⟨e, he, covers_iff.mpr (.inr ⟨way, hhides, h⟩)⟩ hfree
  | false =>
    cases way with
    | loopVar | inner => trivial
    | var =>
      rcases Bool.or_eq_true_iff.mp h.1 with hfunction | hblock
      · exact absurd (hoists_of_function hfunction h) (hhoists e he)
      · exact ⟨hblock, fun g hg body hbody hin =>
          hhoists g hg (hoists_of_inBody hbody hin h)⟩
    | own | parameter | typeParameter | caught | statement | counter | item => cases hhides

/-- **What is reported is not bound, but for what is overlooked.** A reported name stands at a site
where it is used, and every scope around the site that introduces the name does so in a way that the
search overlooks. So no parameter, no caught name, no declaration of a block or a loop and no `var`
statement of a function around the site has the name, whichever part of the scope the site is in. -/
theorem freeNames_overlook {u : FreeName} (hu : u ∈ freeNames source f) :
    ∃ s ∈ names f, s.node.text source = u.name ∧ s.node.start = u.byte ∧
      ∀ e ∈ s.above, ∀ way, Introduces source e u.name way → Overlooked s e way := by
  obtain ⟨s, hs, hfree, rfl⟩ := mem_freeNames hu
  obtain ⟨-, -, hcovered, -⟩ := (isFreeUse_iff rfl).mp hfree
  exact ⟨s, hs, rfl, rfl, fun e he way h => overlooked_of_not_covered hcovered he h⟩

/-- In some function of a program a name is reported where it is bound. -/
def ReportsBound (text x : String) : Prop :=
  ∃ f ∈ functionsIn text, ∃ u ∈ freeNames text f, u.name = x ∧
    ∃ s ∈ names f, s.node.start = u.byte ∧ Bound text s x
  deriving Decidable

/-- A name that is declared in one block is reported where it is used behind the block. -/
theorem freeNames_overlook_behind_block :
    let text := "function f()\x7b\x7blet b\x7db\x7d"
    ∃ f ∈ functionsIn text, ∃ u ∈ freeNames text f, u.name = "b" ∧ u.byte = 20 ∧
      ∃ s ∈ names f, s.node.text text = u.name ∧ s.node.start = u.byte ∧
        ∀ e ∈ s.above, ∀ way, Introduces text e u.name way → Overlooked s e way := by
  intro text
  have hreported : ∃ f ∈ functionsIn text, ∃ u ∈ freeNames text f, u.name = "b" ∧ u.byte = 20 := by
    decide +kernel
  obtain ⟨f, hf, u, hu, hname, hbyte⟩ := hreported
  exact ⟨f, hf, u, hu, hname, hbyte, freeNames_overlook hu⟩

/-- **Bound names are reported**: behind a loop whose `var` declares it, in a clause of a switch
that declares it, behind a labelled function, and in a static block among the parameters. -/
theorem freeNames_reports_bound :
    ReportsBound "function f()\x7bfor(var x of y);x\x7d" "x" ∧
    ReportsBound "function f()\x7bswitch(1)\x7bcase 1:let y;y\x7d\x7d" "y" ∧
    ReportsBound "function f()\x7bl:function g()\x7b\x7dg\x7d" "g" ∧
    ReportsBound "function f(a=class\x7bstatic\x7b\x7bvar x\x7dx\x7d\x7d)\x7b\x7d" "x" := by
  decide +kernel

/-! ## What is passed over -/

/-- The ways in which the search passes over a use that nothing binds. -/
inductive Gap where
  /-- A property that is written without its value is assigned to. -/
  | target
  /-- A method's key is taken for a name of the method. -/
  | method
  /-- A parameter is taken to be bound in the key and the decorators of its method, too. -/
  | head
  /-- A variable is taken to be bound in the parameters of its function, too. -/
  | early
  /-- The variables of a static block are taken for those of the function around it. -/
  | block
  /-- The variables of a function are taken for those of the function that it is the body of. -/
  | curried
  deriving DecidableEq, Repr

/-- The search passes over a use of a name in this way. -/
def PassedOver (source : String) (f : Node) (s : Site) (x : String) : Gap → Prop
  | .target => s.node.is .shorthandPropertyIdentifierPattern
  | .method => ∃ k ∈ f.child? .name, k.is .identifier = false ∧ k.text source = x
  | .head =>
    ∃ step ∈ s.steps, isHead step.1 ∧
      (Introduces source step.2 x .parameter ∨ Introduces source step.2 x .typeParameter)
  | .early => ∃ step ∈ s.steps, step.2.child? .body ≠ some step.1 ∧ Hoists source step.2 x
  | .block =>
    ∃ e ∈ s.above, e.kindIs isFunction ∧ ∃ body ∈ e.child? .body,
      ∃ m ∈ body.reached isPlain, m.is .classStaticBlock ∧
        ∃ d ∈ m.reached isPlain, d.is .variableDeclaration ∧ Declares source d x
  | .curried =>
    ∃ e ∈ s.above, e.kindIs isFunction ∧ ∃ body ∈ e.child? .body, body.kindIs isFunction ∧
        ∃ d ∈ body.reached isPlain, d.is .variableDeclaration ∧ Declares source d x

instance (source : String) (e : Node) (x : String) : Decidable (Hoists source e x) :=
  inferInstanceAs (Decidable (_ ∧ _))

instance (source : String) (f : Node) (s : Site) (x : String) : (gap : Gap) →
    Decidable (PassedOver source f s x gap)
  | .target => inferInstanceAs (Decidable (_ = true))
  | .method | .head | .early | .block | .curried => inferInstanceAs (Decidable (∃ _, _ ∧ _))

def Gap.all : List Gap := [.target, .method, .head, .early, .block, .curried]

theorem Gap.mem_all (gap : Gap) : gap ∈ Gap.all := by
  cases gap <;> decide

instance (source : String) (f : Node) (s : Site) (x : String) :
    Decidable (∃ gap, PassedOver source f s x gap) :=
  decidable_of_iff (∃ gap ∈ Gap.all, PassedOver source f s x gap) <| by
    simp only [Gap.mem_all, true_and]

theorem not_isName_of_isFunction {n : Node} (h : n.kindIs isFunction) :
    n.kindIs isName = false := by
  obtain ⟨label, role, start, stop, children⟩ := n
  cases label with
  | token text => cases h
  | named kind => cases kind <;> first | rfl | cases h

theorem bound_of_introduces {c e : Node} (hstep : (c, e) ∈ s.steps) {way : Way}
    (h : Introduces source e x way) (hreaches : way.Reaches e c) : Bound source s x :=
  ⟨(c, e), hstep, way, h, hreaches⟩

/-- A function that hoists a name without binding it does so for one of three reasons. -/
theorem passedOver_of_hoists {c e : Node} (hstep : (c, e) ∈ s.steps) (h : Hoists source e x)
    (hfree : ¬ Bound source s x) : ∃ gap, PassedOver source f s x gap := by
  have he := Site.mem_above_of_mem_steps hstep
  by_cases hbody : e.child? .body = some c
  · obtain ⟨hfunction, body, hbody', d, hd, hvar⟩ := h
    obtain rfl : body = c := Option.mem_unique hbody' hbody
    cases hcurried : body.kindIs isFunction with
    | true => exact ⟨.curried, e, he, hfunction, body, hbody, hcurried, d, hd, hvar⟩
    | false =>
      cases hstatic : body.is .classStaticBlock with
      | true =>
        have hself : body ∈ body.reached isPlain := Node.mem_reached_iff.mpr .refl
        exact ⟨.block, e, he, hfunction, body, hbody, body, hself, hstatic, d, hd, hvar⟩
      | false =>
        rcases Node.mem_reached_split (q := fun n => !n.is .classStaticBlock) hd with hown | hin
        · -- Nothing on the way has variables of its own, so the rules bind the name in the body.
          have hmem : d ∈ ownNodes body := by
            rw [ownNodes, if_neg (by rw [holdsVariables, hcurried, hstatic]; decide)]
            refine Node.mem_reached_mono (fun n hn => ?_) hown
            rw [holdsVariables, Bool.not_or]
            exact hn
          have hholds : holdsVariables e := by rw [holdsVariables, hfunction, Bool.true_or]
          have hvars : Introduces source e x .var := ⟨hholds, body, hbody, d, hmem, hvar⟩
          exact absurd (bound_of_introduces hstep hvars hbody) hfree
        · obtain ⟨m, hm, hblock, hd⟩ := hin
          have hblock : m.is .classStaticBlock := by simpa using hblock
          exact ⟨.block, e, he, hfunction, body, hbody, m, hm, hblock, d, hd, hvar⟩
  · exact ⟨.early, (c, e), hstep, hbody, h⟩

theorem passedOver_of_covers {e : Node} (he : e ∈ s.above) (h : Covers source e x)
    (hfree : ¬ Bound source s x) : ∃ gap, PassedOver source f s x gap := by
  obtain ⟨c, hstep⟩ := Site.exists_step he
  rcases covers_iff.mp h with hoists | ⟨way, hway, h⟩
  · exact passedOver_of_hoists hstep hoists hfree
  by_cases hreaches : way.Reaches e c
  · exact absurd (bound_of_introduces hstep h hreaches) hfree
  -- Only parameters do not reach all of their scope.
  cases way with
  | parameter =>
    exact ⟨.head, (c, e), hstep, Bool.not_eq_false _ ▸ hreaches, .inl h⟩
  | typeParameter =>
    exact ⟨.head, (c, e), hstep, Bool.not_eq_false _ ▸ hreaches, .inr h⟩
  | own | caught | statement | counter | item => exact absurd trivial hreaches
  | var | loopVar | inner => cases hway

theorem not_isFreeUse_of_passedOver (hx : s.node.text source = x) {gap : Gap}
    (h : PassedOver source f s x gap) : isFreeUse source f s = false := by
  rw [Bool.eq_false_iff, ne_eq, isFreeUse_iff hx]
  rintro ⟨htarget, -, hcovered, hnamed⟩
  have hhoists : ∀ e ∈ s.above, ¬ Hoists source e x := fun e he hoists =>
    hcovered ⟨e, he, covers_iff.mpr (.inl hoists)⟩
  cases gap with
  | target => exact Bool.false_ne_true (htarget.symm.trans h)
  | method =>
    obtain ⟨k, hk, -, hname⟩ := h
    exact hnamed ⟨k, hk, hname⟩
  | head =>
    obtain ⟨step, hstep, -, h⟩ := h
    refine hcovered ⟨step.2, Site.mem_above_of_mem_steps hstep, covers_iff.mpr (.inr ?_)⟩
    rcases h with h | h
    · exact ⟨.parameter, rfl, h⟩
    · exact ⟨.typeParameter, rfl, h⟩
  | early =>
    obtain ⟨step, hstep, -, hoists⟩ := h
    exact hhoists step.2 (Site.mem_above_of_mem_steps hstep) hoists
  | block =>
    obtain ⟨e, he, hfunction, body, hbody, m, hm, -, d, hd, hvar⟩ := h
    exact hhoists e he ⟨hfunction, body, hbody, d, Node.mem_reached_trans hm hd, hvar⟩
  | curried =>
    obtain ⟨e, he, hfunction, body, hbody, -, hvar⟩ := h
    exact hhoists e he ⟨hfunction, body, hbody, hvar⟩

theorem isFreeUse_of_not_bound (hf : f.kindIs isFunction) (hs : s ∈ names f)
    (hx : s.node.text source = x) (hglobal : x ∉ globals) (hfree : ¬ Bound source s x)
    (hseen : ¬ ∃ gap, PassedOver source f s x gap) : isFreeUse source f s := by
  refine (isFreeUse_iff hx).mpr ⟨Bool.eq_false_iff.mpr fun h => hseen ⟨.target, h⟩, hglobal, ?_, ?_⟩
  · rintro ⟨e, he, hcovers⟩
    exact hseen (passedOver_of_covers he hcovers hfree)
  · rintro ⟨k, hk, hname⟩
    cases hkind : k.is .identifier with
    | false => exact hseen ⟨.method, k, hk, hkind, hname⟩
    | true =>
      -- The function is around all names in it, so its own name is bound at the site.
      obtain ⟨c, hstep⟩ :=
        Site.exists_step (mem_above_of_mem_names (not_isName_of_isFunction hf) hs)
      have hown : Introduces source f x .own := ⟨hf, k, hk, hkind, hname⟩
      exact hfree (bound_of_introduces hstep hown trivial)

/-- **No free name is missed, but for what is passed over.** A name that is used in a function where
nothing binds it is reported, unless the search passes over the use; a name whose every use is
passed over is not reported. -/
theorem freeNames_complete (hf : f.kindIs Kind.isFunction = true) (hglobal : x ∉ globals) :
    (∀ s ∈ names f, s.node.text source = x → ¬ Bound source s x →
      (¬ ∃ gap, PassedOver source f s x gap) → x ∈ (freeNames source f).map (·.name)) ∧
    ((∀ s ∈ names f, s.node.text source = x → ∃ gap, PassedOver source f s x gap) →
      x ∉ (freeNames source f).map (·.name)) := by
  constructor
  · intro s hs hx hfree hseen
    exact name_mem_freeNames_iff.mpr
      ⟨s, hs, hx, isFreeUse_of_not_bound hf hs hx hglobal hfree hseen⟩
  · intro hall hmem
    obtain ⟨s, hs, hx, huse⟩ := name_mem_freeNames_iff.mp hmem
    obtain ⟨gap, hgap⟩ := hall s hs hx
    rw [not_isFreeUse_of_passedOver hx hgap] at huse
    cases huse

/-- Some function of a program uses a name that nothing binds, and the name is not reported. -/
def Misses (text x : String) : Prop :=
  x ∉ globals ∧ ∃ f ∈ functionsIn text,
    (∃ s ∈ names f, s.node.text text = x ∧ ¬ Bound text s x) ∧ x ∉ (freeNames text f).map (·.name)
  deriving Decidable

/-- A name is reported that a closure binds and the function around it uses, but not if it is the
key of the method that uses it. -/
theorem freeNames_complete_closure_method :
    (let text := "function f()\x7bb=>b;b\x7d"
      ∃ f ∈ functionsIn text, f.kindIs Kind.isFunction ∧ "b" ∉ globals ∧
        (∃ s ∈ names f, s.node.text text = "b" ∧ ¬ Bound text s "b" ∧
          ¬ ∃ gap, PassedOver text f s "b" gap) ∧ "b" ∈ (freeNames text f).map (·.name)) ∧
    (let text := "class A\x7bm()\x7bm\x7d\x7d"
      ∃ f ∈ functionsIn text, f.kindIs Kind.isFunction ∧ "m" ∉ globals ∧
        (∀ s ∈ names f, s.node.text text = "m" → ∃ gap, PassedOver text f s "m" gap) ∧
        "m" ∉ (freeNames text f).map (·.name)) := by
  have hpremises : (let text := "function f()\x7bb=>b;b\x7d"
      ∃ f ∈ functionsIn text, f.kindIs isFunction ∧ "b" ∉ globals ∧
        ∃ s ∈ names f, s.node.text text = "b" ∧ ¬ Bound text s "b" ∧
          ¬ ∃ gap, PassedOver text f s "b" gap) ∧
      (let text := "class A\x7bm()\x7bm\x7d\x7d"
        ∃ f ∈ functionsIn text, f.kindIs isFunction ∧ "m" ∉ globals ∧
          ∀ s ∈ names f, s.node.text text = "m" → ∃ gap, PassedOver text f s "m" gap) := by
    decide +kernel
  obtain ⟨⟨f, hf, hfunction, hb, s, hs, hx, hfree, hseen⟩, g, hg, hgfunction, hm, hall⟩ := hpremises
  have hreported := (freeNames_complete hfunction hb).1 s hs hx hfree hseen
  have hmissing := (freeNames_complete hgfunction hm).2 hall
  exact ⟨⟨f, hf, hfunction, hb, ⟨s, hs, hx, hfree, hseen⟩, hreported⟩,
    g, hg, hgfunction, hm, hall, hmissing⟩

/-- **Free names are missed**: one that a method is named like, one in a computed key, one in the
parameters before a `var` in the body, one that a static block declares for itself, one that an
inner function declares for itself, and one that is assigned to as a property without a value. -/
theorem freeNames_misses_free :
    Misses "class A\x7bm()\x7bm\x7d\x7d" "m" ∧
    Misses "(\x7b[k](k)\x7b\x7d\x7d)" "k" ∧
    Misses "function f(a=x)\x7bvar x\x7d" "x" ∧
    Misses "function f()\x7bclass A\x7bstatic\x7bvar x\x7d\x7dx\x7d" "x" ∧
    Misses "(y=x)=>()=>\x7bvar x\x7d" "x" ∧
    Misses "function f(o)\x7b(\x7bx\x7d=o)\x7d" "x" := by
  decide +kernel

end RouteAtlas.Scope
