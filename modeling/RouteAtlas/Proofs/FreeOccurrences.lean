import Mathlib.Data.List.Basic
import RouteAtlas.Proofs.FreeNames
import RouteAtlas.Proofs.PlacedSources

/-!
# Free names by their occurrences

The search for free names goes down a function once, with the scopes around it at hand and the names
that it has seen behind it. What it reports can be said of each name by itself: there is a use of
the name that no scope on the way down to it holds. A name of a parsed text has nothing inside and
some bytes, so the search meets every name, and each one further on in the text than those before.
-/

open List

namespace RouteAtlas.Scope

open Source

variable {us : List Use} {seen : List String}

/-! ## The names of a tree -/

def isNameSite (s : Site) : Bool := s.node.kindIs isName && !isLabelled s.above

theorem isName_eq (k : Kind) : isName k = k.isWord := by
  cases k <;> rfl

theorem written_of_isName {text : List Char} {n : Node} (h : n.Formed text)
    (hname : n.kindIs isName) : n.children = [] ∧ n.start < n.stop := by
  rw [funext isName_eq] at hname
  exact h.2 hname

section Names

variable {text : List Char}

/-- The search meets all names of a tree: none is inside another one. -/
theorem namesBelow_eq {n : Node} (above : List Node) (hnamed : n.isNamed)
    (hformed : ∀ m ∈ n.nodes, m.Formed text) :
    namesBelow above n = (n.sitesBelow above).filter isNameSite := by
  induction n using Node.children_induction generalizing above with
  | step n ih =>
    obtain ⟨kind | token, role, start, stop, children⟩ := n
    case token => cases hnamed
    have hsite : isNameSite ⟨.mk (.named kind) role start stop children, above⟩ =
      (isName kind && !isLabelled above) := rfl
    rw [namesBelow, Node.sitesBelow, filter_cons, hsite]
    cases hkind : isName kind with
    | true =>
      obtain rfl : children = [] :=
        (written_of_isName (hformed _ (Node.self_mem_nodes _)) hkind).1
      cases isLabelled above <;> rfl
    | false =>
      rw [namesOfAll_eq, sitesOfAll_eq, filter_flatMap]
      refine flatMap_congr fun c hc => ?_
      obtain ⟨hc, hnamed⟩ := mem_filter.mp hc
      exact ih c hc _ hnamed fun m hm => hformed m (Node.mem_nodes_iff.mpr (.inr ⟨c, hc, hm⟩))

theorem pairwise_namesBelow {n : Node} (above : List Node) (hplaced : n.Placed)
    (hformed : ∀ m ∈ n.nodes, m.Formed text) :
    (namesBelow above n).Pairwise (·.node.start < ·.node.start) := by
  induction n using Node.children_induction generalizing above with
  | step n ih =>
    have hinner : ∀ c ∈ n.children, ∀ m ∈ c.nodes, m.Formed text :=
      fun c hc m hm => hformed m (Node.mem_nodes_iff.mpr (.inr ⟨c, hc, hm⟩))
    obtain ⟨kind | token, role, start, stop, children⟩ := n
    · rw [namesBelow]
      split
      · split
        · exact .nil
        · exact pairwise_singleton _ _
      have hin : ∀ c ∈ children, c.Placed := fun c hc => (Node.PlacedIn.of_mem hplaced hc).1
      rw [namesOfAll_eq, pairwise_flatMap]
      refine ⟨fun c hc => ?_, ?_⟩
      · have hc := (mem_filter.mp hc).1
        exact ih c hc _ (hin c hc) (hinner c hc)
      · refine .sublist filter_sublist
          ((Node.PlacedIn.pairwise hplaced).imp_of_mem fun {c d} hc hd hle a ha b hb => ?_)
        obtain ⟨ha, hname, -⟩ := of_mem_namesBelow ha
        have hwritten := (written_of_isName (hinner c hc _ ha) hname).2
        have hstop := ((hin c hc).range_of_mem ha).2.2
        have hstart := ((hin d hd).range_of_mem (of_mem_namesBelow hb).1).2.1
        omega
    · exact .nil

end Names

/-! ## First uses -/

theorem nodup_firstUses : ((firstUses seen us).map (·.name)).Nodup := by
  induction us generalizing seen with
  | nil => exact .nil
  | cons u us ih =>
    rw [firstUses]
    split
    · exact ih
    · refine nodup_cons.mpr ⟨fun h => ?_, ih⟩
      exact (name_mem_firstUses_iff.mp (mem_map.mp h)).1 mem_cons_self

theorem split_of_mem_firstUses {u : Use} (h : u ∈ firstUses seen us) :
    ∃ front rest, us = front ++ u :: rest ∧ ∀ v ∈ front, v.name ≠ u.name := by
  induction us generalizing seen with
  | nil => cases h
  | cons w us ih =>
    have hnew : u.name ∉ seen := (name_mem_firstUses_iff.mp ⟨u, h, rfl⟩).1
    rw [firstUses] at h
    split at h
    · rename_i hseen
      obtain ⟨front, rest, rfl, hfront⟩ := ih h
      refine ⟨w :: front, rest, rfl, forall_mem_cons.mpr ⟨fun hname => hnew ?_, hfront⟩⟩
      exact hname ▸ contains_iff_mem.mp hseen
    · rcases mem_cons.mp h with rfl | h
      · exact ⟨[], us, rfl, forall_mem_nil _⟩
      · have hother : u.name ∉ w.name :: seen := (name_mem_firstUses_iff.mp ⟨u, h, rfl⟩).1
        obtain ⟨front, rest, rfl, hfront⟩ := ih h
        exact ⟨w :: front, rest, rfl,
          forall_mem_cons.mpr ⟨fun hname => hother (hname ▸ mem_cons_self), hfront⟩⟩

/-! ## What is reported -/

/-- At a site in a function a name is used, not as a label, and no node on the way from the function
down to the site opens a scope that holds the name. -/
structure Occurs (source : String) (f : Node) (x : String) (s : Site) : Prop where
  site : s ∈ f.sites
  reference : s.node.kindIs isReference
  noLabel : isLabelled s.above = false
  text_eq : s.node.text source = x
  free : ∀ e ∈ s.above, ¬ Covers source e x

/-- The name may be reported at all: it is no global one and not the function's own. -/
def Reportable (source : String) (f : Node) (x : String) : Prop :=
  x ∉ globals ∧ ∀ k ∈ f.child? .name, k.text source ≠ x

theorem isReference_iff {n : Node} : n.kindIs isReference ↔
    n.kindIs isName ∧ n.is .shorthandPropertyIdentifierPattern = false := by
  obtain ⟨kind | token, role, start, stop, children⟩ := n
  · change isReference kind ↔ isName kind ∧ (kind == _) = false
    cases kind <;> decide
  · exact ⟨fun h => (nomatch h), fun h => (nomatch h.1)⟩

section Reported

variable {text : String} {f : Node}

theorem isFreeUse_iff_occurs (hnamed : f.isNamed) (hformed : ∀ m ∈ f.nodes, m.Formed text.toList)
    {x : String} {s : Site} : s ∈ names f ∧ s.node.text text = x ∧ isFreeUse text f s ↔
      Reportable text f x ∧ Occurs text f x s := by
  rw [names, namesBelow_eq [] hnamed hformed]
  simp only [mem_filter, isNameSite, Bool.and_eq_true, Bool.not_eq_true']
  constructor
  · rintro ⟨⟨hs, hname, hlabel⟩, rfl, huse⟩
    obtain ⟨hpattern, hglobal, hfree, hown⟩ := (isFreeUse_iff rfl).mp huse
    refine ⟨⟨hglobal, fun k hk h => hown ⟨k, hk, h⟩⟩, hs, ?_, hlabel, rfl, ?_⟩
    · exact isReference_iff.mpr ⟨hname, hpattern⟩
    · exact fun e he h => hfree ⟨e, he, h⟩
  · rintro ⟨⟨hglobal, hown⟩, hs, href, hlabel, hx, hfree⟩
    obtain ⟨hname, hpattern⟩ := isReference_iff.mp href
    refine ⟨⟨hs, hname, hlabel⟩, hx, (isFreeUse_iff hx).mpr ⟨hpattern, hglobal, ?_, ?_⟩⟩
    · rintro ⟨e, he, h⟩
      exact hfree e he h
    · rintro ⟨k, hk, h⟩
      exact hown k hk h

theorem pairwise_freeUses (hplaced : f.Placed) (hformed : ∀ m ∈ f.nodes, m.Formed text.toList) :
    (freeUses text f).Pairwise (·.byte < ·.byte) :=
  pairwise_map.mpr ((pairwise_namesBelow [] hplaced hformed).sublist filter_sublist)

/-- **Which names are reported**, in any formed tree. -/
theorem mem_names_freeNames_iff (hnamed : f.isNamed)
    (hformed : ∀ m ∈ f.nodes, m.Formed text.toList) (x : String) :
    x ∈ (freeNames text f).map (·.name) ↔ Reportable text f x ∧ ∃ s, Occurs text f x s := by
  rw [name_mem_freeNames_iff, ← exists_and_left]
  exact exists_congr fun s => isFreeUse_iff_occurs hnamed hformed

/-- **Where a name is reported**, in any placed and formed tree. -/
theorem occurs_of_mem_freeNames (hnamed : f.isNamed) (hplaced : f.Placed)
    (hformed : ∀ m ∈ f.nodes, m.Formed text.toList) {u : FreeName} (hu : u ∈ freeNames text f) :
    u.position = positionAt text u.byte ∧ (∃ s, Occurs text f u.name s ∧ s.node.start = u.byte) ∧
      ∀ s, Occurs text f u.name s → u.byte ≤ s.node.start := by
  have hbytes := pairwise_freeUses hplaced hformed
  rw [freeNames_eq] at hu
  obtain ⟨_, hv, rfl⟩ := mem_map.mp hu
  obtain ⟨v, hmem, rfl⟩ := mem_map.mp (firstUses_sublist.subset hv)
  obtain ⟨hmem, hfree⟩ := mem_filter.mp hmem
  obtain ⟨hreportable, hfound⟩ :=
    (isFreeUse_iff_occurs hnamed hformed).mp ⟨hmem, rfl, hfree⟩
  refine ⟨rfl, ⟨v, hfound, rfl⟩, fun s hs => ?_⟩
  obtain ⟨hmem, hname, hfree⟩ := (isFreeUse_iff_occurs hnamed hformed).mpr ⟨hreportable, hs⟩
  have huse : useAt text s ∈ freeUses text f := mem_map_of_mem (mem_filter.mpr ⟨hmem, hfree⟩)
  -- the use is no earlier one, and those behind the first stand further on
  obtain ⟨front, rest, hsplit, hfront⟩ := split_of_mem_firstUses hv
  rw [hsplit] at huse hbytes
  rcases mem_append.mp huse with huse | huse
  · exact (hfront (useAt text s) huse hname).elim
  rcases mem_cons.mp huse with heq | huse
  · exact Nat.le_of_eq (congrArg Use.byte heq).symm
  · have hbehind := (pairwise_cons.mp (pairwise_append.mp hbytes).2.1).1
    exact Nat.le_of_lt (hbehind _ huse)

/-- A name is reported exactly if it may be and some use of it stands where no scope on the way down
holds it. No name is reported twice, each one at its first such use, and in the order of the text.
-/
theorem freeNames_by_occurrences (language : Language) (hf : f ∈ (parse language text).nodes)
    (hfunction : f.kindIs Kind.isFunction) :
    (∀ x, x ∈ (freeNames text f).map (·.name) ↔ Reportable text f x ∧ ∃ s, Occurs text f x s) ∧
    ((freeNames text f).map (·.name)).Nodup ∧
    (∀ u ∈ freeNames text f, u.position = positionAt text u.byte ∧
      (∃ s, Occurs text f u.name s ∧ s.node.start = u.byte) ∧
      ∀ s, Occurs text f u.name s → u.byte ≤ s.node.start) ∧
    ((freeNames text f).map (·.byte)).Pairwise (· < ·) := by
  have hplaced : f.Placed := ((placed_parse language text).range_of_mem hf).1
  have hformed : ∀ m ∈ f.nodes, m.Formed text.toList := fun m hm =>
    formed_parse language text (Node.mem_nodes_trans hf hm)
  have hnamed : f.isNamed = true := by
    obtain ⟨kind | token, role, start, stop, children⟩ := f
    · rfl
    · cases hfunction
  refine ⟨mem_names_freeNames_iff hnamed hformed, ?_,
    fun u => occurs_of_mem_freeNames hnamed hplaced hformed, ?_⟩
  · rw [freeNames_eq, map_map]
    exact nodup_firstUses
  · rw [freeNames_eq, map_map]
    exact pairwise_map.mpr ((pairwise_freeUses hplaced hformed).sublist firstUses_sublist)

end Reported

/-- A name that a closure binds is reported where it is used behind the closure. -/
theorem freeNames_by_occurrences_behind_closure :
    let text := "function f()\x7bb=>b;b\x7d"
    ∃ f ∈ (parse .javascript text).nodes, f.kindIs Kind.isFunction ∧ Reportable text f "b" ∧
      (∃ s, Occurs text f "b" s ∧ s.node.start = 18) ∧
      ∀ s, Occurs text f "b" s → 18 ≤ s.node.start := by
  intro text
  have hreported : ∃ f ∈ (parse .javascript text).nodes, f.kindIs Kind.isFunction ∧
      ∃ u ∈ freeNames text f, u.name = "b" ∧ u.byte = 18 := by
    decide +kernel
  obtain ⟨f, hf, hfunction, u, hu, hname, hbyte⟩ := hreported
  obtain ⟨hnames, -, hplaces, -⟩ := freeNames_by_occurrences .javascript hf hfunction
  have hreportable := ((hnames u.name).mp (mem_map_of_mem hu)).1
  obtain ⟨-, hfirst, hleast⟩ := hplaces u hu
  rw [hname] at hreportable hfirst hleast
  rw [hbyte] at hfirst hleast
  exact ⟨f, hf, hfunction, hreportable, hfirst, hleast⟩

end RouteAtlas.Scope
