import RouteAtlas.Proofs.InnermostMatches
import RouteAtlas.Proofs.PlacedSources

/-!
# Whole functions among those that contain a text

A long text stands for the functions that it is the whole of and for those that merely contain it.
The search makes no difference between the two: it takes the match that ends first. So a function
that is the text is passed over for another one that merely contains the text and ends earlier.
-/

open List

namespace RouteAtlas.Source.Node

/-! ## The order in which nodes end -/

mutual

/-- The nodes of a tree, each behind its children. -/
def closing : Node → List Node
  | mk label role start stop children =>
    closingOfAll children ++ [mk label role start stop children]

def closingOfAll : List Node → List Node
  | [] => []
  | n :: ns => n.closing ++ closingOfAll ns

end

theorem closing_eq (n : Node) : n.closing = n.children.flatMap closing ++ [n] := by
  have hall : ∀ ns : List Node, closingOfAll ns = ns.flatMap closing := by
    intro ns
    induction ns with
    | nil => rfl
    | cons n ns ih => rw [closingOfAll, ih, flatMap_cons]
  cases n with
  | mk label role start stop children => rw [closing, hall, Node.children]

theorem mem_closing {n m : Node} : m ∈ n.closing ↔ m ∈ n.nodes := by
  induction n using children_induction with
  | step n ih =>
    rw [closing_eq, mem_nodes_iff, mem_append, mem_singleton, mem_flatMap, or_comm]
    exact or_congr_right (exists_congr fun c => and_congr_right (ih c))

def EndsFirst (a b : Node) : Prop := a ∈ b.nodes ∨ a.stop ≤ b.start

/-- **Of two nodes of a placed tree the one that ends first lies in the other one or before it.** -/
theorem closing_pairwise {n : Node} (h : n.Placed) : n.closing.Pairwise EndsFirst := by
  induction n using children_induction with
  | step n ih =>
    have hin : ∀ c ∈ n.children, c.Placed := fun c hc => (h.children.of_mem hc).1
    rw [closing_eq, pairwise_append, pairwise_flatMap]
    refine ⟨⟨fun c hc => ih c hc (hin c hc), ?_⟩, pairwise_singleton _ _, fun a ha b hb => ?_⟩
    · refine h.ordered.imp_of_mem fun {c d} hc hd hle a ha b hb => .inr ?_
      have hstop := ((hin c hc).range_of_mem (mem_closing.mp ha)).2.2
      have hstart := ((hin d hd).range_of_mem (mem_closing.mp hb)).2.1
      omega
    · rw [mem_singleton.mp hb]
      obtain ⟨c, hc, ha⟩ := mem_flatMap.mp ha
      exact .inl (mem_nodes_iff.mpr (.inr ⟨c, hc, mem_closing.mp ha⟩))

theorem size_le_of_mem_nodes {n m : Node} (h : m ∈ n.nodes) : m.size ≤ n.size := by
  induction n using children_induction with
  | step n ih =>
    rcases mem_nodes_iff.mp h with rfl | ⟨c, hc, h⟩
    · exact Nat.le_refl _
    · exact Nat.le_of_lt (Nat.lt_of_le_of_lt (ih c hc h) (size_lt_of_mem_children hc))

theorem eq_of_mem_nodes {a b : Node} (hab : a ∈ b.nodes) (hba : b ∈ a.nodes) : a = b := by
  rcases mem_nodes_iff.mp hab with h | ⟨c, hc, hac⟩
  · exact h
  · have hle := size_le_of_mem_nodes hba
    have hle' := size_le_of_mem_nodes hac
    have hlt := size_lt_of_mem_children hc
    omega

/-- **Of two different nodes that cover some bytes only one ends first.** -/
theorem EndsFirst.antisymm {a b : Node} (ha : a.Placed) (hb : b.Placed) (hsome : a.start < a.stop)
    (hsome' : b.start < b.stop) (hab : EndsFirst a b) (hba : EndsFirst b a) : a = b := by
  rcases hab with hab | hab <;> rcases hba with hba | hba
  · exact eq_of_mem_nodes hab hba
  · have := (hb.range_of_mem hab).2
    omega
  · have := (ha.range_of_mem hba).2
    omega
  · omega

end RouteAtlas.Source.Node

namespace RouteAtlas.Finder

open Source Node

variable {source search : String}

/-! ## The search as a look-up -/

mutual

/-- **The search finds the match that ends first.** -/
theorem find?_eq_closing (source search : String) : ∀ n : Node,
    find? source search n = n.closing.find? (isWanted source search)
  | .mk label role start stop children => by
    rw [find?, closing, find?_append, findAmong?_eq_closingOfAll source search children]
    split
    · rename_i hn
      have hself : isWanted source search (.mk label role start stop children) := hn
      rw [find?_cons_of_pos hself]
      cases (closingOfAll children).find? (isWanted source search) <;> rfl
    · rename_i hn
      have hself : ¬ isWanted source search (.mk label role start stop children) := hn
      rw [find?_cons_of_neg hself, find?_nil, Option.or_none]

theorem findAmong?_eq_closingOfAll (source search : String) : ∀ ns : List Node,
    findAmong? source search ns = (closingOfAll ns).find? (isWanted source search)
  | [] => rfl
  | n :: ns => by
    rw [findAmong?, closingOfAll, find?_append, find?_eq_closing source search n,
      findAmong?_eq_closingOfAll source search ns]
    cases n.closing.find? (isWanted source search) <;> rfl

end

theorem find?_isSome_iff {root : Node} :
    (find? source search root).isSome ↔ ∃ n ∈ root.nodes, Matches source search n := by
  simp [find?_eq_closing, mem_closing, isWanted_iff]

/-! ## Whole functions -/

/-- A function that the search text is the whole of. -/
def IsWhole (source search : String) (n : Node) : Prop :=
  n.kindIs Kind.isFunction ∧ normalize (n.source source) = search
  deriving Decidable

/-- A function that merely contains the search text, which is a long one. -/
def MerelyHolds (source search : String) (n : Node) : Prop :=
  Matches source search n ∧ normalize (n.source source) ≠ search

instance (n : Node) : Decidable (Matches source search n) :=
  decidable_of_iff (isWanted source search n) isWanted_iff

instance (n : Node) : Decidable (MerelyHolds source search n) :=
  inferInstanceAs (Decidable (_ ∧ _))

theorem IsWhole.matches {n : Node} (h : IsWhole source search n) : Matches source search n :=
  ⟨h.1, .inl h.2⟩

theorem MerelyHolds.long {n : Node} (h : MerelyHolds source search n) :
    25 < search.utf8ByteSize := by
  obtain ⟨⟨-, heq | ⟨hlong, -⟩⟩, hne⟩ := h
  · exact absurd heq hne
  · exact hlong

theorem Matches.start_lt_stop {n : Node} (h : Matches source search n)
    (hsearch : 0 < search.utf8ByteSize) : n.start < n.stop := by
  refine Nat.lt_of_not_le fun hle => ?_
  have hempty : normalize (n.source source) = "" := by
    rw [source_of_stop_le hle]
    rfl
  obtain ⟨-, heq | ⟨-, hin⟩⟩ := h
  · rw [← heq, hempty] at hsearch
    exact absurd hsearch (by decide)
  rw [hempty] at hin
  have hnil : search = "" := String.toList_eq_nil_iff.mp (infix_nil.mp hin)
  rw [hnil] at hsearch
  exact absurd hsearch (by decide)

/-- The search of any placed tree. -/
theorem find?_isWhole_iff {root : Node} (hplaced : root.Placed)
    (h : ∃ n ∈ root.nodes, IsWhole source search n) :
    ∃ found, find? source search root = some found ∧
      (IsWhole source search found ↔ ∀ n ∈ root.nodes, MerelyHolds source search n →
        ∃ whole ∈ root.nodes, IsWhole source search whole ∧ whole.EndsFirst n) := by
  obtain ⟨n₀, hn₀, hwhole₀⟩ := h
  obtain ⟨found, hfind⟩ := Option.isSome_iff_exists.mp
    (find?_isSome_iff.mpr ⟨n₀, hn₀, hwhole₀.matches⟩)
  refine ⟨found, hfind, ?_⟩
  have hfound := (find?_eq_closing source search root).symm.trans hfind
  -- The nodes in the order in which they end: no match before the one that is found.
  obtain ⟨hwanted, before, after, hclosing, hbefore⟩ := find?_eq_some_iff_append.mp hfound
  have hmatch : Matches source search found := isWanted_iff.mp hwanted
  have hmem : found ∈ root.nodes := mem_closing.mp (mem_of_find?_eq_some hfound)
  have hlater : ∀ n ∈ root.nodes, Matches source search n → n ≠ found → found.EndsFirst n := by
    intro n hn hnmatch hne
    have hpairs := closing_pairwise hplaced
    rw [hclosing] at hpairs
    have hn := mem_closing.mpr hn
    rw [hclosing, mem_append, mem_cons] at hn
    rcases hn with hn | rfl | hn
    · have := hbefore n hn
      rw [isWanted_iff.mpr hnmatch] at this
      exact absurd this (by decide)
    · exact absurd rfl hne
    · exact (pairwise_cons.mp (pairwise_append.mp hpairs).2.1).1 n hn
  constructor
  · intro hwhole n hn hmerely
    refine ⟨found, hmem, hwhole, hlater n hn hmerely.1 ?_⟩
    rintro rfl
    exact hmerely.2 hwhole.2
  · intro hall
    refine Classical.byContradiction fun hnot => ?_
    have hmerely : MerelyHolds source search found := ⟨hmatch, fun heq => hnot ⟨hmatch.1, heq⟩⟩
    have hpos : 0 < search.utf8ByteSize := Nat.lt_of_le_of_lt (Nat.zero_le _) hmerely.long
    obtain ⟨whole, hin, hwhole, hfirst⟩ := hall found hmem hmerely
    have hne : whole ≠ found := by
      rintro rfl
      exact hnot hwhole
    refine hne (Node.EndsFirst.antisymm (hplaced.range_of_mem hin).1 (hplaced.range_of_mem hmem).1
      (hwhole.matches.start_lt_stop hpos) (hmatch.start_lt_stop hpos) hfirst ?_)
    exact hlater whole hin hwhole.matches hne

/-- **When a function that is the text is found.** Where some function of a source is the text, the
search finds such a one exactly if every function that merely contains the text has one in it or
before it. -/
theorem whole_found_iff (language : Language) (source search : String)
    (h : ∃ n ∈ (parse language source).nodes, IsWhole source search n) :
    ∃ found, find? source search (parse language source) = some found ∧
      (IsWhole source search found ↔
        ∀ n ∈ (parse language source).nodes, MerelyHolds source search n →
          ∃ whole ∈ (parse language source).nodes, IsWhole source search whole ∧
            (whole ∈ n.nodes ∨ whole.stop ≤ n.start)) :=
  find?_isWhole_iff (placed_parse language source) h

namespace Twins

/-- A function, long enough to be found in others. -/
def whole : String := "x=>'abcdefghijklmnopqrstuvw'"

def nested : String := "function f()\x7breturn x=>'abcdefghijklmnopqrstuvw'\x7d"

/-- The function behind one that starts like it and goes on. -/
def beside : String := "f(x=>'abcdefghijklmnopqrstuvw'.a,x=>'abcdefghijklmnopqrstuvw')"

end Twins

/-- The outer function merely contains the text, and the inner one is found. -/
theorem whole_found_iff_nested :
    (∃ n ∈ (parse .typescript Twins.nested).nodes, IsWhole Twins.nested Twins.whole n) ∧
      (∃ n ∈ (parse .typescript Twins.nested).nodes, MerelyHolds Twins.nested Twins.whole n) ∧
      ∃ found, find? Twins.nested Twins.whole (parse .typescript Twins.nested) = some found ∧
        IsWhole Twins.nested Twins.whole found := by
  have hnodes : (∃ n ∈ (parse .typescript Twins.nested).nodes, IsWhole Twins.nested Twins.whole n) ∧
      (∃ n ∈ (parse .typescript Twins.nested).nodes, MerelyHolds Twins.nested Twins.whole n) ∧
      ∀ n ∈ (parse .typescript Twins.nested).nodes, MerelyHolds Twins.nested Twins.whole n →
        ∃ whole ∈ (parse .typescript Twins.nested).nodes,
          IsWhole Twins.nested Twins.whole whole ∧ (whole ∈ n.nodes ∨ whole.stop ≤ n.start) := by
    decide +kernel
  obtain ⟨hwhole, hmerely, hinside⟩ := hnodes
  obtain ⟨found, hfind, hiff⟩ := whole_found_iff .typescript Twins.nested Twins.whole hwhole
  exact ⟨hwhole, hmerely, found, hfind, hiff.mpr hinside⟩

/-- The text is a whole function of the source, and another one is found. -/
theorem longer_function_found :
    (∃ n ∈ (parse .typescript Twins.beside).nodes, IsWhole Twins.beside Twins.whole n) ∧
      ∃ found, find? Twins.beside Twins.whole (parse .typescript Twins.beside) = some found ∧
        ¬ IsWhole Twins.beside Twins.whole found := by
  have hsearch : (∃ n ∈ (parse .typescript Twins.beside).nodes,
        IsWhole Twins.beside Twins.whole n) ∧
      ∃ found ∈ find? Twins.beside Twins.whole (parse .typescript Twins.beside),
        ¬ IsWhole Twins.beside Twins.whole found := by
    decide +kernel
  exact hsearch

end RouteAtlas.Finder
