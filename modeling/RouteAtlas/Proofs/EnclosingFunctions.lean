import RouteAtlas.Finder.Mapped
import RouteAtlas.Proofs.Trees

/-!
# The function at a place of a source

The functions around a place lie in each other, like the shells of an onion. Of these the search
takes the outermost one that starts right at the place, or else the innermost one.
-/

open List

namespace RouteAtlas

/-! ## Positions -/

namespace Text

theorem isPrefix_takeBytes (n : Nat) (cs : List Char) : takeBytes n cs <+: cs := by
  fun_induction takeBytes n cs with
  | case1 => exact prefix_rfl
  | case2 n c cs _ ih => exact cons_prefix_cons.mpr ⟨rfl, ih⟩
  | case3 => exact nil_prefix

theorem takeBytes_mono {n m : Nat} (h : n ≤ m) (cs : List Char) :
    takeBytes n cs <+: takeBytes m cs := by
  induction cs generalizing n m with
  | nil => exact prefix_rfl
  | cons c cs ih =>
    rw [takeBytes, takeBytes]
    split
    · rename_i hn
      rw [if_pos (Nat.le_trans hn h)]
      exact cons_prefix_cons.mpr ⟨rfl, ih (Nat.sub_le_sub_right h _)⟩
    · exact nil_prefix

end Text

namespace Source

def Position.behind (p : Position) (c : Char) : Position :=
  if c == '\n' then ⟨p.line + 1, 0⟩ else ⟨p.line, p.character + c.utf8Size⟩

/-- **The position of an offset** lies behind the characters before it. -/
theorem advance_eq_foldl (p : Position) (n : Nat) (cs : List Char) :
    advance p n cs = (Text.takeBytes n cs).foldl Position.behind p := by
  induction cs generalizing p n with
  | nil => rfl
  | cons c cs ih =>
    rw [advance, Text.takeBytes]
    by_cases hn : n < c.utf8Size
    · rw [if_pos hn, if_neg (Nat.not_le_of_lt hn)]
      rfl
    rw [if_neg hn, if_pos (Nat.le_of_not_lt hn), foldl_cons, Position.behind]
    split
    · rename_i hc
      have hsize : c.utf8Size = 1 := by rw [eq_of_beq hc]; rfl
      rw [hsize]
      exact ih _ _
    · exact ih _ _

end Source

namespace Finder

open Source

variable {n m found : Node} {shells : List Node}

theorem isBefore_iff {p q : Position} : isBefore p q ↔
    p.line < q.line ∨ p.line = q.line ∧ p.character < q.character := by
  simp [isBefore]

theorem isBefore_behind (p : Position) (c : Char) : isBefore p (p.behind c) := by
  rw [isBefore_iff, Position.behind]
  have := c.utf8Size_pos
  split
  · exact .inl (Nat.lt_succ_self _)
  · exact .inr ⟨rfl, by simpa using this⟩

theorem isBefore_trans {p q r : Position} (hpq : isBefore p q) (hqr : isBefore q r) :
    isBefore p r := by
  rw [isBefore_iff] at *
  omega

theorem isBefore_foldl_behind (p : Position) {cs : List Char} (hne : cs ≠ []) :
    isBefore p (cs.foldl Position.behind p) := by
  induction cs generalizing p with
  | nil => exact absurd rfl hne
  | cons c cs ih =>
    by_cases hcs : cs = []
    · rw [hcs]
      exact isBefore_behind p c
    · exact isBefore_trans (isBefore_behind p c) (ih _ hcs)

/-- **Offsets and positions have the same order.** -/
theorem positionAt_mono (text : String) {a b : Nat} (h : a ≤ b) :
    isBefore (positionAt text b) (positionAt text a) = false := by
  obtain ⟨more, hmore⟩ := Text.takeBytes_mono h text.toList
  rw [positionAt, positionAt, advance_eq_foldl, advance_eq_foldl, ← hmore, foldl_append]
  generalize (Text.takeBytes a text.toList).foldl Position.behind ⟨0, 0⟩ = p
  by_cases hne : more = []
  · rw [hne, foldl_nil, Bool.eq_false_iff, Ne, isBefore_iff]
    omega
  have := isBefore_foldl_behind p hne
  rw [Bool.eq_false_iff, Ne, isBefore_iff]
  rw [isBefore_iff] at this
  omega

/-! ## The functions around a place -/

variable {source : String} {point : Position}

theorem holds_iff : holds source point n ↔ isBefore point (positionAt source n.start) = false ∧
      isBefore point (positionAt source n.stop) := by
  simp [holds, Node.range]

/-- A node around another one holds what that one holds. -/
theorem holds_of_within (hstart : n.start ≤ m.start) (hstop : m.stop ≤ n.stop)
    (h : holds source point m) : holds source point n := by
  have hleft := positionAt_mono source hstart
  have hright := positionAt_mono source hstop
  rw [holds_iff] at h ⊢
  simp only [Bool.eq_false_iff, Ne, isBefore_iff] at *
  omega

theorem not_holds_of_stop_le (hle : n.stop ≤ m.start) (h : holds source point n) :
    holds source point m = false := by
  have hmono := positionAt_mono source hle
  rw [Bool.eq_false_iff, Ne, holds_iff]
  rw [holds_iff] at h
  simp only [Bool.eq_false_iff, Ne, isBefore_iff] at *
  omega

def isAround (source : String) (point : Position) (n : Node) : Bool :=
  n.kindIs Kind.isFunction && holds source point n

def around (source : String) (point : Position) (n : Node) : List Node :=
  n.nodes.filter (isAround source point)

def aroundAmong (source : String) (point : Position) (ns : List Node) : List Node :=
  (Node.nodesOfAll ns).filter (isAround source point)

theorem around_mk (label : Label) (role : Option Role) (start stop : Nat) (children : List Node) :
    around source point (.mk label role start stop children) =
      if isAround source point (.mk label role start stop children) then
        .mk label role start stop children :: aroundAmong source point children
      else aroundAmong source point children := by
  rw [around, Node.nodes, filter_cons]
  rfl

theorem aroundAmong_cons (ns : List Node) :
    aroundAmong source point (n :: ns) = around source point n ++ aroundAmong source point ns := by
  rw [aroundAmong, Node.nodesOfAll, filter_append]
  rfl

theorem holds_of_mem_around (hn : n.Placed) (hm : m ∈ around source point n) :
    holds source point n := by
  obtain ⟨hmem, haround⟩ := mem_filter.mp hm
  obtain ⟨-, hstart, hstop⟩ := hn.range_of_mem hmem
  exact holds_of_within hstart hstop (Bool.and_eq_true_iff.mp haround).2

theorem around_or_aroundAmong_eq_nil {ns : List Node} {start stop : Nat}
    (h : Node.PlacedIn start stop (n :: ns)) :
    around source point n = [] ∨ aroundAmong source point ns = [] := by
  obtain ⟨-, hn, hns⟩ := h
  cases hholds : holds source point n with
  | false =>
    refine .inl (eq_nil_iff_forall_not_mem.mpr fun m hm => ?_)
    rw [holds_of_mem_around hn hm] at hholds
    cases hholds
  | true =>
    refine .inr (eq_nil_iff_forall_not_mem.mpr fun m hm => ?_)
    obtain ⟨hmem, haround⟩ := mem_filter.mp hm
    have hbehind := not_holds_of_stop_le (hns.range_of_mem hmem).2.1 hholds
    rw [(Bool.and_eq_true_iff.mp haround).2] at hbehind
    cases hbehind

mutual

/-- **The functions around a place lie in each other.** -/
theorem around_chain : ∀ {n : Node}, n.Placed →
    (around source point n).Pairwise fun outer inner => inner ∈ outer.nodes
  | .mk label role start stop children, h => by
    rw [around_mk]
    split
    · refine pairwise_cons.mpr ⟨fun m hm => ?_, aroundAmong_chain h⟩
      exact mem_cons_of_mem _ (mem_filter.mp hm).1
    · exact aroundAmong_chain h

theorem aroundAmong_chain : ∀ {ns : List Node} {start stop : Nat}, Node.PlacedIn start stop ns →
    (aroundAmong source point ns).Pairwise fun outer inner => inner ∈ outer.nodes
  | [], _, _, _ => .nil
  | n :: ns, _, _, h => by
    rw [aroundAmong_cons]
    rcases around_or_aroundAmong_eq_nil h with hnil | hnil
    · rw [hnil]
      exact aroundAmong_chain h.2.2
    · rw [hnil, append_nil]
      exact around_chain h.2.1

end

/-! ## The search as a look-up -/

/-- Of functions that lie in each other, the first one that starts at a place, or else the last
one. -/
def pick (source : String) (point : Position) (shells : List Node) : Option Node :=
  shells.find? (·.position source = point) <|> shells.getLast?

theorem pick_cons (shells : List Node) :
    pick source point (n :: shells) =
      if n.position source = point then some n else pick source point shells <|> some n := by
  rw [pick, find?_cons, getLast?_cons]
  split
  · rename_i hn
    rw [if_pos (by simpa using hn)]
    rfl
  · rename_i hn
    rw [if_neg (by simpa using hn), pick]
    cases shells.find? (·.position source = point) <;> cases shells.getLast? <;> rfl

mutual

/-- **The search for the function at a place** looks it up among the functions around the place. -/
theorem functionAround?_eq_pick : ∀ {n : Node}, n.Placed →
    functionAround? source point n = pick source point (around source point n)
  | .mk label role start stop children, h => by
    have hamong := functionAmong?_eq_pick h
    rw [functionAround?]
    split
    · rename_i hholds
      have hnil : around source point (.mk label role start stop children) = [] :=
        eq_nil_iff_forall_not_mem.mpr fun m hm => by
          rw [holds_of_mem_around h hm] at hholds
          exact absurd hholds (by decide)
      rw [hnil]
      rfl
    · rename_i hholds
      have hholds : holds source point (.mk label role start stop children) := by
        simpa using hholds
      rw [around_mk, isAround, hholds, Bool.and_true]
      split
      · rw [pick_cons, hamong]
      · exact hamong

theorem functionAmong?_eq_pick : ∀ {ns : List Node} {start stop : Nat},
    Node.PlacedIn start stop ns →
    functionAmong? source point ns = pick source point (aroundAmong source point ns)
  | [], _, _, _ => rfl
  | n :: ns, _, _, h => by
    rw [functionAmong?, functionAmong?_eq_pick h.2.2, functionAround?_eq_pick h.2.1,
      aroundAmong_cons]
    rcases around_or_aroundAmong_eq_nil h with hnil | hnil
    · rw [hnil, nil_append]
      cases pick source point (aroundAmong source point ns) <;> rfl
    · rw [hnil, append_nil]
      rfl

end

/-! ## Functions at a place -/

theorem mem_around {root : Node} : n ∈ around source point root ↔
    n ∈ root.nodes ∧ n.kindIs Kind.isFunction ∧ holds source point n := by
  rw [around, mem_filter, isAround, Bool.and_eq_true]

theorem pick_eq_none : pick source point shells = none ↔ shells = [] := by
  cases shells with
  | nil => exact ⟨fun _ => rfl, fun _ => rfl⟩
  | cons n shells =>
    rw [pick_cons]
    split
    · simp
    · cases pick source point shells <;> simp

theorem mem_of_pick (h : pick source point shells = some found) : found ∈ shells := by
  rw [pick] at h
  cases hfind : shells.find? (·.position source = point) with
  | some n =>
    rw [hfind] at h
    cases h
    exact mem_of_find?_eq_some hfind
  | none =>
    rw [hfind] at h
    exact mem_of_getLast? h

/-- The first function that starts at a place holds the others that start there. -/
theorem pick_of_starts (hchain : shells.Pairwise fun outer inner => inner ∈ outer.nodes)
    (h : pick source point shells = some found) (hn : n ∈ shells)
    (hstarts : n.position source = point) : found.position source = point ∧ n ∈ found.nodes := by
  have hsome : (shells.find? (·.position source = point)).isSome :=
    find?_isSome.mpr ⟨n, hn, by simpa using hstarts⟩
  obtain ⟨first, hfirst⟩ := Option.isSome_iff_exists.mp hsome
  rw [pick, hfirst] at h
  cases h
  obtain ⟨hfound, before, after, rfl, hbefore⟩ := find?_eq_some_iff_append.mp hfirst
  refine ⟨by simpa using hfound, ?_⟩
  rcases mem_append.mp hn with hn | hn
  · exact absurd hstarts (by simpa using hbefore n hn)
  · rcases mem_cons.mp hn with rfl | hn
    · exact n.self_mem_nodes
    · exact (pairwise_cons.mp (pairwise_append.mp hchain).2.1).1 n hn

/-- The last function lies in all others. -/
theorem pick_of_not_starts (hchain : shells.Pairwise fun outer inner => inner ∈ outer.nodes)
    (h : pick source point shells = some found) (hnone : ∀ n ∈ shells, n.position source ≠ point)
    (hn : n ∈ shells) : found ∈ n.nodes := by
  have hfind : shells.find? (·.position source = point) = none :=
    find?_eq_none.mpr fun m hm => by simpa using hnone m hm
  rw [pick, hfind] at h
  obtain ⟨before, rfl⟩ := getLast?_eq_some_iff.mp h
  rcases mem_append.mp hn with hn | hn
  · exact (pairwise_append.mp hchain).2.2 n hn found mem_cons_self
  · rw [mem_singleton.mp hn]
    exact found.self_mem_nodes

def StartsAt (source : String) (point : Position) (n : Node) : Prop :=
  n.position source = point ∧ holds source point n

/-- **The function at a place**: nothing is found exactly if no function holds the place. What is
found holds it. If functions start at the place it is the outermost of them, and if none does it is
the smallest function that holds the place, which lies in all others. -/
theorem functionAround?_outermost_or_smallest (source : String) (point : Position) (root : Node)
    (h : root.Placed) :
    (functionAround? source point root = none ↔
      ∀ n ∈ root.nodes, n.kindIs Kind.isFunction → ¬ holds source point n) ∧
    ∀ found, functionAround? source point root = some found →
      (found ∈ root.nodes ∧ found.kindIs Kind.isFunction ∧ holds source point found) ∧
      ((∃ n ∈ root.nodes, n.kindIs Kind.isFunction ∧ StartsAt source point n) →
        StartsAt source point found ∧
          ∀ n ∈ root.nodes, n.kindIs Kind.isFunction → StartsAt source point n → n ∈ found.nodes) ∧
      ((∀ n ∈ root.nodes, n.kindIs Kind.isFunction → ¬ StartsAt source point n) →
        ∀ n ∈ root.nodes, n.kindIs Kind.isFunction → holds source point n →
          found ∈ n.nodes ∧ n.start ≤ found.start ∧ found.stop ≤ n.stop) := by
  have hchain : (around source point root).Pairwise fun outer inner => inner ∈ outer.nodes :=
    around_chain h
  rw [functionAround?_eq_pick h, pick_eq_none, eq_nil_iff_forall_not_mem]
  refine ⟨?_, fun found hfound => ?_⟩
  · simp only [mem_around, not_and]
  have hmem := mem_around.mp (mem_of_pick hfound)
  refine ⟨hmem, ?_, ?_⟩
  · rintro ⟨n, hn, hfunction, hposition, hholds⟩
    have hfirst := pick_of_starts hchain hfound (mem_around.mpr ⟨hn, hfunction, hholds⟩) hposition
    refine ⟨⟨hfirst.1, hmem.2.2⟩, fun m hm hmfunction hstarts => ?_⟩
    exact (pick_of_starts hchain hfound (mem_around.mpr ⟨hm, hmfunction, hstarts.2⟩) hstarts.1).2
  · intro hnone n hn hfunction hholds
    have hlast : found ∈ n.nodes := by
      refine pick_of_not_starts hchain hfound (fun m hm hposition => ?_)
        (mem_around.mpr ⟨hn, hfunction, hholds⟩)
      obtain ⟨hm, hmfunction, hmholds⟩ := mem_around.mp hm
      exact hnone m hm hmfunction ⟨hposition, hmholds⟩
    exact ⟨hlast, ((h.range_of_mem hn).1.range_of_mem hlast).2⟩

namespace Shells

def text : String := "x=>y=>y"

def inner : Node := .mk (.named .arrowFunction) none 3 7 []

def outer : Node := .mk (.named .arrowFunction) none 0 7 [inner]

def tree : Node := .mk (.named .program) none 0 7 [outer]

end Shells

/-- At its start the outer function is found, behind it the inner one, which is the smaller one. -/
theorem functionAround?_outermost_or_smallest_shells :
    (functionAround? Shells.text ⟨0, 0⟩ Shells.tree = some Shells.outer ∧
      StartsAt Shells.text ⟨0, 0⟩ Shells.outer) ∧
    functionAround? Shells.text ⟨0, 5⟩ Shells.tree = some Shells.inner ∧
      Shells.inner ∈ Shells.outer.nodes := by
  have hplaced : Shells.tree.Placed := by decide
  have hstart : functionAround? Shells.text ⟨0, 0⟩ Shells.tree = some Shells.outer := by decide
  have hbehind : functionAround? Shells.text ⟨0, 5⟩ Shells.tree = some Shells.inner := by decide
  have hfirst := ((functionAround?_outermost_or_smallest Shells.text ⟨0, 0⟩ Shells.tree hplaced).2
    Shells.outer hstart).2.1 ⟨Shells.outer, by decide, by decide, by decide, by decide⟩
  have hnone : ∀ n ∈ Shells.tree.nodes, n.kindIs Kind.isFunction →
      ¬ (n.position Shells.text = ⟨0, 5⟩ ∧ holds Shells.text ⟨0, 5⟩ n) := by
    decide
  have hsmallest := ((functionAround?_outermost_or_smallest Shells.text ⟨0, 5⟩ Shells.tree
    hplaced).2 Shells.inner hbehind).2.2 hnone Shells.outer (by decide) (by decide) (by decide)
  exact ⟨⟨hstart, hfirst.1⟩, hbehind, hsmallest.1⟩

end Finder

end RouteAtlas
