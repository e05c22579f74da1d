import RouteAtlas.Finder.Search
import RouteAtlas.Proofs.CleanPaths
import RouteAtlas.Proofs.Trees

/-!
# The function that a search finds

A text may stand for several functions of a file: for those that it is the whole of, and, if it is
long, for all that contain it. The search goes down into the first of them in the order of the
source and comes back with one that has no further match inside.
-/

open List

namespace RouteAtlas.Text

/-- **A list occurs in another one** if it is an infix. -/
theorem occurs_iff {part cs : List Char} : occurs part cs ↔ part <:+: cs := by
  induction cs with
  | nil => simp [occurs]
  | cons c cs ih =>
    have hstrip : (stripList? part (c :: cs)).isSome ↔ part <+: c :: cs := by
      rw [Option.isSome_iff_exists]
      exact exists_congr fun rest => stripList?_eq_some_iff.trans eq_comm
    rw [occurs, Bool.or_eq_true, hstrip, ih, infix_cons_iff]

end RouteAtlas.Text

namespace RouteAtlas.Finder

open Source Node

variable {source search : String}
variable {n : Node} {wanted : Node → Bool}

/-! ## Matches -/

/-- **A function that a search text stands for**: without differences in white space and a leading
`async` it is the text, or it contains the text and that has more than 25 bytes. -/
def Matches (source search : String) (n : Node) : Prop :=
  n.kindIs Kind.isFunction ∧ (normalize (n.source source) = search ∨
      25 < search.utf8ByteSize ∧ search.toList <:+: (normalize (n.source source)).toList)

def isWanted (source search : String) (n : Node) : Bool :=
  n.kindIs Kind.isFunction && isMatch search (n.source source)

theorem isWanted_iff : isWanted source search n ↔ Matches source search n := by
  simp only [isWanted, isMatch, Text.contains, Bool.and_eq_true, Bool.or_eq_true, beq_iff_eq,
    decide_eq_true_eq, Text.occurs_iff]
  rfl

/-! ## The search -/

/-- What is found among nodes in the order of the source: a node in the first one that is wanted,
which is wanted itself and has nothing in it that is. -/
structure Found (wanted : Node → Bool) (nodes : List Node) (found : Node) : Prop where
  first : ∃ first, nodes.find? wanted = some first ∧ found ∈ first.nodes
  self : wanted found
  innermost : ∀ n ∈ nodesOfAll found.children, wanted n = false

/-- A search among nodes finds what it should, and nothing only if nothing is wanted. -/
def Finds (wanted : Node → Bool) (nodes : List Node) : Option Node → Prop
  | none => ∀ n ∈ nodes, wanted n = false
  | some found => Found wanted nodes found

theorem Finds.append {xs ys : List Node} {first second : Option Node}
    (hfirst : Finds wanted xs first) (hsecond : Finds wanted ys second) :
    Finds wanted (xs ++ ys) (first <|> second) := by
  cases first with
  | some found =>
    obtain ⟨outer, houter, hin⟩ := hfirst.first
    exact ⟨⟨outer, by rw [find?_append, houter]; rfl, hin⟩, hfirst.self, hfirst.innermost⟩
  | none =>
    have hnone : xs.find? wanted = none := find?_eq_none.mpr fun n hn => by simp [hfirst n hn]
    cases second with
    | none => exact forall_mem_append.mpr ⟨hfirst, hsecond⟩
    | some found =>
      obtain ⟨outer, houter, hin⟩ := hsecond.first
      exact ⟨⟨outer, by rw [find?_append, hnone]; exact houter, hin⟩, hsecond.self,
        hsecond.innermost⟩

theorem Finds.cons_of_false {ns : List Node} {found : Option Node} (hn : wanted n = false)
    (h : Finds wanted ns found) : Finds wanted (n :: ns) found := by
  have hself : Finds wanted [n] none := forall_mem_singleton.mpr hn
  exact hself.append h

/-- Below a node that is wanted the search goes on, and comes back to the node if it finds
nothing. -/
theorem Finds.cons_of_true {found : Option Node} (hn : wanted n)
    (h : Finds wanted (nodesOfAll n.children) found) :
    Finds wanted (n :: nodesOfAll n.children) (found <|> some n) := by
  have hfirst : (n :: nodesOfAll n.children).find? wanted = some n := find?_cons_of_pos hn
  cases found with
  | none => exact ⟨⟨n, hfirst, n.self_mem_nodes⟩, hn, h⟩
  | some found =>
    obtain ⟨outer, houter, hin⟩ := h.first
    refine ⟨⟨n, hfirst, ?_⟩, h.self, h.innermost⟩
    have hbelow := mem_cons_of_mem n (mem_of_find?_eq_some houter)
    rw [nodesOfAll_eq, ← nodes_eq] at hbelow
    exact mem_nodes_trans hbelow hin

mutual

/-- **What the search finds in a tree.** -/
theorem found_find? (source search : String) : ∀ n : Node,
    Finds (isWanted source search) n.nodes (find? source search n)
  | .mk label role start stop children => by
    have hbelow := found_findAmong? source search children
    rw [find?]
    split
    · rename_i hn
      exact .cons_of_true (n := .mk label role start stop children) hn hbelow
    · rename_i hn
      exact .cons_of_false (Bool.eq_false_iff.mpr hn) hbelow

theorem found_findAmong? (source search : String) : ∀ ns : List Node,
    Finds (isWanted source search) (nodesOfAll ns) (findAmong? source search ns)
  | [] => by simp [findAmong?, nodesOfAll, Finds]
  | n :: ns => by
    exact (found_find? source search n).append (found_findAmong? source search ns)

end

/-- **A search finds the innermost match of the first one.** Something is found exactly if some
function of the tree matches. What is found matches and has no match inside it, and it lies in the
first function that matches in the order of the source. -/
theorem find?_innermost_of_first (source search : String) (root : Node) :
    ((find? source search root).isSome ↔ ∃ n ∈ root.nodes, Matches source search n) ∧
    ∀ found, find? source search root = some found → Matches source search found ∧
      (∀ c ∈ found.children, ∀ n ∈ c.nodes, ¬ Matches source search n) ∧
      ∃ before first after, root.nodes = before ++ first :: after ∧
        (∀ n ∈ before, ¬ Matches source search n) ∧ Matches source search first ∧
        found ∈ first.nodes := by
  have hsearch := found_find? source search root
  simp only [← isWanted_iff, Bool.not_eq_true]
  cases hfind : find? source search root with
  | none =>
    rw [hfind] at hsearch
    refine ⟨⟨nofun, ?_⟩, nofun⟩
    rintro ⟨n, hn, hwanted⟩
    rw [hsearch n hn] at hwanted
    cases hwanted
  | some found =>
    rw [hfind] at hsearch
    obtain ⟨⟨first, hfirst, hin⟩, hwanted, hinnermost⟩ := hsearch
    obtain ⟨hmatch, before, after, hnodes, hbefore⟩ := find?_eq_some_iff_append.mp hfirst
    refine ⟨⟨fun _ => ⟨first, mem_of_find?_eq_some hfirst, hmatch⟩, fun _ => rfl⟩, ?_⟩
    rintro _ ⟨⟩
    refine ⟨hwanted, fun c hc n hn => hinnermost n ?_, before, first, after, hnodes, ?_, hmatch,
      hin⟩
    · rw [nodesOfAll_eq]
      exact mem_flatMap.mpr ⟨c, hc, hn⟩
    · intro n hn
      simpa using hbefore n hn

namespace Nesting

def text : String := "function f()\x7b()=>[1,2,3,4,5,6,7,8,9,10]\x7d"

def inner : Node := .mk (.named .arrowFunction) none 13 39 []

def outer : Node := .mk (.named .functionDeclaration) none 0 40 [inner]

def tree : Node := .mk (.named .program) none 0 40 [outer]

def body : String := "()=>[1,2,3,4,5,6,7,8,9,10]"

end Nesting

/-- Both functions match, and the inner one is found. -/
theorem find?_innermost_of_first_nested :
    find? Nesting.text Nesting.body Nesting.tree = some Nesting.inner ∧
      Matches Nesting.text Nesting.body Nesting.outer ∧
      Matches Nesting.text Nesting.body Nesting.inner ∧
      ∃ before first after, Nesting.tree.nodes = before ++ first :: after ∧
        (∀ n ∈ before, ¬ Matches Nesting.text Nesting.body n) ∧
        Matches Nesting.text Nesting.body first ∧ Nesting.inner ∈ first.nodes := by
  have hfind : find? Nesting.text Nesting.body Nesting.tree = some Nesting.inner ∧
      isWanted Nesting.text Nesting.body Nesting.outer = true := by
    decide +kernel
  obtain ⟨hinner, -, hfirst⟩ :=
    (find?_innermost_of_first Nesting.text Nesting.body Nesting.tree).2 Nesting.inner hfind.1
  exact ⟨hfind.1, isWanted_iff.mp hfind.2, hinner, hfirst⟩

end RouteAtlas.Finder
