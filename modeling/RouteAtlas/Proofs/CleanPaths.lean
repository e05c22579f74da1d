import RouteAtlas.Files.Tree

/-!
# Clean paths and their order

A place in a file tree has one clean absolute path, `Tree.pathOf`. On such paths the text and the
components say the same: different places have different paths, a name joined to the path of a place
gives the path of the longer place, and lying below is being longer. The order of paths is a linear
order of component lists, so two texts are equal in it exactly if they are the same path.
-/

open List

namespace RouteAtlas

open Files Path.Component
open Files.Tree (pathOf)

variable {name : String} {p q place : Place}

/-! ## Pieces of a text -/

namespace Text

theorem piecesBy_ne_nil (p : Char → Bool) (cs : List Char) : piecesBy p cs ≠ [] := by
  fun_induction piecesBy p cs <;> simp

theorem piecesBy_eq_splitOnP (p : Char → Bool) (cs : List Char) :
    piecesBy p cs = cs.splitOnP p := by
  induction cs with
  | nil => rfl
  | cons c cs ih =>
    obtain ⟨w, ws, hcs⟩ := exists_cons_of_ne_nil (splitOnP_ne_nil p cs)
    rw [piecesBy, splitOnP_cons_eq_if_modifyHead, ih, hcs]
    rfl

theorem piecesBy_append {p : Char → Bool} {d : Char} (hd : p d) (cs ds : List Char) :
    piecesBy p (cs ++ d :: ds) = piecesBy p cs ++ piecesBy p ds := by
  simp [piecesBy_eq_splitOnP, splitOnP_append_cons cs ds hd]

theorem pieces_append_slash (a b : String) :
    pieces '/' (a ++ "/" ++ b) = pieces '/' a ++ pieces '/' b := by
  have h : (a ++ "/" ++ b).toList = a.toList ++ '/' :: b.toList := by simp
  rw [pieces, h, piecesBy_append (by rfl), map_append, pieces, pieces]

theorem pieces_of_no_slash {a : String} (h : '/' ∉ a.toList) : pieces '/' a = [a] := by
  have hp : ∀ c ∈ a.toList, (c == '/') = false := fun c hc =>
    beq_false_of_ne fun he => h (he ▸ hc)
  rw [pieces, piecesBy_eq_splitOnP, splitOnP_eq_singleton hp, map_singleton, String.ofList_toList]

end Text

/-! ## Places and their paths -/

/-- A name in a directory: no special part of a path, and without a slash. -/
def IsName (name : String) : Prop :=
  name ≠ "" ∧ name ≠ "." ∧ name ≠ ".." ∧ '/' ∉ name.toList
  deriving Decidable

def IsPlace (place : Place) : Prop := ∀ name ∈ place, IsName name
  deriving Decidable

theorem isPlace_nil : IsPlace [] := fun _ h => absurd h not_mem_nil

theorem IsName.isPlace (h : IsName name) : IsPlace [name] :=
  fun _ hn => mem_singleton.mp hn ▸ h

theorem IsPlace.append (hp : IsPlace p) (hq : IsPlace q) : IsPlace (p ++ q) :=
  fun name h => (mem_append.mp h).elim (hp name) (hq name)

theorem IsPlace.of_append (h : IsPlace (p ++ q)) : IsPlace p ∧ IsPlace q :=
  ⟨fun name hn => h name (mem_append_left q hn), fun name hn => h name (mem_append_right p hn)⟩

theorem pieces_intercalate {parts : List String} (hp : ∀ part ∈ parts, '/' ∉ part.toList)
    (hne : parts ≠ []) : Text.pieces '/' ("/".intercalate parts) = parts := by
  have hlists : ∀ cs ∈ parts.map String.toList, '/' ∉ cs := by simpa using hp
  have hsplit := splitOn_intercalate '/' hlists (by simpa using hne)
  rw [Text.pieces, Text.piecesBy_eq_splitOnP, ← splitOn_eq_splitOnP]
  simp [hsplit]

theorem pieces_pathOf (hp : IsPlace place) :
    Text.pieces '/' (pathOf place).text = "" :: (if place = [] then [""] else place) := by
  have h : (pathOf place).text = "" ++ "/" ++ "/".intercalate place := rfl
  rw [h, Text.pieces_append_slash]
  split
  · subst place; rfl
  · rename_i hne
    rw [pieces_intercalate (fun name hn => (hp name hn).2.2.2) hne]
    rfl

theorem isAbsolute_pathOf (place : Place) : (pathOf place).isAbsolute := by
  simp [pathOf, Path.isAbsolute]

theorem Component.ofPart?_of_isName (h : IsName name) : ofPart? name = some (.name name) := by
  simp [ofPart?, h.1, h.2.1, h.2.2.1]

/-- A step that can be written between slashes and read back. -/
def Path.Component.IsStep : Path.Component → Prop
  | .parent => True
  | .name text => IsName text
  | _ => False

theorem Path.Component.IsStep.ofPart?_text {c : Path.Component} (h : c.IsStep) :
    ofPart? c.text = some c := by
  cases c with
  | root | current => cases h
  | parent => rfl
  | name text => exact RouteAtlas.Component.ofPart?_of_isName h

theorem Path.filterMap_text {cs : List Path.Component} (hcs : ∀ c ∈ cs, c.IsStep) :
    (cs.map Component.text).filterMap Component.ofPart? = cs := by
  induction cs with
  | nil => rfl
  | cons c cs ih =>
    obtain ⟨hc, hcs⟩ := forall_mem_cons.mp hcs
    rw [map_cons, filterMap_cons_some hc.ofPart?_text, ih hcs]

theorem components_pathOf (hp : IsPlace place) :
    (pathOf place).components = .root :: place.map .name := by
  have hsteps : ∀ c ∈ place.map name, c.IsStep := forall_mem_map.mpr hp
  have hnames := Path.filterMap_text hsteps
  rw [map_map, show text ∘ .name = id from rfl, map_id] at hnames
  rw [Path.components, pieces_pathOf hp]
  simp only [isAbsolute_pathOf, if_true]
  split
  · subst place; rfl
  · exact congrArg _ hnames

theorem Component.name_injective : Function.Injective Path.Component.name :=
  fun _ _ h => Path.Component.name.inj h

theorem pathOf_same_iff (hp : IsPlace p) (hq : IsPlace q) : (pathOf p).same (pathOf q) ↔ p = q := by
  rw [Path.same, components_pathOf hp, components_pathOf hq, beq_iff_eq, cons_inj_right,
    List.map_inj_right fun a b h => Component.name_injective h]

/-! ## Paths below a place -/

theorem intercalate_concat (hne : place ≠ []) (name : String) :
    "/".intercalate (place ++ [name]) = "/".intercalate place ++ "/" ++ name := by
  apply String.toList_inj.mp
  induction place with
  | nil => exact absurd rfl hne
  | cons first rest ih =>
    cases rest with
    | nil => simp
    | cons next rest =>
      have := ih (by simp)
      simp only [String.toList_intercalate, cons_append, map_cons, intercalate_cons_cons] at this ⊢
      rw [this]
      simp [append_assoc]

theorem getLast?_pathOf (hp : IsPlace place) (hne : place ≠ []) :
    (pathOf place).text.toList.getLast? ≠ some '/' := by
  intro h
  obtain ⟨front, hfront⟩ := getLast?_eq_some_iff.mp h
  have htext : (pathOf place).text = String.ofList front ++ "/" ++ "" :=
    String.toList_inj.mp (by simp [hfront])
  -- the piece behind the last slash would be an empty name
  have hpieces := pieces_pathOf hp
  rw [htext, Text.pieces_append_slash, if_neg hne] at hpieces
  have hlast := congrArg List.getLast? hpieces
  rw [getLast?_append, getLast?_cons_of_ne_nil hne] at hlast
  have hempty : "" ∈ place := mem_of_getLast? (hlast.symm.trans (by rfl))
  exact (hp "" hempty).1 rfl

theorem IsName.head?_ne (h : IsName name) : (name.toList.head? == some '/') = false := by
  apply beq_false_of_ne
  intro hhead
  exact h.2.2.2 (mem_of_head? hhead)

theorem pathOf_join (hp : IsPlace place) (hn : IsName name) :
    (pathOf place).join name = pathOf (place ++ [name]) := by
  have hne : (pathOf place).text ≠ "" := by
    simp [pathOf]
  rw [Path.join, hn.head?_ne, if_neg (by simpa using hne)]
  by_cases hplace : place = []
  · subst place; rfl
  · rw [if_neg (by simpa using getLast?_pathOf hp hplace)]
    simp [pathOf, intercalate_concat hplace, String.append_assoc]

namespace Text

theorem stripList?_eq_some_iff [BEq α] [LawfulBEq α] {lead cs rest : List α} :
    stripList? lead cs = some rest ↔ cs = lead ++ rest := by
  fun_induction stripList? lead cs with
  | case1 cs => simp [eq_comm]
  | case2 l ls => simp
  | case3 l ls c cs h ih =>
    rw [ih, eq_of_beq h]
    simp
  | case4 l ls c cs h => grind

end Text

/-- A place whose path lies below the path of another place goes on from there. -/
theorem below?_pathOf (hp : IsPlace p) (hq : IsPlace q) {rel : List Path.Component}
    (h : Path.below? (pathOf p) (pathOf q) = some rel) :
    ∃ rest, q = p ++ rest ∧ rel = rest.map .name := by
  rw [Path.below?, components_pathOf hp, components_pathOf hq, Text.stripList?_eq_some_iff,
    cons_append, cons_inj_right] at h
  obtain ⟨front, rest, rfl, hfront, rfl⟩ := map_eq_append_iff.mp h
  rw [List.map_inj_right fun a b h => Component.name_injective h] at hfront
  exact ⟨rest, by rw [hfront], rfl⟩

/-! ## The order of paths -/

namespace Path

variable {p q : Path}

@[simp] theorem Component.compare_names (a b : String) :
    Component.compare (.name a) (.name b) = Ord.compare a b := rfl

theorem Component.compare_swap (a b : Component) :
    Component.compare a b = (Component.compare b a).swap := by
  cases a <;> cases b <;> try rfl
  rw [compare_names]
  exact Std.OrientedCmp.eq_swap

theorem Component.compare_isLE_trans {a b c : Component}
    (hab : (Component.compare a b).isLE) (hbc : (Component.compare b c).isLE) :
    (Component.compare a c).isLE := by
  -- only three names need an argument: other forms are told apart by their ranks
  cases a <;> cases b <;> cases c <;> try trivial
  rw [compare_names] at *
  exact Std.TransCmp.isLE_trans hab hbc

theorem Component.eq_of_compare {a b : Component} (h : Component.compare a b = .eq) : a = b := by
  cases a <;> cases b <;> try trivial
  rw [compare_names] at h
  rw [Std.LawfulEqCmp.eq_of_compare h]

instance : Std.TransCmp Component.compare where
  eq_swap := Component.compare_swap _ _
  isLE_trans := Component.compare_isLE_trans

instance : Std.LawfulEqCmp Component.compare where
  eq_of_compare := Component.eq_of_compare

theorem same_comm : p.same q = q.same p := Bool.beq_comm

theorem compare_eq_iff_same : p.compare q = .eq ↔ p.same q := by
  rw [compare, Std.LawfulEqCmp.compare_eq_iff_eq, same, beq_iff_eq]

instance : Std.TransCmp Path.compare where
  eq_swap := by
    unfold compare
    exact Std.OrientedCmp.eq_swap
  isLE_trans hpq hqr := by
    unfold compare at *
    exact Std.TransCmp.isLE_trans hpq hqr

instance : Ord Path := ⟨compare⟩

instance : Std.TransOrd Path := inferInstanceAs (Std.TransCmp compare)

end Path

end RouteAtlas
