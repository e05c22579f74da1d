import Mathlib.Data.List.TakeDrop
import RouteAtlas.Proofs.WatchedFiles

/-!
# What the watched paths remember

The watched paths read the ignore rules of a directory when they are first asked for a path in it,
and keep them. As long as the tree stays as it is, what they have read meanwhile does not matter: a
clean path is watched or not whichever paths were asked for before. The directories on the way to a
clean path are clean as well, so that no directory is read under two names.
-/

open List

namespace RouteAtlas

open Files Ignore RouteAtlas.Path
open Files.Tree (pathOf)

/-! ## Parents of clean paths -/

theorem Path.trimBack_name {name : String} (hn : IsName name) (keep : Nat) (cs : List Char) :
    trimBack keep (name.toList.reverse ++ '/' :: cs) = name.toList.reverse ++ '/' :: cs := by
  have hslash : ∀ c ∈ name.toList.reverse, c ≠ '/' := fun c hc heq =>
    hn.2.2.2 (heq ▸ mem_reverse.mp hc)
  have hdot : name.toList.reverse ≠ ['.'] := fun h =>
    hn.2.1 (String.toList_inj.mp (by simpa using congrArg List.reverse h))
  have hne : name.toList.reverse ≠ [] := fun h =>
    hn.1 (String.toList_inj.mp (by simpa using congrArg List.reverse h))
  cases hback : name.toList.reverse with
  | nil => exact absurd hback hne
  | cons c back =>
    cases back with
    | nil =>
      rw [trimBack.eq_def]
      split <;> simp_all
    | cons d back =>
      rw [trimBack.eq_def]
      split <;> simp_all

theorem reverse_pathOf_concat (place : Place) (name : String) :
    (pathOf (place ++ [name])).text.toList.reverse = name.toList.reverse ++
        '/' :: (if place = [] then [] else (pathOf place).text.toList.reverse) := by
  by_cases hplace : place = []
  · subst hplace
    simp [pathOf]
  · rw [if_neg hplace, pathOf, intercalate_concat hplace]
    simp [pathOf]

/-- **The parent of a clean path** is the path of the directory that its place is in. -/
theorem parent?_pathOf {place : Place} {name : String} (hp : IsPlace place) (hn : IsName name) :
    (pathOf (place ++ [name])).parent? = some (pathOf place) := by
  have hcomponents : (pathOf (place ++ [name])).components.getLast? = some (.name name) := by
    rw [components_pathOf (hp.append hn.isPlace), map_append, ← cons_append]
    exact getLast?_concat
  have hback : (name.toList.reverse.all (· != '/')) := by
    simp only [all_eq_true, mem_reverse, bne_iff_ne]
    exact fun c hc heq => hn.2.2.2 (heq ▸ hc)
  rw [parent?, hcomponents]
  simp only [isAbsolute_pathOf, if_true, reverse_pathOf_concat, trimBack_name hn]
  rw [dropWhile_append_of_pos (all_eq_true.mp hback), dropWhile_cons_of_neg (by simp)]
  rcases eq_nil_or_concat' place with rfl | ⟨front, last, rfl⟩
  · rfl
  obtain ⟨hfront, hlast⟩ := hp.of_append
  have hlong : ¬ (pathOf (front ++ [last])).text.toList.reverse.length + 1 ≤ 1 := by
    simp [pathOf]
  rw [if_neg (by simp), trimBack, if_neg hlong, reverse_pathOf_concat,
    trimBack_name (hlast last mem_cons_self), ← reverse_pathOf_concat, reverse_reverse,
    String.ofList_toList]

theorem isPlace_of_mem_ancestors {place : Place} (hp : IsPlace place) {dir : Path}
    (h : dir ∈ (pathOf place).ancestors) : ∃ q, IsPlace q ∧ dir = pathOf q := by
  rw [ancestors] at h
  induction place using List.reverseRecOn with
  | nil =>
    rw [ancestorsFrom.eq_def] at h
    exact ⟨[], isPlace_nil, mem_singleton.mp h⟩
  | append_singleton place name ih =>
    obtain ⟨hplace, hname⟩ := hp.of_append
    rw [ancestorsFrom.eq_def, parent?_pathOf hplace (hname name mem_cons_self)] at h
    simp only at h
    split at h
    · rcases mem_cons.mp h with rfl | h
      · exact ⟨_, hp, rfl⟩
      · exact ih hplace h
    · exact ⟨_, hp, mem_singleton.mp h⟩

namespace Watch.WatchSet

variable {t : Tree} {w w' w'' : WatchSet} {place : Place}

theorem isPlace_of_mem_dirsTo (hp : IsPlace place) {dir : Path}
    (h : dir ∈ w.dirsTo (pathOf place)) : ∃ q, IsPlace q ∧ dir = pathOf q := by
  simp only [dirsTo, span_eq_takeWhile_dropWhile, mem_reverse, mem_append] at h
  have habove : dir ∈ ((pathOf place).ancestors.drop 1).takeWhile (isBelow w.root) :=
    h.elim (fun h => (takeWhile_sublist _).mem h)
      fun h => (dropWhile_sublist _).mem ((take_sublist _ _).mem h)
  exact isPlace_of_mem_ancestors hp ((drop_sublist 1 _).mem ((takeWhile_sublist _).mem habove))

/-! ## The rules of a directory -/

/-- The ignore rules that the set goes by in a directory: those it keeps, or else those that are
read now. -/
def rulesOf (w : WatchSet) (t : Tree) (dir : Path) : Rules :=
  ((w.known.find? fun e => e.1.same dir).map (·.2)).getD
    (Rules.ofFile t dir (dir.join ".gitignore"))

/-- **A set after answering for clean paths**: it goes by the same rules as before. -/
structure Learns (t : Tree) (w w' : WatchSet) : Prop where
  only : w' = { w with known := w'.known }
  rules : ∀ dir, IsPlace dir → w'.rulesOf t (pathOf dir) = w.rulesOf t (pathOf dir)

theorem Learns.refl (t : Tree) (w : WatchSet) : w.Learns t w := ⟨rfl, fun _ _ => rfl⟩

theorem Learns.trans (h : w.Learns t w') (h' : w'.Learns t w'') : w.Learns t w'' where
  only := by rw [h'.only, h.only]
  rules dir hdir := (h'.rules dir hdir).trans (h.rules dir hdir)

theorem rulesFor_fst (t : Tree) (dir : Path) : (w.rulesFor t dir).1 = w.rulesOf t dir := by
  unfold rulesFor rulesOf
  cases w.known.find? fun e => e.1.same dir <;> rfl

theorem learns_rulesFor (t : Tree) (hp : IsPlace place) :
    w.Learns t (w.rulesFor t (pathOf place)).2 := by
  unfold rulesFor
  cases hknown : w.known.find? fun e => e.1.same (pathOf place) with
  | some e => exact .refl t w
  | none =>
    refine ⟨rfl, fun dir hdir => ?_⟩
    by_cases hsame : (pathOf place).same (pathOf dir)
    · obtain rfl := (pathOf_same_iff hp hdir).mp hsame
      simp only [rulesOf, find?_cons, hsame, hknown]
      rfl
    · simp [rulesOf, Bool.eq_false_iff.mpr hsame]

/-! ## Asking for clean paths -/

theorem Learns.isIgnored (h : w.Learns t w') (hp : IsPlace place) :
    (w'.isIgnored t (pathOf place)).1 = (w.isIgnored t (pathOf place)).1 ∧
      w.Learns t (w'.isIgnored t (pathOf place)).2 := by
  generalize hpath : pathOf place = path
  -- each set gives the verdicts of the rules that the first one goes by
  have hfold : ∀ (dirs : List Path), (∀ dir ∈ dirs, ∃ q, IsPlace q ∧ dir = pathOf q) →
      ∀ (vs : List Verdict) (v : WatchSet), w.Learns t v →
      let out := dirs.foldl
        (fun out dir => (out.1 ++ [(out.2.rulesFor t dir).1.verdictBelow path (t.isDir path)],
          (out.2.rulesFor t dir).2)) (vs, v)
      out.1 = vs ++ dirs.map (fun dir => (w.rulesOf t dir).verdictBelow path (t.isDir path)) ∧
        w.Learns t out.2 := by
    intro dirs
    induction dirs with
    | nil => exact fun _ vs v hv => ⟨(append_nil vs).symm, hv⟩
    | cons dir dirs ih =>
      intro hdirs vs v hv
      obtain ⟨q, hq, rfl⟩ := hdirs dir mem_cons_self
      have hrest := ih (fun d hd => hdirs d (mem_cons_of_mem _ hd))
        (vs ++ [(v.rulesFor t (pathOf q)).1.verdictBelow path (t.isDir path)]) _
        (hv.trans (learns_rulesFor t hq))
      rw [rulesFor_fst, hv.rules q hq, append_assoc] at hrest
      rw [foldl_cons, rulesFor_fst, hv.rules q hq]
      exact hrest
  have hclean : ∀ dir ∈ w.dirsTo path, ∃ q, IsPlace q ∧ dir = pathOf q := fun dir hdir =>
    isPlace_of_mem_dirsTo hp (hpath ▸ hdir)
  obtain ⟨hfirst, -⟩ := hfold _ hclean [w.exclude.verdictBelow path (t.isDir path)] w (.refl t w)
  obtain ⟨hlater, hlearns⟩ := hfold _ hclean [w.exclude.verdictBelow path (t.isDir path)] w' h
  have hfields : w'.noIgnore = w.noIgnore ∧ w'.exclude = w.exclude ∧
      w'.dirsTo path = w.dirsTo path := by
    rw [h.only]
    exact ⟨rfl, rfl, rfl⟩
  rw [WatchSet.isIgnored, WatchSet.isIgnored, hfields.1, hfields.2.1, hfields.2.2]
  split
  · exact ⟨rfl, h⟩
  · refine ⟨?_, hlearns⟩
    simp [hlater, hfirst]

/-- **What is watched does not depend on what was asked before.** -/
theorem Learns.contains (h : w.Learns t w') (hp : IsPlace place) :
    (w'.contains t (pathOf place)).1 = (w.contains t (pathOf place)).1 ∧
      w.Learns t (w'.contains t (pathOf place)).2 := by
  obtain ⟨hignored, hlearns⟩ := h.isIgnored hp
  have hfields : w'.root = w.root ∧ w'.noIgnore = w.noIgnore ∧
      ∀ rel, w'.includes (pathOf place) rel = w.includes (pathOf place) rel := by
    rw [h.only]
    exact ⟨rfl, rfl, fun _ => rfl⟩
  rw [WatchSet.contains, WatchSet.contains, hfields.1]
  cases below? w.root (pathOf place) with
  | none => exact ⟨rfl, h⟩
  | some rel =>
    simp only [hfields.2.1, hfields.2.2, hignored]
    split
    · exact ⟨rfl, h⟩
    split
    · exact ⟨rfl, h⟩
    split
    · exact ⟨rfl, h⟩
    · split
      · exact ⟨rfl, h⟩
      · exact ⟨rfl, hlearns⟩

end Watch.WatchSet

end RouteAtlas
