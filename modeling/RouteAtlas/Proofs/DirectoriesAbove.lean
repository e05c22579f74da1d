import Mathlib.Data.List.Basic
import Mathlib.Data.List.TakeDrop
import Mathlib.Data.List.TakeWhile
import Mathlib.Data.Option.Basic
import RouteAtlas.Modules.Config
import RouteAtlas.Proofs.AbsolutePaths

/-!
# The directories above a path

The path above is found by trimming the text of a path from its end. What is trimmed is the last
component with the slashes and dots around it, so the text gets shorter and the components lose
their last one. The directories that are searched for a configuration are the ones above, nearest
first, down to the root of the project if the search starts below it.
-/

open List Option

namespace RouteAtlas

open Files Text RouteAtlas.Path Component

namespace Path

variable {p q stop dir : Path} {n : Nat}

/-! ## Components of a text -/

theorem steps_slash (a b : String) : steps ⟨a ++ "/" ++ b⟩ = steps ⟨a⟩ ++ steps ⟨b⟩ := by
  rw [steps, pieces_append_slash, filterMap_append]
  rfl

theorem steps_of_no_slash {b : String} (hb : '/' ∉ b.toList) : steps ⟨b⟩ = (ofPart? b).toList := by
  rw [steps, pieces_of_no_slash hb]
  cases h : ofPart? b <;> simp [h]

theorem components_of_no_slash {b : String} (hb : '/' ∉ b.toList) :
    components ⟨b⟩ = if b = "." then [.current] else (ofPart? b).toList := by
  have habs : (mk b).isAbsolute = false := by
    simpa [isAbsolute] using fun h => hb (mem_of_head? h)
  rw [components_eq, steps_of_no_slash hb, lead, habs, pieces_of_no_slash hb]
  by_cases hdot : b = "."
  · subst hdot
    rfl
  · simp [hdot]

theorem lead_slash {a : String} (ha : a ≠ "") (b : String) : lead ⟨a ++ "/" ++ b⟩ = lead ⟨a⟩ := by
  obtain ⟨c, cs, hcs⟩ := exists_cons_of_ne_nil (l := a.toList) (by simpa using ha)
  have habs : (mk (a ++ "/" ++ b)).isAbsolute = (mk a).isAbsolute := by
    simp [isAbsolute, hcs]
  have hfirst : (pieces '/' (a ++ "/" ++ b)).head? = (pieces '/' a).head? := by
    rw [pieces_append_slash, head?_append_of_ne_nil]
    simp [pieces, piecesBy_ne_nil]
  unfold lead
  rw [habs, hfirst]

theorem components_slash {a : String} (ha : a ≠ "") : components ⟨a ++ "/"⟩ = components ⟨a⟩ := by
  have hsteps := steps_slash a ""
  have hlead := lead_slash ha ""
  rw [String.append_empty] at hsteps hlead
  rw [components_eq, hsteps, hlead, components_eq, steps_of_no_slash (b := "") (by simp)]
  simp [ofPart?]

theorem components_slash_append (a b : String) :
    components ⟨a ++ "/" ++ b⟩ = components ⟨a ++ "/"⟩ ++ steps ⟨b⟩ := by
  rw [components_eq, steps_slash]
  by_cases ha : a = ""
  · subst ha
    simp [components_eq, lead, isAbsolute, steps, pieces, piecesBy, ofPart?]
  · rw [components_slash ha, components_eq, lead_slash ha, append_assoc]

/-! ## Trimming the end of a text -/

theorem isSuffix_trimBack (keep : Nat) (cs : List Char) : trimBack keep cs <:+ cs := by
  fun_induction trimBack keep cs with
  | case3 _ _ ih => exact ih.trans (suffix_cons _ _)
  | case5 _ _ ih => exact ih.trans (suffix_cons _ _)
  | case1 | case2 | case4 | case6 => exact suffix_refl _

theorem length_le_of_trimBack_slash {keep : Nat} {cs ds : List Char}
    (h : trimBack keep cs = '/' :: ds) : ds.length + 1 ≤ keep := by
  fun_induction trimBack keep cs with
  | case2 cs hkeep => cases h; exact hkeep
  | case3 _ _ ih => exact ih h
  | case5 _ _ ih => exact ih h
  | case6 cs _ hslash _ => exact absurd h (hslash ds)
  | case1 | case4 => cases h

theorem length_le_of_trimBack_dot {keep : Nat} {cs ds : List Char}
    (h : trimBack keep cs = '.' :: '/' :: ds) : ds.length + 2 ≤ keep := by
  fun_induction trimBack keep cs with
  | case4 cs hkeep => cases h; exact hkeep
  | case3 _ _ ih => exact ih h
  | case5 _ _ ih => exact ih h
  | case6 cs _ _ hdot => exact absurd h (hdot ds)
  | case1 | case2 => cases h

def componentsBack (back : List Char) : List Component := components ⟨String.ofList back.reverse⟩

theorem componentsBack_dot (cs : List Char) :
    componentsBack ('.' :: '/' :: cs) = componentsBack ('/' :: cs) := by
  have h := components_slash_append (String.ofList cs.reverse) "."
  rw [steps_of_no_slash (b := ".") (by decide)] at h
  have htext : String.ofList cs.reverse ++ "/" ++ "." = String.ofList ('.' :: '/' :: cs).reverse :=
    String.toList_inj.mp (by simp)
  rw [htext] at h
  simpa [componentsBack, ofPart?] using h

theorem componentsBack_trimBack {keep : Nat} {back : List Char}
    (habs : back.getLast? = some '/' → keep = 1) :
    componentsBack (trimBack keep back) = componentsBack back := by
  fun_induction trimBack keep back with
  | case1 | case2 | case4 | case6 => rfl
  | case3 cs hlong ih =>
    have hne : cs ≠ [] := by
      rintro rfl
      rw [habs rfl] at hlong
      exact hlong (Nat.le_refl 1)
    rw [getLast?_cons_of_ne_nil hne] at habs
    have h := components_slash (a := String.ofList cs.reverse) (by simpa using hne)
    rw [ih habs]
    simpa [componentsBack] using h.symm
  | case5 cs hlong ih =>
    rw [ih habs, componentsBack_dot]

/-! ## One step above -/

theorem Component.ofPart?_eq_none_iff {part : String} :
    ofPart? part = none ↔ part = "" ∨ part = "." := by
  unfold ofPart?
  split
  · simpa
  · rename_i h
    split <;> simpa using h

theorem Component.text_of_ofPart? {part : String} {c : Component} (h : ofPart? part = some c) :
    c.text = part := by
  unfold ofPart? at h
  split at h
  · cases h
  · split at h <;> cases h <;> simp_all [text]

/-- The text of a path without the slashes and dots at its end, from its end. -/
def trimmed (p : Path) : List Char :=
  trimBack (if p.isAbsolute then 1 else 0) p.text.toList.reverse

/-- The trimmed text is a text that is empty or ends with a slash, with the last component behind.
-/
theorem exists_trimmed_eq {c : Component} (hlast : p.components.getLast? = some c)
    (hroot : c ≠ .root) :
    ∃ front : String, p.trimmed = (front ++ c.text).toList.reverse ∧ '/' ∉ c.text.toList ∧
      (front = "" ∨ ∃ a, front = a ++ "/") ∧ p.components = components ⟨front⟩ ++ [c] := by
  generalize hkeep : (if p.isAbsolute = true then 1 else 0) = keep
  have hone : keep ≤ 1 := by rw [← hkeep]; split <;> decide
  have habs : p.text.toList.reverse.getLast? = some '/' → keep = 1 := by
    intro habs
    rw [← hkeep, if_pos (by simpa [isAbsolute] using habs)]
  have hall := componentsBack_trimBack habs
  rw [trimmed, hkeep]
  generalize hback : trimBack keep p.text.toList.reverse = back at hall ⊢
  rw [componentsBack, componentsBack, reverse_reverse, String.ofList_toList] at hall
  by_cases hslash : '/' ∈ back
  · obtain ⟨w, rest, rfl, hw⟩ := eq_append_cons_of_mem hslash
    have htext : String.ofList (w ++ '/' :: rest).reverse =
        String.ofList rest.reverse ++ "/" ++ String.ofList w.reverse :=
          String.toList_inj.mp (by simp)
    have hno : '/' ∉ (String.ofList w.reverse).toList := by simpa using hw
    rw [htext, components_slash_append, steps_of_no_slash hno] at hall
    cases hpart : ofPart? (String.ofList w.reverse) with
    | some last =>
      rw [hpart, Option.toList_some] at hall
      obtain rfl : last = c := by simpa [← hall] using hlast
      refine ⟨String.ofList rest.reverse ++ "/", ?_, ?_, .inr ⟨_, rfl⟩, hall.symm⟩
      all_goals rw [text_of_ofPart? hpart]
      · simp
      · exact hno
    | none =>
      exfalso
      rcases ofPart?_eq_none_iff.mp hpart with h | h
      · obtain rfl : w = [] := by simpa using h
        have hshort := length_le_of_trimBack_slash hback
        obtain rfl : rest = [] := length_eq_zero_iff.mp (by omega)
        rw [← hall] at hlast
        exact hroot (Option.some.inj (hlast.symm.trans rfl))
      · obtain rfl : w = ['.'] := by simpa using congrArg (·.toList.reverse) h
        have hshort := length_le_of_trimBack_dot hback
        omega
  · have hno : '/' ∉ (String.ofList back.reverse).toList := by simpa using hslash
    have hc : c.text = String.ofList back.reverse ∧ p.components = [c] := by
      rw [components_of_no_slash hno] at hall
      rw [← hall] at hlast ⊢
      split at hlast
      · rename_i hdot
        obtain rfl := some.inj hlast
        rw [if_pos hdot, hdot]
        exact ⟨rfl, rfl⟩
      · rename_i hdot
        rw [if_neg hdot]
        cases hpart : ofPart? (String.ofList back.reverse) with
        | none => rw [hpart] at hlast; cases hlast
        | some last =>
          rw [hpart] at hlast
          obtain rfl := some.inj hlast
          exact ⟨text_of_ofPart? hpart, rfl⟩
    exact ⟨"", by simp [hc.1], hc.1 ▸ hno, .inl rfl, hc.2⟩

/-- **The path above has one component less.** -/
theorem components_parent? (h : p.parent? = some q) :
    ∃ last, p.components = q.components ++ [last] := by
  unfold parent? at h
  split at h
  · cases h
  · cases h
  rename_i c hroot hlast
  obtain rfl := some.inj h
  obtain ⟨front, htrimmed, hno, hfront, hall⟩ := exists_trimmed_eq hlast hroot
  have hdrop : p.trimmed.dropWhile (· != '/') = front.toList.reverse := by
    rw [htrimmed, String.toList_append, reverse_append, dropWhile_append_of_pos fun c hc =>
      bne_iff_ne.mpr (ne_of_mem_of_not_mem (mem_reverse.mp hc) hno)]
    rcases hfront with rfl | ⟨a, rfl⟩ <;> simp
  have habs : front.toList.reverse.getLast? = some '/' → (if p.isAbsolute then 1 else 0) = 1 := by
    intro hslash
    have hroot : (mk front).isAbsolute := by simpa [isAbsolute] using hslash
    have habs : p.isAbsolute := by
      rw [components_of_isAbsolute hroot] at hall
      exact (isAbsolute_of_components hall).1
    rw [if_pos habs]
  have hq := componentsBack_trimBack habs
  simp only [componentsBack, reverse_reverse, String.ofList_toList] at hq
  refine ⟨c, ?_⟩
  show p.components = components ⟨String.ofList (trimBack _ (p.trimmed.dropWhile _)).reverse⟩ ++ [c]
  rw [hdrop, hq, hall]

theorem isPrefix_parent? (h : p.parent? = some q) : q.text.toList <+: p.text.toList := by
  unfold parent? at h
  split at h
  · cases h
  · cases h
  rw [← some.inj h, String.toList_ofList, ← reverse_suffix, reverse_reverse]
  exact (isSuffix_trimBack _ _).trans ((dropWhile_suffix _).trans (isSuffix_trimBack _ _))

/-- The text of the path above is shorter, so no directory is left out. -/
theorem length_parent?_lt (h : p.parent? = some q) : q.text.length < p.text.length := by
  obtain ⟨last, hlast⟩ := components_parent? h
  have hstart := isPrefix_parent? h
  refine Nat.lt_of_le_of_ne hstart.length_le fun heq => ?_
  obtain rfl : q = p := congrArg mk (String.toList_inj.mp (hstart.eq_of_length heq))
  simpa using congrArg length hlast

theorem isAbsolute_parent (hp : p.isAbsolute) (h : p.parent? = some q) : q.isAbsolute := by
  obtain ⟨last, hlast⟩ := components_parent? h
  have hroot : p.components ≠ [.root] := fun hroot => by simp [parent?, hroot] at h
  rw [components_of_isAbsolute hp] at hlast hroot
  cases hq : q.components with
  | nil =>
    rw [hq] at hlast
    exact absurd (by simpa using (cons.inj hlast).2) hroot
  | cons c cs =>
    rw [hq] at hlast
    exact (isAbsolute_of_components (hq.trans (congrArg (· :: cs) (cons.inj hlast).1.symm))).1

theorem getLast?_trimBack {cs : List Char} (h : cs.getLast? = some '/') :
    (trimBack 1 cs).getLast? = some '/' := by
  fun_induction trimBack 1 cs with
  | case1 => exact h
  | case2 cs hshort => exact h
  | case3 cs hlong ih =>
    refine ih ?_
    rwa [getLast?_cons_of_ne_nil (by rintro rfl; simp at hlong)] at h
  | case4 cs hshort => exact absurd hshort (by simp)
  | case5 cs hlong ih => exact ih (by rwa [getLast?_cons_cons] at h)
  | case6 cs h1 h2 => exact h

theorem isAbsolute_of_reverse {back : List Char} (h : back.getLast? = some '/') :
    (mk (String.ofList back.reverse)).isAbsolute := by
  rw [isAbsolute_iff]
  simpa using h

theorem getLast?_reverse_text (h : p.isAbsolute) : p.text.toList.reverse.getLast? = some '/' := by
  rw [getLast?_reverse]
  exact isAbsolute_iff.mp h

theorem isAbsolute_addExtension (hp : p.isAbsolute) (ext : String) :
    (p.addExtension ext).isAbsolute := by
  unfold addExtension
  split
  · exact hp
  have hback := isAbsolute_of_reverse (getLast?_trimBack (getLast?_reverse_text hp))
  rw [isAbsolute_iff] at hback ⊢
  simp only [hp, if_true, String.toList_append, head?_append] at hback ⊢
  rw [hback]
  rfl

/-! ## All steps above -/

def up? : Nat → Path → Option Path
  | 0, p => some p
  | n + 1, p => p.parent?.bind (up? n)

theorem ancestors_eq : p.ancestors = p :: p.parent?.elim [] ancestors := by
  unfold ancestors
  rw [ancestorsFrom]
  cases h : p.parent? with
  | none => rfl
  | some q => simp [length_parent?_lt h]

theorem getElem?_ancestors (n : Nat) : ∀ p : Path, p.ancestors[n]? = up? n p := by
  induction n with
  | zero => intro p; rw [ancestors_eq]; rfl
  | succ n ih =>
    intro p
    rw [ancestors_eq, up?]
    cases p.parent? with
    | none => rfl
    | some q => exact ih q

theorem isBelow_iff : stop.isBelow p ↔ stop.components <+: p.components := by
  rw [isBelow, isSome_iff_exists]
  exact exists_congr fun rest => stripList?_eq_some_iff.trans eq_comm

/-- Each step above takes one component away. -/
theorem exists_components_of_up? : ∀ {n : Nat} {p : Path}, p.up? n = some dir →
    ∃ back, back.length = n ∧ p.components = dir.components ++ back
  | 0, p, h => ⟨[], rfl, by simp [some.inj h]⟩
  | n + 1, p, h => by
    obtain ⟨q, hq, h⟩ := bind_eq_some_iff.mp h
    obtain ⟨last, hlast⟩ := components_parent? hq
    obtain ⟨back, rfl, hback⟩ := exists_components_of_up? h
    exact ⟨back ++ [last], by simp, by rw [hlast, hback, append_assoc]⟩

theorem isAbsolute_up? : ∀ {n : Nat} {p : Path}, p.isAbsolute → p.up? n = some dir → dir.isAbsolute
  | 0, _, hp, h => some.inj h ▸ hp
  | _ + 1, _, hp, h => by
    obtain ⟨q, hq, h⟩ := bind_eq_some_iff.mp h
    exact isAbsolute_up? (isAbsolute_parent hp hq) h

end Path

/-! ## The nearest configuration -/

namespace Modules

variable {t : Tree} {start stop dir : Path}

/-- Above a directory that lies below another one is that one, or what lies below it as well. -/
theorem isBelow_parent? {q : Path} (h : stop.isBelow start) (hsame : start.same stop = false)
    (hq : start.parent? = some q) : stop.isBelow q := by
  obtain ⟨last, hlast⟩ := components_parent? hq
  rw [isBelow_iff, hlast, prefix_concat_iff, ← hlast] at h
  refine isBelow_iff.mpr (h.resolve_left fun heq => ?_)
  simp [same, heq] at hsame

theorem searchedDirs_eq (h : stop.isBelow start) : searchedDirs start stop =
    start :: if start.same stop then [] else start.parent?.elim [] (searchedDirs · stop) := by
  rw [searchedDirs, if_pos h, span_eq_takeWhile_dropWhile, ancestors_eq]
  cases hsame : start.same stop with
  | true => simp [hsame]
  | false =>
    rw [takeWhile_cons_of_pos (by simp [hsame]), dropWhile_cons_of_pos (by simp [hsame])]
    cases hparent : start.parent? with
    | none => rfl
    | some q => simp [searchedDirs, isBelow_parent? h hsame hparent]

/-- **The directories that are searched**: the start and those above it, but none above `stop` if
the start lies there. -/
theorem getElem?_searchedDirs : ∀ {n : Nat} {start : Path},
    (searchedDirs start stop)[n]? = some dir ↔
      start.up? n = some dir ∧ (stop.isBelow start → stop.isBelow dir) := by
  intro n
  induction n with
  | zero =>
    intro start
    have hfirst : (searchedDirs start stop)[0]? = some start := by
      by_cases hbelow : stop.isBelow start
      · rw [searchedDirs_eq hbelow]
        rfl
      · rw [searchedDirs, if_neg hbelow, getElem?_ancestors]
        rfl
    rw [hfirst]
    exact ⟨fun h => ⟨h, by simp [some.inj h]⟩, And.left⟩
  | succ n ih =>
    intro start
    by_cases hbelow : stop.isBelow start
    · rw [searchedDirs_eq hbelow]
      cases hsame : start.same stop with
      | true =>
        refine ⟨fun h => (nomatch h), fun ⟨hup, hdir⟩ => ?_⟩
        obtain ⟨back, hback, hstart⟩ := exists_components_of_up? hup
        have hlength := (isBelow_iff.mp (hdir hbelow)).length_le
        rw [← eq_of_beq hsame, hstart, length_append] at hlength
        omega
      | false =>
        cases hparent : start.parent? with
        | none => simp [up?, hparent]
        | some q => simp [ih, up?, hparent, hbelow, isBelow_parent? hbelow hsame hparent]
    · rw [searchedDirs, if_neg hbelow, getElem?_ancestors]
      simp [hbelow]

/-- **The configuration for a directory is the nearest one**, at it or above it, but not above
`stop` if the directory lies there. -/
theorem nearestConfig?_eq_some_iff {path : Path} : nearestConfig? t start stop = some path ↔
    ∃ n dir, start.up? n = some dir ∧ (stop.isBelow start → stop.isBelow dir) ∧
      path = dir.join configName ∧ t.isFile path ∧
      ∀ m < n, ∀ nearer, start.up? m = some nearer → t.isFile (nearer.join configName) = false := by
  rw [nearestConfig?, find?_map, map_eq_some_iff]
  simp only [find?_eq_some_iff_getElem]
  constructor
  · rintro ⟨dir, ⟨hfile, n, hn, rfl, hnone⟩, rfl⟩
    obtain ⟨hup, hbelow⟩ := getElem?_searchedDirs.mp (getElem?_eq_getElem hn)
    refine ⟨n, _, hup, hbelow, rfl, hfile, fun m hm nearer hnearer => ?_⟩
    obtain ⟨hup', -⟩ := getElem?_searchedDirs.mp (getElem?_eq_getElem (Nat.lt_trans hm hn))
    rw [hup'] at hnearer
    simpa [some.inj hnearer] using hnone m hm
  · rintro ⟨n, dir, hup, hbelow, rfl, hfile, hnone⟩
    obtain ⟨hn, hdir⟩ := List.getElem?_eq_some_iff.mp (getElem?_searchedDirs.mpr ⟨hup, hbelow⟩)
    refine ⟨dir, ⟨hfile, n, hn, hdir, fun m hm => ?_⟩, rfl⟩
    obtain ⟨hup', -⟩ := getElem?_searchedDirs.mp (getElem?_eq_getElem (Nat.lt_trans hm hn))
    simpa using hnone m hm _ hup'

end Modules

end RouteAtlas
