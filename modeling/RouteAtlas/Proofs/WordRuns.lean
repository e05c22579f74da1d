import Mathlib.Data.List.Basic
import RouteAtlas.Finder.Search
import RouteAtlas.Proofs.Frames

/-!
# White space collapsed

Collapsing passes over a text once, writes a space where a run of white space begins and trims what
it has written. What is left are the maximal runs of other characters with single spaces between
them. So the result depends on those runs alone, and on nothing in the white space around them.
-/

open List Option

namespace RouteAtlas.Text

/-! ## Runs -/

/-- **The maximal runs of a text**: each is not empty, has no white space in it, and lies between
white space or the ends of the text. -/
inductive MaximalRuns : List Char → List (List Char) → Prop
  | blank {gap : List Char} (hgap : ∀ c ∈ gap, isBlank c) : MaximalRuns gap []
  | run {gap run rest : List Char} {ws : List (List Char)} (hgap : ∀ c ∈ gap, isBlank c)
      (hne : run ≠ []) (hrun : ∀ c ∈ run, isBlank c = false)
      (hrest : ∀ c ∈ rest.head?, isBlank c) (h : MaximalRuns rest ws) :
      MaximalRuns (gap ++ (run ++ rest)) (run :: ws)

section Runs

variable {p : Char → Bool} {c : Char} {cur cs run rest gap : List Char} {ws : List (List Char)}

/-- **A run that has begun goes on up to the next character of the class.** -/
theorem runs_of_ne_nil (hcur : cur ≠ []) (cs : List Char) :
    runs p cur cs = (cur.reverse ++ cs.takeWhile (!p ·)) :: runs p [] (cs.dropWhile (!p ·)) := by
  induction cs generalizing cur with
  | nil => simp [runs, hcur]
  | cons c cs ih =>
    cases hc : p c with
    | true => simp [runs, hc, hcur]
    | false => simp [runs, hc, ih]

theorem runs_cons_of_not (hc : p c = false) (cs : List Char) :
    runs p [] (c :: cs) = (c :: cs).takeWhile (!p ·) :: runs p [] ((c :: cs).dropWhile (!p ·)) := by
  have hrun : runs p [] (c :: cs) = runs p [c] cs := by rw [runs, hc]; rfl
  rw [hrun, runs_of_ne_nil (cons_ne_nil c []), takeWhile_cons_of_pos (by simp [hc]),
    dropWhile_cons_of_pos (by simp [hc])]
  rfl

theorem runs_append (hne : run ≠ []) (hrun : ∀ c ∈ run, p c = false) (rest : List Char) :
    runs p [] (run ++ rest) =
      (run ++ rest.takeWhile (!p ·)) :: runs p [] (rest.dropWhile (!p ·)) := by
  have hpass : ∀ c ∈ run, (!p c) := fun c hc => by simp [hrun c hc]
  obtain ⟨c, cs, rfl⟩ := exists_cons_of_ne_nil hne
  rw [cons_append, runs_cons_of_not (hrun c mem_cons_self), ← cons_append,
    takeWhile_append_of_pos hpass, dropWhile_append_of_pos hpass]

theorem runs_append_of_class (hgap : ∀ c ∈ gap, p c) (cs : List Char) :
    runs p [] (gap ++ cs) = runs p [] cs := by
  induction gap with
  | nil => rfl
  | cons c gap ih =>
    obtain ⟨hc, hgap⟩ := forall_mem_cons.mp hgap
    rw [cons_append, runs, if_pos hc]
    exact ih hgap

theorem MaximalRuns.cons_blank (h : MaximalRuns cs ws) (hc : isBlank c) :
    MaximalRuns (c :: cs) ws := by
  cases h with
  | blank hgap => exact .blank (forall_mem_cons.mpr ⟨hc, hgap⟩)
  | run hgap hne hrun hrest h => exact .run (forall_mem_cons.mpr ⟨hc, hgap⟩) hne hrun hrest h

theorem maximalRuns_runs (hcur : ∀ c ∈ cur, isBlank c = false) (cs : List Char) :
    MaximalRuns (cur.reverse ++ cs) (runs isBlank cur cs) := by
  -- a run that has begun ends at the end of the text or at the next white space
  have hend : ∀ (cur cs : List Char) ws, ¬ cur.isEmpty → (∀ c ∈ cur, isBlank c = false) →
      (∀ c ∈ cs.head?, isBlank c) → MaximalRuns cs ws →
      MaximalRuns (cur.reverse ++ cs) (cur.reverse :: ws) := by
    intro cur cs ws hne hcur hcs h
    exact .run (forall_mem_nil _) (by simpa using hne) (by simpa using hcur) hcs h
  fun_induction runs isBlank cur cs with
  | case1 cur hempty =>
    rw [isEmpty_iff.mp hempty]
    exact .blank (forall_mem_nil _)
  | case2 cur hne => exact hend cur [] [] hne hcur (by simp) (.blank (forall_mem_nil _))
  | case3 cur c cs hc hempty ih =>
    rw [isEmpty_iff.mp hempty]
    exact (ih (forall_mem_nil _)).cons_blank hc
  | case4 cur c cs hc hne ih =>
    exact hend cur (c :: cs) _ hne hcur (by simpa using hc) ((ih (forall_mem_nil _)).cons_blank hc)
  | case5 cur c cs hc ih =>
    have h := ih (forall_mem_cons.mpr ⟨Bool.eq_false_iff.mpr hc, hcur⟩)
    rwa [reverse_cons, append_assoc] at h

theorem runs_of_maximalRuns (h : MaximalRuns cs ws) : runs isBlank [] cs = ws := by
  induction h with
  | @blank gap hgap =>
    rw [← append_nil gap, runs_append_of_class hgap]
    rfl
  | @run gap run rest ws hgap hne hrun hrest _ ih =>
    have hstop : rest.takeWhile (!isBlank ·) = [] ∧ rest.dropWhile (!isBlank ·) = rest := by
      cases rest with
      | nil => exact ⟨rfl, rfl⟩
      | cons c rest => simp [hrest c rfl]
    rw [runs_append_of_class hgap, runs_append hne hrun, hstop.1, hstop.2, ih, append_nil]

/-- **The runs of a text are what dividing it gives.** -/
theorem maximalRuns_iff : MaximalRuns cs ws ↔ ws = runs isBlank [] cs :=
  ⟨fun h => (runs_of_maximalRuns h).symm, fun h => h ▸ maximalRuns_runs (forall_mem_nil _) cs⟩

theorem MaximalRuns.of_mem (h : MaximalRuns cs ws) :
    ∀ w ∈ ws, w ≠ [] ∧ ∀ c ∈ w, isBlank c = false := by
  induction h with
  | blank => exact forall_mem_nil _
  | run _ hne hrun _ _ ih => exact forall_mem_cons.mpr ⟨⟨hne, hrun⟩, ih⟩

theorem ne_empty_of_mem_words {s w : String} (h : w ∈ words s) : w ≠ "" := by
  obtain ⟨run, hrun, rfl⟩ := List.mem_map.mp h
  rw [Ne, String.ofList_eq_empty_iff]
  exact ((maximalRuns_iff.mpr rfl).of_mem run hrun).1

theorem not_blank_of_mem_words {s w : String} (h : w ∈ words s) :
    ∀ c ∈ w.toList, isBlank c = false := by
  obtain ⟨run, hrun, rfl⟩ := List.mem_map.mp h
  rw [String.toList_ofList]
  exact ((maximalRuns_iff.mpr rfl).of_mem run hrun).2

end Runs

/-! ## What the pass writes -/

section Pass

variable {gap : Bool} {front cs : List Char} {ws : List (List Char)}

theorem squeeze_blank (h : ∀ c ∈ front, isBlank c) (cs : List Char) :
    squeeze true (front ++ cs) = squeeze true cs := by
  induction front with
  | nil => rfl
  | cons c front ih =>
    obtain ⟨hc, hfront⟩ := forall_mem_cons.mp h
    rw [cons_append, squeeze, if_pos hc]
    exact ih hfront

theorem squeeze_run (hne : front ≠ []) (h : ∀ c ∈ front, isBlank c = false) (cs : List Char) :
    squeeze gap (front ++ cs) = front ++ squeeze false cs := by
  induction front generalizing gap with
  | nil => exact absurd rfl hne
  | cons c front ih =>
    obtain ⟨hc, hfront⟩ := forall_mem_cons.mp h
    rw [cons_append, squeeze, if_neg (by simp [hc]), cons_append]
    cases front with
    | nil => rfl
    | cons d front => rw [ih (cons_ne_nil _ _) hfront]

/-- At white space the pass writes a space unless the run has one. -/
theorem squeeze_false :
    squeeze false cs =
      if cs.head?.any isBlank then ' ' :: squeeze true cs else squeeze true cs := by
  cases cs with
  | nil => rfl
  | cons c cs => cases hc : isBlank c <;> simp [squeeze, hc]

/-- **The pass writes the runs with single spaces between them**, and one more space if white space
is left at the end. -/
theorem squeeze_of_maximalRuns (h : MaximalRuns cs ws) : squeeze true cs = [' '].intercalate ws ∨
    ws ≠ [] ∧ squeeze true cs = [' '].intercalate ws ++ [' '] := by
  induction h with
  | @blank gap hgap =>
    rw [← append_nil gap, squeeze_blank hgap]
    exact .inl rfl
  | @run gap run rest ws hgap hne hrun hrest h ih =>
    rw [squeeze_blank hgap, squeeze_run hne hrun, squeeze_false]
    cases rest with
    | nil =>
      obtain rfl : [] = ws := runs_of_maximalRuns h
      rw [intercalate_singleton]
      exact .inl (append_nil run)
    | cons c rest =>
      rw [if_pos (by simp [hrest c rfl])]
      by_cases hws : ws = []
      · rw [ih.resolve_right fun h => h.1 hws, hws, intercalate_singleton]
        exact .inr ⟨cons_ne_nil _ _, rfl⟩
      · rw [intercalate_cons_of_ne_nil hws]
        refine ih.imp (fun ih => ?_) fun ih => ⟨cons_ne_nil _ _, ?_⟩
        · rw [ih, append_assoc]
          rfl
        · rw [ih.2]
          simp

theorem ends_of_join (h : ∀ w ∈ ws, w ≠ [] ∧ ∀ c ∈ w, isBlank c = false) :
    (∀ c, ([' '].intercalate ws).head? = some c → isBlank c = false) ∧
      ∀ c, ([' '].intercalate ws).getLast? = some c → isBlank c = false := by
  induction ws with
  | nil => simp
  | cons w ws ih =>
    obtain ⟨⟨hne, hw⟩, hws⟩ := forall_mem_cons.mp h
    obtain ⟨-, hlast⟩ := ih hws
    cases ws with
    | nil =>
      rw [intercalate_singleton]
      exact ⟨fun c hc => hw c (mem_of_mem_head? hc), fun c hc => hw c (mem_of_getLast? hc)⟩
    | cons v ws =>
      have hv : [' '].intercalate (v :: ws) ≠ [] := by
        obtain ⟨c, v, rfl⟩ := exists_cons_of_ne_nil (hws v mem_cons_self).1
        cases ws <;> simp
      rw [intercalate_cons_of_ne_nil (cons_ne_nil _ _)]
      constructor
      · intro c hc
        obtain ⟨d, w, rfl⟩ := exists_cons_of_ne_nil hne
        exact hw c (mem_of_mem_head? hc)
      · rwa [getLast?_append_of_ne_nil _ hv]

/-- **White space collapsed**: the runs with single spaces between them. -/
theorem collapse_of_maximalRuns {s : String} (h : MaximalRuns s.toList ws) :
    collapse s = String.ofList ([' '].intercalate ws) := by
  have hblank : isBlank ' ' := by decide
  obtain ⟨hfirst, hlast⟩ := ends_of_join h.of_mem
  have hleft : ∀ cs, trimBy isBlank (' ' :: cs) = trimBy isBlank cs := by
    intro cs
    rw [trimBy, dropWhile_cons_of_pos hblank, trimBy]
  have hright : trimBy isBlank (squeeze true s.toList) = [' '].intercalate ws := by
    rcases squeeze_of_maximalRuns h with h | ⟨-, h⟩
    · rw [h, trimBy_eq_self hfirst hlast]
    · rw [h, Rpc.Frame.trimBy_concat hblank, trimBy_eq_self hfirst hlast]
  rw [collapse, trim, String.toList_ofList, squeeze_false]
  split
  · rw [hleft, hright]
  · rw [hright]

theorem collapse_eq (s : String) : collapse s = " ".intercalate (words s) := by
  rw [collapse_of_maximalRuns (maximalRuns_iff.mpr rfl), ← String.toList_inj]
  simp [words]

/-- **Runs with single spaces between them** are the runs of that text. -/
theorem maximalRuns_join (h : ∀ w ∈ ws, w ≠ [] ∧ ∀ c ∈ w, isBlank c = false) :
    MaximalRuns ([' '].intercalate ws) ws := by
  induction ws with
  | nil => exact .blank (forall_mem_nil _)
  | cons w ws ih =>
    obtain ⟨⟨hne, hw⟩, hws⟩ := forall_mem_cons.mp h
    cases ws with
    | nil =>
      have hrun := MaximalRuns.run (forall_mem_nil _) hne hw (by simp) (ih hws)
      rw [intercalate_nil, append_nil] at hrun
      rwa [intercalate_singleton]
    | cons v ws =>
      have hblank : isBlank ' ' := by decide
      exact .run (forall_mem_nil _) hne hw (by simpa using hblank) ((ih hws).cons_blank hblank)

end Pass

/-- **Collapsing keeps the runs of a text and nothing else of it.** Every text has one list of
maximal runs. Collapsed it is these runs with single spaces between them, so collapsing again
changes nothing, texts are alike when collapsed exactly if they have the same runs, and those have
one search key. -/
theorem collapse_joins_runs (s : String) : ∃ ws, (∀ vs, MaximalRuns s.toList vs ↔ vs = ws) ∧
    collapse s = " ".intercalate (ws.map String.ofList) ∧ collapse (collapse s) = collapse s ∧
    ∀ t : String, (collapse t = collapse s ↔ MaximalRuns t.toList ws) ∧
      (MaximalRuns t.toList ws → Finder.normalize t = Finder.normalize s) := by
  have hs : MaximalRuns s.toList (runs isBlank [] s.toList) := maximalRuns_iff.mpr rfl
  -- a collapsed text has the runs of the text
  have hruns : ∀ t : String, runs isBlank [] (collapse t).toList = runs isBlank [] t.toList := by
    intro t
    have ht : MaximalRuns t.toList (runs isBlank [] t.toList) := maximalRuns_iff.mpr rfl
    rw [collapse_of_maximalRuns ht, String.toList_ofList]
    exact runs_of_maximalRuns (maximalRuns_join ht.of_mem)
  have hsame : ∀ t : String, MaximalRuns t.toList (runs isBlank [] s.toList) →
      collapse t = collapse s := by
    intro t ht
    rw [collapse_of_maximalRuns ht, collapse_of_maximalRuns hs]
  refine ⟨runs isBlank [] s.toList, fun vs => maximalRuns_iff, collapse_eq s, ?_,
    fun t => ⟨⟨?_, hsame t⟩, ?_⟩⟩
  · exact hsame (collapse s) (maximalRuns_iff.mpr (hruns s).symm)
  · intro heq
    rw [maximalRuns_iff, ← hruns t, heq, hruns s]
  · intro ht
    rw [Finder.normalize, hsame t ht, Finder.normalize]

end RouteAtlas.Text
