import Mathlib.Data.List.Sort
import RouteAtlas.Proofs.FirstWins
import RouteAtlas.Proofs.PatternLanguage

/-!
# Added routes answer their own requests

A route that is added by its method and path is asked for by the same two texts. Both sides put them
in another form: adding reads the method, with upper case as the fallback, and joins the path to the
root; asking trims the method and compares segments. The paths always meet, since every segment of a
pattern takes itself (`accepts_self`). The methods meet if the method is a known one or has no white
space around it: the fallback does not trim (`answers_registered_iff`).
-/

open List

namespace RouteAtlas

/-! ## Methods -/

namespace Http.Method

variable {method : String}

theorem trim_sublist (s : String) : (Text.trim s).toList <+ s.toList := by
  rw [Text.trim, String.toList_ofList]
  exact (reverse_sublist.mpr (dropWhile_sublist _)).trans (by simpa using dropWhile_sublist _)

theorem toUpper_of_isBlank {c : Char} (h : Text.isBlank c) : c.toUpper = c := by
  refine dif_neg ?_
  simp only [Text.isBlank, Text.blankRanges, any_cons, any_nil, Bool.or_false, Bool.or_eq_true,
    Bool.and_eq_true, decide_eq_true_eq] at h
  simp only [UInt32.le_iff_toNat_le, Char.toNat_val, Char.reduceToNat]
  omega

theorem trim_of_upperAscii {s u : String} (h : Text.upperAscii s = u)
    (hu : Http.Pattern.Spaceless u) : Text.trim s = s := by
  refine Http.Pattern.trim_of_trimmed
    (Http.Pattern.Spaceless.trimmed (all_eq_true.mpr fun c hc => ?_))
  have hmem : c.toUpper ∈ u.toList := by
    rw [← h, Text.upperAscii, String.toList_map]
    exact mem_map_of_mem hc
  by_contra hblank
  rw [Bool.not_eq_true, Bool.not_eq_false'] at hblank
  have := all_eq_true.mp hu _ hmem
  rw [toUpper_of_isBlank hblank, hblank] at this
  cases this

def registered (method : String) : String := (parse? method).getD (Text.upperAscii method)

/-- A text that names one method: it is not blank, has no quotes and is no wildcard. -/
structure Names (method : String) : Prop where
  notBlank : Text.trim method ≠ ""
  noQuotes : ∀ c ∈ method.toList, c ≠ '"' ∧ c ≠ '\''
  noWildcard : Text.upperAscii (Text.trim method) ∉ ["ALL", "ANY", "*"]

theorem Names.parse? (h : Names method) : parse? method =
    if known.contains (Text.upperAscii (Text.trim method)) then
      some (Text.upperAscii (Text.trim method)) else none := by
  have hquote : ∀ c ∈ (Text.trim method).toList, (c == '"' || c == '\'') = false := fun c hc => by
    simpa using h.noQuotes c ((trim_sublist method).subset hc)
  have hbare : Text.trimBy (fun c => c == '"' || c == '\'') (Text.trim method).toList =
      (Text.trim method).toList :=
    Text.trimBy_eq_self (fun c hc => hquote c (mem_of_head? hc)) fun c hc =>
      hquote c (mem_of_getLast? hc)
  rw [Method.parse?, hbare, String.ofList_toList]
  rw [if_neg (by simpa using h.notBlank), if_neg (by simpa using h.noWildcard)]

/-- **A method meets itself** if it is a known one or has no white space around it. -/
theorem Names.answers_registered_iff (h : Names method) :
    answers (registered method) (Text.upperAscii (Text.trim method)) ↔
      (Method.parse? method).isSome ∨ Text.trim method = method := by
  rw [registered, h.parse?]
  split
  · simp [answers]
  rename_i hknown
  constructor
  · intro hanswers
    simp only [answers, Bool.or_eq_true, Bool.and_eq_true, beq_iff_eq] at hanswers
    rcases hanswers with (hall | hself) | ⟨hhead, -⟩
    · exact .inr (trim_of_upperAscii hall (by decide))
    · refine .inr (String.toList_injective ((trim_sublist method).eq_of_length ?_))
      have hlength := congrArg (·.toList.length) hself
      simpa [Text.upperAscii] using hlength.symm
    · rw [hhead] at hknown
      exact absurd rfl hknown
  · rintro (hsome | htrim)
    · cases hsome
    · simp [answers, htrim]

end Http.Method

namespace Http.Pattern

theorem mem_language_self : ∀ pattern : List String, pattern ∈ language pattern
  | [] => rfl
  | text :: rest => by
    have htakes : Takes rest.isEmpty text [text] := by
      rcases segment_cases text with rfl | ⟨name, rfl⟩ | hplain
      · exact .some "*" []
      · exact .value name _
      · exact .itself hplain
    exact Language.mem_mul.mpr ⟨[text], htakes, rest, mem_language_self rest, rfl⟩

theorem accepts_self {path : String} (h : Trimmed path) : accepts (join "" path) path := by
  rw [accepts_iff_mem_language, segments_join, trim_of_trimmed h]
  exact mem_language_self _

end Http.Pattern

namespace Inventory

open Http.Pattern Http.Method

variable {resources : List Resource}

theorem pathOfTarget_eq {path : String} (h : ∀ c ∈ path.toList, c ≠ '?' ∧ c ≠ '#') :
    pathOfTarget path = path := by
  rw [pathOfTarget, takeWhile_eq_self_iff.mpr, String.ofList_toList]
  exact fun c hc => decide_eq_true (h c hc)

/-- Where the numbers grow, a request runs what answers it in the order of the inventory. -/
theorem runBy_eq (h : resources.Pairwise (·.order < ·.order)) (method target : String) :
    runBy resources method target = resources.filter
      (·.answers (Text.upperAscii (Text.trim method)) (pathOfTarget target)) := by
  refine mergeSort_of_pairwise ?_
  refine (h.sublist filter_sublist).imp fun hlt => ?_
  exact decide_eq_true (Nat.le_of_lt hlt)

theorem walkAll_order {net : Network} {i : Nat} {r : Resource}
    (hr : (walkAll net).resources[i]? = some r) : r.order = i := by
  obtain ⟨ls, heq, -⟩ := walkAll_listed net
  rw [heq, getElem?_mapIdx] at hr
  obtain ⟨l, hl, rfl⟩ := Option.map_eq_some_iff.mp hr
  rfl

theorem analysisOf_ordered (g : Graph) (net : Network) :
    (g.analysisOf net).resources.Pairwise (·.order < ·.order) := by
  have heq : (g.analysisOf net).resources = keptAll (walkAll net).resources g.extras :=
    Graph.withExtras_eq _ 0 _ g.extras
  rw [heq]
  exact keptAll_ordered fun i r => walkAll_order

theorem runBy_ordered (g : Graph) (net : Network) (method target : String) :
    (runBy (g.analysisOf net).resources method target).Pairwise (·.order < ·.order) := by
  rw [runBy_eq (analysisOf_ordered g net)]
  exact (analysisOf_ordered g net).sublist filter_sublist

theorem exists_mem_runBy_iff {g : Graph} (net : Network) {e : Extra} (he : e ∈ g.extras)
    {method path : String} (hm : e.method = registered method)
    (hp : e.path = join "" path) (hpath : ∀ c ∈ path.toList, c ≠ '?' ∧ c ≠ '#')
    (htrim : Trimmed path) :
    (∃ r ∈ runBy (g.analysisOf net).resources method path,
      r.kind = .route ∧ r.method = e.method ∧ r.path = e.path) ↔
    answers (registered method) (Text.upperAscii (Text.trim method)) := by
  rw [runBy_eq (analysisOf_ordered g net), pathOfTarget_eq hpath]
  constructor
  · rintro ⟨r, hr, -, hmethod, -⟩
    have hanswers := (mem_filter.mp hr).2
    rw [Resource.answers, hmethod, hm, Bool.and_eq_true] at hanswers
    exact hanswers.1
  · intro hanswers
    obtain ⟨r, hr, hkind, hmethod, hrpath⟩ := Graph.exists_route_of_mem_extras he
    refine ⟨r, mem_filter.mpr ⟨hr, ?_⟩, hkind, hmethod, hrpath⟩
    rw [Resource.answers, hmethod, hrpath, hm, hp, Bool.and_eq_true]
    exact ⟨hanswers, accepts_self htrim⟩

theorem exists_added (g : Graph) (method path handlerText : String) :
    ∃ e, (g.addCustom method path handlerText).extras = g.extras ++ [e] ∧
      e.method = registered method ∧ e.path = join "" path := by
  refine ⟨⟨registered method, join "" path, .custom, ⟨handlerText, .other, none, none,
    none⟩⟩, ?_, ?_, ?_⟩
  · rfl
  · dsimp only
  · dsimp only

/-- **An added route answers its own method and path** if the method is a known one or has no white
space around it, and only then; a route that was there before may do so in its place. What a request
runs is in the order of the numbers. -/
theorem added_answers_iff (g : Graph) {σ : Type} (resolve : String → Path → StateM σ (Option Path))
    (s : σ) (method path handlerText : String) (hmethod : Http.Method.Names method)
    (hpath : ∀ c ∈ path.toList, c ≠ '?' ∧ c ≠ '#') (htrim : Trimmed path) :
    let added := g.addCustom method path handlerText
    let run := runBy ((added.analyze resolve).run s).1.resources method path
    ∃ e, added.extras = g.extras ++ [e] ∧
      ((∃ r ∈ run, r.kind = .route ∧ r.method = e.method ∧ r.path = e.path) ↔
        (Http.Method.parse? method).isSome = true ∨ Text.trim method = method) ∧
      run.Pairwise (·.order < ·.order) := by
  intro added run
  obtain ⟨e, hadded, hm, hp⟩ := exists_added g method path handlerText
  have he : e ∈ added.extras := hadded ▸ mem_append_right _ mem_cons_self
  have hrun : run =
      runBy (added.analysisOf ((added.network resolve).run s).1).resources method path :=
    rfl
  rw [hrun, ← hmethod.answers_registered_iff]
  exact ⟨e, hadded, exists_mem_runBy_iff _ he hm hp hpath htrim, runBy_ordered ..⟩

/-- A method that is not a known one, with a path of a wildcard and a parameter. -/
theorem added_answers_iff_purge :
    Http.Method.Names "purge" ∧ (∀ c ∈ "/a/*/:id".toList, c ≠ '?' ∧ c ≠ '#') ∧ Trimmed "/a/*/:id" ∧
    ∃ e, (({ root := ⟨"/p"⟩ } : Graph).addCustom "purge" "/a/*/:id" "h").extras = [e] ∧
      ∃ r ∈ runBy (((({ root := ⟨"/p"⟩ } : Graph).addCustom "purge" "/a/*/:id" "h").analyze
        unresolved).run ()).1.resources "purge" "/a/*/:id",
        r.kind = .route ∧ r.method = e.method ∧ r.path = e.path := by
  have hnames : Http.Method.Names "purge" := ⟨by decide, by simp, by decide +kernel⟩
  obtain ⟨e, he, hiff, -⟩ :=
    added_answers_iff { root := ⟨"/p"⟩ } unresolved () "purge" "/a/*/:id" "h"
    hnames (by simp) (by decide)
  exact ⟨hnames, by simp, by decide, e, he, hiff.mpr (.inr (by decide))⟩

/-- **White space in front of a method that is not a known one** keeps the route from answering. -/
theorem added_not_found :
    Http.Method.Names " purge" ∧ (∀ c ∈ "/a".toList, c ≠ '?' ∧ c ≠ '#') ∧ Trimmed "/a" ∧
    runBy (((({ root := ⟨"/p"⟩ } : Graph).addCustom " purge" "/a" "h").analyze unresolved).run
      ()).1.resources " purge" "/a" = [] :=
  ⟨⟨by decide, by simp, by decide +kernel⟩, by simp, by decide, by decide +kernel⟩

end Inventory

end RouteAtlas
