import RouteAtlas.Proofs.ExactMatches
import RouteAtlas.Proofs.WordRuns

/-!
# Functions that are found without their keyword

Texts are compared word by word, and one leading `async` is left out of both. A function with that
keyword is therefore found by its text without it, if white space follows the keyword. Where none
does, as in `async(x) => x`, keyword and rest are one word, and only a long text is still found, as
part of the function. The same happens to a function whose parameter is called `async`.
-/

open List Option

namespace RouteAtlas.Text

/-! ## Words -/

def startsBlank (s : String) : Bool := s.toList.head?.any isBlank

section Behind

variable {first rest : String}

theorem runs_behind (hne : first ≠ "") (hfirst : ∀ c ∈ first.toList, isBlank c = false) :
    runs isBlank [] (first ++ rest).toList = (first.toList ++ rest.toList.takeWhile (!isBlank ·)) ::
        runs isBlank [] (rest.toList.dropWhile (!isBlank ·)) := by
  rw [String.toList_append]
  exact runs_append (fun h => hne (String.toList_eq_nil_iff.mp h)) hfirst _

theorem words_append_of_blank (hne : first ≠ "")
    (hfirst : ∀ c ∈ first.toList, isBlank c = false) (hrest : startsBlank rest) :
    words (first ++ rest) = first :: words rest := by
  rw [words, runs_behind hne hfirst, words, startsBlank] at *
  generalize rest.toList = cs at hrest
  cases cs with
  | nil => exact absurd hrest (by decide)
  | cons c cs =>
    have hc : (!isBlank c) = false := by simpa using hrest
    simp [hc]

theorem words_append_of_not_blank (hne : first ≠ "")
    (hfirst : ∀ c ∈ first.toList, isBlank c = false) (hrest : startsBlank rest = false) :
    ∃ w ws, words (first ++ rest) = (first ++ w) :: ws ∧
      (words rest = w :: ws ∨ rest = "" ∧ w = "" ∧ ws = []) := by
  refine ⟨String.ofList (rest.toList.takeWhile (!isBlank ·)),
    (runs isBlank [] (rest.toList.dropWhile (!isBlank ·))).map String.ofList, ?_, ?_⟩
  · rw [words, runs_behind hne hfirst, map_cons, String.ofList_append, String.ofList_toList]
  · cases hcs : rest.toList with
    | nil => exact .inr ⟨String.toList_eq_nil_iff.mp hcs, rfl, rfl⟩
    | cons c cs =>
      left
      have hc : isBlank c = false := by
        rw [startsBlank, hcs] at hrest
        exact hrest
      rw [words, hcs, runs_cons_of_not hc, map_cons]

end Behind

theorem intercalate_suffix {sep : List Char} {xs ys : List (List Char)} (h : xs <:+ ys) :
    sep.intercalate xs <:+ sep.intercalate ys := by
  obtain ⟨front, rfl⟩ := h
  induction front with
  | nil => exact suffix_rfl
  | cons w front ih =>
    refine ih.trans ?_
    by_cases hne : front ++ xs = []
    · rw [hne]
      exact nil_suffix
    · rw [cons_append, intercalate_cons_of_ne_nil hne]
      exact suffix_append _ _

end RouteAtlas.Text

namespace RouteAtlas.Finder

open Source Text

variable {source search : String}

/-! ## The words that are compared -/

/-- Words without a leading `async` that has another word behind it. -/
def withoutAsync : List String → List String
  | first :: second :: more => if first = "async" then second :: more else first :: second :: more
  | ws => ws

theorem withoutAsync_suffix (ws : List String) : withoutAsync ws <:+ ws := by
  unfold withoutAsync
  split
  · split
    · exact suffix_cons _ _
    · exact suffix_rfl
  · exact suffix_rfl

/-- **Two texts are compared by their words**, without a leading `async`. -/
theorem normalize_eq (s : String) : normalize s = " ".intercalate (withoutAsync (words s)) := by
  have hspace : ∀ w ∈ words s, ' ' ∉ w.toList := fun w hw hmem =>
    absurd (not_blank_of_mem_words hw ' ' hmem) (by decide)
  have hstrip : normalize s =
      (stripStart? "async " (" ".intercalate (words s))).getD (" ".intercalate (words s)) := by
    rw [normalize, collapse_eq]
  rw [hstrip]
  generalize words s = ws at hspace
  -- A text of one word has no space in it, and of several the first one ends at the first space.
  rcases ws with _ | ⟨first, _ | ⟨second, more⟩⟩
  · rfl
  · have hnone : stripStart? "async " first = none := by
      rw [stripStart?, map_eq_none_iff, eq_none_iff_forall_ne_some]
      intro rest hrest
      refine hspace first mem_cons_self ?_
      rw [stripList?_eq_some_iff.mp hrest]
      exact mem_append_left _ (by decide)
    have hone : " ".intercalate [first] = first := rfl
    rw [hone, hnone]
    rfl
  · have hjoin : (" ".intercalate (first :: second :: more)).toList =
        first.toList ++ ' ' :: (" ".intercalate (second :: more)).toList := by
      simp
    rw [withoutAsync]
    split
    · rename_i hasync
      have hsome : stripList? "async ".toList
          (" ".intercalate (first :: second :: more)).toList =
            some (" ".intercalate (second :: more)).toList := by
        rw [hjoin, hasync]
        rfl
      rw [stripStart?, hsome, map_some, String.ofList_toList]
      rfl
    · rename_i hother
      have hnone : stripStart? "async " (" ".intercalate (first :: second :: more)) = none := by
        rw [stripStart?, map_eq_none_iff, eq_none_iff_forall_ne_some]
        intro rest hrest
        have heq := stripList?_eq_some_iff.mp hrest
        rw [hjoin] at heq
        have htake := congrArg (List.takeWhile (· != ' ')) heq
        have hsplit : "async ".toList ++ rest = "async".toList ++ ' ' :: rest := rfl
        rw [hsplit, takeWhile_append_of_pos, takeWhile_append_of_pos] at htake
        · exact hother (String.toList_inj.mp (by simpa using htake))
        · have hword : "async".toList.all (· != ' ') := rfl
          exact List.all_eq_true.mp hword
        · intro c hc
          have : c ≠ ' ' := by
            rintro rfl
            exact hspace first mem_cons_self hc
          simpa using this
      rw [hnone]
      rfl

/-! ## Functions behind their keyword -/

/-- A text that stands apart from a keyword `async` in front of it: white space comes first, then
words that do not begin with an `async` of their own. -/
def StandsApart (rest : String) : Prop :=
  startsBlank rest ∧ ∃ w ws, words rest = w :: ws ∧ (w = "async" → ws = [])

section Behind

variable {rest : String}

theorem not_blank_async : ∀ c ∈ "async".toList, isBlank c = false := by
  have hword : "async".toList.all (!isBlank ·) := rfl
  simpa using hword

/-- White space behind the keyword: the keyword is left out, unless nothing else is there. -/
theorem normalize_async_of_blank (hrest : startsBlank rest) :
    normalize ("async" ++ rest) =
      if words rest = [] then "async" else " ".intercalate (words rest) := by
  rw [normalize_eq, words_append_of_blank (by decide) not_blank_async hrest]
  cases words rest <;> rfl

theorem normalize_async_of_not_blank (hrest : startsBlank rest = false) :
    normalize ("async" ++ rest) = "async" ++ " ".intercalate (words rest) := by
  obtain ⟨w, ws, hwords, hcommon⟩ :=
    words_append_of_not_blank (by decide) not_blank_async hrest
  rw [normalize_eq, hwords]
  rcases hcommon with hcommon | ⟨rfl, rfl, rfl⟩
  · rw [hcommon]
    cases ws with
    | nil => rfl
    | cons v ws =>
      have hne : ¬ "async" ++ w = "async" := by
        intro h
        have hlength := congrArg String.length h
        have hw : w.length ≠ 0 := fun h =>
          ne_empty_of_mem_words (hcommon ▸ mem_cons_self) (String.length_eq_zero_iff.mp h)
        rw [String.length_append] at hlength
        omega
      rw [withoutAsync, if_neg hne]
      simp [String.append_assoc]
  · rfl

theorem join_withoutAsync_suffix (ws : List String) :
    (" ".intercalate (withoutAsync ws)).toList <:+ (" ".intercalate ws).toList := by
  rw [String.toList_intercalate, String.toList_intercalate]
  exact intercalate_suffix ((withoutAsync_suffix ws).map String.toList)

theorem normalize_suffix : (normalize rest).toList <:+ (normalize ("async" ++ rest)).toList := by
  rw [normalize_eq rest]
  refine (join_withoutAsync_suffix _).trans ?_
  cases hrest : startsBlank rest with
  | true =>
    rw [normalize_async_of_blank hrest]
    split
    · rename_i hnil
      rw [hnil]
      exact nil_suffix
    · exact suffix_rfl
  | false =>
    rw [normalize_async_of_not_blank hrest, String.toList_append]
    exact suffix_append _ _

theorem join_withoutAsync_eq_iff {w : String} {ws : List String} :
    " ".intercalate (w :: ws) = " ".intercalate (withoutAsync (w :: ws)) ↔
      (w = "async" → ws = []) := by
  cases ws with
  | nil => exact ⟨fun _ _ => rfl, fun _ => rfl⟩
  | cons v ws =>
    rw [withoutAsync]
    split
    · rename_i hw
      refine ⟨fun h => ?_, fun h => absurd (h hw) (cons_ne_nil v ws)⟩
      have hlength := congrArg String.length h
      have hspace : " ".length = 1 := rfl
      rw [String.intercalate_cons_cons, String.length_append, String.length_append] at hlength
      omega
    · rename_i hw
      exact ⟨fun _ h => absurd h hw, fun _ => rfl⟩

/-- **The keyword makes no difference exactly if the text stands apart from it.** -/
theorem normalize_async_iff : normalize ("async" ++ rest) = normalize rest ↔ StandsApart rest := by
  rw [normalize_eq rest, StandsApart]
  cases hrest : startsBlank rest with
  | true =>
    rw [normalize_async_of_blank hrest]
    cases hwords : words rest with
    | nil => simp [withoutAsync]
    | cons w ws =>
      rw [if_neg (cons_ne_nil w ws), join_withoutAsync_eq_iff]
      refine ⟨fun h => ⟨rfl, w, ws, rfl, h⟩, ?_⟩
      rintro ⟨-, _, _, ⟨⟩, h⟩
      exact h
  | false =>
    rw [normalize_async_of_not_blank hrest]
    refine ⟨fun h => ?_, fun h => absurd h.1 (by decide)⟩
    -- The text with the keyword is longer.
    have hle := (join_withoutAsync_suffix (words rest)).length_le
    rw [← h, String.toList_append, length_append] at hle
    have hasync : "async".toList.length = 5 := rfl
    omega

end Behind

/-- **When a function is found by its text without the keyword `async`.** Exactly if the text stands
apart from the keyword, or is long enough to be looked for inside functions, or is the whole of
another function. -/
theorem found_behind_async_iff (source : String) (root n : Node) (rest : String)
    (hn : n ∈ root.nodes) (hfunction : n.kindIs Kind.isFunction)
    (hasync : n.source source = "async" ++ rest) :
    (find? source (normalize rest) root).isSome ↔
      StandsApart rest ∨ 25 < (normalize rest).utf8ByteSize ∨
        ∃ m ∈ root.nodes, m ≠ n ∧ IsWhole source (normalize rest) m := by
  rw [find?_isSome_iff]
  constructor
  · rintro ⟨m, hm, hmfunction, heq | ⟨hlong, -⟩⟩
    · by_cases hmn : m = n
      · left
        rw [hmn, hasync] at heq
        exact normalize_async_iff.mp heq
      · exact .inr (.inr ⟨m, hm, hmn, hmfunction, heq⟩)
    · exact .inr (.inl hlong)
  · rintro (hapart | hlong | ⟨m, hm, -, hwhole⟩)
    · refine ⟨n, hn, hfunction, .inl ?_⟩
      rw [hasync]
      exact normalize_async_iff.mpr hapart
    · refine ⟨n, hn, hfunction, .inr ⟨hlong, ?_⟩⟩
      rw [hasync]
      exact (normalize_suffix).isInfix
    · exact ⟨m, hm, hwhole.matches⟩

namespace Keyword

def apart : String := "f=async\t(x)=>x"

def glued : String := "f=async(x)=>x"

def doubled : String := "f=async async => 1"

end Keyword

/-- A function is found without its keyword and the tab behind it. -/
theorem found_behind_async_iff_apart :
    (∃ n ∈ (parse .javascript Keyword.apart).nodes, n.kindIs Kind.isFunction ∧
        n.source Keyword.apart = "async" ++ "\t(x)=>x") ∧
      StandsApart "\t(x)=>x" ∧
      (find? Keyword.apart (normalize "\t(x)=>x") (parse .javascript Keyword.apart)).isSome := by
  have hnode : ∃ n ∈ (parse .javascript Keyword.apart).nodes, n.kindIs Kind.isFunction ∧
      n.source Keyword.apart = "async" ++ "\t(x)=>x" := by
    decide +kernel
  have hapart : StandsApart "\t(x)=>x" := ⟨by decide, "(x)=>x", [], by decide, fun _ => rfl⟩
  obtain ⟨n, hn, hfunction, hasync⟩ := hnode
  exact ⟨⟨n, hn, hfunction, hasync⟩, hapart,
    (found_behind_async_iff _ _ n _ hn hfunction hasync).mpr (.inl hapart)⟩

/-- Short functions that are not found without their keyword: nothing stands behind it, or a
parameter of the same name. -/
theorem async_functions_not_found :
    ((∃ n ∈ (parse .javascript Keyword.glued).nodes, n.is .arrowFunction ∧ n.hasToken "async" ∧
        n.source Keyword.glued = "async" ++ "(x)=>x") ∧
      find? Keyword.glued (normalize "(x)=>x") (parse .javascript Keyword.glued) = none) ∧
    (∃ n ∈ (parse .javascript Keyword.doubled).nodes, n.is .arrowFunction ∧ n.hasToken "async" ∧
        n.source Keyword.doubled = "async" ++ " async => 1") ∧
      find? Keyword.doubled (normalize " async => 1") (parse .javascript Keyword.doubled) =
        none := by
  decide +kernel

end RouteAtlas.Finder
