import Mathlib.Computability.Language
import RouteAtlas.Inventory.Network
import RouteAtlas.Inventory.Request
import RouteAtlas.Proofs.AbsolutePaths
import RouteAtlas.Proofs.Pattern

/-!
# The language of a pattern

A pattern stands for a set of paths, as lists of segments: one behind another, each of its segments
takes some of the path. `Takes` says what a segment may take, and `language` puts the segments
together by concatenation. Matching goes through the path from left to right and comes back where a
wildcard or an optional parameter leaves a choice; it accepts the paths of the language and no
others.

A literal segment takes itself and nothing else. So a pattern below a mount point of literal
segments has the paths of the mount point followed by those that the pattern has by itself.
-/

open List

namespace RouteAtlas.Http.Pattern

variable {isLast : Bool} {path : List String} {text : String}

/-! ## What a segment takes -/

def IsPlain (text : String) : Prop := text ≠ "*" ∧ text.toList.head? ≠ some ':'
  deriving Decidable

/-- The name of a parameter says that it may be absent: a question mark is at its end, or right
before its first opening brace. -/
def MayBeAbsent (name : List Char) : Prop :=
  ['?'] <:+ name ∨ ∃ front constraint, '{' ∉ front ∧ name = front ++ '?' :: '{' :: constraint

/-- **What a segment of a pattern takes** of a path, as the last one of its pattern or not. -/
inductive Takes (isLast : Bool) : String → List String → Prop
  | itself {text : String} (hplain : IsPlain text) : Takes isLast text [text]
  | value (name value : String) : Takes isLast (":" ++ name) [value]
  | absent {name : String} (habsent : MayBeAbsent name.toList) : Takes isLast (":" ++ name) []
  | some (first : String) (path : List String) : Takes isLast "*" (first :: path)
  | none (hlast : isLast) : Takes isLast "*" []

/-- The paths that a segment takes. -/
def taken (isLast : Bool) (text : String) : Language String := {path | Takes isLast text path}

/-- **The paths of a pattern**: what its segments take, one behind another. -/
def language : List String → Language String
  | [] => 1
  | text :: rest => taken rest.isEmpty text * language rest

variable (name : String)

theorem toList_param : (":" ++ name).toList = ':' :: name.toList := by
  rw [String.toList_append]
  rfl

theorem segment_cases (text : String) :
    text = "*" ∨ (∃ name, text = ":" ++ name) ∨ IsPlain text := by
  by_cases hstar : text = "*"
  · exact .inl hstar
  refine .inr ?_
  cases htext : text.toList with
  | nil => exact .inr ⟨hstar, by rw [htext]; nofun⟩
  | cons c name =>
    by_cases hc : c = ':'
    · refine .inl ⟨String.ofList name, String.toList_injective ?_⟩
      rw [htext, hc, toList_param, String.toList_ofList]
    · exact .inr ⟨hstar, by simpa [htext] using hc⟩

theorem param_ne_star : ":" ++ name ≠ "*" := by
  intro h
  have hlist := congrArg String.toList h
  rw [toList_param] at hlist
  cases hlist

theorem takes_star_iff : Takes isLast "*" path ↔ isLast ∨ path ≠ [] := by
  constructor
  · intro h
    generalize htext : "*" = text at h
    cases h with
    | itself hplain => exact absurd htext.symm hplain.1
    | value name => exact absurd htext.symm (param_ne_star name)
    | absent => exact absurd htext.symm (param_ne_star _)
    | some first path => exact .inr (cons_ne_nil _ _)
    | none hlast => exact .inl hlast
  · intro h
    cases path with
    | nil => exact .none (h.resolve_right fun hne => hne rfl)
    | cons first path => exact .some first path

theorem takes_param_iff {name : String} :
    Takes isLast (":" ++ name) path ↔
      (∃ value, path = [value]) ∨ path = [] ∧ MayBeAbsent name.toList := by
  constructor
  · intro h
    generalize htext : ":" ++ name = text at h
    cases h with
    | itself hplain =>
      rw [← htext, IsPlain, toList_param] at hplain
      exact absurd rfl hplain.2
    | value _ value => exact .inl ⟨value, rfl⟩
    | absent habsent =>
      have hname := congrArg String.toList htext
      rw [toList_param, toList_param, cons_inj_right] at hname
      exact .inr ⟨rfl, hname ▸ habsent⟩
    | some | none => exact absurd htext (param_ne_star name)
  · rintro (⟨value, rfl⟩ | ⟨rfl, habsent⟩)
    · exact .value name value
    · exact .absent habsent

theorem takes_plain_iff (h : IsPlain text) : Takes isLast text path ↔ path = [text] := by
  constructor
  · intro htakes
    cases htakes with
    | itself => rfl
    | value | absent =>
      rw [IsPlain, toList_param] at h
      exact absurd rfl h.2
    | some | none => exact absurd rfl h.1
  · rintro rfl
    exact .itself h

/-! ## What a segment's text means -/

theorem ofText_param : Segment.ofText (":" ++ name) = .param (optionalParam name.toList) := by
  rw [Segment.ofText, toList_param]
  rfl

theorem ofText_plain (h : IsPlain text) : Segment.ofText text = .literal text := by
  rw [Segment.ofText, if_neg h.1]
  split
  · rename_i htext
    rw [IsPlain, htext] at h
    exact absurd rfl h.2
  · rfl

theorem optionalParam_iff {name : List Char} : optionalParam name ↔ MayBeAbsent name := by
  unfold optionalParam MayBeAbsent
  rw [Bool.or_eq_true, beq_iff_eq, beq_iff_eq, getLast?_eq_some_iff, getLast?_eq_some_iff]
  constructor
  · rintro (⟨front, hfront⟩ | ⟨front, rfl⟩)
    · have hname := takeWhile_append_dropWhile (p := (· ≠ '{')) (l := name)
      rw [hfront, append_assoc] at hname
      cases hrest : name.dropWhile (· ≠ '{') with
      | nil =>
        rw [hrest] at hname
        exact .inl ⟨front, hname⟩
      | cons c constraint =>
        have hc : c = '{' := by
          have hnot := head?_dropWhile_not (· ≠ '{') name
          rw [hrest] at hnot
          simpa using hnot
        have hbrace : '{' ∉ front := fun hmem => by
          have hall := mem_takeWhile_imp (hfront ▸ mem_append_left ['?'] hmem)
          simp at hall
        rw [hrest, hc] at hname
        exact .inr ⟨front, constraint, hbrace, hname.symm⟩
    · exact .inl ⟨front, rfl⟩
  · rintro (⟨front, hname⟩ | ⟨front, constraint, hbrace, rfl⟩)
    · exact .inr ⟨front, hname.symm⟩
    · refine .inl ⟨front, ?_⟩
      rw [takeWhile_append_of_pos, takeWhile_cons_of_pos rfl, takeWhile_cons_of_neg (by simp)]
      intro c hc
      simpa using fun h : c = '{' => hbrace (h ▸ hc)

/-! ## Matching -/

variable {rest : List Segment} {path : List String}

theorem matchSegments_nil_iff : matchSegments [] path ↔ path = [] := by
  rw [matchSegments, List.isEmpty_iff]

theorem matchSegments_literal_iff :
    matchSegments (.literal text :: rest) path ↔
      ∃ after, text :: after = path ∧ matchSegments rest after := by
  cases path with
  | nil => simp [matchSegments]
  | cons first path => simp [matchSegments]

theorem matchSegments_param_iff {isOptional : Bool} :
    matchSegments (.param isOptional :: rest) path ↔
      (∃ value after, value :: after = path ∧ matchSegments rest after) ∨
        isOptional ∧ matchSegments rest path := by
  cases path <;> cases isOptional <;> simp [matchSegments, or_comm]

theorem matchSegments_wildcard_last : matchSegments [.wildcard] path := by
  rw [matchSegments]

/-- A wildcard with something behind it takes one segment, and then as many more as are needed. -/
theorem matchSegments_wildcard_iff (hrest : rest ≠ []) :
    matchSegments (.wildcard :: rest) path ↔
      ∃ before after, before ≠ [] ∧ before ++ after = path ∧ matchSegments rest after := by
  obtain ⟨next, rest, rfl⟩ := exists_cons_of_ne_nil hrest
  induction path with
  | nil => simp [matchSegments]
  | cons first path ih =>
    rw [matchSegments, Bool.or_eq_true, ih]
    constructor
    · rintro (hafter | ⟨before, after, -, rfl, hafter⟩)
      · exact ⟨[first], path, cons_ne_nil _ _, rfl, hafter⟩
      · exact ⟨first :: before, after, cons_ne_nil _ _, rfl, hafter⟩
    · rintro ⟨before, after, hne, heq, hafter⟩
      obtain ⟨value, before, rfl⟩ := exists_cons_of_ne_nil hne
      obtain ⟨rfl, rfl⟩ := List.cons.inj heq
      by_cases hbefore : before = []
      · subst hbefore
        exact .inl hafter
      · exact .inr ⟨before, after, hbefore, rfl, hafter⟩

/-- **A segment takes some of the path**, and what is behind it takes the rest. -/
theorem matchSegments_cons_iff (rest : List String) (path : List String) :
    matchSegments (Segment.ofText text :: rest.map Segment.ofText) path ↔
      ∃ before, Takes rest.isEmpty text before ∧ ∃ after,
        matchSegments (rest.map Segment.ofText) after ∧ before ++ after = path := by
  rcases segment_cases text with rfl | ⟨name, rfl⟩ | hplain
  · simp only [takes_star_iff]
    cases rest with
    | nil =>
      refine iff_of_true matchSegments_wildcard_last ⟨path, .inl rfl, [],
        matchSegments_nil_iff.mpr rfl, ?_⟩
      exact append_nil path
    | cons next rest =>
      refine (matchSegments_wildcard_iff (cons_ne_nil _ _)).trans ?_
      constructor
      · rintro ⟨before, after, hne, heq, hafter⟩
        exact ⟨before, .inr hne, after, hafter, heq⟩
      · rintro ⟨before, hlast | hne, after, hafter, heq⟩
        · cases hlast
        · exact ⟨before, after, hne, heq, hafter⟩
  · simp only [ofText_param, matchSegments_param_iff, takes_param_iff, optionalParam_iff]
    constructor
    · rintro (⟨value, after, heq, hafter⟩ | ⟨habsent, hafter⟩)
      · exact ⟨[value], .inl ⟨value, rfl⟩, after, hafter, heq⟩
      · exact ⟨[], .inr ⟨rfl, habsent⟩, path, hafter, rfl⟩
    · rintro ⟨before, ⟨value, rfl⟩ | ⟨rfl, habsent⟩, after, hafter, rfl⟩
      · exact .inl ⟨value, after, rfl, hafter⟩
      · exact .inr ⟨habsent, hafter⟩
  · simp only [ofText_plain hplain, matchSegments_literal_iff, takes_plain_iff hplain]
    constructor
    · rintro ⟨after, heq, hafter⟩
      exact ⟨[text], rfl, after, hafter, heq⟩
    · rintro ⟨before, rfl, after, hafter, heq⟩
      exact ⟨after, heq, hafter⟩

theorem matchSegments_iff_mem_language (pattern path : List String) :
    matchSegments (pattern.map Segment.ofText) path ↔ path ∈ language pattern := by
  induction pattern generalizing path with
  | nil => exact matchSegments_nil_iff
  | cons text rest ih =>
    rw [map_cons, matchSegments_cons_iff]
    simp only [ih]
    rfl

/-- **A pattern accepts the paths of its language** and no others. -/
theorem accepts_iff_mem_language (pattern path : String) :
    accepts pattern path = true ↔ segments path ∈ language (segments pattern) :=
  matchSegments_iff_mem_language _ _

/-! ## Below a mount point -/

theorem mem_language_append_iff {front : List String} (hfront : ∀ text ∈ front, IsPlain text)
    (pattern path : List String) : path ∈ language (front ++ pattern) ↔
      ∃ rest, path = front ++ rest ∧ rest ∈ language pattern := by
  induction front generalizing path with
  | nil => simp
  | cons text front ih =>
    have hplain := hfront text mem_cons_self
    have hrest := ih fun text htext => hfront text (mem_cons_of_mem _ htext)
    constructor
    · rintro ⟨before, hbefore, after, hafter, rfl⟩
      obtain ⟨rest, rfl, hrest⟩ := (hrest after).mp hafter
      rw [(takes_plain_iff hplain).mp hbefore]
      exact ⟨rest, rfl, hrest⟩
    · rintro ⟨rest, rfl, hpattern⟩
      exact ⟨[text], (takes_plain_iff hplain).mpr rfl, front ++ rest,
        (hrest _).mpr ⟨rest, rfl, hpattern⟩, rfl⟩

theorem of_mem_segments {s raw : String} (h : s ∈ segments raw) : s ≠ "" ∧ '/' ∉ s.toList := by
  obtain ⟨hpiece, hne⟩ := mem_filter.mp h
  exact ⟨of_decide_eq_true hne, Text.no_slash_of_mem_pieces hpiece⟩

theorem segments_intercalate {parts : List String} (h : ∀ s ∈ parts, s ≠ "" ∧ '/' ∉ s.toList) :
    segments ("/".intercalate parts) = parts := by
  by_cases hparts : parts = []
  · subst hparts
    rfl
  · rw [segments, pieces_intercalate (fun s hs => (h s hs).2) hparts]
    exact filter_eq_self.mpr fun s hs => decide_eq_true (h s hs).1

/-- **A pattern below a mount point accepts what it accepts by itself**, behind the segments of the
mount point. -/
theorem accepts_join_iff {mount pattern : String} (hmount : Trimmed mount)
    (hpattern : Trimmed pattern) (hplain : ∀ text ∈ segments mount, IsPlain text) (path : String) :
    accepts (join mount pattern) path ↔
      ∃ below, segments path = segments mount ++ segments below ∧ accepts pattern below := by
  simp only [accepts_iff_mem_language]
  rw [segments_join, trim_of_trimmed hmount, trim_of_trimmed hpattern,
    mem_language_append_iff hplain]
  constructor
  · rintro ⟨rest, hpath, hrest⟩
    -- the rest of a path is a path
    have hbelow : segments ("/".intercalate rest) = rest := by
      refine segments_intercalate fun s hs => ?_
      have hsegment : s ∈ segments path := hpath ▸ mem_append_right _ hs
      exact of_mem_segments hsegment
    exact ⟨"/".intercalate rest, by rw [hbelow, hpath], by rwa [hbelow]⟩
  · rintro ⟨below, hpath, hbelow⟩
    exact ⟨segments below, hpath, hbelow⟩

end RouteAtlas.Http.Pattern

namespace RouteAtlas.Inventory

open Http.Pattern

/-- The path of a route below a mount point accepts what its own path accepts below it. -/
theorem accepts_resource_iff {mount : String} (hmount : Trimmed mount) {d : Draft}
    (hpath : Trimmed d.path) (hplain : ∀ text ∈ segments mount, IsPlain text) (order : Nat)
    (path : String) : accepts (d.resource mount order).path path ↔
      ∃ below, segments path = segments mount ++ segments below ∧ accepts d.path below := by
  by_cases hempty : mount = ""
  · subst hempty
    constructor
    · exact fun h => ⟨path, rfl, h⟩
    · rintro ⟨below, hbelow, h⟩
      show matchSegments _ (segments path)
      rw [hbelow]
      exact h
  · have hjoin : (d.resource mount order).path = join mount d.path := by
      unfold Draft.resource
      rw [if_neg (by simpa using hempty)]
    rw [hjoin]
    exact accepts_join_iff hmount hpath hplain path

/-- **Mounting keeps what a route answers.** A pattern below a mount point of plain segments accepts
the paths that start with the segments of the mount point and go on with a path that the pattern
accepts by itself. So a route that is mounted there answers exactly the requests below the mount
point that it would answer if it were not mounted. -/
theorem mounted_answers_iff {mount pattern : String} (hmount : Trimmed mount)
    (hpattern : Trimmed pattern) (hplain : ∀ text ∈ segments mount, IsPlain text) (path : String) :
    (accepts (join mount pattern) path = true ↔
      ∃ below, segments path = segments mount ++ segments below ∧ accepts pattern below = true) ∧
    ∀ (d : Draft) (order : Nat) (method : String), d.path = pattern →
      ((d.resource mount order).answers method path = true ↔
        ∃ below, segments path = segments mount ++ segments below ∧
          (d.resource "" order).answers method below = true) := by
  refine ⟨accepts_join_iff hmount hpattern hplain path, ?_⟩
  rintro d order method rfl
  simp only [Resource.answers, Bool.and_eq_true,
    accepts_resource_iff hmount hpattern hplain order path]
  constructor
  · rintro ⟨hmethod, below, hbelow, haccepts⟩
    exact ⟨below, hbelow, hmethod, haccepts⟩
  · rintro ⟨below, hbelow, hmethod, haccepts⟩
    exact ⟨hmethod, below, hbelow, haccepts⟩

/-- At the seam: an optional parameter is absent right behind the mount point. -/
theorem mounted_answers_iff_absent : Trimmed "/api/" ∧ Trimmed ":id?" ∧
    (∀ text ∈ segments "/api/", IsPlain text) ∧ accepts (join "/api/" ":id?") "/api" = true := by
  have hplain : ∀ text ∈ segments "/api/", IsPlain text := by decide
  have habsent : accepts ":id?" "" = true := by cbv
  exact ⟨by decide, by decide, hplain,
    (mounted_answers_iff (by decide) (by decide) hplain "/api").1.mpr ⟨"", by decide, habsent⟩⟩

end RouteAtlas.Inventory
