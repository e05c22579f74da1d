import Mathlib.Data.List.DropRight
import RouteAtlas.Http.Pattern
import RouteAtlas.Proofs.CleanPaths

/-!
# Joined patterns

What joining gives, whatever the two texts are: a pattern that starts with a slash and has the
segments of both. The slashes between the texts are what the work is about: those at the end of the
mount point and those at the start of the other text are dropped, and one is put in their place. So
the slashes around a text in the middle do not matter, and joining is associative on texts without
white space.
-/

open List

namespace RouteAtlas.Http.Pattern

open Text

variable {cs ds : List Char} {a b : String}

/-! ## Texts that are not trimmed -/

/-- No white space at either end. -/
def Trimmed (s : String) : Prop :=
  s.toList.head?.all (!isBlank ·) ∧ s.toList.getLast?.all (!isBlank ·)
  deriving Decidable

/-- No white space at all. -/
def Spaceless (s : String) : Prop := s.toList.all (!isBlank ·)
  deriving Decidable

theorem Spaceless.trimmed {s : String} (h : Spaceless s) : Trimmed s := by
  have hall := all_eq_true.mp h
  exact ⟨(Option.all_eq_true _ _).mpr fun c hc => hall c (mem_of_head? hc),
    (Option.all_eq_true _ _).mpr fun c hc => hall c (mem_of_getLast? hc)⟩

theorem trim_of_trimmed {s : String} (h : Trimmed s) : trim s = s := by
  rw [trim, trimBy_eq_self, String.ofList_toList]
  · simpa [Option.all_eq_true] using h.1
  · simpa [Option.all_eq_true] using h.2

/-! ## Slashes at the ends -/

def isSlash (c : Char) : Bool := c == '/'

def rooted (cs : List Char) : List Char :=
  (if cs.head? == some '/' then cs else '/' :: cs).rdropWhile isSlash

/-- What follows a mount point: without slashes in front. -/
def unrooted (cs : List Char) : List Char := cs.dropWhile isSlash

/-- A text without the slashes at its ends. -/
def bare (cs : List Char) : List Char := (unrooted cs).rdropWhile isSlash

def joined (mount suffix : List Char) : List Char :=
  if (rooted mount).isEmpty then '/' :: unrooted suffix
  else if (unrooted suffix).isEmpty then rooted mount
  else rooted mount ++ '/' :: unrooted suffix

theorem join_eq (mount suffix : String) : join mount suffix =
    String.ofList (joined (trim mount).toList (trim suffix).toList) := by
  rw [joined, apply_ite String.ofList, apply_ite String.ofList]
  rfl

theorem dropWhile_rdropWhile (p : Char → Bool) (cs : List Char) :
    (cs.rdropWhile p).dropWhile p = (cs.dropWhile p).rdropWhile p := by
  induction cs using List.reverseRecOn with
  | nil => rfl
  | append_singleton cs c ih =>
    by_cases hc : p c
    · rw [rdropWhile_concat_pos _ _ _ hc, ih, dropWhile_append]
      split
      · rename_i hnil
        rw [List.isEmpty_iff.mp hnil, dropWhile_cons_of_pos hc]
        rfl
      · rw [rdropWhile_concat_pos _ _ _ hc]
    · rw [rdropWhile_concat_neg _ _ _ hc, dropWhile_append]
      split
      · rw [dropWhile_cons_of_neg hc]
        exact (rdropWhile_concat_neg p [] c hc).symm
      · rw [rdropWhile_concat_neg _ _ _ hc]

theorem bare_eq_nil_iff : bare cs = [] ↔ ∀ c ∈ cs, isSlash c := by
  rw [bare, unrooted, ← dropWhile_rdropWhile, dropWhile_eq_nil_iff]
  constructor
  · intro h
    by_contra hother
    -- what is left at the right end would not be a slash
    have hne : cs.rdropWhile isSlash ≠ [] := fun hnil => hother (rdropWhile_eq_nil_iff.mp hnil)
    exact rdropWhile_last_not isSlash cs hne (h _ (getLast_mem hne))
  · exact fun h c hc => h c ((List.rdropWhile_prefix isSlash cs).subset hc)

theorem unrooted_eq_nil_iff : unrooted cs = [] ↔ bare cs = [] := by
  rw [bare_eq_nil_iff, unrooted, dropWhile_eq_nil_iff]

theorem rooted_eq : ∃ front, rooted cs = (front ++ cs).rdropWhile isSlash ∧
    (∀ c ∈ front, isSlash c) ∧ (front ++ cs).head? = some '/' := by
  unfold rooted
  split
  · rename_i hhead
    exact ⟨[], rfl, forall_mem_nil _, eq_of_beq hhead⟩
  · exact ⟨['/'], rfl, forall_mem_singleton.mpr rfl, rfl⟩

theorem rooted_eq_nil_iff : rooted cs = [] ↔ bare cs = [] := by
  obtain ⟨front, hrooted, hfront, -⟩ := rooted_eq
  rw [hrooted, rdropWhile_eq_nil_iff, bare_eq_nil_iff, forall_mem_append]
  exact and_iff_right hfront

theorem unrooted_rooted : unrooted (rooted cs) = bare cs := by
  obtain ⟨front, hrooted, hfront, -⟩ := rooted_eq
  rw [hrooted, unrooted, dropWhile_rdropWhile, dropWhile_append_of_pos hfront]
  rfl

theorem head?_rooted (h : rooted cs ≠ []) : (rooted cs).head? = some '/' := by
  obtain ⟨front, hrooted, -, hhead⟩ := rooted_eq
  rw [hrooted] at h ⊢
  obtain ⟨rest, hrest⟩ := rdropWhile_prefix isSlash (front ++ cs)
  rwa [← hrest, head?_append_of_ne_nil _ h] at hhead

/-! ## Joining -/

theorem joined_of_nil (h : bare cs = []) (ds : List Char) : joined cs ds = '/' :: unrooted ds := by
  rw [joined, rooted_eq_nil_iff.mpr h]
  rfl

theorem joined_nil_of_ne (h : bare cs ≠ []) (hds : bare ds = []) : joined cs ds = rooted cs := by
  have hrooted : rooted cs ≠ [] := fun hnil => h (rooted_eq_nil_iff.mp hnil)
  rw [joined, isEmpty_eq_false_iff.mpr hrooted, unrooted_eq_nil_iff.mpr hds]
  rfl

theorem joined_of_ne (h : bare cs ≠ []) (hds : bare ds ≠ []) :
    joined cs ds = rooted cs ++ '/' :: unrooted ds := by
  have hrooted : rooted cs ≠ [] := fun hnil => h (rooted_eq_nil_iff.mp hnil)
  have hunrooted : unrooted ds ≠ [] := fun hnil => hds (unrooted_eq_nil_iff.mp hnil)
  rw [joined, isEmpty_eq_false_iff.mpr hrooted, isEmpty_eq_false_iff.mpr hunrooted]
  rfl

theorem head?_joined (cs ds : List Char) : (joined cs ds).head? = some '/' := by
  by_cases hcs : bare cs = []
  · rw [joined_of_nil hcs, head?_cons]
  have hrooted : rooted cs ≠ [] := fun hnil => hcs (rooted_eq_nil_iff.mp hnil)
  by_cases hds : bare ds = []
  · rw [joined_nil_of_ne hcs hds, head?_rooted hrooted]
  · rw [joined_of_ne hcs hds, head?_append_of_ne_nil _ hrooted, head?_rooted hrooted]

/-- Trimming stops in the right one of two texts if something of it is left. -/
theorem rdropWhile_append_of_ne {p : Char → Bool} (h : ds.rdropWhile p ≠ []) (cs : List Char) :
    (cs ++ ds).rdropWhile p = cs ++ ds.rdropWhile p := by
  have hleft : (ds.reverse.dropWhile p).isEmpty = false := by
    rw [isEmpty_eq_false_iff]
    exact fun hnil => h (reverse_eq_nil_iff.mpr hnil)
  rw [List.rdropWhile, reverse_append, dropWhile_append, hleft, if_neg Bool.false_ne_true,
    reverse_append, reverse_reverse]
  rfl

theorem rooted_joined (cs ds : List Char) :
    rooted (joined cs ds) = rooted cs ++ if bare ds = [] then [] else '/' :: bare ds := by
  have hself : rooted (joined cs ds) = (joined cs ds).rdropWhile isSlash := by
    rw [rooted, head?_joined]
    rfl
  rw [hself]
  by_cases hds : bare ds = []
  · rw [if_pos hds, append_nil]
    by_cases hcs : bare cs = []
    · rw [joined_of_nil hcs, unrooted_eq_nil_iff.mpr hds, rooted_eq_nil_iff.mpr hcs]
      rfl
    · rw [joined_nil_of_ne hcs hds]
      exact rdropWhile_idempotent isSlash _
  · rw [if_neg hds]
    by_cases hcs : bare cs = []
    · rw [joined_of_nil hcs, rooted_eq_nil_iff.mpr hcs]
      exact rdropWhile_append_of_ne hds ['/']
    · rw [joined_of_ne hcs hds, append_cons, rdropWhile_append_of_ne hds, append_assoc]
      rfl

theorem unrooted_joined (cs ds : List Char) : unrooted (joined cs ds) =
    if bare cs = [] then unrooted ds
    else if bare ds = [] then bare cs
    else bare cs ++ '/' :: unrooted ds := by
  by_cases hcs : bare cs = []
  · rw [joined_of_nil hcs, if_pos hcs]
    exact dropWhile_idempotent isSlash ds
  rw [if_neg hcs]
  by_cases hds : bare ds = []
  · rw [joined_nil_of_ne hcs hds, if_pos hds, unrooted_rooted]
  have hmiddle : (unrooted (rooted cs)).isEmpty = false := by
    rw [unrooted_rooted, isEmpty_eq_false_iff]
    exact hcs
  rw [joined_of_ne hcs hds, if_neg hds, ← unrooted_rooted, unrooted, dropWhile_append,
    ← unrooted, hmiddle]
  rfl

/-- **Joining characters is associative.** The text in the middle counts without the slashes at its
ends, whichever side it is joined to first. -/
theorem joined_assoc (cs ds es : List Char) :
    joined (joined cs ds) es = joined cs (joined ds es) := by
  rw [joined.eq_def (joined cs ds), joined.eq_def cs (joined ds es), rooted_joined, unrooted_joined]
  by_cases hds : bare ds = []
  · rw [if_pos hds, if_pos hds, append_nil]
  rw [if_neg hds, if_neg hds]
  by_cases hes : bare es = []
  · rw [if_pos hes, unrooted_eq_nil_iff.mpr hes]
    cases rooted cs <;> simp [hds]
  · have hunrooted : unrooted es ≠ [] := fun hnil => hes (unrooted_eq_nil_iff.mp hnil)
    rw [if_neg hes]
    cases rooted cs <;> simp [hunrooted]

theorem mem_joined {c : Char} (h : c ∈ joined cs ds) : c = '/' ∨ c ∈ cs ∨ c ∈ ds := by
  have hrooted : c ∈ rooted cs → c = '/' ∨ c ∈ cs := by
    intro hc
    have hc := (List.rdropWhile_prefix isSlash _).subset hc
    split at hc
    · exact .inr hc
    · exact mem_cons.mp hc
  have hunrooted : c ∈ unrooted ds → c ∈ ds := fun hc => (dropWhile_suffix isSlash).subset hc
  unfold joined at h
  split at h
  · exact (mem_cons.mp h).imp_right fun hc => .inr (hunrooted hc)
  split at h
  · exact (hrooted h).imp_right .inl
  · rcases mem_append.mp h with hc | hc
    · exact (hrooted hc).imp_right .inl
    · exact (mem_cons.mp hc).imp_right fun hc => .inr (hunrooted hc)

theorem toList_join_of_trimmed (ha : Trimmed a) (hb : Trimmed b) :
    (join a b).toList = joined a.toList b.toList := by
  rw [join_eq, String.toList_ofList, trim_of_trimmed ha, trim_of_trimmed hb]

theorem Spaceless.join (ha : Spaceless a) (hb : Spaceless b) : Spaceless (join a b) := by
  refine all_eq_true.mpr fun c hc => ?_
  rw [toList_join_of_trimmed ha.trimmed hb.trimmed] at hc
  rcases mem_joined hc with rfl | hc | hc
  · rfl
  · exact all_eq_true.mp ha c hc
  · exact all_eq_true.mp hb c hc

/-- **Joining is associative** on texts without white space. -/
theorem join_assoc {c : String} (ha : Spaceless a) (hb : Spaceless b) (hc : Spaceless c) :
    join (join a b) c = join a (join b c) := by
  refine String.toList_injective ?_
  rw [toList_join_of_trimmed (ha.join hb).trimmed hc.trimmed,
    toList_join_of_trimmed ha.trimmed (hb.join hc).trimmed,
    toList_join_of_trimmed ha.trimmed hb.trimmed, toList_join_of_trimmed hb.trimmed hc.trimmed]
  exact joined_assoc ..

/-- **A joined pattern starts with a slash.** -/
theorem join_head (mount suffix : String) : (join mount suffix).toList.head? = some '/' := by
  rw [join_eq, String.toList_ofList]
  exact head?_joined ..

theorem join_ne_empty (mount suffix : String) : join mount suffix ≠ "" := by
  intro h
  have hhead := join_head mount suffix
  rw [h] at hhead
  simp at hhead

/-! ## Segments -/

/-- The non-empty parts of a list of characters between its slashes. -/
def parts (cs : List Char) : List (List Char) := (piecesBy isSlash cs).filter (· ≠ [])

theorem segments_eq (s : String) : segments s = (parts s.toList).map String.ofList := by
  rw [segments, pieces, filter_map]
  congr 1
  refine filter_congr fun w _ => ?_
  simp

theorem parts_append_slash (cs ds : List Char) :
    parts (cs ++ '/' :: ds) = parts cs ++ parts ds := by
  rw [parts, piecesBy_append rfl, filter_append]
  rfl

theorem parts_slash : parts ('/' :: ds) = parts ds := parts_append_slash [] ds

theorem parts_unrooted : parts (unrooted cs) = parts cs := by
  induction cs with
  | nil => rfl
  | cons c cs ih =>
    by_cases hc : isSlash c
    · obtain rfl : c = '/' := eq_of_beq hc
      rw [unrooted, dropWhile_cons_of_pos hc, ← unrooted, ih, parts_slash]
    · rw [unrooted, dropWhile_cons_of_neg hc]

theorem parts_rdropWhile : parts (cs.rdropWhile isSlash) = parts cs := by
  induction cs using List.reverseRecOn with
  | nil => rfl
  | append_singleton cs c ih =>
    by_cases hc : isSlash c
    · obtain rfl : c = '/' := eq_of_beq hc
      rw [rdropWhile_concat_pos _ _ _ hc, ih, parts_append_slash]
      exact (append_nil _).symm
    · rw [rdropWhile_concat_neg _ _ _ hc]

theorem parts_rooted : parts (rooted cs) = parts cs := by
  rw [rooted, parts_rdropWhile]
  split
  · rfl
  · rfl

theorem parts_of_bare (h : bare cs = []) : parts cs = [] := by
  rw [← parts_unrooted, unrooted_eq_nil_iff.mpr h]
  rfl

theorem parts_joined (cs ds : List Char) : parts (joined cs ds) = parts cs ++ parts ds := by
  by_cases hcs : bare cs = []
  · rw [joined_of_nil hcs, parts_slash, parts_unrooted, parts_of_bare hcs, nil_append]
  · by_cases hds : bare ds = []
    · rw [joined_nil_of_ne hcs hds, parts_rooted, parts_of_bare hds, append_nil]
    · rw [joined_of_ne hcs hds, parts_append_slash, parts_rooted, parts_unrooted]

/-- **A joined pattern has the segments of both texts**, each of them trimmed. -/
theorem segments_join (a b : String) :
    segments (join a b) = segments (trim a) ++ segments (trim b) := by
  rw [segments_eq, segments_eq, segments_eq, join_eq, String.toList_ofList, parts_joined,
    map_append]

/-- **What joining keeps.** A joined pattern starts with a slash and has the segments of the two
trimmed texts one behind the other; on texts without white space it does not matter which two of
three are joined first. -/
theorem join_keeps_segments (a b : String) :
    (join a b).toList.head? = some '/' ∧
    segments (join a b) = segments (Text.trim a) ++ segments (Text.trim b) ∧
    ∀ c, Spaceless a → Spaceless b → Spaceless c → join (join a b) c = join a (join b c) :=
  ⟨join_head a b, segments_join a b, fun _ ha hb hc => join_assoc ha hb hc⟩

/-- A middle text that is nothing but slashes, between texts with slashes to spare. -/
theorem join_keeps_segments_slashes : Spaceless "a//" ∧ Spaceless "//" ∧ Spaceless "//b/" ∧
    join (join "a//" "//") "//b/" = join "a//" (join "//" "//b/") :=
  ⟨by decide, by decide, by decide,
    (join_keeps_segments "a//" "//").2.2 "//b/" (by decide) (by decide) (by decide)⟩

end RouteAtlas.Http.Pattern
