import Mathlib.Data.List.Induction
import Mathlib.Data.Prod.Lex
import RouteAtlas.SourceMap.Map

/-!
# The mapping that a place belongs to

The mappings of a map come in any order, and some have no origin. A place belongs to the mapping
with an origin that starts last at or before it, and to the last in the list of those that start
there. The scan over the list keeps the best mapping so far.
-/

open List

namespace RouteAtlas.SourceMap

/-- Where a mapping starts in the compiled file. Places are ordered by line, then by column. -/
def Mapping.place (m : Mapping) : ℕ ×ₗ ℕ := toLex (m.line, m.column)

/-- A mapping has an origin and starts at or before a place. -/
def Mapping.Reaches (m : Mapping) (place : ℕ ×ₗ ℕ) : Prop := m.origin.isSome ∧ m.place ≤ place

/-- **The mapping that a place belongs to**: of the mappings that reach the place one that starts
last, and of those the last in the list. -/
structure BelongsTo (place : ℕ ×ₗ ℕ) (ms : List Mapping) (i : Nat) (m : Mapping) : Prop where
  get : ms[i]? = some m
  reaches : m.Reaches place
  last : ∀ j n, ms[j]? = some n → n.Reaches place → n.place ≤ m.place ∧ (n.place = m.place → j ≤ i)

/-- What a scan over mappings holds: nothing while none of them reaches the place, and else the one
that the place belongs to, with its origin. -/
inductive Settled (place : ℕ ×ₗ ℕ) (ms : List Mapping) : Option (Mapping × Origin) → Prop
  | none (h : ∀ m ∈ ms, ¬ m.Reaches place) : Settled place ms none
  | some {i : Nat} {m : Mapping} {o : Origin} (h : BelongsTo place ms i m)
      (ho : m.origin = some o) : Settled place ms (some (m, o))

namespace Map

theorem atOrBefore_iff {l c l' c' : Nat} :
    atOrBefore l c l' c' ↔ toLex (l, c) ≤ toLex (l', c') := by
  simp [atOrBefore, Prod.Lex.toLex_le_toLex]

theorem originBefore?_eq_some {line column : Nat} {m n : Mapping} {o : Origin} :
    originBefore? line column m = some (n, o) ↔
      m = n ∧ m.origin = some o ∧ m.place ≤ toLex (line, column) := by
  rw [originBefore?, Option.bind_eq_some_iff, Mapping.place, ← atOrBefore_iff]
  constructor
  · rintro ⟨o, ho, h⟩
    split at h
    · rename_i hbefore
      cases h
      exact ⟨rfl, ho, hbefore⟩
    · cases h
  · rintro ⟨rfl, ho, hbefore⟩
    exact ⟨o, ho, if_pos hbefore⟩

end Map

section Scan

variable {place : ℕ ×ₗ ℕ} {ms : List Mapping} {m n : Mapping} {o : Origin} {i j : Nat}

theorem getElem?_concat_eq_some (h : (ms ++ [m])[j]? = some n) :
    ms[j]? = some n ∨ j = ms.length ∧ n = m := by
  rcases Nat.lt_trichotomy j ms.length with hj | rfl | hj
  · exact .inl (getElem?_append_left hj ▸ h)
  · rw [getElem?_concat_length] at h
    exact .inr ⟨rfl, (Option.some.inj h).symm⟩
  · rw [getElem?_eq_none (length_append ▸ hj)] at h
    cases h

theorem BelongsTo.unique (h : BelongsTo place ms i m) (h' : BelongsTo place ms j n) : m = n := by
  obtain ⟨hle, hback⟩ := h.last j n h'.get h'.reaches
  obtain ⟨hge, hforth⟩ := h'.last i m h.get h.reaches
  have hplace := le_antisymm hle hge
  obtain rfl := Nat.le_antisymm (hback hplace) (hforth hplace.symm)
  exact Option.some.inj (h.get.symm.trans h'.get)

/-- A further mapping changes nothing if it does not reach the place or starts before the best. -/
theorem BelongsTo.keep (h : BelongsTo place ms i m) (hn : n.Reaches place → n.place < m.place) :
    BelongsTo place (ms ++ [n]) i m where
  get := (getElem?_append_left (List.getElem?_eq_some_iff.mp h.get).1).trans h.get
  reaches := h.reaches
  last j k hk hreaches := by
    rcases getElem?_concat_eq_some hk with hk | ⟨-, rfl⟩
    · exact h.last j k hk hreaches
    · exact ⟨(hn hreaches).le, fun heq => absurd heq (hn hreaches).ne⟩

/-- A further mapping that reaches the place is the best if no mapping before it starts later. -/
theorem BelongsTo.next (hn : n.Reaches place)
    (hbest : ∀ m ∈ ms, m.Reaches place → m.place ≤ n.place) :
    BelongsTo place (ms ++ [n]) ms.length n where
  get := getElem?_concat_length
  reaches := hn
  last j k hk hreaches := by
    rcases getElem?_concat_eq_some hk with hk | ⟨rfl, rfl⟩
    · have hj := (List.getElem?_eq_some_iff.mp hk).1
      exact ⟨hbest k (mem_of_getElem? hk) hreaches, fun _ => hj.le⟩
    · exact ⟨le_rfl, fun _ => le_rfl⟩

theorem BelongsTo.le (h : BelongsTo place ms i m) (hn : n ∈ ms) (hreaches : n.Reaches place) :
    n.place ≤ m.place := by
  obtain ⟨j, hj⟩ := mem_iff_getElem?.mp hn
  exact (h.last j n hj hreaches).1

variable {best : Option (Mapping × Origin)}

theorem Settled.skip (h : Settled place ms best) (hn : ¬ n.Reaches place) :
    Settled place (ms ++ [n]) best := by
  cases h with
  | none h => exact .none (forall_mem_append.mpr ⟨h, forall_mem_singleton.mpr hn⟩)
  | some h ho => exact .some (h.keep fun hreaches => absurd hreaches hn) ho

/-- **One step of the scan**: a mapping that reaches the place is taken unless the best so far
starts later. -/
theorem Settled.step (h : Settled place ms best) (hn : n.Reaches place)
    (ho : n.origin = Option.some o) : Settled place (ms ++ [n]) (Map.laterMapping best (n, o)) := by
  cases h with
  | none h => exact .some (.next hn fun m hm hreaches => absurd hreaches (h m hm)) ho
  | @some i m o' h ho' =>
    rw [Map.laterMapping]
    split
    · rename_i hle
      have hle : m.place ≤ n.place := Map.atOrBefore_iff.mp hle
      exact .some (.next hn fun k hk hreaches => (h.le hk hreaches).trans hle) ho
    · rename_i hlt
      have hlt : n.place < m.place := lt_of_not_ge fun hle => hlt (Map.atOrBefore_iff.mpr hle)
      exact .some (h.keep fun _ => hlt) ho'

end Scan

namespace Map

/-- **What the scan over all mappings ends with.** -/
theorem settled_scan (line column : Nat) (ms : List Mapping) :
    Settled (toLex (line, column)) ms
      ((ms.filterMap (originBefore? line column)).foldl laterMapping none) := by
  induction ms using List.reverseRecOn with
  | nil => exact .none (forall_mem_nil _)
  | append_singleton ms m ih =>
    rw [filterMap_append, foldl_append]
    cases hm : originBefore? line column m with
    | none =>
      rw [filterMap_cons_none hm]
      refine ih.skip ?_
      rintro ⟨hsome, hbefore⟩
      obtain ⟨o, ho⟩ := Option.isSome_iff_exists.mp hsome
      cases hm.symm.trans (originBefore?_eq_some.mpr ⟨rfl, ho, hbefore⟩)
    | some p =>
      obtain ⟨rfl, ho, hbefore⟩ := originBefore?_eq_some.mp hm
      rw [filterMap_cons_some hm]
      exact ih.step ⟨Option.isSome_of_eq_some ho, hbefore⟩ ho

/-- **Where a place comes from.** A place has no origin exactly if no mapping with an origin starts
at or before it. Else it has the origin of the mapping it belongs to: of those mappings the one that
starts last, and of several that start there the last in the list. -/
theorem originOf?_of_last_mapping (m : Map) (line column : Nat) :
    (m.originOf? line column = none ↔
        ∀ n ∈ m.mappings, ¬ (n.origin.isSome ∧ toLex (n.line, n.column) ≤ toLex (line, column))) ∧
      ∀ o, m.originOf? line column = some o ↔
        ∃ i n, BelongsTo (toLex (line, column)) m.mappings i n ∧ n.origin = some o := by
  have hscan := settled_scan line column m.mappings
  rw [originOf?]
  generalize (m.mappings.filterMap (originBefore? line column)).foldl laterMapping none = best
    at hscan ⊢
  cases hscan with
  | none h =>
    refine ⟨⟨fun _ => h, fun _ => rfl⟩, fun o => ⟨fun hsome => absurd hsome (by simp), ?_⟩⟩
    rintro ⟨i, n, hn, -⟩
    exact absurd hn.reaches (h n (mem_of_getElem? hn.get))
  | @some i n o h ho =>
    have hreached : ¬ ∀ k ∈ m.mappings, ¬ k.Reaches (toLex (line, column)) :=
      fun hnone => hnone n (mem_of_getElem? h.get) h.reaches
    refine ⟨⟨fun hsome => absurd hsome (by simp), fun hnone => absurd hnone hreached⟩, fun o' => ?_⟩
    constructor
    · rintro ⟨⟩
      exact ⟨i, n, h, ho⟩
    · rintro ⟨j, n', h', ho'⟩
      obtain rfl := h.unique h'
      exact ho.symm.trans ho'

end Map

end RouteAtlas.SourceMap
