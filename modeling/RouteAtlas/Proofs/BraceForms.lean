import Mathlib.Data.List.TakeWhile
import RouteAtlas.Http.Pattern

/-!
# Parameters in braces

A text in brace form is read from left to right as single characters and groups: a group is an
opening brace with everything up to the first closing one. A group that is never closed may be left
at the end. The rule for a piece is `Piece.replaced`; the reader follows it but for empty groups,
whose closing brace it loses (`Piece.put`).
-/

open List

namespace RouteAtlas.Http.Pattern

/-- What a text in brace form is made of. -/
inductive Piece where
  | char (c : Char)
  | group (name : List Char)

namespace Piece

def written : Piece → List Char
  | char c => [c]
  | group name => '{' :: name ++ ['}']

/-- The rule: a group with a name becomes a colon and the name, all else stays as it is. -/
def replaced : Piece → List Char
  | group (c :: name) => ':' :: c :: name
  | p => p.written

def put : Piece → List Char
  | group [] => ['{']
  | p => p.replaced

end Piece

/-- **The reading of a text** from left to right: its pieces, and what is left of it. -/
inductive Scan : (raw : List Char) → (pieces : List Piece) → (rest : List Char) → Prop
  | done : Scan [] [] []
  | unclosed {tail : List Char} (h : '}' ∉ tail) : Scan ('{' :: tail) [] ('{' :: tail)
  | char {c : Char} {cs rest : List Char} {pieces : List Piece} (h : c ≠ '{')
      (hcs : Scan cs pieces rest) : Scan (c :: cs) (.char c :: pieces) rest
  | group {name cs rest : List Char} {pieces : List Piece} (h : '}' ∉ name)
      (hcs : Scan cs pieces rest) :
      Scan ('{' :: name ++ '}' :: cs) (.group name :: pieces) rest

variable {raw name tail rest : List Char} {pieces : List Piece}

theorem Scan.written (h : Scan raw pieces rest) : raw = pieces.flatMap Piece.written ++ rest := by
  induction h with
  | done | unclosed => rfl
  | char _ _ ih => rw [flatMap_cons, append_assoc, ← ih]; rfl
  | group _ _ ih => rw [flatMap_cons, append_assoc, ← ih]; simp [Piece.written]

theorem exists_scan (raw : List Char) : ∃ pieces rest, Scan raw pieces rest := by
  induction hn : raw.length using Nat.strongRecOn generalizing raw with
  | ind n ih =>
    rcases raw with _ | ⟨c, cs⟩
    · exact ⟨[], [], .done⟩
    subst hn
    by_cases hc : c = '{'
    · subst hc
      by_cases hclosed : '}' ∈ cs
      · obtain ⟨name, after, rfl, hname⟩ := eq_append_cons_of_mem hclosed
        obtain ⟨pieces, rest, h⟩ := ih after.length (by simp; omega) after rfl
        exact ⟨_, rest, .group hname h⟩
      · exact ⟨[], _, .unclosed hclosed⟩
    · obtain ⟨pieces, rest, h⟩ := ih cs.length (by simp) cs rfl
      exact ⟨_, rest, .char hc h⟩

theorem bne_of_notMem (h : '}' ∉ name) : ∀ c ∈ name, (c != '}') :=
  fun _ hc => bne_iff_ne.mpr fun he => h (he ▸ hc)

theorem colonForm_group (h : '}' ∉ name) (cs : List Char) :
    colonForm ('{' :: name ++ '}' :: cs) = (Piece.group name).put ++ colonForm cs := by
  have htake : (name ++ '}' :: cs).takeWhile (· != '}') = name := by
    simp [takeWhile_append_of_pos (bne_of_notMem h)]
  have hdrop : (name ++ '}' :: cs).dropWhile (· != '}') = '}' :: cs := by
    simp [dropWhile_append_of_pos (bne_of_notMem h)]
  rw [cons_append, colonForm, if_neg (by simp), htake]
  split
  · rename_i hnil
    cases hdrop.symm.trans hnil
  · rename_i hcons
    obtain ⟨rfl, rfl⟩ := cons.inj (hdrop.symm.trans hcons)
    cases name <;> rfl

theorem colonForm_unclosed (h : '}' ∉ tail) : colonForm ('{' :: tail) = '{' :: tail := by
  have hdrop : tail.dropWhile (· != '}') = [] := dropWhile_eq_nil_iff.mpr (bne_of_notMem h)
  rw [colonForm, if_neg (by simp)]
  split
  · rw [takeWhile_eq_self_iff.mpr (bne_of_notMem h)]
  · rename_i hcons
    cases hdrop.symm.trans hcons

theorem colonForm_of_scan (h : Scan raw pieces rest) :
    colonForm raw = pieces.flatMap Piece.put ++ rest := by
  induction h with
  | done => rw [colonForm]; rfl
  | unclosed h => exact colonForm_unclosed h
  | char hc _ ih => rw [colonForm, if_pos hc, ih]; rfl
  | group h _ ih => rw [colonForm_group h, ih, flatMap_cons, append_assoc]

theorem length_put_le : ∀ pieces : List Piece,
    (pieces.flatMap Piece.put).length ≤ (pieces.flatMap Piece.replaced).length
  | [] => Nat.le_refl 0
  | p :: pieces => by
    have hp : p.put.length ≤ p.replaced.length := by
      rcases p with c | _ | ⟨c, name⟩ <;> simp [Piece.put, Piece.replaced, Piece.written]
    rw [flatMap_cons, flatMap_cons, length_append, length_append]
    exact Nat.add_le_add hp (length_put_le pieces)

theorem put_eq_replaced_iff : ∀ pieces : List Piece,
    pieces.flatMap Piece.put = pieces.flatMap Piece.replaced ↔ .group [] ∉ pieces
  | [] => by simp
  | .char c :: pieces => by
    simpa [Piece.put] using put_eq_replaced_iff pieces
  | .group (c :: name) :: pieces => by
    simpa [Piece.put] using put_eq_replaced_iff pieces
  | .group [] :: pieces => by
    refine iff_of_false (fun h => ?_) (· mem_cons_self)
    -- what is put is shorter by the lost brace, and never longer behind it
    have hlength : (pieces.flatMap Piece.put).length + 1 =
      (pieces.flatMap Piece.replaced).length + 2 := congrArg length h
    exact absurd (length_put_le pieces) (by omega)

/-- **Each group with a name becomes a colon and the name, and all else stays**, exactly if there is
no empty group. Of an empty group the closing brace is lost. -/
theorem ofBraces_replaces_iff (raw : String) : ∃ pieces rest, Scan raw.toList pieces rest ∧
    raw = String.ofList (pieces.flatMap Piece.written ++ rest) ∧
    ofBraces raw = String.ofList (pieces.flatMap Piece.put ++ rest) ∧
    (ofBraces raw = String.ofList (pieces.flatMap Piece.replaced ++ rest) ↔
      .group [] ∉ pieces) := by
  obtain ⟨pieces, rest, h⟩ := exists_scan raw.toList
  have hput : ofBraces raw = String.ofList (pieces.flatMap Piece.put ++ rest) :=
    congrArg String.ofList (colonForm_of_scan h)
  refine ⟨pieces, rest, h, ?_, hput, ?_⟩
  · rw [← h.written, String.ofList_toList]
  · rw [hput, String.ofList_inj, append_left_inj, put_eq_replaced_iff]

/-- An empty group does not come out as written. -/
theorem ofBraces_empty_group : ofBraces "\x7b\x7d/a" = "\x7b/a" ∧ "\x7b/a" ≠ "\x7b\x7d/a" := by
  have h : Scan "\x7b\x7d/a".toList [.group [], .char '/', .char 'a'] [] :=
    @Scan.group [] _ _ _ not_mem_nil (.char (by decide) (.char (by decide) .done))
  exact ⟨congrArg String.ofList (colonForm_of_scan h), by decide⟩

end RouteAtlas.Http.Pattern
