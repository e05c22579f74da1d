import RouteAtlas.Proofs.EnclosingFunctions
import RouteAtlas.Proofs.PlacedReaders

/-!
# Places on a line

An offset between two characters of a text cuts one line of it in two: the characters before the
offset on its line, and those behind. Its position is the number of line feeds before it and the
bytes of the first part. The column of the position in UTF-16 code units is never larger; it is the
same exactly if all characters before the offset are single bytes.
-/

open List

namespace RouteAtlas

open Text

namespace Text

/-! ## Bytes -/

theorem takeBytes_append (cs ds : List Char) (n : Nat) :
    takeBytes (byteLength cs + n) (cs ++ ds) = cs ++ takeBytes n ds := by
  induction cs with
  | nil => rw [byteLength, Nat.zero_add, nil_append, nil_append]
  | cons c cs ih =>
    rw [cons_append, cons_append, byteLength, takeBytes, if_pos (by omega), ← ih]
    congr 2
    omega

theorem takeBytes_byteLength (cs ds : List Char) : takeBytes (byteLength cs) (cs ++ ds) = cs := by
  have h := takeBytes_append cs ds 0
  rwa [Nat.add_zero, takeBytes_zero, append_nil] at h

theorem Passes.eq_append {cs rest : List Char} {j : Nat} (h : Passes cs 0 rest j) :
    cs = takeBytes j cs ++ rest := by
  obtain ⟨front, rfl, rfl⟩ := h
  rw [Nat.zero_add, takeBytes_byteLength]

/-! ## Lines -/

variable (cs : List Char)

def lineBefore : List Char := (cs.reverse.takeWhile (· != '\n')).reverse

/-- The characters up to the end of the first line, without its ending. -/
def lineBehind : List Char :=
  if '\n' ∈ cs then dropReturn (cs.takeWhile (· != '\n')) else cs.takeWhile (· != '\n')

theorem not_mem_takeWhile : '\n' ∉ cs.takeWhile (· != '\n') := by
  intro h
  have := all_eq_true.mp all_takeWhile '\n' h
  exact absurd this (by decide)

theorem takeWhile_of_not_mem {cs : List Char} (h : '\n' ∉ cs) (ds : List Char) :
    (cs ++ ds).takeWhile (· != '\n') = cs ++ ds.takeWhile (· != '\n') := by
  refine takeWhile_append_of_pos fun c hc => ?_
  rw [bne_iff_ne]
  rintro rfl
  exact h hc

theorem not_mem_lineBefore : '\n' ∉ lineBefore cs := by
  rw [lineBefore, mem_reverse]
  exact not_mem_takeWhile _

/-- Before an offset there is only its line, or a line feed in front of that. -/
theorem eq_lineBefore : cs = lineBefore cs ∨ ∃ front, cs = front ++ '\n' :: lineBefore cs := by
  have hsplit : cs.reverse.takeWhile (· != '\n') ++ cs.reverse.dropWhile (· != '\n') = cs.reverse :=
    takeWhile_append_dropWhile
  have hcs : (cs.reverse.dropWhile (· != '\n')).reverse ++ lineBefore cs = cs := by
    rw [lineBefore, ← reverse_append, hsplit, reverse_reverse]
  cases hrest : cs.reverse.dropWhile (· != '\n') with
  | nil =>
    rw [hrest] at hcs
    exact .inl hcs.symm
  | cons c rest =>
    have hc : c = '\n' := by
      have := head?_dropWhile_not (· != '\n') cs.reverse
      rw [hrest] at this
      simpa using this
    rw [hrest, hc, reverse_cons, append_assoc] at hcs
    exact .inr ⟨rest.reverse, hcs.symm⟩

variable (c : Char)

theorem dropReturn_concat : dropReturn (cs ++ [c]) = if c = '\r' then cs else cs ++ [c] := by
  rw [dropReturn, reverse_append, reverse_singleton, singleton_append]
  split
  · rename_i rest h
    obtain ⟨rfl, rfl⟩ := List.cons.inj h
    rw [if_pos rfl, reverse_reverse]
  · rename_i h
    rw [if_neg]
    rintro rfl
    exact h _ rfl

theorem dropReturn_append {ds : List Char} (hne : ds ≠ []) :
    dropReturn (cs ++ ds) = cs ++ dropReturn ds := by
  rw [← dropLast_concat_getLast hne, ← append_assoc, dropReturn_concat, dropReturn_concat]
  split
  · rfl
  · rw [append_assoc]

theorem isPrefix_dropReturn : dropReturn cs <+: cs := by
  by_cases hne : cs = []
  · rw [hne]
    exact prefix_rfl
  rw [← dropLast_concat_getLast hne, dropReturn_concat]
  split
  · exact prefix_append _ _
  · exact prefix_rfl

theorem linesOf_append (ps : List (List Char)) {qs : List (List Char)} (hne : qs ≠ []) :
    linesOf (ps ++ qs) = ps.map dropReturn ++ linesOf qs := by
  induction ps with
  | nil => rfl
  | cons p ps ih =>
    obtain ⟨q, rest, hrest⟩ := exists_cons_of_ne_nil (append_ne_nil_of_right_ne_nil ps hne)
    rw [map_cons, cons_append, cons_append, ← ih, hrest]
    rfl

theorem length_piecesBy : (piecesBy (· == '\n') cs).length = cs.count '\n' + 1 := by
  induction cs with
  | nil => rfl
  | cons c cs ih =>
    obtain ⟨p, ps, hps⟩ := exists_cons_of_ne_nil (piecesBy_ne_nil (· == '\n') cs)
    rw [piecesBy, count_cons, ← Nat.add_right_comm, ← ih]
    split
    · rfl
    · rw [hps]
      rfl

theorem piecesBy_eq_cons : ∃ ps,
    piecesBy (· == '\n') cs = cs.takeWhile (· != '\n') :: ps ∧ (ps = [] ↔ '\n' ∉ cs) := by
  induction cs with
  | nil => exact ⟨[], rfl, by simp⟩
  | cons c cs ih =>
    obtain ⟨ps, hps, hnil⟩ := ih
    rw [piecesBy]
    by_cases hc : c = '\n'
    · subst hc
      exact ⟨_, rfl, by simp [piecesBy_ne_nil]⟩
    · refine ⟨ps, ?_, ?_⟩
      · simp [hc, hps]
      · simp [hnil, Ne.symm hc]

theorem linesOf_piecesBy {cs : List Char} (hne : cs.takeWhile (· != '\n') ≠ []) :
    ∃ ls, linesOf (piecesBy (· == '\n') cs) = lineBehind cs :: ls := by
  obtain ⟨ps, hps, hnil⟩ := piecesBy_eq_cons cs
  rw [hps, lineBehind]
  cases ps with
  | nil =>
    rw [if_neg (hnil.mp rfl), linesOf, if_neg (by simpa using hne)]
    exact ⟨[], rfl⟩
  | cons p ps =>
    rw [if_pos (Classical.not_not.mp (mt hnil.mpr (cons_ne_nil p ps))), linesOf]
    · exact ⟨_, rfl⟩
    · simp

theorem lineBehind_append {cs ds : List Char} (h : '\n' ∉ cs)
    (hne : ds.takeWhile (· != '\n') ≠ []) : lineBehind (cs ++ ds) = cs ++ lineBehind ds := by
  have hmem : '\n' ∈ cs ++ ds ↔ '\n' ∈ ds := by simp [h]
  rw [lineBehind, lineBehind, takeWhile_of_not_mem h, dropReturn_append cs hne]
  simp only [hmem]
  split <;> rfl

theorem not_mem_lineBehind : '\n' ∉ lineBehind cs := by
  have hline := not_mem_takeWhile cs
  rw [lineBehind]
  split
  · exact fun h => hline ((isPrefix_dropReturn _).subset h)
  · exact hline

/-- **The line around an offset** that no line feed follows, and the lines before and behind it. -/
theorem lines_around (cs ds : List Char) (hne : ds.takeWhile (· != '\n') ≠ []) : ∃ before behind,
    linesOf (piecesBy (· == '\n') (cs ++ ds)) =
      before ++ (lineBefore cs ++ lineBehind ds) :: behind ∧ before.length = cs.count '\n' := by
  have hline : lineBehind (lineBefore cs ++ ds) = lineBefore cs ++ lineBehind ds :=
    lineBehind_append (not_mem_lineBefore cs) hne
  have hneline : (lineBefore cs ++ ds).takeWhile (· != '\n') ≠ [] := by
    rw [takeWhile_of_not_mem (not_mem_lineBefore cs)]
    exact append_ne_nil_of_right_ne_nil _ hne
  obtain ⟨ls, hls⟩ := linesOf_piecesBy hneline
  rw [hline] at hls
  -- The last line feed before the offset, if there is one, cuts the lines before it off.
  rcases eq_lineBefore cs with hcs | ⟨front, hcs⟩
  · refine ⟨[], ls, ?_, ?_⟩
    · rw [← hcs] at hls ⊢
      exact hls
    · exact (count_eq_zero.mpr (hcs ▸ not_mem_lineBefore cs)).symm
  · refine ⟨(piecesBy (· == '\n') front).map dropReturn, ls, ?_, ?_⟩
    · have happend : cs ++ ds = front ++ '\n' :: (lineBefore cs ++ ds) := by
        conv => lhs; rw [hcs]
        rw [append_assoc, cons_append]
      rw [happend, piecesBy_append rfl, linesOf_append _ (piecesBy_ne_nil _ _), hls]
    · rw [length_map, length_piecesBy, hcs, count_append, count_cons_self,
        count_eq_zero.mpr (not_mem_lineBefore cs)]

/-! ## Code units -/

theorem units16_or : units16 c = 1 ∧ 1 ≤ c.utf8Size ∨ units16 c = 2 ∧ c.utf8Size = 4 := by
  rw [units16]
  split
  · exact .inl ⟨rfl, c.utf8Size_pos⟩
  rename_i hlarge
  refine .inr ⟨rfl, ?_⟩
  have hval : 0x10000 ≤ c.val.toNat := Nat.le_of_not_lt hlarge
  have hnot : ∀ k : UInt32, k.toNat < 0x10000 → ¬ c.val ≤ k := fun k hk hle =>
    absurd (UInt32.le_iff_toNat_le.mp hle) (by omega)
  show (if c.val ≤ 0x7f then 1 else if c.val ≤ 0x7ff then 2 else if c.val ≤ 0xffff then 3
    else 4) = 4
  rw [if_neg (hnot _ (by decide)), if_neg (hnot _ (by decide)), if_neg (hnot _ (by decide))]

theorem units16_le_utf8Size : units16 c ≤ c.utf8Size := by
  have := units16_or c
  omega

theorem units16_eq_utf8Size_iff : units16 c = c.utf8Size ↔ c.utf8Size = 1 := by
  have := units16_or c
  omega

theorem unitLength16_le_byteLength : unitLength16 cs ≤ byteLength cs := by
  induction cs with
  | nil => exact Nat.le_refl _
  | cons c cs ih => exact Nat.add_le_add (units16_le_utf8Size c) ih

/-- **Code units and bytes** are as many exactly if each character is one byte. -/
theorem unitLength16_eq_byteLength_iff :
    unitLength16 cs = byteLength cs ↔ ∀ c ∈ cs, c.utf8Size = 1 := by
  induction cs with
  | nil => simp [unitLength16, byteLength]
  | cons c cs ih =>
    have hc := units16_le_utf8Size c
    have hcs := unitLength16_le_byteLength cs
    rw [unitLength16, byteLength, forall_mem_cons, ← ih, ← units16_eq_utf8Size_iff]
    omega

/-- Code units are counted by characters, and once more for the wide ones. -/
theorem unitLength16_eq_length_add : unitLength16 cs = cs.length + cs.countP (units16 · == 2) := by
  induction cs with
  | nil => rfl
  | cons c cs ih =>
    rw [unitLength16, countP_cons, units16]
    split <;> simp <;> omega

end Text

namespace Source

/-! ## Positions -/

theorem foldl_behind_of_not_mem (p : Position) {cs : List Char} (h : '\n' ∉ cs) :
    cs.foldl Position.behind p = ⟨p.line, p.character + byteLength cs⟩ := by
  induction cs generalizing p with
  | nil => rfl
  | cons c cs ih =>
    have hc : (c == '\n') = false := by simpa using (ne_of_not_mem_cons h).symm
    rw [foldl_cons, ih _ (not_mem_of_not_mem_cons h), Position.behind, hc,
      byteLength, ← Nat.add_assoc]
    rfl

theorem line_foldl_behind (p : Position) (cs : List Char) :
    (cs.foldl Position.behind p).line = p.line + cs.count '\n' := by
  induction cs generalizing p with
  | nil => rfl
  | cons c cs ih =>
    rw [foldl_cons, ih, Position.behind, count_cons]
    split
    · exact Nat.add_right_comm _ _ _
    · rfl

/-- **The position of an offset**: the line feeds before it, and the bytes before it on its line. -/
theorem positionAt_eq (text : String) (offset : Nat) :
    positionAt text offset = ⟨(takeBytes offset text.toList).count '\n',
        byteLength (lineBefore (takeBytes offset text.toList))⟩ := by
  rw [positionAt, advance_eq_foldl]
  generalize takeBytes offset text.toList = cs
  have hline := not_mem_lineBefore cs
  rcases eq_lineBefore cs with hcs | ⟨front, hcs⟩
  · rw [← hcs] at hline ⊢
    rw [foldl_behind_of_not_mem _ hline, count_eq_zero.mpr hline, Nat.zero_add]
  have hfold : cs.foldl Position.behind ⟨0, 0⟩ =
      (front ++ '\n' :: lineBefore cs).foldl Position.behind ⟨0, 0⟩ := by rw [← hcs]
  have hcount : cs.count '\n' = front.count '\n' + 1 := by
    rw [hcs, count_append, count_cons_self, count_eq_zero.mpr hline]
  rw [hfold, foldl_append, foldl_cons, foldl_behind_of_not_mem _ hline, hcount,
    Position.behind, line_foldl_behind]
  simp

end Source

end RouteAtlas
