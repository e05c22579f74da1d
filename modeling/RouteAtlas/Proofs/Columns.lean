import RouteAtlas.Proofs.LinePlaces

/-!
# Columns in bytes and in code units

A column of a line lies between two of its characters or at an end, whatever is counted, if it is
the size of a leading part of the line. Each such part has one size in bytes and one in UTF-16 code
units, and both grow with it, as no character is empty; so the two ways to count are translated into
each other without loss. A column inside a character is no such column: a byte column goes back to
the character's start, and a column in code units goes on to its end.
-/

namespace RouteAtlas.Text

variable {size : List Char → Nat} {row : List Char} {m n : Nat}

/-- The column is the size of a leading part of the line. On a line that is missing there is nothing
for it to fall into. -/
def IsColumn (size : List Char → Nat) (text : String) (line n : Nat) : Prop :=
  ∀ row, (lineChars text)[line]? = some row → ∃ front, front <+: row ∧ size front = n

theorem units16_pos (c : Char) : 0 < units16 c := by
  have := units16_or c
  omega

theorem unitLength16_append (cs ds : List Char) :
    unitLength16 (cs ++ ds) = unitLength16 cs + unitLength16 ds := by
  induction cs with
  | nil => simp [unitLength16]
  | cons c cs ih => rw [List.cons_append, unitLength16, unitLength16, ih, Nat.add_assoc]

theorem bytesBefore16_cons (hn : 0 < n) (c : Char) (cs : List Char) :
    bytesBefore16 n (c :: cs) = c.utf8Size + bytesBefore16 (n - units16 c) cs := by
  obtain ⟨n, rfl⟩ := Nat.exists_eq_succ_of_ne_zero (Nat.ne_of_gt hn)
  rfl

theorem bytesBefore16_zero : bytesBefore16 0 row = 0 := by
  cases row <;> rfl

theorem bytesBefore16_unitLength16 (front rest : List Char) :
    bytesBefore16 (unitLength16 front) (front ++ rest) = byteLength front := by
  induction front with
  | nil => exact bytesBefore16_zero
  | cons c front ih =>
    rw [unitLength16, List.cons_append, bytesBefore16_cons (Nat.add_pos_left (units16_pos c) _),
      Nat.add_sub_cancel_left, ih, byteLength]

/-- The bytes before a column are those of a leading part. -/
theorem exists_front_bytesBefore16 (n : Nat) (row : List Char) :
    ∃ front, front <+: row ∧ byteLength front = bytesBefore16 n row := by
  induction row generalizing n with
  | nil => exact ⟨[], List.prefix_rfl, rfl⟩
  | cons c row ih =>
    cases n with
    | zero => exact ⟨[], List.nil_prefix, rfl⟩
    | succ n =>
      obtain ⟨front, hfront, hbytes⟩ := ih (n + 1 - units16 c)
      exact ⟨c :: front, List.cons_prefix_cons.mpr ⟨rfl, hfront⟩, congrArg (c.utf8Size + ·) hbytes⟩

theorem bytesBefore16_mono (h : m ≤ n) : bytesBefore16 m row ≤ bytesBefore16 n row := by
  induction row generalizing m n with
  | nil => exact Nat.le_refl _
  | cons c row ih =>
    rcases Nat.eq_zero_or_pos m with rfl | hm
    · exact Nat.zero_le _
    · rw [bytesBefore16_cons hm, bytesBefore16_cons (Nat.lt_of_lt_of_le hm h)]
      exact Nat.add_le_add_left (ih (Nat.sub_le_sub_right h _)) _

theorem unitLength16_takeBytes_mono (h : m ≤ n) :
    unitLength16 (takeBytes m row) ≤ unitLength16 (takeBytes n row) := by
  obtain ⟨rest, hrest⟩ := takeBytes_mono h row
  rw [← hrest, unitLength16_append]
  exact Nat.le_add_right _ _

section

variable {text : String} {line : Nat}

theorem utf16Column_eq (hrow : (lineChars text)[line]? = some row) (n : Nat) :
    utf16Column text line n = unitLength16 (takeBytes n row) := by
  rw [utf16Column, hrow]

theorem byteColumn_eq (hrow : (lineChars text)[line]? = some row) (n : Nat) :
    byteColumn text line n = bytesBefore16 n row := by
  rw [byteColumn, hrow]

theorem isColumn_iff (hrow : (lineChars text)[line]? = some row) :
    IsColumn size text line n ↔ ∃ front rest, row = front ++ rest ∧ size front = n := by
  unfold IsColumn
  rw [hrow]
  constructor
  · intro h
    obtain ⟨front, ⟨rest, rfl⟩, hsize⟩ := h row rfl
    exact ⟨front, rest, rfl, hsize⟩
  · rintro ⟨front, rest, rfl, hsize⟩ _ ⟨⟩
    exact ⟨front, List.prefix_append front rest, hsize⟩

end

/-- **The two columns of a place are translated into each other**, for columns between two
characters; each translation gives such a column and keeps the order of columns. -/
theorem columns_inverse (text : String) (line : Nat) :
    (∀ b, IsColumn byteLength text line b → byteColumn text line (utf16Column text line b) = b) ∧
    (∀ u, IsColumn unitLength16 text line u → utf16Column text line (byteColumn text line u) = u) ∧
    (∀ m n, m ≤ n → utf16Column text line m ≤ utf16Column text line n ∧
      byteColumn text line m ≤ byteColumn text line n) ∧
    ∀ n, IsColumn unitLength16 text line (utf16Column text line n) ∧
      IsColumn byteLength text line (byteColumn text line n) := by
  cases hrow : (lineChars text)[line]? with
  | none => simp [utf16Column, byteColumn, IsColumn, hrow]
  | some row =>
    simp only [isColumn_iff hrow, utf16Column_eq hrow, byteColumn_eq hrow]
    refine ⟨?_, ?_, fun m n h => ⟨unitLength16_takeBytes_mono h, bytesBefore16_mono h⟩,
      fun n => ⟨?_, ?_⟩⟩
    · rintro b ⟨front, rest, rfl, rfl⟩
      rw [takeBytes_byteLength, bytesBefore16_unitLength16]
    · rintro u ⟨front, rest, rfl, rfl⟩
      rw [bytesBefore16_unitLength16, takeBytes_byteLength]
    · obtain ⟨rest, hrest⟩ := isPrefix_takeBytes n row
      exact ⟨_, rest, hrest.symm, rfl⟩
    · obtain ⟨front, ⟨rest, hrest⟩, hbytes⟩ := exists_front_bytesBefore16 n row
      exact ⟨front, rest, hrest.symm, hbytes⟩

/-- Behind a character of four bytes and two code units, on the second of two lines. -/
theorem columns_inverse_wide :
    let text := "a\r\nhé→😀;\n"
    (lineChars text)[1]? = some ['h', 'é', '→', '😀', ';'] ∧
      IsColumn byteLength text 1 10 ∧ utf16Column text 1 10 = 5 ∧ byteColumn text 1 5 = 10 := by
  intro text
  have hline : (lineChars text)[1]? = some ['h', 'é', '→', '😀', ';'] := by decide
  have hcolumn : IsColumn byteLength text 1 10 := by
    intro row hrow
    rw [hline] at hrow
    cases hrow
    exact ⟨['h', 'é', '→', '😀'], ⟨[';'], rfl⟩, by decide⟩
  have hunits : utf16Column text 1 10 = 5 := by decide
  exact ⟨hline, hcolumn, hunits, hunits ▸ (columns_inverse text 1).1 10 hcolumn⟩

end RouteAtlas.Text
