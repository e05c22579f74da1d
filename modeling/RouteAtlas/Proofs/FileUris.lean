import Mathlib.Data.List.Flatten
import RouteAtlas.Path.Uri
import RouteAtlas.Proofs.AbsolutePaths
import RouteAtlas.Proofs.Frames

/-!
# File URIs read back

Reading a file URI decodes percent escapes, but writing one copies the names of the path as they
are. A name is read back unless it has the form of an escape in it. The bytes of a text are read as
its characters, however they continue, and a byte that comes from an escape gives at most one
character more; so a text with an escape gets shorter, and as no text of a path is shorter than its
names with single slashes, what is read is another path.
-/

open List Option String

namespace RouteAtlas

open Text

/-! ## Bytes read as text -/

namespace Text

variable {b low high n bits : Nat} {bs : List Nat}

theorem lossyChars_of_none (h : leadByte? b = none) :
    lossyChars (b :: bs) = '�' :: lossyChars bs := by
  rw [lossyChars, h]

theorem lossyChars_of_some (h : leadByte? b = some ⟨low, high, n, bits⟩) :
    lossyChars (b :: bs) = (readTails low high n bits bs).1.elim '�' Char.ofNat ::
      lossyChars (readTails low high n bits bs).2 := by
  rw [lossyChars, h]
  dsimp only
  split
  · rename_i code rest hread
    rw [hread]
    rfl
  · rename_i rest hread
    rw [hread]
    rfl

theorem readTails_cons (hlow : low ≤ b) (hhigh : b ≤ high) :
    readTails low high (n + 1) bits (b :: bs) =
      readTails 0x80 0xbf n (bits * 64 + (b - 0x80)) bs := by
  rw [readTails, if_pos (by simp [hlow, hhigh])]

theorem leadByte?_two (hlow : 0xc2 ≤ b) (hhigh : b ≤ 0xdf) :
    leadByte? b = some ⟨0x80, 0xbf, 1, b - 0xc0⟩ := by
  rw [leadByte?, if_neg (by omega), if_pos (by simp [hlow, hhigh])]

/-- The second byte of three is bounded so that no shorter form and no surrogate is read. -/
theorem leadByte?_three (hlow : 0xe0 ≤ b) (hhigh : b ≤ 0xef) : leadByte? b =
    some ⟨if b = 0xe0 then 0xa0 else 0x80, if b = 0xed then 0x9f else 0xbf, 2, b - 0xe0⟩ := by
  obtain rfl | rfl | h : b = 0xe0 ∨ b = 0xed ∨ b ≠ 0xe0 ∧ b ≠ 0xed := by omega
  · rfl
  · rfl
  · simp [leadByte?, h, show ¬ b < 0x80 by omega, show ¬ b ≤ 0xdf by omega,
      show 0xe1 ≤ b by omega, hhigh]

/-- The second byte of four is bounded so that no shorter form and nothing too large is read. -/
theorem leadByte?_four (hlow : 0xf0 ≤ b) (hhigh : b ≤ 0xf4) : leadByte? b =
    some ⟨if b = 0xf0 then 0x90 else 0x80, if b = 0xf4 then 0x8f else 0xbf, 3, b - 0xf0⟩ := by
  obtain rfl | rfl | rfl | rfl | rfl :
    b = 0xf0 ∨ b = 0xf1 ∨ b = 0xf2 ∨ b = 0xf3 ∨ b = 0xf4 := by omega
  all_goals rfl

theorem lossyChars_char (c : Char) (bs : List Nat) :
    lossyChars ((utf8EncodeChar c).map UInt8.toNat ++ bs) = c :: lossyChars bs := by
  have hvalid : c.val.toNat < 0xd800 ∨ 0xdfff < c.val.toNat ∧ c.val.toNat < 0x110000 := c.valid
  have hbyte : ∀ n < 256, (UInt8.ofNat n).toNat = n := fun n hn => UInt8.toNat_ofNat_of_lt hn
  have hread : ∀ code, code = c.val.toNat → Char.ofNat code = c := by
    rintro _ rfl
    exact Char.ofNat_toNat c
  rw [utf8EncodeChar.eq_def]
  dsimp only
  generalize c.val.toNat = v at hvalid hread
  split
  · have hlead : leadByte? v = some ⟨0, 0, 0, v⟩ := by rw [leadByte?, if_pos (by omega)]
    rw [map_singleton, hbyte v (by omega), singleton_append, lossyChars_of_some hlead,
      readTails, elim_some, hread v rfl]
  split
  · simp only [map_cons, map_nil, cons_append, nil_append]
    rw [hbyte _ (by omega), hbyte _ (by omega),
      lossyChars_of_some (leadByte?_two (by omega) (by omega)),
      readTails_cons (by omega) (by omega), readTails, elim_some, hread]
    omega
  split
  · simp only [map_cons, map_nil, cons_append, nil_append]
    rw [hbyte _ (by omega), hbyte _ (by omega), hbyte _ (by omega),
      lossyChars_of_some (leadByte?_three (by omega) (by omega)),
      readTails_cons (by split <;> omega) (by split <;> omega),
      readTails_cons (by omega) (by omega), readTails, elim_some, hread]
    omega
  · simp only [map_cons, map_nil, cons_append, nil_append]
    rw [hbyte _ (by omega), hbyte _ (by omega), hbyte _ (by omega), hbyte _ (by omega),
      lossyChars_of_some (leadByte?_four (by omega) (by omega)),
      readTails_cons (by split <;> omega) (by split <;> omega),
      readTails_cons (by omega) (by omega), readTails_cons (by omega) (by omega), readTails,
      elim_some, hread]
    omega

theorem leadByte?_of_tail (hlow : 0x80 ≤ b) (hhigh : b ≤ 0xbf) : leadByte? b = none := by
  unfold leadByte?
  repeat' split
  all_goals simp_all
  all_goals omega

theorem bounds_of_leadByte? (h : leadByte? b = some ⟨low, high, n, bits⟩) :
    n = 0 ∨ 0x80 ≤ low ∧ high ≤ 0xbf := by
  unfold leadByte? at h
  repeat' split at h
  all_goals cases h
  all_goals simp

/-- Bytes that continue a character would each be read as a broken one. -/
theorem length_readTails_le (h : n = 0 ∨ 0x80 ≤ low ∧ high ≤ 0xbf) :
    (lossyChars (readTails low high n bits bs).2).length ≤ (lossyChars bs).length := by
  induction n generalizing low high bits bs with
  | zero => exact Nat.le_refl _
  | succ n ih =>
    cases bs with
    | nil => exact Nat.le_refl _
    | cons b bs =>
      rw [readTails]
      split
      · rename_i hb
        simp only [Bool.and_eq_true, decide_eq_true_eq] at hb
        rw [lossyChars_of_none (leadByte?_of_tail (b := b) (by omega) (by omega))]
        exact Nat.le_succ_of_le (ih (.inr ⟨Nat.le_refl _, Nat.le_refl _⟩))
      · exact Nat.le_refl _

theorem length_lossyChars_cons_le (b : Nat) (bs : List Nat) :
    (lossyChars (b :: bs)).length ≤ (lossyChars bs).length + 1 := by
  cases h : leadByte? b with
  | none => exact Nat.le_of_eq (by rw [lossyChars_of_none h, length_cons])
  | some lead =>
    rw [lossyChars_of_some h]
    exact Nat.succ_le_succ (length_readTails_le (bounds_of_leadByte? h))

end Text

/-! ## Escapes -/

namespace Path

variable {a b c : Char} {cs ds : List Char}

/-- The text begins with a percent sign and two characters that are read as a byte. -/
def opensEscape : List Char → Bool
  | '%' :: a :: b :: _ => (escapedByte? a b).isSome
  | _ => false

/-- Something in the text is read as an escape. -/
def Escaped (cs : List Char) : Prop := ∃ rest ∈ cs.tails, opensEscape rest
  deriving Decidable

theorem not_escaped_nil : ¬ Escaped [] := by decide

theorem escaped_cons : Escaped (c :: cs) ↔ opensEscape (c :: cs) ∨ Escaped cs := by
  simp [Escaped]

theorem utf8Bytes_singleton (c : Char) :
    utf8Bytes (singleton c) = (utf8EncodeChar c).map UInt8.toNat := by
  have h := Rpc.Frame.bytesOf_eq (singleton c)
  rw [toList_singleton, flatMap_singleton] at h
  rw [← h]
  rfl

theorem lossyChars_percent (bs : List Nat) :
    lossyChars (37 :: bs) = '%' :: lossyChars bs := lossyChars_char '%' bs

/-- What reading makes of a text: the text itself, or less if there is an escape in it. -/
def ReadAs (cs read : List Char) : Prop :=
  ¬ Escaped cs ∧ read = cs ∨ Escaped cs ∧ read.length < cs.length

theorem ReadAs.length_le {read : List Char} (h : ReadAs cs read) : read.length ≤ cs.length := by
  rcases h with ⟨-, rfl⟩ | ⟨-, hshort⟩
  · exact Nat.le_refl _
  · exact Nat.le_of_lt hshort

theorem ReadAs.cons {read : List Char} (h : ReadAs cs read) (hc : opensEscape (c :: cs) = false) :
    ReadAs (c :: cs) (c :: read) := by
  rw [ReadAs, escaped_cons, hc, Bool.false_eq_true, false_or, cons_inj_right]
  exact h.imp_right (.imp_right Nat.succ_lt_succ)

theorem readAs_decoded (cs : List Char) : ReadAs cs (lossyChars (decodedBytes cs)) := by
  fun_induction decodedBytes cs with
  | case1 a b cs byte hbyte ih =>
    refine .inr ⟨escaped_cons.mpr (.inl (by rw [opensEscape, hbyte]; rfl)), ?_⟩
    have hcons := length_lossyChars_cons_le byte (decodedBytes cs)
    have hrest := ih.length_le
    simp only [length_cons]
    omega
  | case2 a b cs hbyte ih =>
    rw [lossyChars_percent]
    exact ih.cons (by rw [opensEscape, hbyte]; rfl)
  | case3 c cs hplain ih =>
    rw [utf8Bytes_singleton, lossyChars_char]
    refine ih.cons ?_
    unfold opensEscape
    split
    · rename_i a b rest heq
      cases heq
      exact absurd rfl (hplain a b rest rfl)
    · rfl
  | case4 =>
    rw [lossyChars]
    exact .inl ⟨not_escaped_nil, rfl⟩

/-! ## Texts of a path -/

def behindSlashes (parts : List String) : List Char := parts.flatMap ('/' :: ·.toList)

theorem toList_eq_of_pieces {s first : String} {rest : List String}
    (h : pieces '/' s = first :: rest) : s.toList = first.toList ++ behindSlashes rest := by
  have hchars : ∀ {cs w : List Char} {ws : List (List Char)},
      piecesBy (· == '/') cs = w :: ws → cs = w ++ ws.flatMap ('/' :: ·) := by
    intro cs
    induction cs with
    | nil =>
      rintro w ws ⟨⟩
      rfl
    | cons c cs ih =>
      intro w ws h
      obtain ⟨w', ws', hcs⟩ := exists_cons_of_ne_nil (piecesBy_ne_nil (· == '/') cs)
      rw [piecesBy, hcs] at h
      split at h
      · rename_i hc
        cases h
        simp [eq_of_beq hc, ← ih hcs]
      · cases h
        simp [← ih hcs]
  obtain ⟨w, ws, hpieces, rfl, rfl⟩ := map_eq_cons_iff.mp h
  rw [hchars hpieces, behindSlashes, flatMap_map]
  simp

variable {p q : Path} {place : Files.Place}

theorem sublist_of_steps {parts : List String}
    (h : parts.filterMap Component.ofPart? = place.map .name) : place.Sublist parts := by
  induction parts generalizing place with
  | nil => simp_all
  | cons part parts ih =>
    cases hpart : Component.ofPart? part with
    | none => exact (ih (by rwa [filterMap_cons_none hpart] at h)).cons part
    | some c =>
      rw [filterMap_cons_some hpart] at h
      obtain ⟨name, place, rfl, rfl, hrest⟩ := map_eq_cons_iff.mp h.symm
      have hname : name = part := by
        unfold Component.ofPart? at hpart
        split at hpart
        · cases hpart
        split at hpart
        · cases hpart
        · exact (Component.name.inj (some.inj hpart)).symm
      exact hname ▸ (ih hrest.symm).cons_cons name

theorem toList_of_isAbsolute (h : q.isAbsolute) : ∃ parts, parts ≠ [] ∧
    q.text.toList = behindSlashes parts ∧ q.steps = parts.filterMap Component.ofPart? := by
  obtain ⟨parts, hparts⟩ := head?_eq_some_iff.mp (head?_pieces_of_isAbsolute h)
  have htext := toList_eq_of_pieces hparts
  refine ⟨parts, ?_, htext, by rw [steps, hparts]; rfl⟩
  rintro rfl
  rw [isAbsolute_iff, htext] at h
  cases h

theorem toList_pathOf (hplace : IsPlace place) :
    (Files.Tree.pathOf place).text.toList = behindSlashes (if place = [] then [""] else place) :=
  toList_eq_of_pieces (pieces_pathOf hplace)

/-- **No text of a path is shorter than its names with single slashes.** -/
theorem length_pathOf_le (hplace : IsPlace place) (h : q.components = .root :: place.map .name) :
    (Files.Tree.pathOf place).text.toList.length ≤ q.text.toList.length := by
  obtain ⟨hq, hsteps⟩ := isAbsolute_of_components h
  obtain ⟨parts, hne, htext, hparts⟩ := toList_of_isAbsolute hq
  rw [toList_pathOf hplace, htext]
  split
  · obtain ⟨part, parts, rfl⟩ := exists_cons_of_ne_nil hne
    simp [behindSlashes]
  · exact ((sublist_of_steps (hparts.symm.trans hsteps)).flatMap _).length_le

theorem exists_slashed (hp : p.isAbsolute) (hup : .parent ∉ p.components) : ∃ place, IsPlace place ∧
    p.components = .root :: place.map .name ∧ p.slashed = (Files.Tree.pathOf place).text := by
  rw [components_of_isAbsolute hp, mem_cons, not_or] at hup
  obtain ⟨place, hplace, hsteps⟩ := exists_place (fun _ => isStep_of_mem_steps) hup.2
  have hcomponents := components_of_isAbsolute hp
  rw [hsteps] at hcomponents
  refine ⟨place, hplace, hcomponents, ?_⟩
  rw [slashed, hp, hcomponents, slashedComponents, filterMap_cons_none (by rfl), filterMap_map]
  exact congrArg (fun parts => "/" ++ "/".intercalate parts) filterMap_some

theorem ofUri?_uri : ofUri? p.uri = some ⟨percentDecode p.slashed⟩ := by
  have hlead : stripStart? "file://" p.uri = some p.slashed := by
    rw [stripStart?, map_eq_some_iff]
    exact ⟨p.slashed.toList, stripList?_eq_some_iff.mpr (by simp [uri]), by simp⟩
  rw [ofUri?, hlead]
  rfl

/-- **A file URI is read back as the path that it was written for exactly if nothing in the path is
read as an escape**, for every absolute path made of names. -/
theorem ofUri?_uri_same_iff (p : Path) (habs : p.isAbsolute = true) (hup : .parent ∉ p.components) :
    (∃ q, ofUri? p.uri = some q ∧ q.same p = true) ↔ ¬ Escaped p.slashed.toList := by
  obtain ⟨place, hplace, hcomponents, hslashed⟩ := exists_slashed habs hup
  have hread := readAs_decoded p.slashed.toList
  have hdecoded : (percentDecode p.slashed).toList =
      Text.lossyChars (decodedBytes p.slashed.toList) :=
    toList_ofList
  rw [← hdecoded] at hread
  rw [ofUri?_uri]
  simp only [some.injEq, exists_eq_left']
  rcases hread with ⟨hnone, hsame⟩ | ⟨hescaped, hshort⟩
  · refine iff_of_true ?_ hnone
    rw [toList_inj.mp hsame, hslashed]
    exact beq_iff_eq.mpr ((components_pathOf hplace).trans hcomponents.symm)
  · refine iff_of_false (fun hsame => ?_) (not_not_intro hescaped)
    -- the text that is read would be shorter than the names of its path
    have hlong := length_pathOf_le hplace ((eq_of_beq hsame).trans hcomponents)
    rw [← hslashed] at hlong
    exact absurd hshort (Nat.not_lt.mpr hlong)

/-- Names with spaces, other characters and percent signs that open no escape are read back. -/
theorem ofUri?_uri_same_plain :
    let p : Path := ⟨"/tmp//100% é/my app%2.ts"⟩
    p.isAbsolute = true ∧ .parent ∉ p.components ∧ ¬ Escaped p.slashed.toList ∧
      ∃ q, ofUri? p.uri = some q ∧ q.same p = true := by
  intro p
  have habs : p.isAbsolute = true := by decide
  have hup : .parent ∉ p.components := by decide
  have hnone : ¬ Escaped p.slashed.toList := by decide
  exact ⟨habs, hup, hnone, (ofUri?_uri_same_iff p habs hup).mpr hnone⟩

/-- A name that looks like an escape is read as another name. -/
theorem ofUri?_uri_space :
    let p : Path := ⟨"/a%20b"⟩
    p.isAbsolute = true ∧ .parent ∉ p.components ∧ ofUri? p.uri = some ⟨"/a b"⟩ ∧
      Path.same ⟨"/a b"⟩ p = false := by
  decide +kernel

end Path

end RouteAtlas
