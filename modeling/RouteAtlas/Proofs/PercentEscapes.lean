import Mathlib.Data.List.Infix
import RouteAtlas.Proofs.FileUris

/-!
# Percent escapes as bytes

By the rule for percent escapes, a percent sign and two hexadecimal digits stand for a byte, and all
other bytes stand for themselves. Decoding works on characters and follows that rule, but it also
takes a plus sign and one digit for a byte. So it agrees with the rule on exactly the texts that
have no such signed escape in them, and it reads back every text whose percent signs are escaped.
-/

open List String

namespace RouteAtlas.Path

open Text

/-! ## The rule on bytes -/

/-- The value of a byte that is a hexadecimal digit. -/
def hexValue? (b : Nat) : Option Nat :=
  if 48 ≤ b ∧ b ≤ 57 then some (b - 48)
  else if 97 ≤ b ∧ b ≤ 102 then some (b - 97 + 10)
  else if 65 ≤ b ∧ b ≤ 70 then some (b - 65 + 10)
  else none

/-- **The rule for percent escapes**: a percent sign and two hexadecimal digits are the byte with
that number, and every other byte is kept. -/
def unescaped : List Nat → List Nat
  | 37 :: a :: b :: bs =>
    match hexValue? a, hexValue? b with
    | some x, some y => (16 * x + y) :: unescaped bs
    | _, _ => 37 :: unescaped (a :: b :: bs)
  | b :: bs => b :: unescaped bs
  | [] => []

variable (cs : List Char)

def charBytes : List Nat :=
  cs.flatMap fun c => (utf8EncodeChar c).map UInt8.toNat

theorem charBytes_cons (c : Char) (cs : List Char) :
    charBytes (c :: cs) = (utf8EncodeChar c).map UInt8.toNat ++ charBytes cs := flatMap_cons

theorem utf8Bytes_eq (s : String) : utf8Bytes s = charBytes s.toList := by
  have h := congrArg (map UInt8.toNat) (Rpc.Frame.bytesOf_eq s)
  rw [map_flatMap] at h
  exact h

theorem lossyChars_charBytes : lossyChars (charBytes cs) = cs := by
  induction cs with
  | nil => rw [charBytes, flatMap_nil, lossyChars]
  | cons c cs ih => rw [charBytes_cons, lossyChars_char, ih]

section Rule

variable {a b c : Char} {cs : List Char} {x y k : Nat} {bs front : List Nat}

theorem hexDigit?_eq : hexDigit? c = hexValue? c.toNat := by
  simp only [hexDigit?, Bool.and_eq_true, decide_eq_true_eq]
  rfl

theorem bounds_of_hexValue? (h : hexValue? k = some x) : x < 16 ∧ k < 0x80 ∧ k ≠ 37 ∧ k ≠ 43 := by
  unfold hexValue? at h
  repeat' split at h
  all_goals cases h
  all_goals omega

theorem bounds_of_hexDigit? (h : hexDigit? c = some x) :
    x < 16 ∧ c.toNat < 0x80 ∧ c ≠ '%' ∧ c ≠ '+' := by
  rw [hexDigit?_eq] at h
  obtain ⟨hx, hlt, hpercent, hplus⟩ := bounds_of_hexValue? h
  exact ⟨hx, hlt, fun heq => hpercent (heq ▸ rfl), fun heq => hplus (heq ▸ rfl)⟩

theorem charBytes_cons_of_lt (h : c.toNat < 0x80) :
    charBytes (c :: cs) = c.toNat :: charBytes cs := by
  rcases Rpc.Frame.utf8EncodeChar_cases c with ⟨-, hbytes⟩ | ⟨hlarge, -⟩
  · rw [charBytes_cons, hbytes]
    rfl
  · exact absurd h (Nat.not_lt.mpr hlarge)

theorem eq_cons_of_charBytes (h : charBytes cs = k :: bs) (hk : k < 0x80) :
    ∃ c ds, cs = c :: ds ∧ c.toNat = k ∧ charBytes ds = bs := by
  cases cs with
  | nil => cases h
  | cons c cs =>
    rcases Rpc.Frame.utf8EncodeChar_cases c with ⟨hc, -⟩ | ⟨-, hne, hlarge⟩
    · rw [charBytes_cons_of_lt hc] at h
      obtain ⟨rfl, rfl⟩ := List.cons.inj h
      exact ⟨c, cs, rfl, rfl, rfl⟩
    · obtain ⟨b, rest, hbytes⟩ := exists_cons_of_ne_nil hne
      rw [charBytes_cons, hbytes] at h
      have hb := hlarge b (hbytes ▸ mem_cons_self)
      rw [(List.cons.inj h).1] at hb
      exact absurd hk (Nat.not_lt.mpr hb)

theorem unescaped_of_ne (h : k ≠ 37) : unescaped (k :: bs) = k :: unescaped bs := by
  rw [unescaped]
  rintro a b rest rfl
  exact absurd rfl h

theorem unescaped_append (h : ∀ k ∈ front, k ≠ 37) :
    unescaped (front ++ bs) = front ++ unescaped bs := by
  induction front with
  | nil => rfl
  | cons k front ih =>
    obtain ⟨hk, hfront⟩ := forall_mem_cons.mp h
    rw [cons_append, unescaped_of_ne hk, ih hfront, cons_append]

theorem unescaped_escape (ha : hexDigit? a = some x) (hb : hexDigit? b = some y) :
    unescaped (charBytes ('%' :: a :: b :: cs)) = (16 * x + y) :: unescaped (charBytes cs) := by
  rw [charBytes_cons_of_lt (by decide), charBytes_cons_of_lt (bounds_of_hexDigit? ha).2.1,
    charBytes_cons_of_lt (bounds_of_hexDigit? hb).2.1]
  rw [hexDigit?_eq] at ha hb
  show unescaped (37 :: a.toNat :: b.toNat :: charBytes cs) = _
  rw [unescaped, ha, hb]

theorem unescaped_percent (h : ∀ a b ds, cs = a :: b :: ds →
      ¬ ((hexDigit? a).isSome ∧ (hexDigit? b).isSome)) :
    unescaped (37 :: charBytes cs) = 37 :: unescaped (charBytes cs) := by
  rcases hbytes : charBytes cs with - | ⟨k, - | ⟨l, bs⟩⟩
  · rfl
  · rfl
  · rw [unescaped]
    split
    · rename_i x y hx hy
      obtain ⟨a, ds, rfl, rfl, hrest⟩ := eq_cons_of_charBytes hbytes (bounds_of_hexValue? hx).2.1
      obtain ⟨b, es, rfl, rfl, -⟩ := eq_cons_of_charBytes hrest (bounds_of_hexValue? hy).2.1
      rw [← hexDigit?_eq] at hx hy
      exact absurd ⟨Option.isSome_of_eq_some hx, Option.isSome_of_eq_some hy⟩ (h a b es rfl)
    · rfl

/-- The bytes of a character that opens no escape are kept. -/
theorem unescaped_kept (h : ∀ a b ds, c = '%' → cs = a :: b :: ds →
      ¬ ((hexDigit? a).isSome ∧ (hexDigit? b).isSome)) :
    unescaped (charBytes (c :: cs)) =
      (utf8EncodeChar c).map UInt8.toNat ++ unescaped (charBytes cs) := by
  by_cases hc : c = '%'
  · subst hc
    exact unescaped_percent fun a b ds => h a b ds rfl
  rw [charBytes_cons]
  refine unescaped_append fun k hk => ?_
  rcases Rpc.Frame.utf8EncodeChar_cases c with ⟨-, hbytes⟩ | ⟨-, -, hlarge⟩
  · rw [hbytes, mem_singleton] at hk
    rintro rfl
    exact hc (Char.toNat_inj.mp hk.symm)
  · obtain ⟨b, hb, rfl⟩ := mem_map.mp hk
    have := hlarge b hb
    omega

end Rule

/-! ## Signed escapes -/

/-- There is a percent sign with a plus sign and a hexadecimal digit behind it. -/
def Signed : Prop := ∃ d, (hexDigit? d).isSome ∧ ['%', '+', d] <:+: cs

theorem signed_cons {c : Char} {cs : List Char} : Signed (c :: cs) ↔
    (∃ d ds, c = '%' ∧ cs = '+' :: d :: ds ∧ (hexDigit? d).isSome) ∨ Signed cs := by
  simp only [Signed, infix_cons_iff, and_or_left, exists_or]
  refine or_congr_left (exists_congr fun d => ⟨?_, ?_⟩)
  · rintro ⟨hd, ds, ⟨⟩⟩
    exact ⟨ds, rfl, rfl, hd⟩
  · rintro ⟨ds, rfl, rfl, hd⟩
    exact ⟨hd, ds, rfl⟩

/-- Bytes that are the same but for some small bytes, each of which comes from a signed escape and
is left as the escape on the other side. -/
inductive Widened : Nat → List Nat → List Nat → Prop
  | nil : Widened 0 [] []
  | same (b : Nat) {n : Nat} {as bs : List Nat} (h : Widened n as bs) :
    Widened n (b :: as) (b :: bs)
  | signed {a d n : Nat} {as bs : List Nat} (ha : a < 0x80) (hd : d < 0x80) (h : Widened n as bs) :
      Widened (n + 1) (a :: as) (37 :: 43 :: d :: bs)

namespace Widened

variable {n low high tails bits : Nat} {as bs front : List Nat}

theorem append (h : Widened n as bs) (front : List Nat) :
    Widened n (front ++ as) (front ++ bs) := by
  induction front with
  | nil => exact h
  | cons b front ih => exact .same b ih

theorem eq_of_zero (h : Widened 0 as bs) : as = bs := by
  generalize hn : 0 = n at h
  induction h with
  | nil => rfl
  | same b _ ih => rw [ih hn]
  | signed => cases hn

theorem readTails (h : Widened n as bs) (hlow : tails = 0 ∨ 0x80 ≤ low) :
    (readTails low high tails bits as).1 = (readTails low high tails bits bs).1 ∧
      Widened n (readTails low high tails bits as).2 (readTails low high tails bits bs).2 := by
  induction tails generalizing low high bits as bs with
  | zero => exact ⟨rfl, h⟩
  | succ tails ih =>
    cases h with
    | nil => exact ⟨rfl, .nil⟩
    | same b h =>
      rw [readTails, readTails]
      split
      · exact ih h (.inr (Nat.le_refl _))
      · exact ⟨rfl, .same b h⟩
    | signed ha hd h =>
      rw [readTails, if_neg (by simp; omega), readTails, if_neg (by simp; omega)]
      exact ⟨rfl, .signed ha hd h⟩

end Widened

theorem lossyChars_small {b : Nat} {bs : List Nat} (h : b < 0x80) :
    lossyChars (b :: bs) = Char.ofNat b :: lossyChars bs := by
  have hlead : leadByte? b = some ⟨0, 0, 0, b⟩ := by rw [leadByte?, if_pos h]
  rw [lossyChars_of_some hlead]
  rfl

/-- **Each signed escape that is left as it is gives two characters more.** -/
theorem length_lossyChars_widened {n : Nat} {as bs : List Nat} (h : Widened n as bs) :
    (lossyChars bs).length = (lossyChars as).length + 2 * n := by
  -- the reading of a character goes on behind its last byte, so the induction is on the length
  induction hlen : as.length using Nat.strong_induction_on generalizing n as bs with
  | _ len ih =>
    cases h with
    | nil => rfl
    | @same b n as bs h =>
      cases hlead : leadByte? b with
      | none =>
        rw [lossyChars_of_none hlead, lossyChars_of_none hlead, length_cons, length_cons,
          ih as.length (by simp [← hlen]) h rfl]
        omega
      | some lead =>
        have hshort := readTails_length_le lead.low lead.high lead.tails lead.bits as
        have hbounds := (bounds_of_leadByte? hlead).imp_right And.left
        rw [lossyChars_of_some hlead, lossyChars_of_some hlead, length_cons, length_cons,
          ih _ (by simp [← hlen]; omega) (h.readTails hbounds).2 rfl]
        omega
    | @signed a d n as bs ha hd h =>
      rw [lossyChars_small ha, lossyChars_small (by omega), lossyChars_small (by omega),
        lossyChars_small hd]
      have := ih as.length (by simp [← hlen]) h rfl
      simp only [length_cons]
      omega

section Decoding

variable {a b c : Char} {cs ws : List Char} {k : Nat}

theorem escapedByte?_eq_some (h : escapedByte? a b = some k) :
    (∃ x y, hexDigit? a = some x ∧ hexDigit? b = some y ∧ k = 16 * x + y) ∨
      a = '+' ∧ hexDigit? b = some k := by
  unfold escapedByte? at h
  split at h
  · rename_i x y hx hy
    exact .inl ⟨x, y, hx, hy, (Option.some.inj h).symm⟩
  · rename_i y ha hb
    split at h
    · rename_i hplus
      exact .inr ⟨hplus, hb.trans h⟩
    · cases h
  · cases h

theorem not_hex_of_escapedByte? (h : escapedByte? a b = none) :
    ¬ ((hexDigit? a).isSome ∧ (hexDigit? b).isSome) ∧
      ¬ (a = '+' ∧ (hexDigit? b).isSome) := by
  unfold escapedByte? at h
  split at h
  · cases h
  · rename_i y ha hb
    split at h
    · cases h
    · rename_i hplus
      simp [ha, hplus]
  · rename_i hb
    simp [hb]

/-- **Decoding follows the rule but for signed escapes.** -/
theorem widened_decoded (cs : List Char) :
    ∃ n, Widened n (decodedBytes cs) (unescaped (charBytes cs)) ∧ (n = 0 ↔ ¬ Signed cs) := by
  fun_induction decodedBytes cs with
  | case1 a b cs byte hbyte ih =>
    obtain ⟨n, hn, hsigned⟩ := ih
    rcases escapedByte?_eq_some hbyte with ⟨x, y, ha, hb, rfl⟩ | ⟨rfl, hb⟩
    · rw [unescaped_escape ha hb]
      refine ⟨n, .same _ hn, ?_⟩
      simp [hsigned, signed_cons, bounds_of_hexDigit? ha, bounds_of_hexDigit? hb]
    · obtain ⟨hbyte, hlt, hpercent, -⟩ := bounds_of_hexDigit? hb
      have hkept : unescaped (charBytes ('%' :: '+' :: b :: cs)) =
          37 :: 43 :: b.toNat :: unescaped (charBytes cs) := by
        rw [unescaped_kept (by simp [hexDigit?]),
          unescaped_kept (by simp), charBytes_cons_of_lt hlt, unescaped_of_ne]
        · rfl
        · exact fun heq => hpercent (Char.toNat_inj.mp heq)
      rw [hkept]
      refine ⟨n + 1, .signed (by omega) hlt hn, iff_of_false (by simp) (not_not_intro ?_)⟩
      exact signed_cons.mpr (.inl ⟨b, cs, rfl, rfl, Option.isSome_of_eq_some hb⟩)
  | case2 a b cs hbyte ih =>
    obtain ⟨n, hn, hsigned⟩ := ih
    obtain ⟨hhex, hplus⟩ := not_hex_of_escapedByte? hbyte
    rw [unescaped_kept (by rintro _ _ _ - ⟨⟩; exact hhex)]
    refine ⟨n, .same 37 hn, hsigned.trans (not_congr ?_)⟩
    rw [signed_cons (c := '%'), or_iff_right]
    rintro ⟨d, ds, -, ⟨⟩, hd⟩
    exact hplus ⟨rfl, hd⟩
  | case3 c cs hplain ih =>
    obtain ⟨n, hn, hsigned⟩ := ih
    rw [utf8Bytes_singleton, unescaped_kept fun a b ds hc hcs => absurd hcs (hplain a b ds hc)]
    refine ⟨n, hn.append _, hsigned.trans (not_congr ?_)⟩
    rw [signed_cons, or_iff_right]
    rintro ⟨d, ds, hc, hcs, -⟩
    exact hplain _ _ _ hc hcs
  | case4 => exact ⟨0, .nil, iff_of_true rfl (by simp [Signed])⟩

/-! ## Reading back -/

/-- A byte written as an escape, with digits of either case. -/
inductive EscapeOf : Nat → List Char → Prop
  | mk {a b : Char} {x y : Nat} (ha : hexDigit? a = some x) (hb : hexDigit? b = some y) :
      EscapeOf (16 * x + y) ['%', a, b]

/-- **A text written with escapes**: a character other than a percent sign may stand for itself, and
any character may be written as the escapes of its bytes. -/
inductive Encoding : List Char → List Char → Prop
  | nil : Encoding [] []
  | plain {c : Char} {cs ws : List Char} (hc : c ≠ '%') (h : Encoding cs ws) :
      Encoding (c :: cs) (c :: ws)
  | escaped {c : Char} {cs ws : List Char} {escapes : List (List Char)}
      (hc : Forall₂ EscapeOf ((utf8EncodeChar c).map UInt8.toNat) escapes)
      (h : Encoding cs ws) : Encoding (c :: cs) (escapes.flatten ++ ws)

theorem decodedBytes_escapes {bytes : List Nat} {escapes : List (List Char)}
    (h : Forall₂ EscapeOf bytes escapes) (ws : List Char) :
    decodedBytes (escapes.flatten ++ ws) = bytes ++ decodedBytes ws := by
  induction h with
  | nil => rfl
  | @cons _ _ bytes escapes hescape _ ih =>
    cases hescape with
    | @mk a b x y ha hb =>
      have hbyte : escapedByte? a b = some (16 * x + y) := by rw [escapedByte?, ha, hb]
      show decodedBytes ('%' :: a :: b :: (escapes.flatten ++ ws)) = _
      rw [decodedBytes, hbyte]
      exact congrArg _ ih

/-- Decoding gives the bytes of the text that is written. -/
theorem decodedBytes_encoding (h : Encoding cs ws) : decodedBytes ws = charBytes cs := by
  induction h with
  | nil => rfl
  | plain hc _ ih =>
    rw [decodedBytes, utf8Bytes_singleton, ih, charBytes_cons]
    exact fun _ _ _ hpercent => absurd hpercent hc
  | escaped hc _ ih => rw [decodedBytes_escapes hc, ih, charBytes_cons]

end Decoding

/-- **Decoding follows the rule for percent escapes on exactly the texts without a signed escape**,
and it gives back every text that is written with its percent signs escaped. -/
theorem percentDecode_follows_rule_iff (raw : String) :
    (percentDecode raw = Text.utf8Lossy (unescaped (Text.utf8Bytes raw)) ↔
        ∀ d, (Text.hexDigit? d).isSome → ¬ ['%', '+', d] <:+: raw.toList) ∧
      ∀ text : String, Encoding text.toList raw.toList → percentDecode raw = text := by
  refine ⟨?_, fun text h => ?_⟩
  · obtain ⟨n, hn, hsigned⟩ := widened_decoded raw.toList
    have hcond : (∀ d, (Text.hexDigit? d).isSome → ¬ ['%', '+', d] <:+: raw.toList) ↔ n = 0 := by
      rw [hsigned]
      simp [Signed]
    rw [hcond, percentDecode, utf8Bytes_eq]
    constructor
    · intro heq
      have hlength := length_lossyChars_widened hn
      rw [Text.utf8Lossy, Text.utf8Lossy, ofList_inj] at heq
      rw [heq] at hlength
      omega
    · rintro rfl
      rw [hn.eq_of_zero]
  · rw [percentDecode, decodedBytes_encoding h, Text.utf8Lossy, lossyChars_charBytes, ofList_toList]

/-- A plus sign and a digit are taken for a byte. -/
theorem percentDecode_signed_escape : percentDecode "a%+5b" = "a\x05b" ∧
    Text.utf8Lossy (unescaped (Text.utf8Bytes "a%+5b")) = "a%+5b" := by
  decide +kernel

end RouteAtlas.Path
