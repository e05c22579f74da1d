import RouteAtlas.Json.Reader
import RouteAtlas.Json.Writer

/-!
# Reading inverts writing

The compact form of a value is read back as the value, members in the order in which they were
written. `Fits` says what the reader asks for: integers within 64 bits, decimals within the range
of double precision, and few enough containers inside each other.
-/

open List Option

namespace RouteAtlas.Json

variable {rest : List Char} {n fuel depth : Nat} {c : Char} {item value : Json} {key : String}

/-! ## Numbers -/

theorem digitsValue_toDigits (n : Nat) : digitsValue (Nat.toDigits 10 n) = n := by
  have h := Nat.ofDigitChars_ten_toDigits (n := n)
  rw [Nat.ofDigitChars_eq_foldl] at h
  simpa [digitsValue, Nat.mul_comm] using h

/-- Neither a number nor a word goes on here. -/
def Stops (rest : List Char) : Prop :=
  ∀ c, rest.head? = some c → c = ',' ∨ c = ']' ∨ c = '}'

theorem stops_nil : Stops [] := by
  intro c h
  cases h

theorem digits_append {ds : List Char} (hds : ∀ d ∈ ds, d.isDigit)
    (hrest : ∀ c, rest.head? = some c → c.isDigit = false) : digits (ds ++ rest) = (ds, rest) := by
  have htake : rest.takeWhile Char.isDigit = [] := by
    cases rest with
    | nil => rfl
    | cons c rest => simp [hrest c rfl]
  have hdrop : rest.dropWhile Char.isDigit = rest := by
    cases rest with
    | nil => rfl
    | cons c rest => simp [hrest c rfl]
  unfold digits
  rw [takeWhile_append_of_pos hds, dropWhile_append_of_pos hds, htake, hdrop, append_nil]

theorem isDigit_of_mem_toDigits {d : Char} (h : d ∈ Nat.toDigits 10 n) : d.isDigit :=
  Nat.isDigit_of_mem_toDigits (by decide) (by decide) h

theorem exists_digit (n : Nat) : ∃ d ds, Nat.toDigits 10 n = d :: ds ∧ d.isDigit := by
  cases hds : Nat.toDigits 10 n with
  | nil => exact absurd hds Nat.toDigits_ne_nil
  | cons d ds => exact ⟨d, ds, rfl, isDigit_of_mem_toDigits (n := n) (by simp [hds])⟩

theorem head?_toDigits (hn : n ≠ 0) : (Nat.toDigits 10 n).head? ≠ some '0' := by
  induction n using Nat.strongRecOn with
  | ind n ih =>
    by_cases hlt : n < 10
    · rw [Nat.toDigits_of_lt_base hlt]
      have : ∀ m, m < 10 → m ≠ 0 → Nat.digitChar m ≠ '0' := by decide
      simpa using this n hlt hn
    · rw [Nat.toDigits_of_base_le (by decide) (by omega)]
      have hhead := ih (n / 10) (by omega) (by omega)
      obtain ⟨d, ds, hds, -⟩ := exists_digit (n / 10)
      rw [hds] at hhead ⊢
      simpa using hhead

theorem not_padded (n : Nat) :
    ((Nat.toDigits 10 n).isEmpty ||
      ((Nat.toDigits 10 n).head? == some '0' && decide ((Nat.toDigits 10 n).length > 1)))
        = false := by
  by_cases hn : n = 0
  · subst hn
    decide
  · have hhead := head?_toDigits hn
    simp [hhead]

variable (neg : Bool)

/-- The text of an integer, its sign apart. -/
def signed (n : Nat) : List Char := (if neg then ['-'] else []) ++ Nat.toDigits 10 n

theorem toList_toString (n : Int) : (toString n).toList = signed (decide (n < 0)) n.natAbs := by
  cases n with
  | ofNat n =>
    have htext : toString (Int.ofNat n) = Nat.repr n := rfl
    rw [htext, Nat.repr_eq_ofList_toDigits, String.toList_ofList]
    rfl
  | negSucc n =>
    have htext : toString (Int.negSucc n) = "-" ++ Nat.repr (n + 1) := rfl
    simp [htext, signed]

def numberTail? (whole tail : List Char) : Option (Json × List Char) :=
  (fraction? tail).bind fun frac => (exponent? frac.2).bind fun exp =>
    (numberOf? neg whole frac.1 exp.1).bind fun value => some (value, exp.2)

theorem number?_signed {tail : List Char}
    (htail : ∀ c, tail.head? = some c → c.isDigit = false) :
    number? (signed neg n ++ tail) = numberTail? neg (Nat.toDigits 10 n) tail := by
  have hdigits := digits_append (fun _ => isDigit_of_mem_toDigits (n := n)) htail
  unfold number? numberTail?
  cases neg with
  | true =>
    simp only [signed, if_true, cons_append, nil_append, hdigits, not_padded]
    exact if_neg Bool.false_ne_true
  | false =>
    obtain ⟨d, ds, hds, hd⟩ := exists_digit n
    have hpad := not_padded n
    have htext : signed false n ++ tail = d :: ds ++ tail := by simp [signed, hds]
    rw [hds] at hdigits hpad ⊢
    split
    rename_i sign unsigned hsign
    rw [htext] at hsign
    split at hsign
    · rename_i hminus
      cases hminus
      cases hd
    · cases hsign
      simp only [hdigits, hpad]
      exact if_neg Bool.false_ne_true

theorem isDigit_of_stops (h : Stops rest) (c : Char) (hc : rest.head? = some c) :
    c.isDigit = false := by
  obtain rfl | rfl | rfl := h c hc <;> rfl

theorem fraction?_of_ne (h : rest.head? ≠ some '.') : fraction? rest = some ([], rest) := by
  unfold fraction?
  split
  · exact absurd rfl h
  · rfl

theorem exponent?_of_stops (h : Stops rest) : exponent? rest = some (none, rest) := by
  unfold exponent?
  split
  · rcases h 'e' rfl with h | h | h <;> cases h
  · rcases h 'E' rfl with h | h | h <;> cases h
  · rfl

theorem Stops.head?_ne (h : Stops rest) : rest.head? ≠ some '.' := by
  intro hdot
  rcases h '.' hdot with h | h | h <;> cases h

theorem numberOf?_integer {n : Int} (hn : -0x8000000000000000 ≤ n ∧ n < 0x10000000000000000) :
    numberOf? (decide (n < 0)) (Nat.toDigits 10 n.natAbs) [] none = some (.integer n) := by
  unfold numberOf?
  simp only [digitsValue_toDigits, isEmpty_nil, and_self, if_true, decide_eq_true_eq]
  by_cases hneg : n < 0
  · rw [if_pos hneg, if_neg (by omega), if_pos (by omega)]
    congr 2
    omega
  · rw [if_neg hneg, if_pos (by omega)]
    congr 2
    omega

theorem number?_integer {n : Int} (hn : -0x8000000000000000 ≤ n ∧ n < 0x10000000000000000)
    (hrest : Stops rest) : number? ((toString n).toList ++ rest) = some (.integer n, rest) := by
  rw [toList_toString, number?_signed _ (isDigit_of_stops hrest), numberTail?,
    fraction?_of_ne hrest.head?_ne, bind_some, exponent?_of_stops hrest, bind_some,
    numberOf?_integer hn, bind_some]

theorem exponent?_written (e : Int) (hrest : Stops rest) :
    exponent? ('e' :: ((toString e).toList ++ rest)) = some (some e, rest) := by
  have hdigits := digits_append (fun _ => isDigit_of_mem_toDigits (n := e.natAbs))
    (isDigit_of_stops hrest)
  have hvalue := digitsValue_toDigits e.natAbs
  obtain ⟨d, ds, hds, hd⟩ := exists_digit e.natAbs
  rw [hds] at hdigits hvalue
  rw [toList_toString, signed, hds, append_assoc]
  by_cases hneg : e < 0
  · rw [decide_eq_true hneg, if_pos rfl, singleton_append, exponent?]
    simp only [hdigits, isEmpty_cons, Bool.false_eq_true, if_false, if_true]
    congr 3
    omega
  · rw [decide_eq_false hneg, if_neg Bool.false_ne_true, nil_append, exponent?]
    · simp only [hdigits, isEmpty_cons, Bool.false_eq_true, if_false]
      congr 3
      omega
    all_goals
      rintro cs hsign
      cases hsign
      cases hd

theorem number?_decimal {m e : Int} (hfinite : isFinite m.natAbs e) (hrest : Stops rest) :
    number? ((toString m).toList ++ 'e' :: ((toString e).toList ++ rest))
      = some (.decimal m e, rest) := by
  have hvalue : numberOf? (decide (m < 0)) (Nat.toDigits 10 m.natAbs) [] (some e)
      = some (.decimal m e) := by
    have hsign : (if m < 0 then (-1 : Int) else 1) * m.natAbs = m := by
      split <;> omega
    unfold numberOf?
    simp only [reduceCtorEq, and_false, if_false, decide_eq_true_eq, append_nil,
      digitsValue_toDigits, getD_some, length_nil, Int.natCast_zero, Int.sub_zero, hfinite,
      if_true, hsign]
  rw [toList_toString, number?_signed _ (by simp), numberTail?, fraction?_of_ne (by simp),
    bind_some, exponent?_written e hrest, bind_some, hvalue, bind_some]

/-! ## Strings -/

theorem hexDigit?_hexChar (h : n < 16) : Text.hexDigit? (hexChar n) = some n := by
  have : ∀ m, m < 16 → Text.hexDigit? (hexChar m) = some m := by decide
  exact this n h

theorem unicodeEscape?_control (hc : c.toNat < 0x20) (rest : List Char) :
    unicodeEscape? ('0' :: '0' :: hexChar (c.toNat / 16) :: hexChar (c.toNat % 16) :: rest)
      = some (c, rest) := by
  have hzero : Text.hexDigit? '0' = some 0 := by decide
  have hhex : hex4? ('0' :: '0' :: hexChar (c.toNat / 16) :: hexChar (c.toNat % 16) :: rest)
      = some (c.toNat, rest) := by
    simp only [hex4?, hzero, hexDigit?_hexChar (n := c.toNat / 16) (by omega),
      hexDigit?_hexChar (n := c.toNat % 16) (by omega), bind_eq_bind, bind_some]
    congr 2
    omega
  simp only [unicodeEscape?, hhex, bind_eq_bind, bind_some]
  rw [if_neg (by omega), if_neg (by omega), Char.ofNat_toNat]

theorem stringBody?_letter {e : Char} (he : e ≠ 'u') (hc : escapeLetter? e = some c) (fuel : Nat)
    (cs : List Char) :
    stringBody? (fuel + 1) ('\\' :: e :: cs)
      = (stringBody? fuel cs).bind fun found => some (c :: found.1, found.2) := by
  rw [stringBody?]
  · rw [hc]
    rfl
  · exact he

/-- One step of the reader undoes one step of the writer. -/
theorem stringBody?_escapeChar (fuel : Nat) (cs : List Char) :
    stringBody? (fuel + 1) (escapeChar c ++ cs)
      = (stringBody? fuel cs).bind fun found => some (c :: found.1, found.2) := by
  unfold escapeChar
  by_cases hletter : c ∈ ['"', '\\', '\n', '\r', '\t', '\x08', '\x0c']
  · simp only [mem_cons, not_mem_nil, or_false] at hletter
    rcases hletter with rfl | rfl | rfl | rfl | rfl | rfl | rfl <;>
      exact stringBody?_letter (by decide) rfl fuel cs
  simp only [mem_cons, not_or] at hletter
  simp only [beq_iff_eq, hletter, if_false]
  obtain ⟨hquote, hback, -⟩ := hletter
  by_cases hcontrol : c.toNat < 0x20
  · rw [if_pos hcontrol]
    simp only [cons_append]
    rw [stringBody?, unicodeEscape?_control hcontrol]
    rfl
  · rw [if_neg hcontrol, singleton_append, stringBody?]
    · simp [hcontrol, hback]
    · exact hquote
    · exact fun _ h _ => hback h
    · exact fun _ _ h _ => hback h

theorem stringBody?_escaped {s : List Char} (h : s.length < fuel) (rest : List Char) :
    stringBody? fuel (s.flatMap escapeChar ++ '"' :: rest) = some (s, rest) := by
  induction s generalizing fuel with
  | nil =>
    obtain ⟨fuel, rfl⟩ := Nat.exists_eq_add_of_lt h
    rfl
  | cons c s ih =>
    obtain ⟨fuel, rfl⟩ := Nat.exists_eq_add_of_lt h
    rw [flatMap_cons, append_assoc, stringBody?_escapeChar, ih (by simp; omega)]
    rfl

theorem length_le_escaped (s : List Char) : s.length ≤ (s.flatMap escapeChar).length := by
  induction s with
  | nil => exact Nat.le_refl 0
  | cons c s ih =>
    have hc : 1 ≤ (escapeChar c).length := by
      unfold escapeChar
      repeat' split
      all_goals simp
    simp only [flatMap_cons, length_append, length_cons]
    omega

theorem stringAfterQuote?_quoted (s : String) (rest : List Char) :
    stringAfterQuote? (s.toList.flatMap escapeChar ++ '"' :: rest) = some (s, rest) := by
  have hlength := length_le_escaped s.toList
  have henough : s.toList.length < (s.toList.flatMap escapeChar ++ '"' :: rest).length + 1 := by
    rw [length_append]
    omega
  rw [stringAfterQuote?, stringBody?_escaped henough]
  simp

/-! ## Values -/

mutual

/-- The value is one that the reader takes, with `depth` levels of containers allowed. -/
def fits : (depth : Nat) → Json → Bool
  | _, .integer n => decide (-0x8000000000000000 ≤ n ∧ n < 0x10000000000000000)
  | _, .decimal mantissa exponent => isFinite mantissa.natAbs exponent
  | depth, .array items => decide (1 < depth) && fitsItems (depth - 1) items
  | depth, .object members => decide (1 < depth) && fitsMembers (depth - 1) members
  | _, .null | _, .bool _ | _, .string _ => true

def fitsItems : (depth : Nat) → List Json → Bool
  | _, [] => true
  | depth, item :: items => fits depth item && fitsItems depth items

def fitsMembers : (depth : Nat) → List (String × Json) → Bool
  | _, [] => true
  | depth, (_, value) :: members => fits depth value && fitsMembers depth members

end

theorem fitsItems_iff {items : List Json} :
    fitsItems depth items ↔ ∀ item ∈ items, item.fits depth := by
  induction items with
  | nil => simp [fitsItems]
  | cons item items ih => simp [fitsItems, ih]

theorem fitsMembers_iff {members : List (String × Json)} :
    fitsMembers depth members ↔ ∀ m ∈ members, m.2.fits depth := by
  induction members with
  | nil => simp [fitsMembers]
  | cons m members ih => simp [fitsMembers, ih]

/-- The text of a member. -/
def memberText (m : String × Json) : String := quote m.1 ++ ":" ++ m.2.compact

theorem compactItems_eq (items : List Json) : compactItems items = items.map compact := by
  induction items with
  | nil => rfl
  | cons item items ih => rw [compactItems, ih, map_cons]

theorem compactMembers_eq (members : List (String × Json)) :
    compactMembers members = members.map memberText := by
  induction members with
  | nil => rfl
  | cons m members ih => rw [compactMembers, ih, map_cons, memberText]

variable (parts : List String)

def listed : List Char := parts.flatMap fun part => ',' :: part.toList

theorem length_le_listed : parts.length ≤ (listed parts).length := by
  induction parts with
  | nil => exact Nat.le_refl 0
  | cons part parts ih =>
    simp only [listed, flatMap_cons, cons_append, length_cons, length_append] at ih ⊢
    omega

theorem toList_intercalate_cons (part : String) (parts : List String) :
    (",".intercalate (part :: parts)).toList = part.toList ++ listed parts := by
  induction parts generalizing part with
  | nil => simp [listed]
  | cons next parts ih =>
    have := ih next
    simp only [String.toList_intercalate, map_cons, listed] at this ⊢
    rw [intercalate_cons_cons, this]
    simp

theorem skipGap_cons (hc : isGap c = false) (cs : List Char) : skipGap (c :: cs) = c :: cs := by
  simp [skipGap, hc]

theorem toList_quote (s : String) :
    (quote s).toList = '"' :: (s.toList.flatMap escapeChar ++ ['"']) := by
  simp [quote]

theorem exists_signed (n : Nat) : ∃ c cs, signed neg n = c :: cs ∧ (c.isDigit ∨ c = '-') := by
  obtain ⟨d, ds, hds, hd⟩ := exists_digit n
  cases neg with
  | true => exact ⟨'-', _, rfl, .inr rfl⟩
  | false => exact ⟨d, ds, by simp [signed, hds], .inl hd⟩

theorem ne_of_sign {d : Char} (hc : c.isDigit ∨ c = '-') (hd : d.isDigit = false)
    (hminus : d ≠ '-') : c ≠ d := by
  rintro rfl
  rcases hc with hc | hc
  · rw [hd] at hc
    cases hc
  · exact hminus hc

theorem isGap_of_sign (hc : c.isDigit ∨ c = '-') : isGap c = false := by
  simp [isGap, ne_of_sign hc]

theorem scalar?_number (hc : c.isDigit ∨ c = '-') (cs : List Char) :
    scalar? (c :: cs) = number? (c :: cs) := by
  unfold scalar?
  split
  case h_5 => rfl
  all_goals
    rename_i heq
    cases heq
    exact absurd rfl (ne_of_sign hc rfl (by decide))

/-- What starts with no gap and no opening bracket is no container. -/
theorem value?_scalar (hgap : isGap c = false) (hc : c ≠ '[' ∧ c ≠ '{') (depth : Nat)
    (cs : List Char) : value? depth (c :: cs) = scalar? (c :: cs) := by
  unfold value?
  split
  · rw [skipGap_cons hgap]
    split
    · rename_i heq
      exact absurd (cons.inj heq).1 hc.1
    · rename_i heq
      exact absurd (cons.inj heq).1 hc.2
    · rfl
  · rw [skipGap_cons hgap]

theorem toList_compact_decimal (m e : Int) :
    (compact (.decimal m e)).toList = (toString m).toList ++ 'e' :: (toString e).toList := by
  have : compact (.decimal m e) = toString m ++ "e" ++ toString e := rfl
  simp [this]

theorem toList_compact_array (items : List Json) :
    (compact (.array items)).toList
      = '[' :: ((",".intercalate (items.map compact)).toList ++ [']']) := by
  simp [compact, compactItems_eq]

theorem toList_compact_object (members : List (String × Json)) :
    (compact (.object members)).toList
      = '{' :: ((",".intercalate (members.map memberText)).toList ++ ['}']) := by
  simp [compact, compactMembers_eq]

/-- A written value does not start with a gap or as the end of a container. -/
theorem exists_first (v : Json) :
    ∃ c cs, v.compact.toList = c :: cs ∧ isGap c = false ∧ c ≠ ']' := by
  cases v with
  | null => exact ⟨_, _, rfl, rfl, by decide⟩
  | bool b => cases b <;> exact ⟨_, _, rfl, rfl, by decide⟩
  | integer n =>
    obtain ⟨c, cs, htext, hc⟩ := exists_signed (decide (n < 0)) n.natAbs
    exact ⟨c, cs, (toList_toString n).trans htext, isGap_of_sign hc, ne_of_sign hc rfl (by decide)⟩
  | decimal m e =>
    obtain ⟨c, cs, htext, hc⟩ := exists_signed (decide (m < 0)) m.natAbs
    rw [toList_compact_decimal, toList_toString, htext]
    exact ⟨c, _, rfl, isGap_of_sign hc, ne_of_sign hc rfl (by decide)⟩
  | string s => exact ⟨_, _, toList_quote s, rfl, by decide⟩
  | array items => exact ⟨_, _, toList_compact_array items, rfl, by decide⟩
  | object members => exact ⟨_, _, toList_compact_object members, rfl, by decide⟩

theorem stops_listed {k : Char} (hk : k = ']' ∨ k = '}')
    (rest : List Char) : Stops (listed parts ++ k :: rest) := by
  intro c hc
  cases parts with
  | nil =>
    obtain rfl : k = c := some.inj hc
    exact .inr hk
  | cons part parts => exact .inl (some.inj hc).symm

theorem value?_signed (n depth : Nat) (tail : List Char) :
    value? depth (signed neg n ++ tail) = number? (signed neg n ++ tail) := by
  obtain ⟨c, cs, htext, hc⟩ := exists_signed neg n
  rw [htext, cons_append, value?_scalar (isGap_of_sign hc)
    ⟨ne_of_sign hc rfl (by decide), ne_of_sign hc rfl (by decide)⟩, scalar?_number hc]

theorem value?_string (s : String) (depth : Nat) (rest : List Char) :
    value? depth ((quote s).toList ++ rest) = some (.string s, rest) := by
  have hbody : (s.toList.flatMap escapeChar ++ ['"']) ++ rest
      = s.toList.flatMap escapeChar ++ '"' :: rest := by simp
  rw [toList_quote, cons_append, hbody, value?_scalar rfl (by decide), scalar?,
    stringAfterQuote?_quoted]
  rfl

/-! ## Containers -/

section Containers

variable {α : Type} {item? : List Char → Option (α × List Char)} {text : α → String} {k : Char}

/-- **Entries that are read back one by one are read back together**, one step of the recursion for
each of them. -/
theorem entries?_listed (hk : k = ']' ∨ k = '}') {e : α} {es : List α} (henough : es.length < fuel)
    (hread : ∀ x ∈ e :: es, ∀ rest, Stops rest →
      item? ((text x).toList ++ rest) = some (x, rest)) (rest : List Char) :
    entries? item? k fuel ((text e).toList ++ (listed (es.map text) ++ k :: rest))
      = some (e :: es, rest) := by
  induction es generalizing e fuel with
  | nil =>
    obtain ⟨fuel, rfl⟩ := Nat.exists_eq_add_of_lt henough
    rw [entries?, hread e (by simp) _ (stops_listed _ hk rest)]
    rcases hk with rfl | rfl <;> rfl
  | cons next es ih =>
    obtain ⟨fuel, rfl⟩ := Nat.exists_eq_add_of_lt henough
    have hnext := @ih (es.length + 1 + fuel) next (by omega) fun x hx =>
      hread x (mem_cons_of_mem _ hx)
    rw [entries?, hread e (by simp) _ (stops_listed _ hk rest)]
    show Option.map _ (entries? item? k _ ((text next).toList ++ listed (es.map text) ++
      k :: rest)) = _
    rw [append_assoc, length_cons, hnext]
    rfl

theorem container?_written (hk : k = ']' ∨ k = '}') {xs : List α}
    (hread : ∀ x ∈ xs, ∀ rest, Stops rest → item? ((text x).toList ++ rest) = some (x, rest))
    (hfirst : ∀ x ∈ xs, ∃ c cs, (text x).toList = c :: cs ∧ isGap c = false ∧ c ≠ k)
    (rest : List Char) :
    container? item? k ((",".intercalate (xs.map text)).toList ++ k :: rest) = some (xs, rest) := by
  cases xs with
  | nil => rcases hk with rfl | rfl <;> rfl
  | cons x xs =>
    obtain ⟨c, cs, hc, hgap, hne⟩ := hfirst x mem_cons_self
    have hlength := length_le_listed (xs.map text)
    rw [length_map] at hlength
    have henough : xs.length < ((text x).toList ++ (listed (xs.map text) ++ k :: rest)).length := by
      simp only [length_append, length_cons]
      omega
    have hall := entries?_listed hk henough hread rest
    rw [map_cons, toList_intercalate_cons, append_assoc, container?]
    rw [hc, cons_append] at hall ⊢
    rw [skipGap_cons hgap]
    exact (if_neg hne).trans hall

end Containers

theorem keyed?_written {read? : List Char → Option (Json × List Char)} {m : String × Json}
    {rest : List Char} (h : read? (m.2.compact.toList ++ rest) = some (m.2, rest)) :
    keyed? read? ((memberText m).toList ++ rest) = some (m, rest) := by
  have htext : (memberText m).toList ++ rest = '"' :: (m.1.toList.flatMap escapeChar ++
      '"' :: ':' :: (m.2.compact.toList ++ rest)) := by
    simp [memberText, toList_quote]
  rw [htext, keyed?, skipGap_cons rfl]
  show Option.bind (stringAfterQuote? _) _ = _
  rw [stringAfterQuote?_quoted]
  show Option.map _ (read? _) = _
  rw [h]
  rfl

/-! ## The whole tree -/

theorem value?_atom {v : Json} (hfits : v.fits depth) (hrest : Stops rest)
    (harray : ∀ items, v ≠ .array items) (hobject : ∀ members, v ≠ .object members) :
    value? depth (v.compact.toList ++ rest) = some (v, rest) := by
  cases v with
  | null => exact value?_scalar rfl (by decide) depth _
  | bool b => cases b <;> exact value?_scalar rfl (by decide) depth _
  | integer n =>
    show value? depth ((toString n).toList ++ rest) = _
    rw [toList_toString, value?_signed, ← toList_toString,
      number?_integer (of_decide_eq_true hfits) hrest]
  | decimal m e =>
    rw [toList_compact_decimal, append_assoc, cons_append, toList_toString m,
      value?_signed, ← toList_toString m, number?_decimal hfits hrest]
  | string s => exact value?_string s depth rest
  | array items => exact absurd rfl (harray items)
  | object members => exact absurd rfl (hobject members)

/-- The reader gives back a written value, whatever ends it; each container takes one level. -/
theorem value?_compact {v : Json} (hfits : v.fits depth) (hrest : Stops rest) :
    value? depth (v.compact.toList ++ rest) = some (v, rest) := by
  induction depth generalizing v rest with
  | zero =>
    refine value?_atom hfits hrest ?_ ?_ <;> rintro _ rfl <;> cases hfits
  | succ depth ih =>
    cases v with
    | array items =>
      obtain ⟨hdepth, hitems⟩ : 0 < depth ∧ fitsItems depth items := by
        simpa [fits] using hfits
      obtain ⟨depth, rfl⟩ := Nat.exists_eq_add_one_of_ne_zero (Nat.ne_of_gt hdepth)
      have hread := container?_written (.inl rfl)
        (fun x hx _ hrest => ih (fitsItems_iff.mp hitems x hx) hrest)
        (fun x _ => exists_first x) rest
      rw [toList_compact_array, cons_append, append_assoc]
      show Option.map _ (container? _ _ _) = _
      rw [singleton_append, hread]
      rfl
    | object members =>
      obtain ⟨hdepth, hmembers⟩ : 0 < depth ∧ fitsMembers depth members := by
        simpa [fits] using hfits
      obtain ⟨depth, rfl⟩ := Nat.exists_eq_add_one_of_ne_zero (Nat.ne_of_gt hdepth)
      have hread := container?_written (.inr rfl)
        (fun m hm _ hrest => keyed?_written (ih (fitsMembers_iff.mp hmembers m hm) hrest))
        (fun m _ => ⟨_, _, by
          rw [memberText, String.append_assoc, String.toList_append, toList_quote]
          rfl, rfl, by decide⟩) rest
      rw [toList_compact_object, cons_append, append_assoc]
      show Option.map _ (container? _ _ _) = _
      rw [singleton_append, hread]
      rfl
    | null | bool | integer | decimal | string => exact value?_atom hfits hrest nofun nofun

/-- **Reading a written value gives it back.** -/
theorem readWritten?_compact {v : Json} (h : v.fits 128) : readWritten? v.compact = some v := by
  have hvalue := value?_compact h stops_nil
  rw [append_nil] at hvalue
  simp [readWritten?, hvalue, skipGap]

end RouteAtlas.Json
