import RouteAtlas.Proofs.JsoncTexts

/-!
# Plain JSON

A text that the reader of JSON accepts is a sequence of tokens with white gaps, and the tokens
follow the grammar without a spare comma. The relations of this module stand between a text and
what is left of it after the part that was read; they are composed as the reader's functions call
each other.
-/

open List Option

namespace RouteAtlas.Modules.Jsonc

open Json

variable {ts : List Token} {cs rest mid inside : List Char} {c : Char} {fuel : Nat} {k : Container}

/-! ## Tokens with white gaps -/

theorem Spells.ne_nil {part : Part} (h : Spells part ts) : ts ≠ [] := by
  induction h with
  | string | word | empty | filled | member => exact cons_ne_nil _ _
  | item _ ih | last _ ih => exact ih
  | spare _ ih | more _ _ ih => exact append_ne_nil_of_left_ne_nil ih _

def Lexeme.Plain (l : Lexeme) : Prop := l.gap.left = l.gap.text ∧ l.token.left = l.token.text

theorem stripped_eq_spelled {ls : List Lexeme} (h : ∀ l ∈ ls, l.Plain) :
    stripped ls = spelled ls := by
  induction ls with
  | nil => rfl
  | cons l ls ih =>
    obtain ⟨⟨hgap, htoken⟩, hls⟩ := forall_mem_cons.mp h
    simp only [stripped, spelled, flatMap_cons] at ih ⊢
    rw [hgap, htoken, ih hls]

theorem exists_white_gap (cs : List Char) :
    ∃ gap : Gap, cs = gap.text ++ skipGap cs ∧ gap.left = gap.text := by
  induction cs with
  | nil => exact ⟨[], rfl, rfl⟩
  | cons c cs ih =>
    unfold skipGap at ih ⊢
    rw [dropWhile_cons]
    split
    · rename_i hc
      obtain ⟨gap, hcs, hleft⟩ := ih
      refine ⟨.white c hc :: gap, ?_, ?_⟩
      · simpa [Gap.text, GapPiece.text] using hcs
      · simpa [Gap.text, Gap.left, GapPiece.text, GapPiece.left] using hleft
    · exact ⟨[], rfl, rfl⟩

/-- In front of `rest`, the text `cs` consists of the tokens, with white gaps. -/
def Scans (cs : List Char) (ts : List Token) (rest : List Char) : Prop :=
  ∃ ls, cs = spelled ls ++ rest ∧ ls.map Lexeme.token = ts ∧ ∀ l ∈ ls, l.Plain

theorem Scans.token {token : Token} (hleft : token.left = token.text)
    (h : skipGap cs = token.text ++ rest) : Scans cs [token] rest := by
  obtain ⟨gap, hcs, hgap⟩ := exists_white_gap cs
  refine ⟨[⟨gap, token⟩], ?_, rfl, forall_mem_singleton.mpr ⟨hgap, hleft⟩⟩
  rw [hcs, h]
  simp [spelled]

theorem Scans.append {us : List Token} (h : Scans cs ts mid) (h' : Scans mid us rest) :
    Scans cs (ts ++ us) rest := by
  obtain ⟨ls, rfl, rfl, hls⟩ := h
  obtain ⟨ms, rfl, rfl, hms⟩ := h'
  refine ⟨ls ++ ms, by simp [spelled], map_append, ?_⟩
  exact fun l hl => (mem_append.mp hl).elim (hls l) (hms l)

/-- A gap in front belongs to the first token. -/
theorem Scans.of_skipGap (hts : ts ≠ []) (h : Scans (skipGap cs) ts rest) : Scans cs ts rest := by
  obtain ⟨ls, hls, rfl, hplain⟩ := h
  obtain ⟨gap, hcs, hgap⟩ := exists_white_gap cs
  cases ls with
  | nil => exact absurd rfl hts
  | cons l ls =>
    obtain ⟨⟨hleft, htoken⟩, hplains⟩ := forall_mem_cons.mp hplain
    refine ⟨⟨gap ++ l.gap, l.token⟩ :: ls, ?_, rfl, ?_⟩
    · rw [hcs, hls]
      simp [spelled, Gap.text]
    · refine forall_mem_cons.mpr ⟨⟨?_, htoken⟩, hplains⟩
      simp only [Gap.left, Gap.text, flatMap_append] at hgap hleft ⊢
      rw [hgap, hleft]

/-! ## Strings -/

abbrev bodyText (pieces : List StringPiece) : List Char := pieces.flatMap StringPiece.text

theorem isPlain_of_hexDigit {n : Nat} (h : Text.hexDigit? c = some n) : c ≠ '"' ∧ c ≠ '\\' := by
  constructor <;> rintro rfl <;> simp [Text.hexDigit?] at h

theorem exists_pieces_of_hex4 {n : Nat} (h : hex4? cs = some (n, rest)) :
    ∃ pieces, cs = bodyText pieces ++ rest := by
  unfold hex4? at h
  split at h
  · rename_i a b c d _
    simp only [bind_eq_bind, bind_eq_some_iff] at h
    obtain ⟨_, ha, _, hb, _, hc, _, hd, -, rfl⟩ := h
    exact ⟨[.plain a (isPlain_of_hexDigit ha), .plain b (isPlain_of_hexDigit hb),
      .plain c (isPlain_of_hexDigit hc), .plain d (isPlain_of_hexDigit hd)], rfl⟩
  · cases h

theorem exists_pieces_of_unicodeEscape (h : unicodeEscape? cs = some (c, rest)) :
    ∃ pieces, cs = bodyText pieces ++ rest := by
  simp only [unicodeEscape?, bind_eq_bind, bind_eq_some_iff] at h
  obtain ⟨⟨hi, mid⟩, hhi, h⟩ := h
  obtain ⟨pieces, rfl⟩ := exists_pieces_of_hex4 hhi
  simp only at h
  split at h
  · cases h
  split at h
  · -- a leading surrogate, its partner comes next
    split at h
    · obtain ⟨⟨lo, tail⟩, hlo, hpair⟩ := bind_eq_some_iff.mp h
      obtain ⟨lowPieces, rfl⟩ := exists_pieces_of_hex4 hlo
      split at hpair
      · obtain ⟨-, rfl⟩ := Prod.mk.inj (some.inj hpair)
        exact ⟨pieces ++ .escaped 'u' :: lowPieces, by simp [StringPiece.text]⟩
      · cases hpair
    · cases h
  · cases h
    exact ⟨pieces, rfl⟩

theorem exists_pieces {body : List Char} (h : stringBody? fuel cs = some (body, rest)) :
    ∃ pieces, cs = bodyText pieces ++ '"' :: rest := by
  fun_induction stringBody? fuel cs generalizing body rest with
  | case1 | case2 => cases h
  | case3 fuel cs =>
    cases h
    exact ⟨[], rfl⟩
  | case4 fuel cs ih =>
    obtain ⟨⟨c, mid⟩, hc, h⟩ := bind_eq_some_iff.mp h
    obtain ⟨⟨tail, end'⟩, htail, h⟩ := bind_eq_some_iff.mp h
    cases h
    obtain ⟨escape, rfl⟩ := exists_pieces_of_unicodeEscape hc
    obtain ⟨pieces, rfl⟩ := ih _ htail
    exact ⟨.escaped 'u' :: (escape ++ pieces), by simp [StringPiece.text]⟩
  | case5 fuel e cs _ ih =>
    obtain ⟨c, -, h⟩ := bind_eq_some_iff.mp h
    obtain ⟨⟨tail, end'⟩, htail, h⟩ := bind_eq_some_iff.mp h
    cases h
    obtain ⟨pieces, rfl⟩ := ih htail
    exact ⟨.escaped e :: pieces, rfl⟩
  | case6 => cases h
  | case7 fuel c cs hquote _ _ hc ih =>
    obtain ⟨⟨tail, end'⟩, htail, h⟩ := bind_eq_some_iff.mp h
    cases h
    obtain ⟨pieces, rfl⟩ := ih htail
    refine ⟨.plain c ⟨hquote, ?_⟩ :: pieces, rfl⟩
    rintro rfl
    simp at hc

theorem exists_string {s : String} (h : stringAfterQuote? cs = some (s, rest)) :
    ∃ pieces, '"' :: cs = (Token.string pieces).text ++ rest := by
  obtain ⟨⟨body, tail⟩, hbody, h⟩ := map_eq_some_iff.mp h
  cases h
  obtain ⟨pieces, rfl⟩ := exists_pieces hbody
  exact ⟨pieces, by simp [Token.text]⟩

/-! ## Numbers -/

/-- In front of `rest`, the text `cs` has characters of words only. -/
def Worded (cs rest : List Char) : Prop :=
  ∃ ds, cs = ds ++ rest ∧ ∀ d ∈ ds, isWordChar d

theorem Worded.refl (cs : List Char) : Worded cs cs := ⟨[], rfl, by simp⟩

theorem Worded.cons (hc : isWordChar c) (h : Worded cs rest) : Worded (c :: cs) rest := by
  obtain ⟨ds, rfl, hds⟩ := h
  exact ⟨c :: ds, rfl, forall_mem_cons.mpr ⟨hc, hds⟩⟩

theorem Worded.trans {ds : List Char} (h : Worded cs ds) (h' : Worded ds rest) :
    Worded cs rest := by
  obtain ⟨us, rfl, hus⟩ := h
  obtain ⟨vs, rfl, hvs⟩ := h'
  exact ⟨us ++ vs, by simp, fun d hd => (mem_append.mp hd).elim (hus d) (hvs d)⟩

theorem Worded.length_le (h : Worded cs rest) : rest.length ≤ cs.length := by
  obtain ⟨ds, rfl, -⟩ := h
  simp

theorem Worded.exists_word (h : Worded cs rest) (hlt : rest.length < cs.length) :
    ∃ c ds isWord, cs = (Token.word c ds isWord).text ++ rest := by
  obtain ⟨ds, rfl, hds⟩ := h
  cases ds with
  | nil => simp at hlt
  | cons c ds => exact ⟨c, ds, List.all_eq_true.mpr hds, rfl⟩

theorem worded_digits : Worded cs (digits cs).2 := by
  refine ⟨(digits cs).1, takeWhile_append_dropWhile.symm, fun d hd => ?_⟩
  have := List.all_eq_true.mp all_takeWhile d hd
  simp [isWordChar, Char.isAlphanum, this]

theorem worded_of_digits {α : Type} {a b : α} {cs rest : List Char}
    (h : (if (digits cs).1.isEmpty then none else some (a, (digits cs).2))
      = some (b, rest)) : Worded cs rest := by
  split at h
  · cases h
  · cases h
    exact worded_digits

theorem worded_fraction {frac : List Char} (h : fraction? cs = some (frac, rest)) :
    Worded cs rest := by
  unfold fraction? at h
  split at h
  · exact (worded_of_digits h).cons rfl
  · cases h
    exact .refl _

theorem worded_exponent {exp : Option Int} (h : exponent? cs = some (exp, rest)) :
    Worded cs rest := by
  unfold exponent? at h
  split at h
  case h_3 =>
    cases h
    exact .refl _
  all_goals
    split at h
    rename_i signed _ neg unsigned hsign
    have hunsigned : Worded signed unsigned := by
      split at hsign
      all_goals cases hsign
      · exact (Worded.refl _).cons rfl
      · exact (Worded.refl _).cons rfl
      · exact .refl _
    exact (hunsigned.trans (worded_of_digits h)).cons rfl

theorem exists_word {value : Json} (h : number? cs = some (value, rest)) :
    ∃ c ds isWord, cs = (Token.word c ds isWord).text ++ rest := by
  unfold number? at h
  split at h
  rename_i neg unsigned hsign
  simp only at h
  split at h
  · cases h
  rename_i hwhole
  obtain ⟨⟨frac, afterFrac⟩, hfrac, h⟩ := bind_eq_some_iff.mp h
  obtain ⟨⟨exp, afterExp⟩, hexp, h⟩ := bind_eq_some_iff.mp h
  obtain ⟨number, -, h⟩ := bind_eq_some_iff.mp h
  cases h
  have hsigned : Worded cs unsigned := by
    split at hsign
    all_goals cases hsign
    · exact (Worded.refl _).cons rfl
    · exact .refl _
  have hrest := (worded_fraction hfrac).trans (worded_exponent hexp)
  refine ((hsigned.trans (worded_digits)).trans hrest).exists_word ?_
  -- the number has a digit, so it is not empty
  have hdigit : (digits unsigned).1 ≠ [] := by
    rintro hnil
    simp [hnil] at hwhole
  have hlength := congrArg List.length
    (takeWhile_append_dropWhile (p := Char.isDigit) (l := unsigned))
  have := length_pos_iff.mpr hdigit
  have := hsigned.length_le
  have := hrest.length_le
  simp only [digits, length_append] at *
  omega

/-! ## Values -/

/-- In front of `rest`, the text `cs` spells a part of plain JSON. -/
def Reads (part : Part) (cs rest : List Char) : Prop := ∃ ts, Spells part ts ∧ Scans cs ts rest

/-- The entries of a container end at its closing bracket. -/
def Closes (k : Container) (cs rest : List Char) : Prop :=
  ∃ mid, Reads (.entries k) cs mid ∧ skipGap mid = k.closing :: rest

theorem Reads.empty (hopen : skipGap cs = k.opening :: inside)
    (hclose : skipGap inside = k.closing :: rest) : Reads .value cs rest :=
  ⟨_, .empty k, Scans.append (.token rfl hopen) (.token rfl hclose)⟩

theorem Reads.filled (hopen : skipGap cs = k.opening :: inside)
    (h : Closes k (skipGap inside) rest) : Reads .value cs rest := by
  obtain ⟨mid, ⟨ts, hts, hscans⟩, hclose⟩ := h
  have hinside : Scans inside ts mid := hscans.of_skipGap hts.ne_nil
  exact ⟨_, .filled hts, Scans.append (.token rfl hopen) (hinside.append (.token rfl hclose))⟩

theorem scans_string {s : String} (hopen : skipGap cs = '"' :: inside)
    (h : stringAfterQuote? inside = some (s, rest)) :
    ∃ pieces, Scans cs [.string pieces] rest := by
  obtain ⟨pieces, htext⟩ := exists_string h
  exact ⟨pieces, .token rfl (hopen.trans htext)⟩

theorem Reads.member {value : List Char} {key : String} (hopen : skipGap cs = '"' :: inside)
    (hkey : stringAfterQuote? inside = some (key, mid))
    (hcolon : skipGap mid = ':' :: value) (h : Reads .value value rest) :
    Reads (.entry .object) cs rest := by
  obtain ⟨pieces, hpieces⟩ := scans_string hopen hkey
  obtain ⟨ts, hts, hscans⟩ := h
  exact ⟨_, .member pieces hts, hpieces.append (Scans.append (.token rfl hcolon) hscans)⟩

theorem Closes.more {next : List Char} (h : Reads (.entry k) cs mid)
    (hcomma : skipGap mid = ',' :: next) (hnext : Closes k next rest) : Closes k cs rest := by
  obtain ⟨ts, hts, hscans⟩ := h
  obtain ⟨close, ⟨us, hus, hscans'⟩, hclose⟩ := hnext
  refine ⟨close, ⟨_, .more hts hus, ?_⟩, hclose⟩
  exact hscans.append (Scans.append (.token rfl hcomma) hscans')

theorem Closes.last (h : Reads (.entry k) cs mid) (hclose : skipGap mid = k.closing :: rest) :
    Closes k cs rest := by
  obtain ⟨ts, hts, hscans⟩ := h
  exact ⟨mid, ⟨ts, .last hts, hscans⟩, hclose⟩

/-- The entries of a container are spelled by the text if each of them is. -/
theorem closes_of_entries {α : Type} {item? : List Char → Option (α × List Char)} {es : List α}
    (hentry : ∀ {cs e rest}, item? cs = some (e, rest) → Reads (.entry k) cs rest)
    (h : entries? item? k.closing fuel cs = some (es, rest)) : Closes k cs rest := by
  induction fuel generalizing cs es with
  | zero => cases h
  | succ fuel ih =>
    obtain ⟨⟨e, mid⟩, he, h⟩ := bind_eq_some_iff.mp h
    simp only at h
    split at h
    · cases h
    rename_i c next hnext
    split at h
    · rename_i hcomma
      obtain ⟨⟨_, _⟩, hfound, h⟩ := map_eq_some_iff.mp h
      cases h
      exact .more (hentry he) (hcomma ▸ hnext) (ih hfound)
    · split at h
      · rename_i hclosing
        cases h
        exact .last (hentry he) (hclosing ▸ hnext)
      · cases h

theorem reads_of_container {α : Type} {item? : List Char → Option (α × List Char)} {es : List α}
    (hentry : ∀ {cs e rest}, item? cs = some (e, rest) → Reads (.entry k) cs rest)
    (hopen : skipGap cs = k.opening :: inside)
    (h : container? item? k.closing inside = some (es, rest)) : Reads .value cs rest := by
  unfold container? at h
  split at h
  · cases h
  rename_i c next hnext
  split at h
  · rename_i hclosing
    cases h
    exact .empty hopen (hclosing ▸ hnext)
  · exact .filled hopen (hnext ▸ closes_of_entries hentry h)

theorem reads_of_keyed {read? : List Char → Option (Json × List Char)}
    (hread : ∀ {cs v rest}, read? cs = some (v, rest) → Reads .value cs rest)
    {m : String × Json} (h : keyed? read? cs = some (m, rest)) :
    Reads (.entry .object) cs rest := by
  unfold keyed? at h
  split at h
  · rename_i hquote
    obtain ⟨⟨key, mid⟩, hkey, h⟩ := bind_eq_some_iff.mp h
    simp only at h
    split at h
    · rename_i hcolon
      obtain ⟨⟨v, _⟩, hvalue, h⟩ := map_eq_some_iff.mp h
      cases h
      exact .member hquote hkey hcolon (hread hvalue)
    · cases h
  · cases h

theorem reads_of_scalar {v : Json} (h : scalar? (skipGap cs) = some (v, rest)) :
    Reads .value cs rest := by
  generalize hfront : skipGap cs = front at h
  unfold scalar? at h
  split at h
  · cases h
    exact ⟨_, .word 'n' ['u', 'l', 'l'] rfl, .token rfl hfront⟩
  · cases h
    exact ⟨_, .word 't' ['r', 'u', 'e'] rfl, .token rfl hfront⟩
  · cases h
    exact ⟨_, .word 'f' ['a', 'l', 's', 'e'] rfl, .token rfl hfront⟩
  · obtain ⟨⟨_, _⟩, hstring, h⟩ := map_eq_some_iff.mp h
    cases h
    obtain ⟨pieces, hpieces⟩ := scans_string hfront hstring
    exact ⟨_, .string pieces, hpieces⟩
  · obtain ⟨c, ds, isWord, htext⟩ := exists_word h
    exact ⟨_, .word c ds isWord, .token rfl (hfront.trans htext)⟩

/-- **Every value that the reader finds is spelled by the text.** -/
theorem reads_of_value {depth : Nat} {v : Json} (h : value? depth cs = some (v, rest)) :
    Reads .value cs rest := by
  induction depth generalizing cs v rest with
  | zero => exact reads_of_scalar h
  | succ depth ih =>
    cases depth with
    | zero => exact reads_of_scalar h
    | succ depth =>
      unfold value? at h
      split at h
      · rename_i hopen
        obtain ⟨⟨_, _⟩, hfound, h⟩ := map_eq_some_iff.mp h
        cases h
        refine reads_of_container (k := .array) (fun hitem => ?_) hopen hfound
        obtain ⟨ts, hts, hscans⟩ := ih hitem
        exact ⟨ts, .item hts, hscans⟩
      · rename_i hopen
        obtain ⟨⟨_, _⟩, hfound, h⟩ := map_eq_some_iff.mp h
        cases h
        exact reads_of_container (k := .object) (fun hm => reads_of_keyed ih hm) hopen hfound
      · exact reads_of_scalar h

/-- A text that the reader accepts is a text with comments that has none and no spare comma. -/
theorem exists_commented {text : String} (h : (readWritten? text).isSome) :
    ∃ doc : Commented, doc.text = text ∧ doc.plainText = text := by
  unfold readWritten? at h
  split at h
  · rename_i value rest hvalue
    split at h
    · rename_i hempty
      obtain ⟨ts, hts, ls, htext, rfl, hplain⟩ := reads_of_value hvalue
      obtain ⟨last, hlast, hleft⟩ := exists_white_gap rest
      rw [List.isEmpty_iff.mp hempty, append_nil] at hlast
      have hspelled : String.ofList (spelled ls ++ last.text) = text := by
        rw [← hlast, ← htext, String.ofList_toList]
      refine ⟨⟨ls, last, hts⟩, hspelled, ?_⟩
      rw [Commented.plainText, stripped_eq_spelled hplain, hleft, hspelled]
    · cases h
  · cases h

/-- **Stripping takes the comments and the spare commas out of a text, leaves every other token
and the white space and line feeds of the gaps, and does not touch plain JSON.** -/
theorem stripJsonc_spelled :
    (∀ doc : Commented, stripJsonc doc.text = doc.plainText) ∧
    (∀ text : String, (Json.readWritten? text).isSome → stripJsonc text = text) := by
  refine ⟨stripJsonc_text, fun text h => ?_⟩
  obtain ⟨doc, htext, hplain⟩ := exists_commented h
  rw [← htext, stripJsonc_text, hplain, htext]

/-- An object with both kinds of comments, a key that looks like one, and two spare commas. -/
def commentedObject : Commented where
  lexemes :=
    [⟨[.line " top, ]".toList (by decide), .white ' ' rfl], .opens .object⟩,
     ⟨[.white '\n' rfl], .string [.plain '/' (by decide), .plain '*' (by decide), .escaped '"']⟩,
     ⟨[], .colon⟩,
     ⟨[.white ' ' rfl], .opens .array⟩,
     ⟨[], .word '1' ['e', '5'] rfl⟩,
     ⟨[], .spareComma⟩,
     ⟨[.block "/ ] \"*".toList (by decide), .white ' ' rfl], .closes .array⟩,
     ⟨[], .spareComma⟩,
     ⟨[.line [] (by decide)], .closes .object⟩]
  last := [.white '\n' rfl]
  isValue := .filled (.spare (.member _ (.filled (.spare (.item (.word _ _ _))))))

theorem stripJsonc_spelled_object :
    stripJsonc "// top, ]\n \x7b\n\"/*\\\"\": [1e5,/*/ ] \"**/ ],//\n\x7d\n"
      = "\n \x7b\n\"/*\\\"\": [1e5 ]\n\x7d\n" ∧
    (Json.readWritten? "[1, \",]\"]").isSome ∧ stripJsonc "[1, \",]\"]" = "[1, \",]\"]" := by
  have htext : commentedObject.text
      = "// top, ]\n \x7b\n\"/*\\\"\": [1e5,/*/ ] \"**/ ],//\n\x7d\n" := by decide
  have hplain : commentedObject.plainText = "\n \x7b\n\"/*\\\"\": [1e5 ]\n\x7d\n" := by decide
  have hread : (readWritten? "[1, \",]\"]").isSome := by decide +kernel
  rw [← htext, ← hplain]
  exact ⟨stripJsonc_spelled.1 commentedObject, hread, stripJsonc_spelled.2 _ hread⟩

end RouteAtlas.Modules.Jsonc
