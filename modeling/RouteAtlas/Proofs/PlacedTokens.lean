import RouteAtlas.Proofs.PlacedReaders
import RouteAtlas.Source.Grammar.Markup

/-!
# The places of tokens

A token is a run of characters at the front of what is left, behind a gap of blanks and comments. A
gap is passed over without losing a byte, and what is taken in front of the rest moves the reader by
as many bytes (`Front`). From this the rules for words, symbols, names, literals and the ends of
statements read one node each, between the place where the last token ended and the place where the
reader then stands. No gap ends in front of a line feed, so a token with characters of its own may
be the head of a function.
-/

open List

namespace RouteAtlas.Source.Grammar

open Text

variable {cs text : List Char} {lo last : Nat} {s : String} {p : Read Node}

/-! ## Gaps and comments -/

theorem passes_gapFrom (state : GapState) (cs : List Char) (pos : Nat) :
    Text.Passes cs pos (gapFrom state cs pos).1 (gapFrom state cs pos).2 := by
  fun_induction gapFrom state cs pos with
  | case1 | case5 => exact .refl
  | case2 cs pos ih => exact .trans ⟨['/', '/'], rfl, rfl⟩ ih
  | case3 cs pos ih => exact .trans ⟨['/', '*'], rfl, rfl⟩ ih
  | case4 c cs pos _ _ _ ih | case6 c cs pos _ ih | case7 c cs pos _ ih
  | case9 star c cs pos _ ih =>
    exact .trans ⟨[c], rfl, rfl⟩ ih
  | case8 star c cs pos hend ih =>
    obtain ⟨-, rfl⟩ : star ∧ c = '/' := by simpa using hend
    exact .trans ⟨['/'], rfl, rfl⟩ ih

theorem head?_gapFrom (state : GapState) (cs : List Char) (pos : Nat) :
    (gapFrom state cs pos).1.head? ≠ some '\n' := by
  fun_induction gapFrom state cs pos with
  | case1 => exact (Option.some_ne_none _).symm
  | case5 c cs pos _ _ hgap =>
    rintro ⟨⟩
    exact hgap (by decide)
  | case2 _ _ ih | case3 _ _ ih | case4 _ _ _ _ _ _ ih | case6 _ _ _ _ ih | case7 _ _ _ _ ih
  | case8 _ _ _ _ _ ih | case9 _ _ _ _ _ ih => exact ih

theorem commentsFrom_stop {state : GapState} {start pos : Nat} {comment : Nat × Nat}
    (h : comment ∈ commentsFrom state cs start pos) :
    ∃ rest, Text.Passes cs pos rest comment.2 := by
  have hstep : ∀ (ds : List Char) {cs : List Char} {pos next : Nat},
      pos + byteLength ds = next → (∃ rest, Text.Passes cs next rest comment.2) →
      ∃ rest, Text.Passes (ds ++ cs) pos rest comment.2 := by
    rintro ds _ _ _ hnext ⟨rest, hrest⟩
    exact ⟨rest, .trans ⟨ds, rfl, hnext⟩ hrest⟩
  fun_induction commentsFrom state cs start pos with
  | case1 => exact nomatch h
  | case2 => exact ⟨[], by rw [mem_singleton.mp h]; exact .refl⟩
  | case3 start cs pos ih => exact hstep ['/', '/'] rfl (ih h)
  | case4 start cs pos ih => exact hstep ['/', '*'] rfl (ih h)
  | case5 c cs start pos _ _ ih => exact hstep [c] rfl (ih h)
  | case6 c cs start pos _ ih =>
    rcases mem_cons.mp h with rfl | h
    · exact ⟨c :: cs, .refl⟩
    · exact hstep [c] rfl (ih h)
  | case7 c cs start pos _ ih => exact hstep [c] rfl (ih h)
  | case8 star c cs start pos hend ih =>
    obtain ⟨-, rfl⟩ : star ∧ c = '/' := by simpa using hend
    rcases mem_cons.mp h with rfl | h
    · exact ⟨cs, ['/'], rfl, rfl⟩
    · exact hstep ['/'] rfl (ih h)
  | case9 star c cs start pos _ ih => exact hstep [c] rfl (ih h)

theorem placedIn_commentsFrom {state : GapState} {start pos : Nat} (hlo : lo ≤ pos)
    (hstart : state ≠ .plain → lo ≤ start ∧ start ≤ pos) :
    Node.PlacedIn lo (pos + byteLength cs)
      ((commentsFrom state cs start pos).map fun r => Node.leaf .comment r.1 r.2) := by
  have hslash : '/'.utf8Size = 1 := rfl
  have hstar : '*'.utf8Size = 1 := rfl
  fun_induction commentsFrom state cs start pos generalizing lo with
  | case1 start pos => exact Nat.le_trans hlo (Nat.le_add_right _ _)
  | case2 state start pos hstate =>
    obtain ⟨hlow, hhigh⟩ := hstart hstate
    exact ⟨hlow, hhigh, Nat.le_refl _⟩
  | case3 start cs pos ih | case4 start cs pos ih =>
    have := @ih lo (by omega) fun _ => ⟨hlo, by omega⟩
    exact this.mono (by simp only [byteLength]; omega)
  | case5 c cs start pos _ _ ih =>
    exact (@ih lo (by omega) fun h => absurd rfl h).mono (by simp only [byteLength]; omega)
  | case6 c cs start pos _ ih =>
    obtain ⟨hlow, hhigh⟩ := hstart (by simp)
    refine ⟨hlow, hhigh, ?_⟩
    exact (ih (Nat.le_add_right _ _) fun h => absurd rfl h).mono
      (by simp only [byteLength]; omega)
  | case7 c cs start pos _ ih =>
    obtain ⟨hlow, hhigh⟩ := hstart (by simp)
    exact (@ih lo (by omega) fun _ => ⟨hlow, by omega⟩).mono
      (by simp only [byteLength]; omega)
  | case8 star c cs start pos hend ih =>
    obtain ⟨-, rfl⟩ : star ∧ c = '/' := by simpa using hend
    obtain ⟨hlow, hhigh⟩ := hstart (by simp)
    refine ⟨hlow, Nat.le_succ_of_le hhigh, ?_⟩
    exact (ih (Nat.le_refl _) fun h => absurd rfl h).mono (by simp only [byteLength]; omega)
  | case9 star c cs start pos _ ih =>
    obtain ⟨hlow, hhigh⟩ := hstart (by simp)
    exact (@ih lo (by omega) fun _ => ⟨hlow, by omega⟩).mono
      (by simp only [byteLength]; omega)

/-! ## Characters in front -/

/-- The function gives characters in front of a text. -/
class Front (front : List Char → List Char) : Prop where
  isPrefix : ∀ cs, front cs <+: cs

instance {p : Char → Bool} : Front (List.takeWhile p) := ⟨fun _ => takeWhile_prefix p⟩

instance : Front nameChars := by
  refine ⟨nameChars.induct (fun cs => nameChars.braced cs <+: cs) (fun cs => nameChars cs <+: cs)
    ?_ ?_ ?_ ?_ ?_ ?_ ?_ ?_⟩ <;> intros <;> simp_all [nameChars, nameChars.braced]

theorem isPrefix_of_nameAt? {name : List Char} (h : nameAt? cs = some name) : name <+: cs := by
  cases cs with
  | nil => exact nomatch h
  | cons c cs =>
    rw [nameAt?] at h
    split at h
    · cases h
      exact Front.isPrefix (c :: cs)
    · exact nomatch h

theorem isPrefix_of_symbolAt? (h : symbolAt? cs = some s) : s.toList <+: cs := by
  unfold symbolAt? at h
  have hfound : ∀ {found},
      (symbols.find? fun s => (stripList? s.toList cs).isSome) = some found →
      found.toList <+: cs := by
    intro found hfind
    have hstrip := find?_some hfind
    obtain ⟨rest, hrest⟩ := Option.isSome_iff_exists.mp hstrip
    exact ⟨rest, (stripList?_eq_some_iff.mp hrest).symm⟩
  split at h
  · rename_i hfind
    have hmark : ['?', '.'] <+: cs := hfound hfind
    split at h <;> cases h
    · exact List.IsPrefix.trans (by simp) hmark
    · exact hmark
  · exact hfound h

theorem ne_empty_of_symbolAt? (h : symbolAt? cs = some s) : s ≠ "" := by
  have hsymbols : ∀ s ∈ symbols, s ≠ "" := by decide
  unfold symbolAt? at h
  split at h
  · split at h <;> cases h <;> decide
  · exact hsymbols s (mem_of_find?_eq_some h)

instance : Front digitRun := inferInstanceAs (Front (List.takeWhile _))

instance : Front fractionRun := by
  refine ⟨fun cs => ?_⟩
  unfold fractionRun
  split
  · exact cons_prefix_cons.mpr ⟨rfl, Front.isPrefix _⟩
  · exact nil_prefix

instance : Front exponentRun := by
  refine ⟨fun cs => ?_⟩
  unfold exponentRun
  have hrun : ∀ cs, digitRun cs <+: cs := Front.isPrefix
  (repeat' split) <;> simp [hrun]

/-- Characters in front and those in front of the rest are in front together. -/
theorem isPrefix_append_of_drop {xs ys : List Char} (hxs : xs <+: cs)
    (hys : ys <+: cs.drop xs.length) : xs ++ ys <+: cs := by
  obtain ⟨rest, rfl⟩ := hxs
  rw [drop_left] at hys
  exact prefix_append_right_inj xs |>.mpr hys

instance : Front numberChars.decimal := by
  refine ⟨fun cs => ?_⟩
  unfold numberChars.decimal
  refine isPrefix_append_of_drop (isPrefix_append_of_drop (isPrefix_append_of_drop
    (Front.isPrefix cs) (Front.isPrefix _)) ?_) ?_
  · rw [length_append, ← drop_drop]
    exact Front.isPrefix _
  · rw [length_append, length_append, ← drop_drop, ← drop_drop]
    split
    · rename_i hmark
      exact singleton_prefix_iff_head?_eq_some.mpr (beq_iff_eq.mp hmark)
    · exact nil_prefix

instance : Front numberChars := by
  refine ⟨fun cs => ?_⟩
  unfold numberChars
  split
  · split
    · simp [List.takeWhile_prefix]
    · exact Front.isPrefix _
  · exact Front.isPrefix _

instance : Front escapeChars := by
  refine ⟨fun cs => ?_⟩
  unfold escapeChars
  have hdigits : ∀ p (cs : List Char), (cs.take 2).takeWhile p <+: cs := fun p cs =>
    (List.takeWhile_prefix p).trans (List.take_prefix 2 cs)
  split <;> simp [List.take_prefix]
  split <;> simp [hdigits]

instance {inClass : Bool} : Front (patternChars inClass) := by
  refine ⟨fun cs => ?_⟩
  fun_induction patternChars inClass cs <;> simp_all

instance : Front templateChars := by
  refine ⟨fun cs => ?_⟩
  fun_induction templateChars cs <;> simp_all

instance : Front referenceChars := by
  refine ⟨fun cs => ?_⟩
  unfold referenceChars
  split
  · extract_lets name
    split
    · rename_i hname
      refine cons_prefix_cons.mpr ⟨rfl, isPrefix_append_of_drop (List.takeWhile_prefix _) ?_⟩
      exact singleton_prefix_iff_head?_eq_some.mpr
        (by simpa using (Bool.and_eq_true_iff.mp hname).2)
    · exact nil_prefix
  · exact nil_prefix

instance {stops : Char → Bool} : Front (plainChars stops) := by
  refine ⟨fun cs => ?_⟩
  fun_induction plainChars stops cs <;> simp_all

instance : Front textChars := inferInstanceAs (Front (plainChars _))

/-! ## Tokens -/

theorem ensures_gap {xs : List Node} :
    Ensures (Stands text lo last xs) gap
      fun _ c => Stands text lo last xs c ∧ c.rest.head? ≠ some '\n' := by
  rintro c hc _ _ ⟨⟩
  have hpasses := passes_gapFrom .plain c.rest c.pos
  exact ⟨⟨hc.last_le, Nat.le_trans hc.last_le_pos hpasses.le, Nat.le_trans hc.lo_le hpasses.le,
    hc.reads.trans hpasses, hc.placed, hc.formed⟩, head?_gapFrom .plain c.rest c.pos⟩

theorem Ensures.guard {P : Cursor → Prop} {Q : α → Cursor → Prop} {b : Bool} {p : Read α}
    (h : b → Ensures P p Q) : Ensures P (guardRead b >>= fun _ => p) Q := by
  cases b with
  | false => exact fun _ _ _ _ hrun => nomatch hrun
  | true => exact .look fun _ => h rfl

/-- The function makes nodes without children, and none that have a head. -/
class MakesLeaf (make : Nat → Nat → Node) : Prop where
  makes : ∀ a b, ∃ label, make a b = .mk label none a b [] ∧
    (Node.mk label none a b []).kindIs Kind.hasHead = false

instance {s : String} : MakesLeaf (Node.token s) := ⟨fun _ _ => ⟨.token s, rfl, rfl⟩⟩

instance {kind : Kind} [hk : kind.Simple] : MakesLeaf (Node.leaf kind) :=
  ⟨fun _ _ => ⟨.named kind, rfl, hk.hasHead_eq_false⟩⟩

/-- What a reader of a token ensures: the node stands where it was read, and a function may begin
with it if it is `filled` with characters. -/
class Takes (p : Read Node) (filled : outParam Prop) : Prop where
  takes : ∀ text lo last, Ensures (Stands text lo last []) p
    fun n c => Stands text lo last [n] c ∧ (filled → n.Opens text)

section Tokens

variable {text : List Char} {lo last bytes : Nat} {c : Cursor} {front rest : List Char}
  {make : Nat → Nat → Node} [hmake : MakesLeaf make]

/-- **A token lies where its characters stand.** A function may begin with one that starts with no
line feed. -/
theorem Stands.takeToken (h : Stands text lo last [] c) (hrest : c.rest = front ++ rest)
    (hbytes : bytes = byteLength front)
    (hword : ∀ a b, (make a b).kindIs Kind.isWord → front ≠ []) :
    Ensures (· = c) (takeToken bytes rest make) fun n c' => Stands text lo last [n] c' ∧
      (front ≠ [] ∧ c.rest.head? ≠ some '\n' → n.Opens text) := by
  rintro c rfl _ _ ⟨⟩
  obtain ⟨label, hmk, hplain⟩ := hmake.makes c.pos (c.pos + bytes)
  have hle : c.pos ≤ c.pos + bytes := Nat.le_add_right _ _
  have hleaf : Node.PlacedIn c.pos (c.pos + bytes) [.mk label none c.pos (c.pos + bytes) []] :=
    ⟨Nat.le_refl _, hle, Nat.le_refl _⟩
  simp only [hmk]
  refine ⟨⟨?_, Nat.le_refl _, Nat.le_trans h.lo_le hle, ?_, fun _ => hleaf.lower h.lo_le,
    Node.Formed.all ⟨fun h => (nomatch hplain.symm.trans h), fun h => ⟨rfl, ?_⟩⟩ .nil⟩, ?_⟩
  · exact Nat.le_trans h.last_le (Nat.le_trans h.last_le_pos hle)
  · exact h.reads.trans ⟨front, hrest, by rw [hbytes]⟩
  · have hpos := byteLength_pos (hword c.pos (c.pos + bytes) (by rw [hmk]; exact h))
    change c.pos < c.pos + bytes
    omega
  · rintro ⟨hne, hhead⟩
    obtain ⟨ch, front, rfl⟩ := exists_cons_of_ne_nil hne
    have hreads := h.reads
    rw [hrest] at hreads
    refine ⟨⟨⟨ch, front ++ rest, hreads, ?_, ?_⟩, fun _ hm => nomatch hm⟩, hplain⟩
    · rintro rfl
      exact hhead (by rw [hrest]; rfl)
    · change c.pos + ch.utf8Size ≤ c.pos + bytes
      rw [hbytes, byteLength]
      omega

theorem Stands.takeFront (h : Stands text lo last [] c) (hfront : front <+: c.rest)
    (hbytes : bytes = byteLength front)
    (hword : ∀ a b, (make a b).kindIs Kind.isWord → front ≠ []) :
    Ensures (· = c) (Grammar.takeToken bytes (c.rest.drop front.length) make)
      fun n c' => Stands text lo last [n] c' ∧
        (front ≠ [] ∧ c.rest.head? ≠ some '\n' → n.Opens text) := by
  obtain ⟨rest, hrest⟩ := hfront
  rw [← hrest, drop_left, hrest]
  exact h.takeToken hrest.symm hbytes hword

end Tokens

theorem Ensures.filled {P : Cursor → Prop} {a b : Prop}
    (h : Ensures P p fun n c => Stands text lo last [n] c ∧ (a → n.Opens text)) (hb : b → a) :
    Ensures P p fun n c => Stands text lo last [n] c ∧ (b → n.Opens text) :=
  h.weaken fun _ _ hn => ⟨hn.1, fun h => hn.2 (hb h)⟩

instance {p : Read Node} { filled : Prop} [hp : Takes p filled] : Gives p :=
  ⟨fun text lo last => (hp.takes text lo last).weaken fun _ _ h => h.1⟩

theorem opening_one { filled : Prop} [hp : Takes p filled] (h : filled) : Opening (one p) := by
  refine ⟨fun text lo last => (hp.takes text lo last).bind fun n => .pure fun _ hn => ?_⟩
  rintro _ ⟨⟩
  exact hn.2 h

instance {p : Read Node} [Takes p True] : Opening (one p) := opening_one trivial

theorem solid_opening_one {p : Read Node} { filled : Prop}
    (h : ∀ text lo last, Ensures (Stands text lo last []) p
      fun n c => Stands text lo last [n] c ∧ (filled → n.Opens text)) :
    Solid (one p) ∧ (filled → Opening (one p)) :=
  have : Takes p filled := ⟨h⟩
  ⟨inferInstance, opening_one⟩

instance {s : String} : Takes (symbol s) True :=
  ⟨fun text lo last => ensures_gap.bind fun _ => .get_bind fun c hc => .guard fun hs => by
    have hs := beq_iff_eq.mp hs
    rw [← String.length_toList]
    refine (hc.1.takeFront (isPrefix_of_symbolAt? hs) (byteLength_toList s).symm
      (by rintro _ _ ⟨⟩)).filled ?_
    exact fun _ => ⟨by simpa using ne_empty_of_symbolAt? hs, hc.2⟩⟩

theorem Stands.takeStripped {c : Cursor} {rest : List Char} (h : Stands text lo last [] c)
    (hstrip : stripList? s.toList c.rest = some rest) :
    Ensures (· = c) (Grammar.takeToken s.utf8ByteSize rest (Node.token s))
      fun n c' => Stands text lo last [n] c' ∧
        (s.toList ≠ [] ∧ c.rest.head? ≠ some '\n' → n.Opens text) :=
  h.takeToken (stripList?_eq_some_iff.mp hstrip) (byteLength_toList s).symm (by rintro _ _ ⟨⟩)

instance {s : String} : Takes (raw s) (s ≠ "") := by
  refine ⟨fun text lo last => ensures_gap.bind fun _ => .get_bind fun c hc => ?_⟩
  split
  · rename_i hstrip
    exact (hc.1.takeStripped hstrip).filled fun hs => ⟨by simpa using hs, hc.2⟩
  · exact .failure

instance {s : String} : Solid (takeSymbol s) := by
  refine solid_one fun text lo last => .get_bind fun c hc => ?_
  split
  · rename_i hstrip
    exact (hc.takeStripped hstrip).weaken fun _ _ h => h.1
  · exact .failure

instance {s : String} : Takes (word s) (s ≠ "") := by
  refine ⟨fun text lo last => ensures_gap.bind fun _ => .get_bind fun c hc => ?_⟩
  split
  · rename_i name hname
    refine .guard fun hs => ?_
    obtain rfl : String.ofList name = s := beq_iff_eq.mp hs
    refine (hc.1.takeFront (isPrefix_of_nameAt? hname) ?_ (by rintro _ _ ⟨⟩)).filled
      fun hs => ⟨?_, hc.2⟩
    · rw [← byteLength_toList, String.toList_ofList]
    · rintro rfl
      exact hs rfl
  · exact .failure

instance {kind : Kind} [kind.Simple] : Takes (anyName kind) True := by
  refine ⟨fun text lo last => ensures_gap.bind fun _ => .get_bind fun c hc => ?_⟩
  split
  · rename_i name hname
    refine .guard fun hne => ?_
    have hne : name ≠ [] := by simpa using hne
    exact (hc.1.takeFront (isPrefix_of_nameAt? hname) rfl fun _ _ _ => hne).filled
      fun _ => ⟨hne, hc.2⟩
  · exact .failure

instance {kind : Kind} [kind.Plain] {s : String} : Gives (namedWord kind s) :=
  ⟨fun _ _ _ => Gives.after.bind fun _ => .pure fun _ h => h.leaf Node.formed_of_plain⟩

instance {kind : Kind} [kind.Simple] : Takes (valueName kind) True := by
  refine ⟨fun text lo last => .look fun w => ?_⟩
  cases w with
  | none => exact .failure
  | some w => exact .look fun _ => Takes.takes text lo last

instance {kind : Kind} [kind.Simple] {front : List Char → List Char} [Front front] :
    Solid (takeLeaf kind front) :=
  solid_one fun _ _ _ => .get_bind fun c hc => .guard fun hne =>
    (hc.takeFront (Front.isPrefix c.rest) rfl fun _ _ _ => by simpa using hne).weaken
      fun _ _ h => h.1

theorem decimal_ne_nil (h : startsNumber cs) : numberChars.decimal cs ≠ [] := by
  unfold numberChars.decimal
  unfold startsNumber at h
  split at h
  · simp [digitRun, fractionRun]
  · simp [digitRun, h]
  · cases h

theorem numberChars_ne_nil (h : startsNumber cs) : numberChars cs ≠ [] := by
  unfold numberChars
  split
  · split
    · exact cons_ne_nil _ _
    · exact decimal_ne_nil h
  · exact decimal_ne_nil h

theorem solid_opening_number : Solid number ∧ (True → Opening number) :=
  solid_opening_one fun _ _ _ => ensures_gap.bind fun _ => .get_bind fun c hc => .guard fun hs =>
    (hc.1.takeFront (Front.isPrefix c.rest) rfl (by rintro _ _ ⟨⟩)).filled
      fun _ => ⟨numberChars_ne_nil hs, hc.2⟩

instance : Solid number := solid_opening_number.1

instance : Opening number := solid_opening_number.2 trivial

theorem solid_opening_privateName : Solid privateName ∧ (True → Opening privateName) := by
  refine solid_opening_one fun _ _ _ => ensures_gap.bind fun _ => .get_bind fun c hc => ?_
  split
  · rename_i cs hcs
    split
    · rename_i name hname
      obtain ⟨rest, rfl⟩ := isPrefix_of_nameAt? hname
      have hrest : c.rest = '#' :: name ++ rest := hcs
      rw [drop_left]
      exact (hc.1.takeToken hrest rfl (by rintro _ _ ⟨⟩)).filled fun _ => ⟨cons_ne_nil _ _, hc.2⟩
    · exact .failure
  · exact .failure

instance : Solid privateName := solid_opening_privateName.1

instance : Opening privateName := solid_opening_privateName.2 trivial

instance {kind : Kind} [kind.Simple] : Solid (dashedName kind) := by
  refine solid_one fun _ _ _ => ensures_gap.bind fun _ => .get_bind fun c hc => ?_
  split
  · rename_i ch cs hcs
    refine .guard fun hstart => ?_
    have hname : isNameChar ch := (Bool.and_eq_true_iff.mp hstart).1
    refine (hc.1.takeFront (List.takeWhile_prefix _) rfl fun _ _ _ => ?_).weaken fun _ _ h => h.1
    rw [hcs, takeWhile_cons_of_pos (by rw [hname]; rfl)]
    exact cons_ne_nil _ _
  · exact .failure

/-! ## Lists and ends of statements -/

instance {item : Rule} [hitem : Solid item] : Solid (commaList item) :=
  ⟨fun _ _ _ => .solid fun _ hne => .places fun _ => .pure fun _ h =>
    ⟨h, append_ne_nil_of_left_ne_nil hne _⟩⟩

instance {item : Rule} [Places item] : Places (sparseList item) :=
  ⟨fun _ _ _ => .places fun _ => .places fun _ => .pure⟩

theorem ensures_passComment :
    Ensures (Stands text lo last []) passComment fun _ => Stands text lo last [] := by
  refine .get_bind fun c hc => ?_
  split
  · rename_i start stop comments hcomments
    refine .guard fun _ => ?_
    rintro c rfl _ _ ⟨⟩
    obtain ⟨rest, hpasses⟩ := commentsFrom_stop (hcomments ▸ mem_cons_self)
    have hle : c.pos ≤ stop := hpasses.le
    refine ⟨Nat.le_trans hc.last_le (Nat.le_trans hc.last_le_pos hle), Nat.le_refl _,
      Nat.le_trans hc.lo_le hle, ?_, absurd rfl, .nil⟩
    simp only [hpasses.dropBytes]
    exact hc.reads.trans hpasses
  · exact .failure

theorem ensures_lineEnd {typed afterValue : Bool} (fuel : Nat) :
    Ensures (Stands text lo last []) (lineEnd typed afterValue fuel)
      fun _ => Stands text lo last [] := by
  induction fuel with
  | zero => exact .failure
  | succ fuel ih =>
    refine .get_bind fun c hc => .ite (fun _ => ?_) fun _ => ?_
    · rintro _ rfl _ _ ⟨⟩
      exact ⟨Nat.le_trans hc.last_le hc.last_le_pos, Nat.le_refl _, hc.lo_le, hc.reads, absurd rfl,
        .nil⟩
    · rintro _ rfl
      exact ensures_passComment.bind (fun _ => ih) _ hc

instance {language : Language} {afterValue : Bool} : Places (semicolon language afterValue) := by
  have : Places (do lineEnd language.isTyped afterValue 8; return []) :=
    ⟨fun _ _ _ => (ensures_lineEnd 8).bind fun _ => .pure⟩
  unfold semicolon
  infer_instance

/-! ## Literals -/

theorem between_eq (opening inner closing : Rule) : (do
      let first ← opening
      let nodes ← inner
      let last ← closing
      return first ++ nodes ++ last) = inOrder [opening, inner, closing] := by
  simp [inOrder]

instance {q : Char} : Solid (quoted q) := by
  unfold quoted
  rw [between_eq]
  infer_instance

instance {q : Char} : Opening (quoted q) := by
  have : Opening (one (raw (String.singleton q))) := opening_one (by simp)
  unfold quoted
  rw [between_eq]
  infer_instance

instance {q : Char} : Solid (markupString q) := by
  unfold markupString
  rw [between_eq]
  infer_instance

instance : Solid regex :=
  solid_node fun _ _ _ => .solid fun _ hne => .places fun _ => .places fun _ => .places fun _ =>
    .nodes (by simp [hne])

instance {kind : Kind} [kind.Plain] {substitution : Rule} [Solid substitution] :
    Solid (template kind substitution) := by
  unfold template
  rw [between_eq]
  infer_instance

end RouteAtlas.Source.Grammar
