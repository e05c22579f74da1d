import RouteAtlas.Json.Reader
import RouteAtlas.Modules.Jsonc

/-!
# Texts of JSON with comments

A text of JSON with comments is a sequence of tokens with gaps around them. A gap is white space
and closed comments in any order. The tokens follow the grammar of JSON, except that one comma may
stand after the last entry of a container. `Commented` is such a text.
-/

open List

namespace RouteAtlas.Modules.Jsonc

/-! ## Gaps -/

/-- A piece of a gap; a comment carries that it ends where it is said to end. -/
inductive GapPiece where
  | white (c : Char) (isGap : Json.isGap c)
  | line (body : List Char) (oneLine : '\n' ∉ body)
  | block (body : List Char) (closesOnce : ¬ ['*', '/'] <:+: body)

def GapPiece.text : GapPiece → List Char
  | .white c _ => [c]
  | .line body _ => '/' :: '/' :: (body ++ ['\n'])
  | .block body _ => '/' :: '*' :: (body ++ ['*', '/'])

/-- What is left of a piece: the character itself, or the line feed of a line comment. -/
def GapPiece.left : GapPiece → List Char
  | .white c _ => [c]
  | .line _ _ => ['\n']
  | .block _ _ => []

abbrev Gap := List GapPiece

def Gap.text (gap : Gap) : List Char := gap.flatMap GapPiece.text

/-- The white space of a gap and the line feeds of its line comments. -/
def Gap.left (gap : Gap) : List Char := gap.flatMap GapPiece.left

/-! ## Tokens -/

/-- The two kinds of containers. -/
inductive Container where
  | array
  | object

def Container.opening : Container → Char
  | .array => '['
  | .object => '{'

def Container.closing : Container → Char
  | .array => ']'
  | .object => '}'

/-- A piece of a string: a character that stands for itself, or a backslash and the next one. -/
inductive StringPiece where
  | plain (c : Char) (isPlain : c ≠ '"' ∧ c ≠ '\\')
  | escaped (c : Char)

def StringPiece.text : StringPiece → List Char
  | .plain c _ => [c]
  | .escaped c => ['\\', c]

/-- The characters of numbers and of the names `true`, `false` and `null`. -/
def isWordChar (c : Char) : Bool := c.isAlphanum || c == '+' || c == '-' || c == '.'

/-- A token. A spare comma is one that stands after the last entry of a container. -/
inductive Token where
  | opens (container : Container)
  | closes (container : Container)
  | colon
  | comma
  | spareComma
  | string (pieces : List StringPiece)
  | word (c : Char) (cs : List Char) (isWord : (c :: cs).all isWordChar)

def Token.text : Token → List Char
  | .opens container => [container.opening]
  | .closes container => [container.closing]
  | .colon => [':']
  | .comma => [',']
  | .spareComma => [',']
  | .string pieces => '"' :: (pieces.flatMap StringPiece.text ++ ['"'])
  | .word c cs _ => c :: cs

/-- What is left of a token: nothing of a spare comma and all of any other one. -/
def Token.left : Token → List Char
  | .spareComma => []
  | token => token.text

def Token.isClosing : Token → Bool
  | .closes _ => true
  | _ => false

/-! ## The grammar -/

/-- The parts of a text that the grammar speaks of. -/
inductive Part where
  | value
  | entry (container : Container)
  | entries (container : Container)

/-- The token sequences of JSON, with a spare comma allowed after the last entry of a container. -/
inductive Spells : Part → List Token → Prop
  | string (pieces) : Spells .value [.string pieces]
  | word (c cs isWord) : Spells .value [.word c cs isWord]
  | empty (k : Container) : Spells .value [.opens k, .closes k]
  | filled {k : Container} {ts} (entries : Spells (.entries k) ts) :
    Spells .value (.opens k :: (ts ++ [.closes k]))
  | item {ts} (value : Spells .value ts) : Spells (.entry .array) ts
  | member (key) {ts} (value : Spells .value ts) :
    Spells (.entry .object) (.string key :: .colon :: ts)
  | last {k : Container} {ts} (entry : Spells (.entry k) ts) : Spells (.entries k) ts
  | spare {k : Container} {ts} (entry : Spells (.entry k) ts) :
    Spells (.entries k) (ts ++ [.spareComma])
  | more {k : Container} {ts us} (entry : Spells (.entry k) ts) (rest : Spells (.entries k) us) :
    Spells (.entries k) (ts ++ .comma :: us)

/-- A token with the gap in front of it. -/
structure Lexeme where
  gap : Gap
  token : Token

variable (ls : List Lexeme)

def spelled : List Char := ls.flatMap fun l => l.gap.text ++ l.token.text

def light : List Char := ls.flatMap fun l => l.gap.left ++ l.token.text

def stripped : List Char := ls.flatMap fun l => l.gap.left ++ l.token.left

/-- A text of JSON with comments. -/
structure Commented where
  lexemes : List Lexeme
  last : Gap
  isValue : Spells .value (lexemes.map Lexeme.token)

def Commented.text (doc : Commented) : String :=
  String.ofList (spelled doc.lexemes ++ doc.last.text)

/-- The text without spare commas, each gap reduced. -/
def Commented.plainText (doc : Commented) : String :=
  String.ofList (stripped doc.lexemes ++ doc.last.left)

/-! ## The pass over comments -/

theorem dropComments_plain {c : Char} (hq : c ≠ '"') (hs : c ≠ '/') (cs : List Char) :
    dropComments .plain (c :: cs) = c :: dropComments .plain cs := by
  rw [dropComments]
  all_goals simp_all

theorem dropComments_line {body : List Char} (h : '\n' ∉ body) (cs : List Char) :
    dropComments .lineComment (body ++ '\n' :: cs) = '\n' :: dropComments .plain cs := by
  induction body with
  | nil => rfl
  | cons c body ih =>
    obtain ⟨hc, hbody⟩ := not_or.mp (mt mem_cons.mpr h)
    rw [cons_append, dropComments, ih hbody]
    simpa using Ne.symm hc

/-- The reader is inside a block comment, `star` says whether a star was just read. -/
theorem dropComments_block {star : Bool} {body : List Char} (h : ¬ ['*', '/'] <:+: body)
    (hstar : star → body.head? ≠ some '/') (cs : List Char) :
    dropComments (.blockComment star) (body ++ '*' :: '/' :: cs) = dropComments .plain cs := by
  induction body generalizing star with
  | nil => cases star <;> rfl
  | cons c body ih =>
    have hopen : (star && c == '/') = false := by
      cases star <;> simp_all
    have hbody : ¬ ['*', '/'] <:+: body :=
      fun hin => h (hin.trans (suffix_cons c body).isInfix)
    rw [cons_append, dropComments, hopen]
    refine ih hbody fun hc hhead => h ?_
    obtain ⟨rest, rfl⟩ : ∃ rest, body = '/' :: rest := by
      cases body <;> simp_all
    rw [beq_iff_eq.mp hc]
    exact ⟨[], rest, rfl⟩

variable (gap : Gap)

theorem dropComments_gap (cs : List Char) :
    dropComments .plain (gap.text ++ cs) = gap.left ++ dropComments .plain cs := by
  induction gap with
  | nil => rfl
  | cons piece gap ih =>
    rw [Gap.text, flatMap_cons, append_assoc, Gap.left, flatMap_cons, append_assoc, ← Gap.left,
      ← ih]
    cases piece with
    | white c hc =>
      refine dropComments_plain ?_ ?_ _
      · rintro rfl; simp [Json.isGap] at hc
      · rintro rfl; simp [Json.isGap] at hc
    | line body hbody =>
      simp only [GapPiece.text, cons_append, append_assoc]
      exact dropComments_line hbody _
    | block body hbody =>
      simp only [GapPiece.text, cons_append, append_assoc]
      exact dropComments_block hbody (fun hstar => absurd hstar Bool.false_ne_true) _

/-- What copies each piece of a string copies the string. -/
theorem string_copied {f : List Char → List Char}
    (h : ∀ (piece : StringPiece) cs, f (piece.text ++ cs) = piece.text ++ f cs) (cs : List Char) :
    ∀ pieces : List StringPiece,
      f (pieces.flatMap StringPiece.text ++ cs) = pieces.flatMap StringPiece.text ++ f cs
  | [] => rfl
  | piece :: pieces => by
    rw [flatMap_cons, append_assoc, append_assoc, h, string_copied h cs pieces]

theorem dropComments_string (pieces : List StringPiece) (cs : List Char) :
    dropComments .string (pieces.flatMap StringPiece.text ++ '"' :: cs)
      = pieces.flatMap StringPiece.text ++ '"' :: dropComments .plain cs := by
  refine string_copied (fun piece cs => ?_) ('"' :: cs) pieces
  cases piece with
  | plain c hc =>
    simp only [StringPiece.text, cons_append, nil_append]
    rw [dropComments]
    · exact fun _ _ hback _ => hc.2 hback
    · exact hc.1
  | escaped c => rfl

theorem ne_of_isWordChar {c : Char} (h : isWordChar c) :
    c ≠ '"' ∧ c ≠ '/' ∧ c ≠ ',' ∧ c ≠ ']' ∧ c ≠ '}' := by
  refine ⟨?_, ?_, ?_, ?_, ?_⟩ <;> rintro rfl <;> simp [isWordChar] at h

variable (token : Token)

theorem dropComments_token (cs : List Char) :
    dropComments .plain (token.text ++ cs) = token.text ++ dropComments .plain cs := by
  cases token with
  | opens k | closes k => cases k <;> exact dropComments_plain (by decide) (by decide) cs
  | colon | comma | spareComma => rfl
  | string pieces =>
    simp only [Token.text, cons_append, append_assoc]
    exact congrArg ('"' :: ·) (dropComments_string pieces cs)
  | word c ds h =>
    have hword := all_eq_true.mp h
    simp only [Token.text]
    generalize c :: ds = word at hword
    induction word with
    | nil => rfl
    | cons d word ih =>
      obtain ⟨hd, hrest⟩ := forall_mem_cons.mp hword
      obtain ⟨hq, hs, -⟩ := ne_of_isWordChar hd
      rw [cons_append, dropComments_plain hq hs, ih hrest, cons_append]

theorem dropComments_spelled (cs : List Char) :
    dropComments .plain (spelled ls ++ cs) = light ls ++ dropComments .plain cs := by
  induction ls with
  | nil => rfl
  | cons l ls ih =>
    simp only [spelled, light, flatMap_cons, append_assoc] at ih ⊢
    rw [dropComments_gap, dropComments_token, ih]

/-! ## The pass over commas -/

theorem isGap_of_mem_left {gap : Gap} {c : Char} (h : c ∈ gap.left) : Json.isGap c := by
  obtain ⟨piece, -, hc⟩ := mem_flatMap.mp h
  cases piece with
  | white d hd =>
    rw [GapPiece.left, mem_singleton] at hc
    rw [hc]
    exact hd
  | line body hbody =>
    rw [GapPiece.left, mem_singleton] at hc
    rw [hc]
    rfl
  | block body hbody => cases hc

theorem isBlank_of_isWordChar {c : Char} (h : isWordChar c) : Text.isBlank c = false := by
  delta isWordChar Char.isAlphanum Char.isAlpha Char.isUpper Char.isLower Char.isDigit at h
  simp only [Bool.or_eq_true, Bool.and_eq_true, decide_eq_true_eq, beq_iff_eq,
    UInt32.le_iff_toNat_le] at h
  rcases h with ((h | rfl) | rfl) | rfl
  · simp only [Char.toNat_val, Char.reduceToNat] at h
    simp only [Text.isBlank, Text.blankRanges, any_cons, any_nil, Bool.or_false,
      Bool.or_eq_false_iff, Bool.and_eq_false_iff, decide_eq_false_iff_not]
    omega
  all_goals decide

/-- The first character of a token is no white space and shows whether the token closes. -/
theorem Token.text_eq_cons :
    ∃ c cs, token.text = c :: cs ∧ Text.isBlank c = false ∧
      (c == '}' || c == ']') = token.isClosing := by
  cases token with
  | opens k | closes k => cases k <;> exact ⟨_, _, rfl, by decide, by decide⟩
  | colon | comma | spareComma => exact ⟨_, _, rfl, by decide, by decide⟩
  | string pieces => exact ⟨_, _, rfl, by decide, rfl⟩
  | word c cs h =>
    have hc := all_eq_true.mp h c mem_cons_self
    obtain ⟨-, -, -, hsquare, hcurly⟩ := ne_of_isWordChar hc
    exact ⟨c, cs, rfl, isBlank_of_isWordChar hc, by simp [isClosing, hsquare, hcurly]⟩

theorem closesNext_gap (cs : List Char) : closesNext (gap.left ++ cs) = closesNext cs := by
  unfold closesNext
  rw [dropWhile_append_of_pos fun c hc => ?_]
  have hgap := isGap_of_mem_left hc
  simp only [Json.isGap, Bool.or_eq_true, beq_iff_eq] at hgap
  rcases hgap with ((rfl | rfl) | rfl) | rfl <;> decide

def startsClosing : List Token → Bool
  | [] => false
  | token :: _ => token.isClosing

theorem closesNext_light :
    closesNext (light ls ++ gap.left) = startsClosing (ls.map Lexeme.token) := by
  cases ls with
  | nil => simpa [closesNext, light, startsClosing] using closesNext_gap gap []
  | cons l ls =>
    simp only [light, flatMap_cons, append_assoc]
    obtain ⟨c, ds, htext, hblank, hclosing⟩ := l.token.text_eq_cons
    rw [closesNext_gap]
    simp [closesNext, startsClosing, htext, hblank, hclosing]

/-- The commas in front of a closing bracket are the spare ones. -/
def Settled : List Token → Prop
  | [] => True
  | token :: tokens =>
    (token = .comma → startsClosing tokens = false) ∧
    (token = .spareComma → startsClosing tokens) ∧ Settled tokens

theorem dropTrailingCommas_plain {cs : List Char} (h : ∀ c ∈ cs, c ≠ ',' ∧ c ≠ '"')
    (ds : List Char) : dropTrailingCommas false (cs ++ ds) = cs ++ dropTrailingCommas false ds := by
  induction cs with
  | nil => rfl
  | cons c cs ih =>
    obtain ⟨⟨hcomma, hquote⟩, hcs⟩ := forall_mem_cons.mp h
    rw [cons_append, dropTrailingCommas, beq_false_of_ne hquote, ih hcs, cons_append]
    exact hcomma

theorem dropTrailingCommas_string (pieces : List StringPiece) (cs : List Char) :
    dropTrailingCommas true (pieces.flatMap StringPiece.text ++ '"' :: cs)
      = pieces.flatMap StringPiece.text ++ '"' :: dropTrailingCommas false cs := by
  refine string_copied (fun piece cs => ?_) ('"' :: cs) pieces
  cases piece with
  | plain c hc =>
    simp only [StringPiece.text, cons_append, nil_append]
    rw [dropTrailingCommas, bne_iff_ne.mpr hc.1]
    exact fun _ _ hback _ => hc.2 hback
  | escaped c => rfl

theorem dropTrailingCommas_token {cs : List Char}
    (hcomma : token = .comma → closesNext cs = false)
    (hspare : token = .spareComma → closesNext cs) :
    dropTrailingCommas false (token.text ++ cs) = token.left ++ dropTrailingCommas false cs := by
  cases token with
  | opens k =>
    cases k <;> exact dropTrailingCommas_plain (by simp [Token.text, Container.opening]) cs
  | closes k =>
    cases k <;> exact dropTrailingCommas_plain (by simp [Token.text, Container.closing]) cs
  | colon => rfl
  | comma => exact if_neg (Bool.eq_false_iff.1 (hcomma rfl))
  | spareComma => exact if_pos (hspare rfl)
  | string pieces =>
    simp only [Token.left, Token.text, cons_append, append_assoc]
    exact congrArg ('"' :: ·) (dropTrailingCommas_string pieces cs)
  | word c ds h =>
    refine dropTrailingCommas_plain (fun d hd => ?_) cs
    obtain ⟨hquote, -, hcomma, -⟩ := ne_of_isWordChar (all_eq_true.mp h d hd)
    exact ⟨hcomma, hquote⟩

theorem dropTrailingCommas_gap (cs : List Char) :
    dropTrailingCommas false (gap.left ++ cs) = gap.left ++ dropTrailingCommas false cs := by
  refine dropTrailingCommas_plain (fun c hc => ?_) cs
  have hgap := isGap_of_mem_left hc
  constructor <;> rintro rfl <;> simp [Json.isGap] at hgap

theorem dropTrailingCommas_light {ls : List Lexeme} (h : Settled (ls.map Lexeme.token))
    (gap : Gap) : dropTrailingCommas false (light ls ++ gap.left) = stripped ls ++ gap.left := by
  induction ls with
  | nil =>
    have hgap := dropTrailingCommas_gap gap []
    rw [append_nil] at hgap
    exact hgap.trans (append_nil _)
  | cons l ls ih =>
    obtain ⟨hcomma, hspare, hrest⟩ := h
    rw [← closesNext_light ls gap] at hcomma hspare
    simp only [light, stripped, flatMap_cons, append_assoc] at ih hcomma hspare ⊢
    rw [dropTrailingCommas_gap, dropTrailingCommas_token l.token hcomma hspare, ih hrest]

/-! ## Spare commas in the grammar -/

theorem Spells.startsClosing_eq {part : Part} {ts : List Token} (h : Spells part ts)
    (rest : List Token) : startsClosing (ts ++ rest) = false := by
  induction h generalizing rest with
  | string | word | empty | filled | member => rfl
  | item _ ih => exact ih rest
  | last _ ih => exact ih rest
  | spare _ ih => simpa using ih (.spareComma :: rest)
  | more _ _ ih => simpa using ih _

/-- What follows decides only about a spare comma at the end, so entries need a bracket there. -/
theorem Spells.settled {part : Part} {ts : List Token} (h : Spells part ts) (rest : List Token)
    (hentries : ∀ k, part = .entries k → startsClosing rest) (hrest : Settled rest) :
    Settled (ts ++ rest) := by
  induction h generalizing rest with
  | string | word | empty => simpa [Settled] using hrest
  | @filled k ts _ ih =>
    have := ih (.closes k :: rest) (fun _ _ => rfl) (by simpa [Settled] using hrest)
    simpa [Settled] using this
  | item _ ih => exact ih rest (by simp) hrest
  | member key _ ih => simpa [Settled] using ih rest (by simp) hrest
  | last _ ih => exact ih rest (by simp) hrest
  | @spare k ts _ ih =>
    have := ih (.spareComma :: rest) (by simp) ⟨by simp, fun _ => hentries k rfl, hrest⟩
    simpa using this
  | @more k ts us _ hus ih ihrest =>
    have := ih (.comma :: (us ++ rest)) (by simp)
      ⟨fun _ => hus.startsClosing_eq rest, by simp, ihrest rest hentries hrest⟩
    simpa using this

theorem stripJsonc_text (doc : Commented) : stripJsonc doc.text = doc.plainText := by
  have hlast : dropComments .plain doc.last.text = doc.last.left := by
    have hgap := dropComments_gap doc.last []
    rw [append_nil] at hgap
    exact hgap.trans (append_nil _)
  have hsettled : Settled (doc.lexemes.map Lexeme.token) := by
    simpa using doc.isValue.settled [] (by simp) trivial
  rw [stripJsonc, Commented.text, String.toList_ofList, dropComments_spelled, hlast,
    dropTrailingCommas_light hsettled, Commented.plainText]

end RouteAtlas.Modules.Jsonc
