import Mathlib.Algebra.Group.Nat.Defs
import RouteAtlas.Proofs.JsonRoundTrip

/-!
# Expressions of texts and numbers

The expressions from which paths are built: strings, whole numbers, templates, sums, parentheses and
constants. They have a value by the rules of the language, where a sum of two numbers is a number
and where the lines of a template end in line feeds. Folding knows texts only: it writes the parts
of an expression one behind another.

Sums of numbers are taken as exact, which they are as long as they stay below `exactBelow`.
-/

open List

namespace RouteAtlas.Inventory

/-! ## Values -/

mutual

/-- An expression that gives a text or a number. -/
inductive Expr where
  | text (content : String)
  | number (k : Nat)
  | template (pieces : Pieces)
  | sum (left right : Expr)
  | parens (inner : Expr)
  | name (x : String) (definition : Expr)

/-- What stands in a template. -/
inductive Pieces where
  | last (content : String)
  | fill (content : String) (inner : Expr) (rest : Pieces)

end

/-- What an expression is worth. -/
inductive Value where
  | text (s : String)
  | number (k : Nat)
  deriving DecidableEq, Repr

namespace Value

def spelled : Value → String
  | text s => s
  | number k => toString k

def isNumber : Value → Bool
  | text _ => false
  | number _ => true

/-- The sum of two values: of numbers a number, else one text behind the other. -/
def plus : Value → Value → Value
  | number k, number l => number (k + l)
  | a, b => text (a.spelled ++ b.spelled)

theorem exists_of_isNumber {a : Value} (h : a.isNumber) : ∃ k, a = number k := by
  cases a with
  | text s => cases h
  | number k => exact ⟨k, rfl⟩

theorem spelled_plus {a b : Value} (h : ¬ (a.isNumber ∧ b.isNumber)) :
    (a.plus b).spelled = a.spelled ++ b.spelled := by
  cases a with
  | text s => rfl
  | number k =>
    cases b with
    | text s => rfl
    | number l => exact absurd ⟨rfl, rfl⟩ h

end Value

/-- Numbers below this one are exact, and so are their sums as long as they are. -/
def exactBelow : Nat := 9007199254740992

/-- A text with line feeds in place of carriage returns, alone or before a line feed. -/
def lineFeeds : List Char → List Char
  | [] => []
  | c :: cs =>
    if c = '\r' then if cs.head? = some '\n' then lineFeeds cs else '\n' :: lineFeeds cs
    else c :: lineFeeds cs

/-- The text of a template between two substitutions. -/
def templateText (content : String) : String := String.ofList (lineFeeds content.toList)

mutual

/-- **The value of an expression** by the rules of the language. -/
def Expr.value : Expr → Value
  | .text content => .text content
  | .number k => .number k
  | .template pieces => .text pieces.value
  | .sum left right => left.value.plus right.value
  | .parens inner => inner.value
  | .name _ definition => definition.value

def Pieces.value : Pieces → String
  | .last content => templateText content
  | .fill content inner rest => templateText content ++ inner.value.spelled ++ rest.value

end

mutual

/-- **The parts of an expression** one behind another. -/
def Expr.folded : Expr → String
  | .text content => content
  | .number k => toString k
  | .template pieces => pieces.folded
  | .sum left right => left.folded ++ right.folded
  | .parens inner => inner.folded
  | .name _ definition => definition.folded

def Pieces.folded : Pieces → String
  | .last content => content
  | .fill content inner rest => content ++ inner.folded ++ rest.folded

end

mutual

/-- **No two numbers are added and no template holds a carriage return.** -/
def Expr.Faithful : Expr → Prop
  | .text _ | .number _ => True
  | .template pieces => pieces.Faithful
  | .sum left right =>
    left.Faithful ∧ right.Faithful ∧ ¬ (left.value.isNumber ∧ right.value.isNumber)
  | .parens inner => inner.Faithful
  | .name _ definition => definition.Faithful

def Pieces.Faithful : Pieces → Prop
  | .last content => '\r' ∉ content.toList
  | .fill content inner rest => '\r' ∉ content.toList ∧ inner.Faithful ∧ rest.Faithful

end

mutual

instance decidableFaithful : (e : Expr) → Decidable e.Faithful
  | .text _ => inferInstanceAs (Decidable True)
  | .number _ => inferInstanceAs (Decidable True)
  | .template pieces => decidableFaithfulPieces pieces
  | .sum left right =>
    have := decidableFaithful left
    have := decidableFaithful right
    inferInstanceAs (Decidable (_ ∧ _))
  | .parens inner => decidableFaithful inner
  | .name _ definition => decidableFaithful definition

instance decidableFaithfulPieces : (p : Pieces) → Decidable p.Faithful
  | .last _ => inferInstanceAs (Decidable (_ ∉ _))
  | .fill _ inner rest =>
    have := decidableFaithful inner
    have := decidableFaithfulPieces rest
    inferInstanceAs (Decidable (_ ∧ _))

end

/-! ## Carriage returns -/

variable (cs : List Char)

theorem length_lineFeeds_le : (lineFeeds cs).length ≤ cs.length := by
  induction cs with
  | nil => exact Nat.le_refl _
  | cons c cs ih =>
    rw [lineFeeds]
    split
    · split
      · exact Nat.le_succ_of_le ih
      · exact Nat.succ_le_succ ih
    · exact Nat.succ_le_succ ih

theorem not_mem_lineFeeds : '\r' ∉ lineFeeds cs := by
  induction cs with
  | nil => exact not_mem_nil
  | cons c cs ih =>
    rw [lineFeeds]
    split
    · split
      · exact ih
      · rw [mem_cons, not_or]
        exact ⟨by decide, ih⟩
    · rename_i hc
      rw [mem_cons, not_or]
      exact ⟨fun h => hc h.symm, ih⟩

/-- **A text stays as it is** if it holds no carriage return. -/
theorem lineFeeds_eq_self_iff : lineFeeds cs = cs ↔ '\r' ∉ cs := by
  constructor
  · intro h
    rw [← h]
    exact not_mem_lineFeeds cs
  · intro h
    induction cs with
    | nil => rfl
    | cons c cs ih =>
      rw [mem_cons, not_or] at h
      obtain ⟨hc, hcs⟩ := h
      rw [lineFeeds, if_neg (fun heq => hc heq.symm), ih hcs]

theorem length_templateText_le (content : String) :
    (templateText content).length ≤ content.length := by
  rw [templateText, String.length_ofList]
  exact length_lineFeeds_le _

theorem templateText_eq_self_iff (content : String) :
    content = templateText content ↔ '\r' ∉ content.toList := by
  rw [← lineFeeds_eq_self_iff, templateText, ← String.toList_inj, String.toList_ofList]
  exact eq_comm

/-! ## Sums of numbers -/

def decimal : Nat := Nat.ofDigitChars 10 cs 0

theorem decimal_append (as bs : List Char) :
    decimal (as ++ bs) = 10 ^ bs.length * decimal as + decimal bs := by
  rw [decimal, Nat.ofDigitChars_append, Nat.ofDigitChars_eq_ofDigitChars_zero]
  rfl

theorem decimal_cons (c : Char) (cs : List Char) :
    decimal (c :: cs) = 10 ^ cs.length * (c.toNat - '0'.toNat) + decimal cs := by
  have h := decimal_append [c] cs
  simpa [decimal, Nat.ofDigitChars_cons] using h

/-- **Digits that denote a number not below another**, at least one of them. -/
structure Digits (cs : List Char) (k : Nat) : Prop where
  nonempty : cs ≠ []
  digits : ∀ c ∈ cs, c.isDigit
  le : k ≤ decimal cs

theorem toNat_of_isDigit {c : Char} (h : c.isDigit) :
    '0'.toNat ≤ c.toNat ∧ c.toNat - '0'.toNat < 10 := by
  obtain ⟨hlow, hhigh⟩ := Char.isDigit_iff_toNat.mp h
  have hzero : '0'.toNat = 48 := rfl
  have hnine : '9'.toNat = 57 := rfl
  omega

theorem decimal_lt {cs : List Char} (h : ∀ c ∈ cs, c.isDigit) : decimal cs < 10 ^ cs.length := by
  induction cs with
  | nil => exact Nat.one_pos
  | cons c cs ih =>
    have hc := (toNat_of_isDigit (h c mem_cons_self)).2
    have hcs := ih fun d hd => h d (mem_cons_of_mem c hd)
    rw [decimal_cons]
    calc 10 ^ cs.length * (c.toNat - '0'.toNat) + decimal cs
        < 10 ^ cs.length * (c.toNat - '0'.toNat) + 10 ^ cs.length := Nat.add_lt_add_left hcs _
      _ = 10 ^ cs.length * (c.toNat - '0'.toNat + 1) := (Nat.mul_succ _ _).symm
      _ ≤ 10 ^ cs.length * 10 := Nat.mul_le_mul_left _ hc

theorem ten_mul_decimal_le (as : List Char) {bs : List Char} (hbs : bs ≠ []) :
    10 * decimal as + decimal bs ≤ decimal (as ++ bs) := by
  have hpow : 10 ^ 1 ≤ 10 ^ bs.length :=
    Nat.pow_le_pow_right (by decide) (length_pos_iff.mpr hbs)
  rw [decimal_append]
  exact Nat.add_le_add_right (Nat.mul_le_mul_right _ hpow) _

theorem head?_of_decimal_eq_zero {cs : List Char} (hne : cs ≠ [])
    (h : ∀ c ∈ cs, c.isDigit) (hzero : decimal cs = 0) : cs.head? = some '0' := by
  cases cs with
  | nil => exact absurd rfl hne
  | cons c cs =>
    have hpos : 0 < 10 ^ cs.length := Nat.pow_pos (by decide)
    have hc := (toNat_of_isDigit (h c mem_cons_self)).1
    rw [decimal_cons, Nat.add_eq_zero_iff, Nat.mul_eq_zero] at hzero
    have hdigit : c.toNat = '0'.toNat := by omega
    rw [head?_cons, Char.toNat_inj.mp hdigit]

namespace Digits

variable {as bs : List Char} {k l : Nat}

theorem of_number : Digits (toString k).toList k := by
  rw [Nat.toString_eq_ofList_toDigits, String.toList_ofList]
  exact ⟨Nat.toDigits_ne_nil, fun _ => Json.isDigit_of_mem_toDigits,
    Nat.le_of_eq Nat.ofDigitChars_ten_toDigits.symm⟩

theorem append (ha : Digits as k) (hb : Digits bs l) : Digits (as ++ bs) (k + l) where
  nonempty := append_ne_nil_of_left_ne_nil ha.nonempty bs
  digits c hc := (mem_append.mp hc).elim (ha.digits c) (hb.digits c)
  le := by
    have := ten_mul_decimal_le as hb.nonempty
    have := ha.le
    have := hb.le
    omega

/-- A number has no more digits than any that denote at least as much. -/
theorem length_le (h : Digits as k) : (toString k).length ≤ as.length := by
  rw [Nat.toString_eq_ofList_toDigits, String.length_ofList]
  refine (Nat.length_toDigits_le_iff (by decide) (length_pos_iff.mpr h.nonempty)).mpr ?_
  exact Nat.lt_of_le_of_lt h.le (decimal_lt h.digits)

/-- **Two numbers one behind the other are never their sum.** -/
theorem ne_sum (ha : Digits as k) (hb : Digits bs l) : as ++ bs ≠ (toString (k + l)).toList := by
  rw [Nat.toString_eq_ofList_toDigits, String.toList_ofList]
  intro heq
  have hsum : decimal (as ++ bs) = k + l := by
    rw [heq]
    exact Nat.ofDigitChars_ten_toDigits
  -- the left number denotes nothing, so the digits of the sum start with a zero
  have hleft : decimal as = 0 := by
    have := ten_mul_decimal_le as hb.nonempty
    have := ha.le
    have := hb.le
    omega
  have hhead : (Nat.toDigits 10 (k + l)).head? = some '0' := by
    rw [← heq, head?_append, head?_of_decimal_eq_zero ha.nonempty ha.digits hleft]
    rfl
  -- but the only such number has one digit
  have hzero : k + l = 0 :=
    Decidable.byContradiction fun hne => Json.head?_toDigits hne hhead
  have hlength := congrArg List.length heq
  rw [hzero, length_append] at hlength
  have hapos := length_pos_iff.mpr ha.nonempty
  have hbpos := length_pos_iff.mpr hb.nonempty
  have hone : (Nat.toDigits 10 0).length = 1 := rfl
  omega

end Digits

/-- **An expression whose value is a number** is folded to digits. -/
theorem Expr.digits_folded : ∀ (e : Expr) {k : Nat}, e.value = .number k → Digits e.folded.toList k
  | .text _, _, h => by cases h
  | .number k, _, h => by
    cases h
    exact Digits.of_number
  | .template _, _, h => by cases h
  | .sum left right, k, h => by
    rw [Expr.value] at h
    cases hleft : left.value with
    | text s =>
      rw [hleft] at h
      cases h
    | number a =>
      cases hright : right.value with
      | text s =>
        rw [hleft, hright] at h
        cases h
      | number b =>
        rw [hleft, hright] at h
        cases h
        rw [Expr.folded, String.toList_append]
        exact (left.digits_folded hleft).append (right.digits_folded hright)
  | .parens inner, _, h => inner.digits_folded h
  | .name _ definition, _, h => definition.digits_folded h

/-! ## When folding is right -/

theorem append_eq_append_iff_of_le {a b c d : String} (hac : c.length ≤ a.length)
    (hbd : d.length ≤ b.length) : a ++ b = c ++ d ↔ a = c ∧ b = d := by
  constructor
  · intro h
    have hlists : a.toList ++ b.toList = c.toList ++ d.toList := by
      rw [← String.toList_append, h, String.toList_append]
    have hlength := congrArg String.length h
    rw [String.length_append, String.length_append] at hlength
    obtain ⟨hleft, hright⟩ := append_inj hlists (by
      rw [String.length_toList, String.length_toList]
      omega)
    exact ⟨String.toList_inj.mp hleft, String.toList_inj.mp hright⟩
  · rintro ⟨rfl, rfl⟩
    rfl

mutual

/-- **Folding gives the value of exactly the faithful expressions**, and never a shorter text. -/
theorem Expr.folded_eq_value_iff : ∀ e : Expr,
    e.value.spelled.length ≤ e.folded.length ∧ (e.folded = e.value.spelled ↔ e.Faithful)
  | .text _ => ⟨Nat.le_refl _, iff_of_true rfl trivial⟩
  | .number _ => ⟨Nat.le_refl _, iff_of_true rfl trivial⟩
  | .template pieces => pieces.folded_eq_value_iff
  | .sum left right => by
    obtain ⟨hleft, hleft_iff⟩ := left.folded_eq_value_iff
    obtain ⟨hright, hright_iff⟩ := right.folded_eq_value_iff
    by_cases hnumbers : left.value.isNumber ∧ right.value.isNumber
    · obtain ⟨k, hk⟩ := Value.exists_of_isNumber hnumbers.1
      obtain ⟨l, hl⟩ := Value.exists_of_isNumber hnumbers.2
      have hdigits := left.digits_folded hk
      have hdigits' := right.digits_folded hl
      rw [Expr.value, hk, hl, Expr.folded]
      refine ⟨?_, iff_of_false (fun heq => hdigits.ne_sum hdigits' ?_) fun h => h.2.2 hnumbers⟩
      · have hlength := (hdigits.append hdigits').length_le
        rwa [← String.toList_append, String.length_toList] at hlength
      · rw [← String.toList_append, heq]
        rfl
    · rw [Expr.value, Value.spelled_plus hnumbers, Expr.folded, Expr.Faithful,
        String.length_append, String.length_append, append_eq_append_iff_of_le hleft hright,
        hleft_iff, hright_iff]
      exact ⟨Nat.add_le_add hleft hright, by simp [hnumbers]⟩
  | .parens inner => inner.folded_eq_value_iff
  | .name _ definition => definition.folded_eq_value_iff

theorem Pieces.folded_eq_value_iff : ∀ p : Pieces,
    p.value.length ≤ p.folded.length ∧ (p.folded = p.value ↔ p.Faithful)
  | .last content => ⟨length_templateText_le content, templateText_eq_self_iff content⟩
  | .fill content inner rest => by
    have hcontent := length_templateText_le content
    obtain ⟨hinner, hinner_iff⟩ := inner.folded_eq_value_iff
    obtain ⟨hrest, hrest_iff⟩ := rest.folded_eq_value_iff
    have hfront : (templateText content ++ inner.value.spelled).length ≤
        (content ++ inner.folded).length := by
      rw [String.length_append, String.length_append]
      exact Nat.add_le_add hcontent hinner
    rw [Pieces.value, Pieces.folded, append_eq_append_iff_of_le hfront hrest,
      append_eq_append_iff_of_le hcontent hinner, templateText_eq_self_iff, hinner_iff, hrest_iff,
      and_assoc]
    refine ⟨?_, Iff.rfl⟩
    rw [String.length_append, String.length_append (content ++ inner.folded)]
    exact Nat.add_le_add hfront hrest

end

end RouteAtlas.Inventory
