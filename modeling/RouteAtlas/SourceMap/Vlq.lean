import RouteAtlas.Text.Bytes

/-!
# Numbers in mappings

A number in the mappings of a source map is a row of base-64 digits, the lowest five bits first; the
sixth bit of a digit says that another one follows, the lowest bit of the number is its sign. A
character that is no digit counts as five set bits with another digit to follow.
-/

namespace RouteAtlas.SourceMap

/-- The characters that stand for the digits, in order. -/
def digitChars : String := "ABCDEFGHIJKLMNOPQRSTUVWXYZabcdefghijklmnopqrstuvwxyz0123456789+/"

/-- The digit that a byte stands for: its five bits, and whether another one follows. -/
def digit (b : Nat) : Nat × Bool :=
  match (Text.utf8Bytes digitChars).idxOf? b with
  | some d => (d % 32, 32 ≤ d)
  | none => (31, true)

/-- Sixty-four bits as a signed number. -/
def signed64 (bits : Nat) : Int :=
  let low : Nat := bits % 0x10000000000000000
  if low < 0x8000000000000000 then low else (low : Int) - 0x10000000000000000

/-- The number that collected bits stand for: the lowest bit is the sign. -/
def unsign (bits : Nat) : Int :=
  let half := Int.fdiv (signed64 bits) 2
  if bits % 2 = 1 then -half else half

/-- The numbers of a segment, with `bits` collected of the first one up to `shift`; `none` if the
segment ends inside a number or a number is too long. -/
def numbersFrom? : (bits shift : Nat) → List Nat → Option (List Int)
  | _, shift, [] => if shift = 0 then some [] else none
  | bits, shift, b :: bs =>
    if 64 ≤ shift then none
    else
      let (value, more) := digit b
      let bits := bits + value * Nat.pow 2 shift
      if more then numbersFrom? bits (shift + 5) bs
      else (numbersFrom? 0 0 bs).map (unsign bits :: ·)

def segmentNumbers? (segment : List Nat) : Option (List Int) := numbersFrom? 0 0 segment

end RouteAtlas.SourceMap
