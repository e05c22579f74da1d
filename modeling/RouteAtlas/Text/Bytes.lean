/-!
# Texts as UTF-8 bytes

Offsets into a source are counted in UTF-8 bytes. A cut that falls inside a character goes back to
the character's start, so no cut can produce a broken text. Reading bytes as text comes in two
forms: one that refuses ill-formed bytes and one that replaces them.
-/

namespace RouteAtlas.Text

/-- The number of UTF-8 bytes of a list of characters. -/
def byteLength : List Char → Nat
  | [] => 0
  | c :: cs => c.utf8Size + byteLength cs

/-- The longest leading part that has at most `n` bytes. -/
def takeBytes : Nat → List Char → List Char
  | _, [] => []
  | n, c :: cs => if c.utf8Size ≤ n then c :: takeBytes (n - c.utf8Size) cs else []

/-- What is left after the longest leading part that has at most `n` bytes. -/
def dropBytes : Nat → List Char → List Char
  | _, [] => []
  | n, c :: cs => if c.utf8Size ≤ n then dropBytes (n - c.utf8Size) cs else c :: cs

/-- The part of a text between two byte offsets. -/
def slice (s : String) (start stop : Nat) : String :=
  String.ofList (takeBytes (stop - start) (dropBytes start s.toList))

/-- The text cut to at most `limit` bytes. -/
def truncate (s : String) (limit : Nat) : String :=
  if s.utf8ByteSize ≤ limit then s else String.ofList (takeBytes limit s.toList)

/-- The bytes as text, if they are well-formed UTF-8. -/
def utf8? (bytes : ByteArray) : Option String := String.fromUTF8? bytes

/-- How the bytes of one character continue: the range of the second byte and the number of
bytes that follow the first one. -/
structure LeadByte where
  low : Nat
  high : Nat
  tails : Nat
  bits : Nat

/-- What a first byte announces; `none` for a byte that starts no character. -/
def leadByte? (b : Nat) : Option LeadByte :=
  if b < 0x80 then some ⟨0, 0, 0, b⟩
  else if 0xc2 ≤ b && b ≤ 0xdf then some ⟨0x80, 0xbf, 1, b - 0xc0⟩
  else if b == 0xe0 then some ⟨0xa0, 0xbf, 2, 0⟩
  else if b == 0xed then some ⟨0x80, 0x9f, 2, 0xd⟩
  else if 0xe1 ≤ b && b ≤ 0xef then some ⟨0x80, 0xbf, 2, b - 0xe0⟩
  else if b == 0xf0 then some ⟨0x90, 0xbf, 3, 0⟩
  else if b == 0xf4 then some ⟨0x80, 0x8f, 3, 4⟩
  else if 0xf1 ≤ b && b ≤ 0xf3 then some ⟨0x80, 0xbf, 3, b - 0xf0⟩
  else none

/-- Reads the bytes that continue a character, and says whether they were all there. -/
def readTails : (low high tails bits : Nat) → List Nat → Option Nat × List Nat
  | _, _, 0, bits, bs => (some bits, bs)
  | _, _, _ + 1, _, [] => (none, [])
  | low, high, n + 1, bits, b :: bs =>
    if low ≤ b && b ≤ high then readTails 0x80 0xbf n (bits * 64 + (b - 0x80)) bs
    else (none, b :: bs)

theorem readTails_length_le (low high tails bits : Nat) (bs : List Nat) :
    (readTails low high tails bits bs).2.length ≤ bs.length := by
  induction tails generalizing low high bits bs with
  | zero => simp [readTails]
  | succ n ih =>
    cases bs with
    | nil => simp [readTails]
    | cons b bs =>
      unfold readTails
      split
      · exact Nat.le_succ_of_le (ih _ _ _ _)
      · exact Nat.le_refl _

/-- The characters of a byte list; a maximal part of a broken character becomes `U+FFFD`. -/
def lossyChars (bs : List Nat) : List Char :=
  match bs with
  | [] => []
  | b :: bs =>
    match leadByte? b with
    | none => '�' :: lossyChars bs
    | some lead =>
      match h : readTails lead.low lead.high lead.tails lead.bits bs with
      | (some code, rest) =>
        have : rest.length ≤ bs.length := by
          have := readTails_length_le lead.low lead.high lead.tails lead.bits bs
          rwa [h] at this
        Char.ofNat code :: lossyChars rest
      | (none, rest) =>
        have : rest.length ≤ bs.length := by
          have := readTails_length_le lead.low lead.high lead.tails lead.bits bs
          rwa [h] at this
        '�' :: lossyChars rest
termination_by bs.length

/-- The bytes as text, ill-formed parts replaced. -/
def utf8Lossy (bytes : List Nat) : String := String.ofList (lossyChars bytes)

def utf8Bytes (s : String) : List Nat := s.toUTF8.toList.map UInt8.toNat

def hexDigit? (c : Char) : Option Nat :=
  if '0' ≤ c && c ≤ '9' then some (c.toNat - '0'.toNat)
  else if 'a' ≤ c && c ≤ 'f' then some (c.toNat - 'a'.toNat + 10)
  else if 'A' ≤ c && c ≤ 'F' then some (c.toNat - 'A'.toNat + 10)
  else none

end RouteAtlas.Text
