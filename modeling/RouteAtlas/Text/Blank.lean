/-!
# White space

The characters that count as white space (the Unicode property `White_Space`, 25 code points),
trimming by a class of characters, and the collapse of white space between words.
-/

namespace RouteAtlas.Text

/-- The code points of the Unicode property `White_Space`, as ranges with both ends included. -/
def blankRanges : List (Nat × Nat) :=
  [(0x09, 0x0d), (0x20, 0x20), (0x85, 0x85), (0xa0, 0xa0), (0x1680, 0x1680), (0x2000, 0x200a),
   (0x2028, 0x2029), (0x202f, 0x202f), (0x205f, 0x205f), (0x3000, 0x3000)]

def isBlank (c : Char) : Bool :=
  blankRanges.any fun (lo, hi) => lo ≤ c.toNat && c.toNat ≤ hi

/-- Drops the characters of a class from both ends. -/
def trimBy (p : Char → Bool) (cs : List Char) : List Char :=
  ((cs.dropWhile p).reverse.dropWhile p).reverse

theorem dropWhile_eq_self {p : Char → Bool} {cs : List Char}
    (h : ∀ c, cs.head? = some c → p c = false) : cs.dropWhile p = cs := by
  cases cs with
  | nil => rfl
  | cons c cs => rw [List.dropWhile_cons_of_neg (by simp [h c rfl])]

theorem trimBy_eq_self {p : Char → Bool} {cs : List Char}
    (hfirst : ∀ c, cs.head? = some c → p c = false)
    (hlast : ∀ c, cs.getLast? = some c → p c = false) : trimBy p cs = cs := by
  rw [trimBy, dropWhile_eq_self hfirst, dropWhile_eq_self (by simpa using hlast),
    List.reverse_reverse]

def trimRightBy (p : Char → Bool) (cs : List Char) : List Char :=
  (cs.reverse.dropWhile p).reverse

def trim (s : String) : String := String.ofList (trimBy isBlank s.toList)

/-- The text without leading and trailing occurrences of one character. -/
def trimChar (c : Char) (s : String) : String := String.ofList (trimBy (· == c) s.toList)

/-- The maximal runs of characters outside a class, in order: `cur` is the run being read. -/
def runs (p : Char → Bool) : (cur : List Char) → List Char → List (List Char)
  | cur, [] => if cur.isEmpty then [] else [cur.reverse]
  | cur, c :: cs =>
    if p c then (if cur.isEmpty then runs p [] cs else cur.reverse :: runs p [] cs)
    else runs p (c :: cur) cs

/-- The words of a text: its maximal runs of characters that are no white space. -/
def words (s : String) : List String := (runs isBlank [] s.toList).map String.ofList

/-- Each run of white space as one space; `gap` says that the run being read has its space already.
-/
def squeeze : (gap : Bool) → List Char → List Char
  | _, [] => []
  | gap, c :: cs =>
    if isBlank c then (if gap then squeeze true cs else ' ' :: squeeze true cs)
    else c :: squeeze false cs

/-- The text with one space for each run of white space, and none at its ends. -/
def collapse (s : String) : String := trim (String.ofList (squeeze false s.toList))

end RouteAtlas.Text
