/-!
# Cutting texts

Pieces of a text between separators, affixes, and the first place of a character. Every cut is a
function on lists of characters with a `String` face beside it.
-/

namespace RouteAtlas.Text

/-- The pieces between the characters of a class; there is one more piece than separators. -/
def piecesBy (p : Char → Bool) : List Char → List (List Char)
  | [] => [[]]
  | c :: cs =>
    if p c then [] :: piecesBy p cs
    else match piecesBy p cs with
      | [] => [[c]]
      | w :: ws => (c :: w) :: ws

/-- The pieces between the occurrences of one character. -/
def pieces (c : Char) (s : String) : List String :=
  (piecesBy (· == c) s.toList).map String.ofList

def cutAt? (c : Char) (s : String) : Option (String × String) :=
  match s.toList.span (· != c) with
  | (pre, _ :: post) => some (String.ofList pre, String.ofList post)
  | (_, []) => none

/-- The rest of a list after a leading part. -/
def stripList? [BEq α] : (lead : List α) → List α → Option (List α)
  | [], cs => some cs
  | _ :: _, [] => none
  | l :: ls, c :: cs => if l == c then stripList? ls cs else none

def stripStart? (lead s : String) : Option String :=
  (stripList? lead.toList s.toList).map String.ofList

def stripEnd? (tail s : String) : Option String :=
  (stripList? tail.toList.reverse s.toList.reverse).map fun cs => String.ofList cs.reverse

def startsWith (lead s : String) : Bool := (stripStart? lead s).isSome

def endsWith (tail s : String) : Bool := (stripEnd? tail s).isSome

/-- What is left after every leading occurrence of a part; an empty part is not removed. -/
def stripStartAll (lead : List Char) (cs : List Char) : List Char :=
  match stripList? lead cs with
  | some rest => if rest.length < cs.length then stripStartAll lead rest else cs
  | none => cs
termination_by cs.length

def occurs [BEq α] (part : List α) : List α → Bool
  | [] => part.isEmpty
  | c :: cs => (stripList? part (c :: cs)).isSome || occurs part cs

def contains (part s : String) : Bool := occurs part.toList s.toList

/-- The text with the first occurrence of a character replaced. -/
def replaceFirst (c : Char) (by_ s : String) : String :=
  match cutAt? c s with
  | some (pre, post) => pre ++ by_ ++ post
  | none => s

def upperAscii (s : String) : String := s.map Char.toUpper

def lowerAscii (s : String) : String := s.map Char.toLower

end RouteAtlas.Text
