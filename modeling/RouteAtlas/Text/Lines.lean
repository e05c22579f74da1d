import RouteAtlas.Text.Bytes
import RouteAtlas.Text.Split

/-!
# Lines and columns

A text is a list of lines, each ended by a line feed; a carriage return right before the line feed
belongs to the ending. Columns of a line are counted in bytes or in UTF-16 code units, and the two
counts are converted into each other on the characters of the line.
-/

namespace RouteAtlas.Text

def dropReturn (line : List Char) : List Char :=
  match line.reverse with
  | '\r' :: rest => rest.reverse
  | _ => line

/-- The lines among the pieces between line feeds: the last piece has no line feed after it, so it
keeps a carriage return, and it is a line only if it is not empty. -/
def linesOf : List (List Char) → List (List Char)
  | [] => []
  | [last] => if last.isEmpty then [] else [last]
  | piece :: rest => dropReturn piece :: linesOf rest

def lineChars (s : String) : List (List Char) := linesOf (piecesBy (· == '\n') s.toList)

def lines (s : String) : List String := (lineChars s).map String.ofList

/-- The number of UTF-16 code units of a character. -/
def units16 (c : Char) : Nat := if c.toNat < 0x10000 then 1 else 2

def unitLength16 : List Char → Nat
  | [] => 0
  | c :: cs => units16 c + unitLength16 cs

/-- The UTF-16 column of a byte column on a line counted from zero; a column inside a character
counts as the character's start, and a column on a missing line stays as it is. -/
def utf16Column (text : String) (line column : Nat) : Nat :=
  match (lineChars text)[line]? with
  | none => column
  | some row => unitLength16 (takeBytes column row)

/-- The bytes before the first character that starts at or after the given UTF-16 column. -/
def bytesBefore16 : (units : Nat) → List Char → Nat
  | _, [] => 0
  | 0, _ :: _ => 0
  | units@(_ + 1), c :: cs => c.utf8Size + bytesBefore16 (units - units16 c) cs

/-- The byte column of a UTF-16 column on a line counted from zero; a column inside a character
counts as the character's end, and a column on a missing line stays as it is. -/
def byteColumn (text : String) (line column : Nat) : Nat :=
  match (lineChars text)[line]? with
  | none => column
  | some row => bytesBefore16 column row

end RouteAtlas.Text
