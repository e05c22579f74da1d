import RouteAtlas.Path.Basic
import RouteAtlas.Text.Bytes

/-!
# File URIs

A file URI is `file://` and the path. Writing one copies the path's text; reading one decodes
percent escapes and reads the resulting bytes as UTF-8.
-/

namespace RouteAtlas.Path

def uri (p : Path) : String := "file://" ++ p.slashed

/-- The byte that two characters after a percent sign stand for: two hexadecimal digits, or a plus
sign and one digit. -/
def escapedByte? (a b : Char) : Option Nat :=
  match Text.hexDigit? a, Text.hexDigit? b with
  | some x, some y => some (16 * x + y)
  | none, some y => if a = '+' then some y else none
  | _, none => none

/-- The bytes of a text with its percent escapes decoded. -/
def decodedBytes : List Char → List Nat
  | '%' :: a :: b :: cs =>
    match escapedByte? a b with
    | some byte => byte :: decodedBytes cs
    | none => 37 :: decodedBytes (a :: b :: cs)
  | c :: cs => Text.utf8Bytes (String.singleton c) ++ decodedBytes cs
  | [] => []

def percentDecode (raw : String) : String := Text.utf8Lossy (decodedBytes raw.toList)

def ofUri? (uri : String) : Option Path :=
  (Text.stripStart? "file://" uri).map fun rest => ⟨percentDecode rest⟩

end RouteAtlas.Path
