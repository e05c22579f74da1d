import RouteAtlas.Json.Value

/-!
# Writing JSON

The compact form has no white space; the indented form puts every item and member on a line of its
own, two spaces further in than its container, and writes an empty container on one line.
-/

namespace RouteAtlas.Json

/-- A hexadecimal digit in lower case. -/
def hexChar (n : Nat) : Char := if n < 10 then Char.ofNat (48 + n) else Char.ofNat (87 + n)

def escapeChar (c : Char) : List Char :=
  if c == '"' then ['\\', '"']
  else if c == '\\' then ['\\', '\\']
  else if c == '\n' then ['\\', 'n']
  else if c == '\r' then ['\\', 'r']
  else if c == '\t' then ['\\', 't']
  else if c == '\x08' then ['\\', 'b']
  else if c == '\x0c' then ['\\', 'f']
  else if c.toNat < 0x20 then ['\\', 'u', '0', '0', hexChar (c.toNat / 16), hexChar (c.toNat % 16)]
  else [c]

def quote (s : String) : String :=
  "\"" ++ String.ofList (s.toList.flatMap escapeChar) ++ "\""

def atom : Json → String
  | .null => "null"
  | .bool true => "true"
  | .bool false => "false"
  | .integer n => toString n
  | .decimal m e => toString m ++ "e" ++ toString e
  | .string s => quote s
  | .array _ => "[]"
  | .object _ => "\x7b\x7d"

mutual

def compact : Json → String
  | .array items => "[" ++ ",".intercalate (compactItems items) ++ "]"
  | .object members => "\x7b" ++ ",".intercalate (compactMembers members) ++ "\x7d"
  | j => atom j

def compactItems : List Json → List String
  | [] => []
  | j :: js => compact j :: compactItems js

def compactMembers : List (String × Json) → List String
  | [] => []
  | (k, j) :: ms => (quote k ++ ":" ++ compact j) :: compactMembers ms

end

/-- The lines of a container: brackets around the parts, each `inner` deep. -/
def block (opening closing outer inner : String) (parts : List String) : String :=
  if parts.isEmpty then opening ++ closing
  else opening ++ "\n" ++ inner ++ (",\n" ++ inner).intercalate parts ++ "\n" ++ outer ++ closing

mutual

/-- The value in lines, as it stands `indent` deep. -/
def prettyAt (indent : String) : Json → String
  | .array items => block "[" "]" indent (indent ++ "  ") (prettyItems (indent ++ "  ") items)
  | .object members =>
    block "\x7b" "\x7d" indent (indent ++ "  ") (prettyMembers (indent ++ "  ") members)
  | j => atom j

def prettyItems (indent : String) : List Json → List String
  | [] => []
  | j :: js => prettyAt indent j :: prettyItems indent js

def prettyMembers (indent : String) : List (String × Json) → List String
  | [] => []
  | (k, j) :: ms => (quote k ++ ": " ++ prettyAt indent j) :: prettyMembers indent ms

end

def pretty (j : Json) : String := prettyAt "" j

end RouteAtlas.Json
