import RouteAtlas.Json.Value
import RouteAtlas.Text.Bytes

/-!
# Reading JSON

A strict reader: one value with white space around it and nothing else, no control characters or
lone surrogates in strings, no leading zeros, numbers within the range of double precision, and at
most 127 containers inside each other.
-/

namespace RouteAtlas.Json

/-- The characters that may stand between tokens. -/
def isGap (c : Char) : Bool := c == ' ' || c == '\n' || c == '\t' || c == '\r'

variable (cs : List Char)

def skipGap : List Char := cs.dropWhile isGap

def hex4? : List Char → Option (Nat × List Char)
  | a :: b :: c :: d :: rest => do
    let a ← Text.hexDigit? a
    let b ← Text.hexDigit? b
    let c ← Text.hexDigit? c
    let d ← Text.hexDigit? d
    some (((a * 16 + b) * 16 + c) * 16 + d, rest)
  | _ => none

def escapeLetter? : Char → Option Char
  | '"' => some '"'
  | '\\' => some '\\'
  | '/' => some '/'
  | 'b' => some '\x08'
  | 'f' => some '\x0c'
  | 'n' => some '\n'
  | 'r' => some '\r'
  | 't' => some '\t'
  | _ => none

/-- The character of a `\u` escape, whose digits come next; a leading surrogate needs its partner.
-/
def unicodeEscape? : Option (Char × List Char) := do
  let (hi, rest) ← hex4? cs
  if 0xdc00 ≤ hi ∧ hi ≤ 0xdfff then none
  else if 0xd800 ≤ hi ∧ hi ≤ 0xdbff then
    match rest with
    | '\\' :: 'u' :: rest =>
      let (lo, rest) ← hex4? rest
      if 0xdc00 ≤ lo ∧ lo ≤ 0xdfff then
        some (Char.ofNat (0x10000 + (hi - 0xd800) * 0x400 + (lo - 0xdc00)), rest)
      else none
    | _ => none
  else some (Char.ofNat hi, rest)

/-- The rest of a string after its opening quote; `fuel` bounds the number of characters. -/
def stringBody? : (fuel : Nat) → List Char → Option (List Char × List Char)
  | 0, _ => none
  | _ + 1, [] => none
  | _ + 1, '"' :: cs => some ([], cs)
  | fuel + 1, '\\' :: 'u' :: cs => do
    let (c, cs) ← unicodeEscape? cs
    let (body, cs) ← stringBody? fuel cs
    some (c :: body, cs)
  | fuel + 1, '\\' :: e :: cs => do
    let c ← escapeLetter? e
    let (body, cs) ← stringBody? fuel cs
    some (c :: body, cs)
  | fuel + 1, c :: cs =>
    if c.toNat < 0x20 || c == '\\' then none
    else do
      let (body, cs) ← stringBody? fuel cs
      some (c :: body, cs)

def stringAfterQuote? : Option (String × List Char) :=
  (stringBody? (cs.length + 1) cs).map fun (body, rest) => (String.ofList body, rest)

def digitsValue (ds : List Char) : Nat :=
  ds.foldl (fun n d => n * 10 + (d.toNat - '0'.toNat)) 0

def digits : List Char × List Char :=
  (cs.takeWhile Char.isDigit, cs.dropWhile Char.isDigit)

/-- The least natural number that is too large for double precision after rounding. -/
def overflowLimit : Nat := Nat.pow 2 1024 - Nat.pow 2 970

/-- The number `mantissa * 10 ^ exponent` rounds to a finite double. -/
def isFinite (mantissa : Nat) (exponent : Int) : Bool :=
  if mantissa == 0 then true
  else if 400 + (Nat.toDigits 10 mantissa).length < exponent then false
  else if 0 ≤ exponent then mantissa * Nat.pow 10 exponent.toNat < overflowLimit
  else if 400 + (Nat.toDigits 10 mantissa).length < -exponent then true
  else mantissa < overflowLimit * Nat.pow 10 (-exponent).toNat

def fraction? : List Char → Option (List Char × List Char)
  | '.' :: cs =>
    let (ds, rest) := digits cs
    if ds.isEmpty then none else some (ds, rest)
  | cs => some ([], cs)

def exponent? : List Char → Option (Option Int × List Char)
  | 'e' :: cs | 'E' :: cs =>
    let (neg, cs) := match cs with
      | '-' :: cs => (true, cs)
      | '+' :: cs => (false, cs)
      | cs => (false, cs)
    let (ds, rest) := digits cs
    if ds.isEmpty then none
    else
      let n : Int := digitsValue ds
      some (some (if neg then -n else n), rest)
  | cs => some (none, cs)

def numberOf? (neg : Bool) (whole frac : List Char) (exp : Option Int) : Option Json :=
  let n := digitsValue whole
  let sign : Int := if neg then -1 else 1
  if frac.isEmpty ∧ exp = none then
    if neg then
      if n = 0 then some (.decimal 0 0)
      else if n ≤ 0x8000000000000000 then some (.integer (-n))
      else if isFinite n 0 then some (.decimal (-n) 0) else none
    else if n < 0x10000000000000000 then some (.integer n)
    else if isFinite n 0 then some (.decimal n 0) else none
  else
    let m := digitsValue (whole ++ frac)
    let e := exp.getD 0 - frac.length
    if isFinite m e then some (.decimal (sign * m) e) else none

def number? : Option (Json × List Char) :=
  let (neg, cs) := match cs with
    | '-' :: cs => (true, cs)
    | cs => (false, cs)
  let (whole, rest) := digits cs
  if whole.isEmpty || (whole.head? == some '0' && whole.length > 1) then none
  else do
    let (frac, rest) ← fraction? rest
    let (exp, rest) ← exponent? rest
    let value ← numberOf? neg whole frac exp
    some (value, rest)

/-- Entries with commas between them, up to the closing bracket; at most `fuel` of them. -/
def entries? {α : Type} (item? : List Char → Option (α × List Char)) (closing : Char) :
    (fuel : Nat) → List Char → Option (List α × List Char)
  | 0, _ => none
  | fuel + 1, cs => do
    let (entry, rest) ← item? cs
    match skipGap rest with
    | [] => none
    | c :: rest =>
      if c = ',' then (entries? item? closing fuel rest).map fun (es, rest) => (entry :: es, rest)
      else if c = closing then some ([entry], rest)
      else none

/-- A container behind its opening bracket. -/
def container? {α : Type} (item? : List Char → Option (α × List Char)) (closing : Char)
    (cs : List Char) : Option (List α × List Char) :=
  match skipGap cs with
  | [] => none
  | c :: rest =>
    if c = closing then some ([], rest) else entries? item? closing cs.length (c :: rest)

/-- A key and its value, which `read?` reads. -/
def keyed? (read? : List Char → Option (Json × List Char)) (cs : List Char) :
    Option ((String × Json) × List Char) :=
  match skipGap cs with
  | '"' :: cs => do
    let (key, rest) ← stringAfterQuote? cs
    match skipGap rest with
    | ':' :: rest => (read? rest).map fun (value, rest) => ((key, value), rest)
    | _ => none
  | _ => none

/-- A value that is no container, in front. -/
def scalar? : List Char → Option (Json × List Char)
  | 'n' :: 'u' :: 'l' :: 'l' :: rest => some (.null, rest)
  | 't' :: 'r' :: 'u' :: 'e' :: rest => some (.bool true, rest)
  | 'f' :: 'a' :: 'l' :: 's' :: 'e' :: rest => some (.bool false, rest)
  | '"' :: rest => (stringAfterQuote? rest).map fun (s, rest) => (.string s, rest)
  | rest => number? rest

/-- A value in front, which lies in containers one level less than `depth` deep. -/
def value? : (depth : Nat) → List Char → Option (Json × List Char)
  | depth + 2, cs =>
    match skipGap cs with
    | '[' :: rest => (container? (value? (depth + 1)) ']' rest).map fun (items, rest) =>
      (.array items, rest)
    | '{' :: rest => (container? (keyed? (value? (depth + 1))) '}' rest).map fun (ms, rest) =>
      (.object ms, rest)
    | rest => scalar? rest
  | _, cs => scalar? (skipGap cs)

/-- The value that the text is, with the members of its objects as they are written. -/
def readWritten? (text : String) : Option Json :=
  match value? 128 text.toList with
  | some (value, rest) => if (skipGap rest).isEmpty then some value else none
  | none => none

mutual

/-- The value with the members of its objects in order, the last one of each key. -/
def normal : Json → Json
  | .array items => .array (normalItems items)
  | .object members => ofMembers (normalMembers members)
  | .null => .null
  | .bool b => .bool b
  | .integer n => .integer n
  | .decimal mantissa exponent => .decimal mantissa exponent
  | .string s => .string s

def normalItems : List Json → List Json
  | [] => []
  | item :: items => normal item :: normalItems items

def normalMembers : List (String × Json) → List (String × Json)
  | [] => []
  | (key, value) :: members => (key, normal value) :: normalMembers members

end

def read? (text : String) : Option Json := (readWritten? text).map normal

def readBytes? (bytes : ByteArray) : Option Json := (Text.utf8? bytes).bind read?

end RouteAtlas.Json
