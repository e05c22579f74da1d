import RouteAtlas.Text.Split

/-!
# JSON values

A JSON value as a tree. An object keeps its members sorted by key, with one member per key; the
last one given wins. Integers that fit in 64 bits are integers; every other number is a decimal.
-/

namespace RouteAtlas

/-- JSON values, members in order. -/
inductive Json where
  | null
  | bool (b : Bool)
  /-- An integer in the range of 64-bit integers, signed or unsigned. -/
  | integer (n : Int)
  /-- The number `mantissa * 10 ^ exponent`. -/
  | decimal (mantissa exponent : Int)
  | string (s : String)
  | array (items : List Json)
  | object (members : List (String × Json))
  deriving Repr, Inhabited

namespace Json

/-- Puts a member in its place by key; a member with the same key is replaced. -/
def insertMember (key : String) (value : Json) : List (String × Json) → List (String × Json)
  | [] => [(key, value)]
  | (k, v) :: rest =>
    if key = k then (key, value) :: rest
    else if key < k then (key, value) :: (k, v) :: rest
    else (k, v) :: insertMember key value rest

/-- The object with the given members, in any order; the last one of a key wins. -/
def ofMembers (members : List (String × Json)) : Json :=
  .object (members.foldl (fun acc (k, v) => insertMember k v acc) [])

def get? (key : String) : Json → Option Json
  | .object members => (members.find? (·.1 == key)).map (·.2)
  | _ => none

def string? : Json → Option String
  | .string s => some s
  | _ => none

def array? : Json → Option (List Json)
  | .array items => some items
  | _ => none

def bool? : Json → Option Bool
  | .bool b => some b
  | _ => none

def integerIn? (lo hi : Int) : Json → Option Int
  | .integer n => if lo ≤ n ∧ n ≤ hi then some n else none
  | _ => none

def int64? (j : Json) : Option Int := j.integerIn? (-0x8000000000000000) 0x7fffffffffffffff

def nat32? (j : Json) : Option Nat := (j.integerIn? 0 0xffffffff).map Int.toNat

def natural? : Json → Option Nat
  | .integer n => if 0 ≤ n then some n.toNat else none
  | _ => none

def isObject : Json → Bool
  | .object _ => true
  | _ => false

def stringAt? (key : String) (j : Json) : Option String := (j.get? key).bind string?

def ofNat (n : Nat) : Json := .integer n

def ofStrings (xs : List String) : Json := .array (xs.map .string)

/-- A value that may be absent; absence is null. -/
def ofOption (f : α → Json) : Option α → Json
  | none => .null
  | some a => f a

def ofString? : Option String → Json := ofOption .string

end Json

end RouteAtlas
