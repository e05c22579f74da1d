import RouteAtlas.Inventory.Binding
import RouteAtlas.Inventory.Resource
import RouteAtlas.Path.Basic

/-!
# What one file contributes

The routers that a file makes, what is registered on each of them in source order, the mounts
between routers, and the names under which the file gives routers to other files.
-/

namespace RouteAtlas.Inventory

/-- A router is known by the place where it is made. -/
structure RouterKey where
  file : Path
  offset : Nat
  deriving DecidableEq, Repr

def RouterKey.same (a b : RouterKey) : Bool := a.offset == b.offset && a.file.same b.file

theorem RouterKey.same_iff {a b : RouterKey} :
    a.same b ↔ a.offset = b.offset ∧ a.file.components = b.file.components := by
  simp [RouterKey.same, Path.same]

theorem RouterKey.same_comm {a b : RouterKey} : a.same b = b.same a := by
  rw [Bool.eq_iff_iff, RouterKey.same_iff, RouterKey.same_iff]
  exact and_congr eq_comm eq_comm

theorem RouterKey.same_congr_right {a b : RouterKey} (h : a.same b) (c : RouterKey) :
    c.same a = c.same b := by
  rw [RouterKey.same_iff] at h
  rw [Bool.eq_iff_iff, RouterKey.same_iff, RouterKey.same_iff, h.1, h.2]

/-- What is mounted: a router of the file, or a name of another module. -/
inductive MountTarget where
  | router (key : RouterKey)
  | imported (specifier name : String)
  deriving DecidableEq, Repr

/-- A resource before its place in the whole inventory is known. -/
structure Draft where
  id : String
  method : String
  path : String
  kind : ResourceKind
  handler : Handler
  deriving DecidableEq, Repr

/-- Another router below a path. A mount that stands for the result of a function is implicit: it is
dropped without a word if the function makes no router. -/
structure Mount where
  path : String
  target : MountTarget
  line : Nat
  column : Nat
  text : String
  implicit : Bool
  deriving DecidableEq, Repr

/-- What is registered on a router. -/
inductive Entry where
  | resource (draft : Draft)
  | mount (mount : Mount)
  deriving DecidableEq, Repr

/-- A router of a file. -/
structure Router where
  key : RouterKey
  name : String
  line : Nat
  column : Nat
  /-- The router is the result of a function, and only a router if the function makes one. -/
  fromFactory : Bool
  entries : List Entry
  deriving DecidableEq, Repr

/-- What one file adds to the graph. -/
structure Contribution where
  file : Path
  relPath : String
  version : Nat
  routers : List Router
  exports : List (String × MountTarget)
  bindings : List Binding
  errors : List Unsupported
  deriving DecidableEq, Repr

def Contribution.resourceCount (c : Contribution) : Nat :=
  (c.routers.flatMap (·.entries)).countP fun
    | .resource _ => true
    | .mount _ => false

/-- A list of named values with the value of one name set. -/
def setNamed (name : String) (value : α) : List (String × α) → List (String × α)
  | [] => [(name, value)]
  | (k, v) :: rest => if k = name then (k, value) :: rest else (k, v) :: setNamed name value rest

end RouteAtlas.Inventory
