import RouteAtlas.Http.Pattern
import RouteAtlas.Inventory.Contribution

/-!
# Networks of routers

Once every mount is linked to its router, an inventory is the walk over mount chains: every router
that is mounted nowhere is walked, its entries in order, and a mount is walked where it stands,
below its path. A chain never comes back to a router that it is inside of; such a mount is an error.
-/

namespace RouteAtlas.Inventory

/-- An entry of a router whose mounts are linked. -/
inductive LinkedEntry where
  | resource (draft : Draft)
  /-- A mount with the router that it mounts, if that is known. -/
  | mount (mount : Mount) (target : Option RouterKey)

def LinkedEntry.target? : LinkedEntry → Option RouterKey
  | .resource _ => none
  | .mount _ target => target

/-- A router whose mounts are linked. -/
structure LinkedRouter where
  key : RouterKey
  relPath : String
  fromFactory : Bool
  entries : List LinkedEntry

namespace LinkedRouter

/-- The result of a function is a router only if the function makes one. -/
def isValid (t : LinkedRouter) : Bool :=
  !t.fromFactory || t.entries.any fun
    | .mount mount (some _) => mount.implicit
    | _ => false

/-- Routers in the order of their files and of their places in them. -/
def le (a b : LinkedRouter) : Bool :=
  if a.relPath == b.relPath then
    a.key.offset < b.key.offset ||
      (a.key.offset == b.key.offset && a.key.file.le b.key.file)
  else a.relPath < b.relPath

end LinkedRouter

abbrev Network := List LinkedRouter

namespace Network

variable (net : Network)

def router? (key : RouterKey) : Option LinkedRouter := net.find? (·.key.same key)

def isMounted (key : RouterKey) : Bool :=
  net.any fun t => t.entries.any fun e => e.target?.any (·.same key)

/-- The routers to walk from: first those that are mounted nowhere, then all others, which are
walked only if no walk has come to them. -/
def roots : List RouterKey :=
  let valid := (net.filter LinkedRouter.isValid).mergeSort LinkedRouter.le
  let (mounted, free) := valid.partition fun t => net.isMounted t.key
  (free ++ mounted).map (·.key)

end Network

/-- What a walk has found so far. -/
structure Walk where
  resources : List Resource := []
  errors : List Unsupported := []
  warnings : List Warning := []
  visited : List RouterKey := []

/-- The path of a mount below the paths of the mounts around it. -/
def mountBelow (outer path : String) : String :=
  if outer.isEmpty then path
  else if path.isEmpty then outer
  else Http.Pattern.join outer path

def Draft.resource (d : Draft) (outer : String) (order : Nat) : Resource :=
  ⟨d.id, d.method, if outer.isEmpty then d.path else Http.Pattern.join outer d.path, d.kind,
    .discovered, d.handler, order⟩

/-- The error of a mount that leads back to a router around it. -/
def cycleError (relPath : String) (m : Mount) : Unsupported :=
  ⟨relPath, m.line, m.column, "mount_cycle", m.text⟩

def Walk.emit (w : Walk) (outer : String) (d : Draft) : Walk :=
  { w with resources := w.resources ++ [d.resource outer w.resources.length] }

/-- The routers that a chain of mounts has not entered. -/
def Network.notEntered (net : Network) (inside : List RouterKey) : Network :=
  net.filter fun t => !inside.any (·.same t.key)

theorem Network.notEntered_lt {net : Network} {inside : List RouterKey} {key : RouterKey}
    {t : LinkedRouter} (ht : net.router? key = some t)
    (hk : ¬ inside.any (·.same key)) :
    (net.notEntered (key :: inside)).length < (net.notEntered inside).length := by
  have hsame : t.key.same key := by simpa using List.find?_some ht
  have hkey : key.same t.key := by rw [RouterKey.same_comm]; exact hsame
  have heq : net.notEntered (key :: inside) =
      (net.notEntered inside).filter fun t => !key.same t.key := by
    simp [notEntered, List.filter_filter]
  rw [heq, List.length_filter_lt_length_iff_exists]
  refine ⟨t, List.mem_filter.mpr ⟨List.mem_of_find?_eq_some ht, ?_⟩, by simp [hkey]⟩
  simpa [RouterKey.same_congr_right hsame] using hk

/-- Walks a router below a path. `inside` holds the routers that the chain of mounts has entered,
this one included; a mount that leads to one of them is an error and is not walked. -/
def visit (net : Network) (inside : List RouterKey) (outer : String) (t : LinkedRouter)
    (w : Walk) : Walk :=
  t.entries.foldl (fun w entry =>
    match entry with
    | .resource draft => w.emit outer draft
    | .mount mount (some target) =>
      if _hc : inside.any (·.same target) then
        { w with errors := w.errors ++ [cycleError t.relPath mount] }
      else match _ht : net.router? target with
        | none => w
        | some next => visit net (target :: inside) (mountBelow outer mount.path) next w
    | .mount mount none =>
      if mount.implicit then w
      else { w with warnings :=
        w.warnings ++ [.unresolvedMount t.relPath mount.line mount.text] })
    { w with visited := t.key :: w.visited }
termination_by (net.notEntered inside).length
decreasing_by exact Network.notEntered_lt _ht _hc

/-- Walks the routers to walk from, apart from those that a walk has come to. -/
def walkAll (net : Network) : Walk :=
  net.roots.foldl (fun w key =>
    if w.visited.any (·.same key) then w
    else match net.router? key with
      | none => w
      | some t => visit net [key] "" t w) {}

/-! ## Duplicates -/

/-- What makes two resources of an inventory the same: for routes the requests that they answer, for
middleware also the place where it is registered. -/
def Resource.identity (r : Resource) : ResourceKind × String × String × String :=
  match r.kind with
  | .route => (.route, "", r.method, r.path)
  | .middleware => (.middleware, r.id, r.method, r.path)

/-- The first item with each key. -/
def firstOfEach [BEq κ] (key : α → κ) : (seen : List κ) → List α → List α
  | _, [] => []
  | seen, a :: as =>
    if seen.contains (key a) then firstOfEach key seen as
    else a :: firstOfEach key (key a :: seen) as

/-- Middleware that comes after the route for the same requests. -/
def ambiguousOrders (resources : List Resource) : List Warning :=
  (resources.filter (·.kind == .route)).flatMap fun route =>
    (resources.filter fun m =>
      m.kind == .middleware && m.method == route.method && m.path == route.path &&
        decide (route.order < m.order)).map fun m =>
      .ambiguousOrder route.method route.path route.id m.id

end RouteAtlas.Inventory
