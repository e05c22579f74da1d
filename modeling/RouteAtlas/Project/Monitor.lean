import RouteAtlas.Inventory.Graph
import RouteAtlas.Modules.Resolver
import RouteAtlas.Project.Store
import RouteAtlas.Watch.Debouncer
import RouteAtlas.Watch.Set

/-!
# Monitoring a project

A monitor keeps the inventory of a project up to date. Its state is the tracked files, the route
graph of their contributions, the resolver and the set of watched paths; refreshing some paths reads
only these files again. While it watches, each change of a watched path refreshes the state and
publishes the new inventory to those who subscribed.
-/

namespace RouteAtlas.Project

open Files Source Inventory Modules Watch

/-- What reading files again did. -/
structure RefreshStats where
  updated : Nat := 0
  removed : Nat := 0
  unchanged : Nat := 0
  configChanged : Bool := false
  deriving DecidableEq, Repr

/-- Something has changed. -/
def RefreshStats.hasNews (s : RefreshStats) : Bool :=
  s.updated != 0 || s.removed != 0 || s.configChanged

/-- What is known of a project. -/
structure State where
  store : Store
  graph : Graph
  set : WatchSet
  resolver : Resolver

namespace State

variable (s : State) (t : Tree)

def root : Path := s.store.root

/-- Reads those entries that are watched. -/
def readWatched (store : Store) (set : WatchSet) (entries : List SourceEntry) : Store × WatchSet :=
  entries.foldl
    (fun (store, set) entry =>
      let (watched, set) := set.contains t entry.path
      (if watched then store.upserted t entry.path else store, set))
    (store, set)

/-- The graph of files that are added one after another. -/
def graphOf (root : Path) (files : List File) : Graph :=
  files.foldl (fun g file => g.replace (contributionOf file)) { root }

/-- The state of a project that is read for the first time. -/
def load (resolver : Resolver) (noIgnore : Bool) : State :=
  let root := resolver.root
  let entries := (catalog t root { noIgnore }).toOption.getD []
  let (store, set) := readWatched t { root } (.ofRoot t root noIgnore) entries
  { store, set, resolver, graph := graphOf root store.files }

/-- The state with a file read again, and what that did to it. -/
def refreshFile (path : Path) : RefreshStats × State :=
  match s.store.upsert t path with
  | .error _ => ({}, s)
  | .ok (.unchanged, _) => ({ unchanged := 1 }, s)
  | .ok (.removed, store) => ({ removed := 1 }, { s with store, graph := s.graph.remove path })
  | .ok (_, store) =>
    match store.get? path with
    | some file =>
      ({ updated := 1 }, { s with store, graph := s.graph.replace (contributionOf file) })
    | none => ({}, { s with store })

/-- Refreshes one path: a configuration file is only noted, a path that is neither watched nor
tracked does not count. -/
def refreshPath (path : Path) : RefreshStats × State :=
  if isConfigFile path then ({ configChanged := true }, s)
  else
    let (watched, set) := s.set.contains t path
    let s := { s with set }
    if watched || s.store.contains path then s.refreshFile t path else ({}, s)

/-- What two refreshes did together. -/
def addStats (a b : RefreshStats) : RefreshStats :=
  ⟨a.updated + b.updated, a.removed + b.removed, a.unchanged + b.unchanged,
    a.configChanged || b.configChanged⟩

/-- Refreshes paths one after another. -/
def refreshEach (paths : List Path) : RefreshStats × State :=
  paths.foldl
    (fun (stats, s) path =>
      let (one, s) := refreshPath s t path
      (addStats stats one, s))
    ({}, s)

/-- Reads the given paths again. After a change of a configuration the resolver forgets what it
knows and the watched paths are worked out anew. -/
def refresh (paths : List Path) : RefreshStats × State :=
  let (stats, s) := s.refreshEach t paths
  if stats.configChanged then
    (stats, { s with
      resolver := s.resolver.forget
      set := .ofRoot t s.root s.set.noIgnore })
  else (stats, s)

/-- Reads the project again as a whole; routes that were added by hand stay. -/
def reload : State :=
  let fresh := load t s.resolver.forget s.set.noIgnore
  { fresh with graph := { fresh.graph with extras := s.graph.extras } }

/-- The inventory, and the state with what the resolver looked up. -/
def analyze : Analysis × State :=
  let (analysis, resolver) := (s.graph.analyze (Resolver.resolve? t)).run s.resolver
  (analysis, { s with resolver })

end State

/-- Why a project cannot be monitored. -/
inductive SetupError where
  | rootMissing (path : Path)
  | notADirectory (path : Path)
  | watcher (reason : String)
  deriving DecidableEq, Repr

/-- The text of the error. -/
def SetupError.message : SetupError → String
  | .rootMissing path => "project root does not exist: " ++ path.text
  | .notADirectory path => "project root is not a directory: " ++ path.text
  | .watcher reason => "failed to start file watcher: " ++ reason

/-- A monitor of a project: its state, the paths that its watcher watches if there is one, and the
published inventories that the subscriber has not seen. -/
structure Monitor where
  state : State
  watched : Option WatchSet := none
  tornDown : Bool := false
  updates : Option (List Analysis) := none

namespace Monitor

variable (m : Monitor) (t : Tree)

/-- The monitor of a project, which does not watch yet. -/
def setUp (root : Path) (noIgnore : Bool) : Except SetupError Monitor :=
  if !t.holds root then .error (.rootMissing root)
  else if !t.isDir root then .error (.notADirectory root)
  else .ok { state := .load t { root := t.settled root } noIgnore }

def root : Path := m.state.root

/-- There is a watcher. -/
def isWatching : Bool := m.watched.isSome

/-- Starts watching; a monitor that watches goes on as it is. -/
def start : Except SetupError Monitor :=
  if m.tornDown then .error (.watcher "monitor was torn down")
  else if m.isWatching then .ok m
  else .ok { m with watched := some (.ofRoot t m.root m.state.set.noIgnore) }

/-- Ends watching for good. -/
def tearDown : Monitor := { m with watched := none, tornDown := true }

/-- From now on updates are kept for the subscriber. -/
def subscribe : Monitor := { m with updates := some [] }

/-- The inventory as the state has it. -/
def findRoutes : Analysis × Monitor :=
  let (analysis, state) := m.state.analyze t
  (analysis, { m with state })

/-- Adds a route that no file registers. -/
def addCustom (method path handlerText : String) : Monitor :=
  { m with state := { m.state with graph := m.state.graph.addCustom method path handlerText } }

/-- Adds a route of another system. -/
def addImported (method path : String) : Monitor :=
  { m with state := { m.state with graph := m.state.graph.addImported method path } }

variable (paths : List Path)

/-- Reads paths again that are given absolutely or below the root. -/
def refreshPaths : RefreshStats × Monitor :=
  let (stats, state) := m.state.refresh t (paths.map fun p => m.root.join p.text)
  (stats, { m with state })

/-- Hands an inventory to the subscriber. -/
def publish (analysis : Analysis) : Monitor :=
  { m with updates := m.updates.map (· ++ [analysis]) }

/-- Refreshes what changed together and publishes the inventory if there is news. -/
def apply : Monitor :=
  let (stats, state) := m.state.refresh t paths
  let m := { m with state }
  if stats.hasNews then
    let (analysis, m) := m.findRoutes t
    m.publish analysis
  else m

/-- The watched paths among some, each once and in order, and the set with what it read. -/
def watchedAmong (set : WatchSet) (t : Tree) (paths : List Path) : List Path × WatchSet :=
  paths.foldl
    (fun (found, set) path =>
      let (watched, set) := set.contains t path
      (if watched then insertPath path found else found, set))
    ([], set)

/-- Changes of paths are noticed while the monitor watches. -/
def noticed : Monitor :=
  match m.watched with
  | none => m
  | some set =>
    let (found, set) := watchedAmong set t paths
    let m := { m with watched := some set }
    if found.isEmpty then m else m.apply t found

/-- The oldest update that the subscriber has not seen. -/
def nextUpdate : Option Analysis × Monitor :=
  match m.updates with
  | some (analysis :: rest) => (some analysis, { m with updates := some rest })
  | _ => (none, m)

end Monitor

end RouteAtlas.Project
