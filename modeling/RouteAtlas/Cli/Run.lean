import RouteAtlas.Cli.Command
import RouteAtlas.Expansion.Expand
import RouteAtlas.Project.Monitor

/-!
# Running a command

What the program prints and with which code it ends, as a function of its arguments, the environment
and the files. A command that watches prints a first inventory and goes on with its monitor; every
other command is finished at once. The code is 0 for a result, 1 for a failure, 2 for arguments that
cannot be read.
-/

namespace RouteAtlas.Cli

open Files Project

/-- What the program finds around it: the files, the environment, and what starting a language
server by the settings leads to. -/
structure Surroundings (σ : Type) where
  tree : Tree
  environment : Environment
  server : Settings → Except String (Rpc.Peer σ)

/-- An exit code, and what is printed. -/
structure Report where
  code : Nat := 0
  output : String := ""
  problems : String := ""
  deriving DecidableEq, Repr

/-- Why a command fails. -/
inductive Failure where
  | setup (error : SetupError)
  | unreadable (path : Path)
  deriving DecidableEq, Repr

def Failure.message : Failure → String
  | .setup error => error.message
  | .unreadable path => "read " ++ path.text

/-- How a run of the program ends, if it does. -/
inductive Outcome where
  | finished (report : Report)
  /-- The command has printed the first inventory and goes on for as long as changes are noticed,
  gathering them for some milliseconds. -/
  | watching (report : Report) (monitor : Monitor) (debounce : Nat)

/-- What a command does: a line of output, or a failure; and what it says beside that. -/
structure Deed where
  result : Except Failure String
  remarks : List String := []
  /-- The monitor that goes on, with the time for which it gathers changes. -/
  monitor : Option (Monitor × Nat) := none

variable {σ : Type}

def textOfLines (lines : List String) : String := String.join (lines.map (· ++ "\n"))

def FunctionInput.text (input : FunctionInput) (t : Tree) : Except Failure String :=
  match input.source with
  | .given text => .ok text
  | .inFile path =>
    match t.text? path with
    | some text => .ok text
    | none => .error (.unreadable path)

def FunctionInput.options (input : FunctionInput) : Finder.LocateOptions :=
  { skipSourceMap := input.skipSourceMap, hints := {} }

variable (s : Surroundings σ)

variable (root : Path)

/-- Prints something of the inventory of a project. -/
def ofInventory (noIgnore : Bool) (shown : Inventory.Analysis → Json) : Deed :=
  let remarks := (Settings.read s.environment).2.map Warning.message
  match Monitor.setUp s.tree root noIgnore with
  | .error error => { result := .error (.setup error), remarks }
  | .ok monitor => { result := .ok (shown (monitor.findRoutes s.tree).1).pretty, remarks }

def locateFunction (input : FunctionInput) : Deed :=
  { result := do
      let text ← input.text s.tree
      let found := Finder.locate? s.tree root text input.options
      return (Json.ofOption Finder.FoundFunction.location found).pretty }

/-- The language servers that the settings allow. -/
def serversOf (settings : Settings) : Rpc.Registry σ :=
  { launcher := { command := settings.serverCommand, peer := s.server settings,
                  timeout := settings.serverTimeout } }

/-- Expands a function. The settings are read only when the text of the function is there. -/
def expandFunction (input : FunctionInput) (maxDepth : Option Nat) (noServer : Bool) : Deed :=
  match input.text s.tree with
  | .error failure => { result := .error failure }
  | .ok text =>
    let (settings, warnings) := Settings.read s.environment
    let servers :=
      if settings.serverEnabled && !noServer then some (serversOf s settings) else none
    let start : Expansion.Expander σ := { resolver := { root }, servers }
    let depth := maxDepth.getD settings.maxDepth
    let (expanded, _) := (Expansion.expand s.tree root depth text input.options).run start
    { result := .ok (Json.ofOption Expansion.ExpandedFunction.toJson expanded).pretty,
      remarks := warnings.map Warning.message }

def resolveSpecifier (root importer : Path) (specifier : String) (verbose : Bool) : Deed :=
  let root := s.tree.settled root
  let resolver : Modules.Resolver := { root }
  match ((Modules.Resolver.resolve s.tree specifier (root.join importer.text)).run resolver).1 with
  | .ok path =>
    let package := Json.ofOption .string (Modules.packageOf? path)
    { result := .ok (Json.object [("path", .string path.text), ("package", package)]).pretty }
  | .error error =>
    { result := .ok Json.null.pretty,
      remarks := if verbose then ["DEBUG " ++ error.message] else [] }

def watchProject (noIgnore : Bool) (debounce : Option Nat) :
    Deed :=
  let (settings, warnings) := Settings.read s.environment
  let remarks := warnings.map Warning.message
  match Monitor.setUp s.tree root noIgnore with
  | .error error => { result := .error (.setup error), remarks }
  | .ok monitor =>
    let (analysis, monitor) := monitor.findRoutes s.tree
    match monitor.subscribe.start s.tree with
    | .error error => { result := .error (.setup error), remarks }
    | .ok monitor =>
      { result := .ok analysis.toJson.compact, remarks,
        monitor := some (monitor, debounce.getD settings.debounce) }

def Request.run (r : Request) (s : Surroundings σ) : Deed :=
  match r.command with
  | .routes root noIgnore => ofInventory s root noIgnore Inventory.Analysis.toJson
  | .matching root noIgnore method target =>
    ofInventory s root noIgnore fun analysis =>
      .array ((Inventory.runBy analysis.resources method target).map Inventory.Resource.toJson)
  | .locate root input => locateFunction s root input
  | .expand root input maxDepth noServer => expandFunction s root input maxDepth noServer
  | .resolve root importer specifier => resolveSpecifier s root importer specifier r.verbose
  | .watch root noIgnore debounce => watchProject s root noIgnore debounce

/-- What a command did, as it is printed. -/
def Deed.outcome (d : Deed) : Outcome :=
  match d.result with
  | .error failure =>
    .finished { code := 1, problems := textOfLines (d.remarks ++ ["Error: " ++ failure.message]) }
  | .ok line =>
    let report : Report := { output := line ++ "\n", problems := textOfLines d.remarks }
    match d.monitor with
    | none => .finished report
    | some (monitor, debounce) => .watching report monitor debounce

def Ending.report (e : Ending) : Report :=
  match e.reason with
  | .help => { output := helpText e.topic }
  | .version => { output := versionText }
  | .misuse fault =>
    { code := 2,
      problems := textOfLines
        ["error: " ++ fault.message, "", "For more information, try '--help'."] }

def run (s : Surroundings σ) (args : List String) : Outcome :=
  match Request.read args with
  | .error ending => .finished ending.report
  | .ok request => (request.run s).outcome

/-- The inventories that a monitor has published since they were last asked for, as lines. -/
def updateLines (monitor : Monitor) : String × Monitor :=
  match monitor.updates with
  | none => ("", monitor)
  | some analyses =>
    (textOfLines (analyses.map fun a => a.toJson.compact), { monitor with updates := some [] })

end RouteAtlas.Cli
