import RouteAtlas.Cli.Run
import Std.Data.HashMap

/-!
# The program

Takes a picture of the files that a command can look at, runs the command on it, and prints what it
says. A command that watches takes a new picture after each pause and hands the paths that differ to
its monitor. Language servers are not started from here, so that a command goes on without one.
-/

namespace RouteAtlas.Cli

open Files

/-- The names on the way to an absolute path. -/
def placeOfText (s : String) : Place := (Text.pieces '/' s).filter (· ≠ "")

/-- The content of a file can be asked for. -/
def isOfUse (name : String) : Bool :=
  let path : Path := ⟨name⟩
  (Source.Language.ofPath? path).isSome || Text.startsWith "." name ||
    [some "json", some "map"].contains path.extension?

/-- What stands at an absolute path; a link leads to where it ends. -/
def readEntry (path name : String) : IO (Option Entry) := do
  let file := (← IO.currentDir) / path
  match (← file.symlinkMetadata).type with
  | .dir => return some .directory
  | .file =>
    if isOfUse name then return some (.file (← IO.FS.readBinFile file).toList)
    else return some (.file [])
  | .symlink => return some (.link (← IO.FS.realPath file).toString)
  | .other => return none

/-- What stands at an absolute path; nothing if it cannot be read. -/
def entryAt (path name : String) : IO (Option Entry) := do
  try readEntry path name catch _ => return none

def listing (dir : String) : IO (List (String × String)) := do
  try
    let found ← ((← IO.currentDir) / dir).readDir
    return found.toList.map fun e => (e.fileName, e.path.toString)
  catch _ => return []

/-- What stands in a directory; of some of the directories in it, also what stands in them. -/
partial def gather (enters : String → Bool) (dir : String) : IO (List (Place × Entry)) := do
  let mut found := []
  for (name, path) in ← listing dir do
    match ← entryAt path name with
    | none => pure ()
    | some entry =>
      found := (placeOfText path, entry) :: found
      if entry = .directory && enters name then
        found := (← gather (· != ".git") path) ++ found
  return found

def realText? (path : Path) : IO (Option String) := do
  try return some (← IO.FS.realPath ((← IO.currentDir) / path.text)).toString
  catch _ => return none

def Command.root : Command → Path
  | .routes root _ | .matching root _ _ _ | .locate root _ | .expand root _ _ _
  | .resolve root _ _ | .watch root _ _ => root

/-- The file that a command reads beside the project. -/
def Command.extraFile? : Command → Option Path
  | .locate _ input | .expand _ input _ _ =>
    match input.source with
    | .inFile path => some path
    | .given _ => none
  | _ => none

/-- The tree with a file as it stands outside; the same tree if it cannot be read. -/
def withFile (t : Tree) (path : Path) : IO Tree := do
  try
    let bytes ← IO.FS.readBinFile ((← IO.currentDir) / path.text)
    return t.write path bytes.toList
  catch _ => return t

/-- The files that a command can look at: all below the root of the project, and around the root and
the working directory what stands in the directories above. -/
def picture (command : Command) : IO Tree := do
  let working := (← IO.currentDir).toString
  let root ← realText? command.root
  let above := (Path.mk working).ancestors ++ (root.elim [] fun r => (Path.mk r).ancestors)
  let outside := (above.map fun p => "/" ++ "/".intercalate (placeOfText p.text)).eraseDups.filter
    fun dir => !(root.elim false fun r => Path.isBelow ⟨r⟩ ⟨dir⟩)
  let mut entries := []
  for dir in outside do
    entries := (← gather (· == "node_modules") dir) ++ entries
  if let some r := root then
    entries := (← gather (· != ".git") r) ++ entries
  let t : Tree := { entries, working := placeOfText working }
  match command.extraFile? with
  | some path => withFile t path
  | none => return t

def settingKeys : List String :=
  ["ROUTELENS_MAX_EXPAND_DEPTH", "ROUTELENS_LSP_TIMEOUT_MS", "ROUTELENS_WATCH_DEBOUNCE_MS",
   "ROUTELENS_LSP_COMMAND", "ROUTELENS_LSP_ARGS", "ROUTELENS_LSP_ENABLED"]

def environment : IO Environment :=
  settingKeys.filterMapM fun key => do return (← IO.getEnv key).map (key, ·)

def changedPaths (old new : Tree) : List Path :=
  let before := Std.HashMap.ofList old.entries
  let after := Std.HashMap.ofList new.entries
  let gone := old.entries.filter fun (place, _) => !after.contains place
  let fresh := new.entries.filter fun (place, entry) => before.get? place != some entry
  (gone ++ fresh).map fun (place, _) => Tree.pathOf place

def printNow (s : String) : IO Unit := do
  IO.print s
  (← IO.getStdout).flush

/-- Follows the changes of the files for as long as the program runs. -/
partial def follow (command : Command) (debounce : Nat) (tree : Tree)
    (monitor : Project.Monitor) : IO Unit := do
  IO.sleep (min (max debounce 1) 60000).toUInt32
  let next ← picture command
  let (lines, monitor) := updateLines (monitor.noticed next (changedPaths tree next))
  printNow lines
  follow command debounce next monitor

def Report.print (r : Report) : IO Unit := do
  IO.eprint r.problems
  printNow r.output

end RouteAtlas.Cli

open RouteAtlas in
def main (args : List String) : IO UInt32 := do
  let command := (Cli.Request.read args).toOption.map (·.command)
  let tree ← command.elim (pure {}) Cli.picture
  let around : Cli.Surroundings Unit :=
    { tree, environment := ← Cli.environment,
      server := fun settings => .error (settings.serverCommand ++ " is not run") }
  match Cli.run around args with
  | .finished report =>
    report.print
    return report.code.toUInt32
  | .watching report monitor debounce =>
    report.print
    command.elim (pure ()) fun c => Cli.follow c debounce tree monitor
    return report.code.toUInt32
