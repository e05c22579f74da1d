import RouteAtlas.Cli.Arguments

/-!
# The commands

The commands of the program, what each takes, and the texts that explain them. One table of layouts
serves both for reading the arguments and for the help texts.
-/

namespace RouteAtlas.Cli

/-- Where the text of a function comes from. -/
inductive FunctionText where
  | given (text : String)
  | inFile (path : Path)
  deriving DecidableEq, Repr

/-- A function to be found, and how. -/
structure FunctionInput where
  source : FunctionText
  skipSourceMap : Bool
  deriving DecidableEq, Repr

/-- A command with all that it takes. -/
inductive Command where
  | routes (root : Path) (noIgnore : Bool)
  | matching (root : Path) (noIgnore : Bool) (method target : String)
  | locate (root : Path) (input : FunctionInput)
  | expand (root : Path) (input : FunctionInput) (maxDepth : Option Nat) (noServer : Bool)
  | resolve (root importer : Path) (specifier : String)
  | watch (root : Path) (noIgnore : Bool) (debounce : Option Nat)
  deriving DecidableEq, Repr

/-- What a command line asks for. -/
structure Request where
  command : Command
  verbose : Bool
  deriving DecidableEq, Repr

/-! ## What the commands take -/

/-- The parameter for more messages, which may stand before or after the name of the command. -/
def verboseParam : Param :=
  { name := "verbose", short := some 'v', kind := .switch, help := "Log at debug level" }

def helpParam : Param :=
  { name := "help", short := some 'h', kind := .help, help := "Print help" }

def versionParam : Param :=
  { name := "version", short := some 'V', kind := .version, help := "Print version" }

def rootParam : Param := { name := "root", kind := .path, default := some "." }

def noIgnoreParam : Param :=
  { name := "no-ignore", kind := .switch, help := "Include files ignored by .gitignore" }

def functionParams : List Param :=
  [{ name := "text", kind := .text, help := "Function source text" },
   { name := "file", kind := .path, help := "Read the function source text from a file" },
   { name := "skip-source-map", kind := .switch,
     help := "Do not search compiled output through source maps" }]

/-- A command by its name, its purpose and what it takes. -/
structure Topic where
  name : String
  about : String
  layout : Layout

def projectTopic (name about : String) (params : List Param) (words : List String) : Topic :=
  ⟨name, about, { params := [rootParam, verboseParam] ++ params ++ [helpParam], words }⟩

/-- The commands, in the order in which the help text lists them. -/
def topics : List Topic :=
  [projectTopic "routes" "Print the route inventory as JSON" [noIgnoreParam] [],
   projectTopic "match" "Print the resources a request would run through" [noIgnoreParam]
     ["<METHOD>", "<PATH>"],
   projectTopic "locate" "Print the source location of a function" functionParams [],
   projectTopic "expand" "Print a function with the helpers it references"
     (functionParams ++
       [{ name := "max-depth", kind := .count, help := "Nested helper expansion depth" },
        { name := "no-lsp", kind := .switch, help := "Never start a language server" }]) [],
   projectTopic "resolve" "Resolve an import specifier as seen from a file"
     [{ name := "from", kind := .path, required := true, help := "File containing the import" }]
     ["<SPECIFIER>"],
   projectTopic "watch" "Print the route inventory after every change until interrupted"
     [noIgnoreParam,
      { name := "debounce-ms", kind := .count,
        help := "Debounce window for filesystem events in milliseconds" }] []]

variable (name : String)

def topicNamed? : Option Topic := topics.find? (·.name = name)

/-- What the program takes in front of the name of a command. -/
def topLayout : Layout := { params := [verboseParam, helpParam, versionParam], nested := true }

/-! ## Reading the arguments -/

def rootOf (g : Given) : Path := (g.path? "root").getD ⟨"."⟩

/-- The function that was asked for: its text or a file, and not both. -/
def functionOf (g : Given) : Except Stop FunctionInput :=
  let skipSourceMap := g.has "skip-source-map"
  match g.text? "text", g.path? "file" with
  | some _, some _ => .error (.misuse (.conflict "text" "file"))
  | some text, none => .ok ⟨.given text, skipSourceMap⟩
  | none, some path => .ok ⟨.inFile path, skipSourceMap⟩
  | none, none => .error (.misuse (.missing ["--text <TEXT>"]))

def commandOf (g : Given) : Except Stop Command :=
  match name, g.words with
  | "routes", _ => .ok (.routes (rootOf g) (g.has "no-ignore"))
  | "match", [method, target] => .ok (.matching (rootOf g) (g.has "no-ignore") method target)
  | "locate", _ => do return .locate (rootOf g) (← functionOf g)
  | "expand", _ => do
    return .expand (rootOf g) (← functionOf g) (g.count? "max-depth") (g.has "no-lsp")
  | "resolve", [specifier] =>
    .ok (.resolve (rootOf g) ((g.path? "from").getD ⟨""⟩) specifier)
  | "watch", _ => .ok (.watch (rootOf g) (g.has "no-ignore") (g.count? "debounce-ms"))
  | _, _ => .error (.misuse (.unknownCommand name))

/-- An end of reading, and the command whose help text is asked for if that is the reason. -/
structure Ending where
  reason : Stop
  topic : Option String := none
  deriving DecidableEq, Repr

/-- The help command: with no name, or the name of one command. -/
def helpEnding : List String → Ending
  | [] => ⟨.help, none⟩
  | [name] =>
    if name = "help" then ⟨.help, none⟩
    else match topicNamed? name with
      | some _ => ⟨.help, some name⟩
      | none => ⟨.misuse (.unknownCommand name), none⟩
  | name :: second :: _ =>
    if name = "help" || (topicNamed? name).isSome then ⟨.misuse (.unknownCommand second), none⟩
    else ⟨.misuse (.unknownCommand name), none⟩

def readCommand? (args : List String) : Except Ending (Command × Bool) :=
  match topicNamed? name with
  | none => .error ⟨.misuse (.unknownCommand name), none⟩
  | some topic =>
    let read := do
      let g ← topic.layout.read args
      return (← commandOf name g, g.has "verbose")
    read.mapError fun reason => ⟨reason, some name⟩

def Request.read (args : List String) : Except Ending Request := do
  let (g, rest) ← (topLayout.scan {} args).mapError (⟨·, none⟩)
  match rest with
  | [] => throw ⟨.misuse .noCommand, none⟩
  | name :: args =>
    if name = "help" then throw (helpEnding args)
    let (command, verbose) ← readCommand? name args
    return { command, verbose := verbose || g.has "verbose" }

/-! ## Texts -/

def versionText : String := "routelens 0.1.0\n"

def padded (width : Nat) (s : String) : String :=
  s ++ String.ofList (List.replicate (width - s.length) ' ')

def rows (pairs : List (String × String)) : List String :=
  let width := (pairs.map (·.1.length)).foldl max 0
  pairs.map fun (left, right) =>
    if right.isEmpty then "  " ++ left else "  " ++ padded width left ++ "  " ++ right

def placeholder : String :=
  "<" ++ (Text.upperAscii name).map (fun c => if c = '-' then '_' else c) ++ ">"

def Param.usage (p : Param) : String :=
  let name := "--" ++ p.name
  if p.kind.isBare then name else name ++ " " ++ placeholder p.name

def Param.row (p : Param) : String × String :=
  let short := match p.short with
    | some c => String.ofList ['-', c] ++ ", "
    | none => "    "
  let default := p.default.elim "" fun value => "[default: " ++ value ++ "]"
  (short ++ p.usage, if p.help.isEmpty then default else p.help)

def titled (title : String) (pairs : List (String × String)) : List String :=
  if pairs.isEmpty then [] else "" :: title :: rows pairs

def Topic.help (e : Topic) : String :=
  let required := (e.layout.params.filter (·.required)).map Param.usage
  let usage := " ".intercalate
    (["Usage: routelens", e.name, "[OPTIONS]"] ++ required ++ e.layout.words)
  "\n".intercalate
    ([e.about, "", usage] ++ titled "Arguments:" (e.layout.words.map (·, "")) ++
      titled "Options:" (e.layout.params.map Param.row)) ++ "\n"

def usageExamples : List String :=
  ["Examples:",
   "  routelens routes --root .",
   "  routelens match --root . GET /api/users/42",
   "  routelens locate --root . --text 'async (c) => c.json(await listUsers())'",
   "  routelens expand --root . --file captured.txt --max-depth 3",
   "  routelens resolve --root . --from src/index.ts @/lib/db",
   "  routelens watch --root . --debounce-ms 100"]

def topHelp : String :=
  let commands := topics.map (fun e => (e.name, e.about)) ++
    [("help", "Print this message or the help of the given subcommand(s)")]
  "\n".intercalate
    (["Static route inventory and function expansion for Hono projects", "",
      "Usage: routelens [OPTIONS] <COMMAND>"] ++ titled "Commands:" commands ++
      titled "Options:" (topLayout.params.map Param.row) ++ [""] ++ usageExamples) ++ "\n"

def helpText (topic : Option String) : String :=
  ((topic.bind topicNamed?).map Topic.help).getD topHelp

end RouteAtlas.Cli
