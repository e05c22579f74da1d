import RouteAtlas.Text.Blank
import RouteAtlas.Text.Split

/-!
# Settings from the environment

Each setting has a default and an environment variable of its own. A value that cannot be read
leaves the default in place and is warned of; the warnings come in the order in which the variables
are read.
-/

namespace RouteAtlas.Cli

abbrev Environment := List (String × String)

variable (e : Environment)

variable (key : String)

def Environment.get? : Option String := e.lookup key

/-- What the environment of the program sets. -/
structure Settings where
  /-- How deep helpers of a function are expanded. -/
  maxDepth : Nat := 5
  serverCommand : String := "npx"
  serverArguments : List String := ["typescript-language-server", "--stdio"]
  serverEnabled : Bool := true
  /-- How long a request to the language server waits, in milliseconds. -/
  serverTimeout : Nat := 10000
  /-- How long changes of files are gathered, in milliseconds. -/
  debounce : Nat := 50
  deriving DecidableEq, Repr

/-- A value that was passed over. -/
inductive Warning where
  | invalid (key value default : String)
  | emptyCommand (default : String)
  deriving DecidableEq, Repr

def Warning.message : Warning → String
  | .invalid key value default =>
    "routelens: Warning: Invalid " ++ key ++ " value: " ++ value ++ ", using default: " ++ default
  | .emptyCommand default =>
    "routelens: Warning: Empty ROUTELENS_LSP_COMMAND, using default: " ++ default

/-- The number that decimal digits stand for, in front of those a number read so far. -/
def digitsValue? : (value : Nat) → List Char → Option Nat
  | value, [] => some value
  | value, c :: cs => if c.isDigit then digitsValue? (10 * value + (c.toNat - 48)) cs else none

/-- A count: decimal digits, perhaps after a plus sign, that stand for a number of at most 64 bits.
-/
def count? (s : String) : Option Nat :=
  let digits := match s.toList with
    | '+' :: cs => cs
    | cs => cs
  if digits.isEmpty then none
  else (digitsValue? 0 digits).filter (· < 0x10000000000000000)

/-- A yes or a no, in one of the usual spellings. -/
def switch? (s : String) : Option Bool :=
  let word := Text.lowerAscii (Text.trim s)
  if ["1", "true", "yes", "on"].contains word then some true
  else if ["0", "false", "no", "off"].contains word then some false
  else none

/-- The value of a variable, as it is read; the default, and a warning, if it cannot be read. -/
def readWith (read? : String → Option α) (shown : α → String) (default : α) : α × List Warning :=
  match e.get? key with
  | none => (default, [])
  | some value =>
    match read? value with
    | some a => (a, [])
    | none => (default, [.invalid key value (shown default)])

/-- The count that a variable holds, blanks around it aside. -/
def readCount (default : Nat) : Nat × List Warning :=
  readWith e key (fun s => count? (Text.trim s)) Nat.repr default

def readCommand (default : String) : String × List Warning :=
  match (e.get? key).map Text.trim with
  | none => (default, [])
  | some command => if command.isEmpty then (default, [.emptyCommand default]) else (command, [])

/-- The settings that the environment gives, and what was passed over. -/
def Settings.read : Settings × List Warning :=
  let d : Settings := {}
  let (maxDepth, w₁) := readCount e "ROUTELENS_MAX_EXPAND_DEPTH" d.maxDepth
  let (serverTimeout, w₂) := readCount e "ROUTELENS_LSP_TIMEOUT_MS" d.serverTimeout
  let (debounce, w₃) := readCount e "ROUTELENS_WATCH_DEBOUNCE_MS" d.debounce
  let (serverCommand, w₄) := readCommand e "ROUTELENS_LSP_COMMAND" d.serverCommand
  let serverArguments := ((e.get? "ROUTELENS_LSP_ARGS").map Text.words).getD d.serverArguments
  let (serverEnabled, w₅) :=
    readWith e "ROUTELENS_LSP_ENABLED" switch? (fun b => if b then "true" else "false")
      d.serverEnabled
  ({ maxDepth, serverCommand, serverArguments, serverEnabled, serverTimeout, debounce },
    w₁ ++ w₂ ++ w₃ ++ w₄ ++ w₅)

end RouteAtlas.Cli
