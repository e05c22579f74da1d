import RouteAtlas.Cli.Settings
import RouteAtlas.Path.Basic

/-!
# Arguments of a command

A command has parameters, given by name (`--root dir`, `--root=dir`, `-v`), and words, given by
their place. Reading goes from left to right and ends at the first fault, or at the first parameter
that asks for the help text or the version. A name is given at most once. What follows a lone `--`
is words only.
-/

namespace RouteAtlas.Cli

/-- What giving a parameter means. -/
inductive Kind where
  | switch
  | text
  | path
  | count
  | help
  | version
  deriving DecidableEq, Repr

def Kind.isBare : Kind → Bool
  | .switch | .help | .version => true
  | .text | .path | .count => false

/-- A parameter that is given by its name. -/
structure Param where
  name : String
  short : Option Char := none
  kind : Kind
  /-- The value that is taken when none is given. -/
  default : Option String := none
  required : Bool := false
  help : String := ""
  deriving Repr

/-- What was given for a parameter. -/
inductive Value where
  | on
  | text (value : String)
  | path (value : Path)
  | count (value : Nat)
  deriving DecidableEq, Repr

/-- What is wrong with a command line. -/
inductive Misuse where
  | unknown (arg : String)
  | unexpected (word : String)
  | unknownCommand (word : String)
  | noCommand
  | noValue (name : String)
  | unwantedValue (name value : String)
  | invalidValue (name value : String)
  | repeated (name : String)
  | conflict (name other : String)
  | missing (names : List String)
  deriving DecidableEq, Repr

def Misuse.message : Misuse → String
  | .unknown arg => "unexpected argument '" ++ arg ++ "' found"
  | .unexpected word => "unexpected argument '" ++ word ++ "' found"
  | .unknownCommand word => "unrecognized subcommand '" ++ word ++ "'"
  | .noCommand => "'routelens' requires a subcommand but one was not provided"
  | .noValue name => "a value is required for '--" ++ name ++ "' but none was supplied"
  | .unwantedValue name value =>
    "unexpected value '" ++ value ++ "' for '--" ++ name ++ "' found; no more were expected"
  | .invalidValue name value => "invalid value '" ++ value ++ "' for '--" ++ name ++ "'"
  | .repeated name => "the argument '--" ++ name ++ "' cannot be used multiple times"
  | .conflict name other =>
    "the argument '--" ++ name ++ "' cannot be used with '--" ++ other ++ "'"
  | .missing names =>
    "the following required arguments were not provided:" ++
      String.join (names.map fun name => "\n  " ++ name)

/-- Why reading the arguments came to an end before a command could run. -/
inductive Stop where
  | help
  | version
  | misuse (fault : Misuse)
  deriving DecidableEq, Repr

/-- What was given: the parameters, and the words in order. -/
structure Given where
  params : List (String × Value) := []
  words : List String := []
  deriving Repr

namespace Given

variable (g : Given)

variable (name : String)

def has : Bool := (g.params.lookup name).isSome

def text? : Option String :=
  match g.params.lookup name with
  | some (.text value) => some value
  | _ => none

def path? : Option Path :=
  match g.params.lookup name with
  | some (.path value) => some value
  | _ => none

def count? : Option Nat :=
  match g.params.lookup name with
  | some (.count value) => some value
  | _ => none

/-- Notes a parameter, which may not have been given before. -/
def add (p : Param) (value : Value) : Except Stop Given :=
  if g.has p.name then .error (.misuse (.repeated p.name))
  else .ok { g with params := g.params ++ [(p.name, value)] }

end Given

namespace Param

/-- The value that a text stands for. -/
def value? (p : Param) (s : String) : Option Value :=
  match p.kind with
  | .text => some (.text s)
  | .path => if s.isEmpty then none else some (.path ⟨s⟩)
  | .count => (Cli.count? s).map .count
  | .switch | .help | .version => none

def take (p : Param) (g : Given) (s : String) : Except Stop Given :=
  match p.value? s with
  | some value => g.add p value
  | none => .error (.misuse (.invalidValue p.name s))

def takeBare (p : Param) (g : Given) : Except Stop Given :=
  match p.kind with
  | .help => .error .help
  | .version => .error .version
  | _ => g.add p .on

end Param

/-- The forms of an argument. -/
inductive Arg where
  | divider
  | long (name : String) (value : Option String)
  | shorts (names : List Char)
  | word
  deriving DecidableEq, Repr

/-- The form of an argument; a lone dash is a word. -/
def Arg.ofString (s : String) : Arg :=
  match s.toList with
  | ['-', '-'] => .divider
  | '-' :: '-' :: cs =>
    let text := String.ofList cs
    match Text.cutAt? '=' text with
    | some (name, value) => .long name (some value)
    | none => .long text none
  | '-' :: c :: cs => .shorts (c :: cs)
  | _ => .word

/-- What a command takes. -/
structure Layout where
  params : List Param
  /-- The names of the words, all of which must be given. -/
  words : List String := []
  /-- The first word is the name of a command that reads the rest by itself. -/
  nested : Bool := false

namespace Layout

variable (l : Layout)

def long? (name : String) : Option Param := l.params.find? (·.name = name)

def short? (c : Char) : Option Param := l.params.find? (·.short = some c)

/-- Takes short names that are written together. -/
def takeShorts (l : Layout) : Given → List Char → Except Stop Given
  | g, [] => .ok g
  | g, c :: cs =>
    match l.short? c with
    | none => .error (.misuse (.unknown (String.ofList ['-', c])))
    | some p => do l.takeShorts (← p.takeBare g) cs

def takeWord (g : Given) (word : String) : Except Stop Given :=
  if l.nested then .error (.misuse (.unknownCommand word))
  else if g.words.length < l.words.length then .ok { g with words := g.words ++ [word] }
  else .error (.misuse (.unexpected word))

/-- Takes arguments from left to right; the rest is what a nested command reads, from its name on.
-/
def scan (l : Layout) : Given → List String → Except Stop (Given × List String)
  | g, [] => .ok (g, [])
  | g, arg :: rest =>
    match Arg.ofString arg with
    | .divider => do return (← rest.foldlM l.takeWord g, [])
    | .shorts names => do l.scan (← l.takeShorts g names) rest
    | .word => if l.nested then .ok (g, arg :: rest) else do l.scan (← l.takeWord g arg) rest
    | .long name attached =>
      match l.long? name with
      | none => .error (.misuse (.unknown ("--" ++ name)))
      | some p =>
        match attached, p.kind.isBare with
        | some value, true => .error (.misuse (.unwantedValue name value))
        | none, true => do l.scan (← p.takeBare g) rest
        | some value, false => do l.scan (← p.take g value) rest
        | none, false =>
          match rest with
          | [] => .error (.misuse (.noValue name))
          | value :: rest =>
            if Arg.ofString value = .word then do l.scan (← p.take g value) rest
            else .error (.misuse (.noValue name))

def missing (g : Given) : List String :=
  ((l.params.filter fun p => p.required && !g.has p.name).map fun p => "--" ++ p.name) ++
    l.words.drop g.words.length

/-- Reads all arguments of a command that has no commands of its own. -/
def read (args : List String) : Except Stop Given := do
  let (g, _) ← l.scan {} args
  match l.missing g with
  | [] => return g
  | names => throw (.misuse (.missing names))

end Layout

end RouteAtlas.Cli
