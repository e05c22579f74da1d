import RouteAtlas.Files.Tree
import RouteAtlas.Path.Uri
import RouteAtlas.Rpc.Connection
import RouteAtlas.Rpc.Location

/-!
# Sessions

A session is a connection to the language server of one project. It begins with a handshake, opens
each file once before it asks about it, and ends with `shutdown` and `exit`, after which it asks for
nothing.
-/

namespace RouteAtlas.Rpc

open Files Source

/-- A session with a language server. -/
structure Session (σ : Type) where
  number : Nat := 0
  root : Path
  connection : Connection σ
  /-- How long a request waits, in milliseconds. -/
  timeout : Nat
  /-- The number by which the system knows this process. -/
  processId : Nat := 0
  /-- The files that the server was told about. -/
  opened : List String := []
  disposed : Bool := false

def languageId (path : Path) : String :=
  match path.extension? with
  | some "tsx" => "typescriptreact"
  | some "jsx" => "javascriptreact"
  | some ext => if ["js", "mjs", "cjs"].contains ext then "javascript" else "typescript"
  | none => "typescript"

def placeParams (uri : String) (at_ : Position) : List (String × Json) :=
  [("textDocument", .object [("uri", .string uri)]), ("position", at_.toJson)]

namespace Session

variable {σ : Type}

def capabilities : Json :=
  .object [
    ("textDocument", .object [
      ("definition", .object [("linkSupport", .bool true)]),
      ("references", .object []),
      ("publishDiagnostics", .object []),
      ("synchronization", .object [("didSave", .bool false)])]),
    ("workspace", .object [("configuration", .bool true), ("workspaceFolders", .bool true)])]

variable (s : Session σ)

def handshakeParams : Json :=
  let name := s.root.fileName?.getD "workspace"
  .object [
    ("processId", .ofNat s.processId),
    ("rootPath", .string s.root.text),
    ("rootUri", .string s.root.uri),
    ("capabilities", capabilities),
    ("workspaceFolders", .array [.object [("uri", .string s.root.uri), ("name", .string name)]])]

/-- The session with the connection after some use, next to the result of that. -/
def after (r : α × Connection σ) : α × Session σ :=
  (r.1, { s with connection := r.2 })

def handshake : Except SessionError Unit × Session σ :=
  match s.after (s.connection.call s.timeout "initialize" (some s.handshakeParams)) with
  | (.error e, s) => (.error e, s)
  | (.ok result, s) =>
    if !result.isObject then (.error (.protocol "initialize returned no capabilities"), s)
    else s.after (s.connection.tell "initialized" (some (.object [])))

def isAlive : Bool := !s.disposed && !s.connection.client.closed

def disposedError : SessionError := .notAvailable "session disposed"

def request (method : String) (params : Json) : Except SessionError Json × Session σ :=
  if s.disposed then (.error disposedError, s)
  else s.after (s.connection.call s.timeout method (some params))

def requestAll (requests : List (String × Json)) : List (Except SessionError Json) × Session σ :=
  if s.disposed then (requests.map fun _ => .error disposedError, s)
  else s.after (s.connection.callAll s.timeout requests)

/-- What the server is told about a file that is opened. -/
def openParams (path : Path) (text : String) : Json :=
  .object [("textDocument", .object [("uri", .string path.uri),
    ("languageId", .string (languageId path)), ("version", .integer 1), ("text", .string text)])]

/-- Tells the server about a file, unless it knows of it; the result is the file's address. -/
def didOpen (t : Tree) (path : Path) : Except SessionError String × Session σ :=
  let uri := path.uri
  if s.opened.contains uri then (.ok uri, s)
  else
    match t.text? path with
    | none => (.error (.unreadable path), s)
    | some text =>
      match s.after (s.connection.tell "textDocument/didOpen" (some (openParams path text))) with
      | (.error e, s) => (.error e, s)
      | (.ok _, s) => (.ok uri, { s with opened := uri :: s.opened })

/-- Asks about a place in a file, which is opened first; the answer is a list of locations. -/
def locations (t : Tree) (path : Path) (method : String)
    (params : String → List (String × Json)) : Except SessionError (List Location) × Session σ :=
  match s.didOpen t path with
  | (.error e, s) => (.error e, s)
  | (.ok uri, s) =>
    let (result, s) := s.request method (.object (params uri))
    (result.map Location.listOfJson, s)

def definition (t : Tree) (path : Path) (at_ : Position) :
    Except SessionError (List Location) × Session σ :=
  s.locations t path "textDocument/definition" fun uri => placeParams uri at_

def references (t : Tree) (path : Path) (at_ : Position) :
    Except SessionError (List Location) × Session σ :=
  s.locations t path "textDocument/references" fun uri =>
    placeParams uri at_ ++ [("context", .object [("includeDeclaration", .bool false)])]

def executeCommand (command : String) (arguments : List Json) :
    Except SessionError Json × Session σ :=
  s.request "workspace/executeCommand"
    (.object [("command", .string command), ("arguments", .array arguments)])

def diagnostics? (uri : String) : Option Json :=
  s.connection.client.diagnostics? uri

/-- How long the end of a session may take, in milliseconds. -/
def shutdownTimeout : Nat := 2000

/-- Ends the session; nothing happens the second time. -/
def dispose : Session σ :=
  if s.disposed then s
  else
    let s := { s with disposed := true }
    if s.connection.client.closed then s
    else
      let (_, s) := s.after (s.connection.call shutdownTimeout "shutdown" none)
      (s.after (s.connection.tell "exit" none)).2

end Session

end RouteAtlas.Rpc
