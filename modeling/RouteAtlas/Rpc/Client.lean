import RouteAtlas.Rpc.Frame
import RouteAtlas.Rpc.Message

/-!
# The client of a language server

A client numbers its requests and keeps those without an answer. What arrives is told apart: a
response is put down for the request it names, if that still waits; a question of the server is
answered with null; diagnostics are kept for their file. When the stream ends, no request waits any
longer.

The operations are the single steps that a caller and the reader of the stream take: `takeId`,
`enlist`, `arrive`, `forget`, `markClosed`, `dropPending`.
-/

namespace RouteAtlas.Rpc

/-- What a client knows of its requests. -/
structure Client where
  /-- The number of the next request, which wraps around in 64 bits. -/
  nextId : Int64 := 1
  pending : List RequestId := []
  /-- The answers that were put down for requests. -/
  answers : List (RequestId × Response) := []
  /-- The last diagnostics of each file. -/
  diagnostics : List (String × Json) := []
  /-- The stream has ended or is unusable. -/
  closed : Bool := false
  /-- Bytes that arrived and do not make a whole frame yet. -/
  unread : List UInt8 := []

namespace Client

variable (c : Client)

def takeId : RequestId × Client :=
  (.number c.nextId.toInt, { c with nextId := c.nextId + 1 })

variable (id : RequestId)

def enlist : Client := { c with pending := c.pending ++ [id] }

def register : RequestId × Client :=
  let (id, c) := c.takeId
  (id, c.enlist id)

def forget : Client :=
  { c with pending := c.pending.filter (· ≠ id) }

def markClosed : Client := { c with closed := true }

def dropPending : Client := { c with pending := [] }

/-- What the reader does at the end of the stream. -/
def close : Client := c.markClosed.dropPending

/-- A response arrives: it is put down if its request waits. -/
def answer (r : Response) : Client :=
  if c.pending.contains r.id then
    { c.forget r.id with answers := (r.id, r) :: c.answers }
  else c

def diagnosticsMethod : String := "textDocument/publishDiagnostics"

/-- A notification arrives: diagnostics are kept. -/
def notice (method : String) (params : Json) : Client :=
  if method = diagnosticsMethod then
    match params.stringAt? "uri" with
    | some uri =>
      { c with diagnostics := (uri, (params.get? "diagnostics").getD .null) :: c.diagnostics }
    | none => c
  else c

/-- A value arrives: the client after it, and the reply to a question of the server. -/
def arrive (value : Json) : Client × Option Outgoing :=
  match Incoming.ofJson? value with
  | some (.response r) => (c.answer r, none)
  | some (.request id _ _) => (c, some (.reply id))
  | some (.notification method params) => (c.notice method params, none)
  | none => (c, none)

/-- Reads the whole frames among the unread bytes; at most `fuel` of them. A stream that cannot be
read any further is closed. -/
def readFrames : (fuel : Nat) → Client → Client × List Outgoing
  | 0, c => (c, [])
  | fuel + 1, c =>
    if c.closed then (c, [])
    else match Frame.readOpen? c.unread with
      | none => (c, [])
      | some (.value value rest) =>
        let (c, reply) := arrive { c with unread := rest } value
        let (c, replies) := readFrames fuel c
        (c, reply.toList ++ replies)
      | some (.malformed rest) => readFrames fuel { c with unread := rest }
      | some (.failed _) => (c.close, [])
      | some .finished => (c, [])

/-- Bytes arrive: the client after it has read the frames that are whole, and its replies. -/
def receive (bytes : List UInt8) : Client × List Outgoing :=
  let unread := c.unread ++ bytes
  readFrames (unread.length + 1) { c with unread }

/-- The reader has met a header that asks for more than there is room for. It goes no further, and
the end of the stream is lost on it. -/
def isStuck : Bool :=
  !c.closed && (Frame.bodySizeFrom? none c.unread).any (Frame.largestBody < ·)

/-- How a request ends. -/
inductive Outcome where
  | response (r : Response)
  | closed
  | timedOut

/-- How a request ends that waits no longer than until now. -/
def outcome : Outcome :=
  match c.answers.find? (·.1 = id) with
  | some (_, r) => .response r
  | none => if c.pending.contains id then .timedOut else .closed

def diagnostics? (uri : String) : Option Json := c.diagnostics.lookup uri

end Client

end RouteAtlas.Rpc
