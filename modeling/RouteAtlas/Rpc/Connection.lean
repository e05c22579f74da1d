import RouteAtlas.Path.Basic
import RouteAtlas.Rpc.Client

/-!
# Connections

A connection joins a client and a peer. The peer is any machine that takes messages one by one and
reacts with bytes, and that may hang up. A message is written, the peer reacts, and the client reads
what came back, until nothing more comes.
-/

namespace RouteAtlas.Rpc

/-- Why a session cannot do what it is asked for. -/
inductive SessionError where
  | startFailed (reason : String)
  | notAvailable (reason : String)
  | connectionClosed
  | timeout (milliseconds : Nat)
  | protocol (reason : String)
  | rpc (code : Int) (message : String)
  | unreadable (path : Path)

def SessionError.message : SessionError → String
  | .startFailed reason => "Failed to start language server: " ++ reason
  | .notAvailable reason => "Language server not available: " ++ reason
  | .connectionClosed => "Connection closed"
  | .timeout ms => "Request timed out after " ++ toString ms ++ "ms"
  | .protocol reason => "Protocol error: " ++ reason
  | .rpc code message => "LSP error " ++ toString code ++ ": " ++ message
  | .unreadable path => "IO error: cannot read " ++ path.text

/-- What a peer does when a message arrives. -/
structure Reaction (σ : Type) where
  state : σ
  bytes : List UInt8 := []
  hangsUp : Bool := false

/-- A machine at the other end of a connection. -/
structure Peer (σ : Type) where
  state : σ
  react : σ → Json → Reaction σ

/-- A client and its peer. -/
structure Connection (σ : Type) where
  peer : Peer σ
  client : Client := {}
  /-- The peer takes messages. -/
  listening : Bool := true
  /-- Bytes on the way to the client. -/
  arriving : List UInt8 := []
  /-- All messages that were written, in order. -/
  written : List Outgoing := []

namespace Connection

variable {σ : Type}

variable (c : Connection σ)

/-- Writes a message. A peer that hung up does not get it. -/
def post (message : Outgoing) : Connection σ :=
  let c := { c with written := c.written ++ [message] }
  if !c.listening then c
  else
    let r := c.peer.react c.peer.state message.toJson
    { c with
      peer := { c.peer with state := r.state }
      arriving := c.arriving ++ r.bytes
      listening := !r.hangsUp }

/-- The client reads what arrived, and its replies are written. At the end of the stream it closes,
unless its reader is stuck. -/
def turn : Connection σ :=
  let (client, replies) := c.client.receive c.arriving
  let c := replies.foldl post { c with client, arriving := [] }
  if !c.listening && c.arriving.isEmpty && !c.client.isStuck then
    { c with client := c.client.close }
  else c

/-- The most turns that are taken before the caller's time is up. -/
def longestExchange : Nat := 64

/-- Takes turns until nothing arrives. -/
def settleUpTo : (turns : Nat) → Connection σ → Connection σ
  | 0, c => c
  | turns + 1, c =>
    let c := c.turn
    if c.arriving.isEmpty then c else settleUpTo turns c

def settle : Connection σ := settleUpTo longestExchange c

variable (timeout : Nat)

def resultOf : Client.Outcome → Except SessionError Json
  | .response r =>
    match r.outcome with
    | .ok value => .ok value
    | .error f => .error (.rpc f.code f.message)
  | .closed => .error .connectionClosed
  | .timedOut => .error (.timeout timeout)

/-- The end of a request: its caller takes the outcome and waits no longer. -/
def collect (id : RequestId) : Except SessionError Json × Connection σ :=
  (resultOf timeout (c.client.outcome id), { c with client := c.client.forget id })

variable (method : String)

/-- Writes a request that waits from then on; `none` if the stream has ended. -/
def ask (params : Option Json) : Option RequestId × Connection σ :=
  if c.client.closed then (none, c)
  else
    let (id, client) := c.client.register
    (some id, post { c with client } (.request id method params))

def call (params : Option Json) : Except SessionError Json × Connection σ :=
  match c.ask method params with
  | (none, c) => (.error .connectionClosed, c)
  | (some id, c) => c.settle.collect timeout id

def askAll (requests : List (String × Json)) : List (Option RequestId) × Connection σ :=
  requests.foldl
    (fun (ids, c) (method, params) =>
      let (id, c) := ask c method (some params)
      (ids ++ [id], c))
    ([], c)

/-- Several requests that are made together, and their results. -/
def callAll (requests : List (String × Json)) : List (Except SessionError Json) × Connection σ :=
  let (ids, c) := c.askAll requests
  ids.foldl
    (fun (results, c) id =>
      match id with
      | none => (results ++ [.error .connectionClosed], c)
      | some id =>
        let (result, c) := collect c timeout id
        (results ++ [result], c))
    ([], c.settle)

def tell (params : Option Json) : Except SessionError Unit × Connection σ :=
  if c.client.closed then (.error .connectionClosed, c)
  else (.ok (), (c.post (.notification method params)).settle)

end Connection

end RouteAtlas.Rpc
