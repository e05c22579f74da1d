import RouteAtlas.Rpc.Connection

/-!
# Scripted peers

A peer that plays a script: for each method a list of actions, one for each message with that
method. It writes down what it got. With it a session can be tried out without a language server.
-/

namespace RouteAtlas.Rpc

/-- What the peer does about one message. -/
structure Action where
  /-- Values that are sent first, each in a frame. -/
  before : List Json := []
  /-- Bytes that are sent next, as they are. -/
  raw : List UInt8 := []
  /-- The peer hangs up then. -/
  hangsUp : Bool := false
  silent : Bool := false
  error : Option Json := none
  result : Option Json := none

/-- A peer that acts by a list. -/
structure Script where
  actions : List (String × List Action) := []
  /-- Answers are held back until there are so many, and then sent in reverse. -/
  batch : Option Nat := none
  held : List (List UInt8) := []
  /-- The messages with a method, in order. -/
  messages : List Json := []
  /-- The other ones. -/
  replies : List Json := []

namespace Script

variable (s : Script)

variable (method : String)

def next : Action × Script :=
  match s.actions.find? (·.1 = method) with
  | some (_, action :: rest) =>
    let without := s.actions.map fun (m, actions) => if m = method then (m, rest) else (m, actions)
    (action, { s with actions := without })
  | _ => ({}, s)

def answer (id : Json) (action : Action) : Json :=
  let usual := if method = "initialize" then Json.object [("capabilities", .object [])] else .null
  let outcome := match action.error with
    | some e => ("error", e)
    | none => ("result", action.result.getD usual)
  .object [("jsonrpc", .string "2.0"), ("id", id), outcome]

/-- A message without the number of the process that sent it. -/
def withoutProcess : Json → Json
  | .object members => .object (members.map fun (key, value) =>
      match key, value with
      | "params", .object params => (key, .object (params.filter (·.1 ≠ "processId")))
      | _, _ => (key, value))
  | j => j

/-- The bytes of an answer are held back. -/
def isHeld (isRequest : Bool) : Bool :=
  s.batch.isSome && isRequest && method ≠ "initialize" && method ≠ "shutdown"

/-- Sends bytes, or holds them back until there are enough. -/
def emit (held : Bool) (bytes : List UInt8) : List UInt8 × Script :=
  if !held then (bytes, s)
  else
    let waiting := bytes :: s.held
    if waiting.length < s.batch.getD 0 then ([], { s with held := waiting })
    else (waiting.flatten, { s with held := [] })

/-- What the peer does with a message that has a method. -/
def play (id : Option Json) (message : Json) : Reaction Script :=
  let s := { s with messages := s.messages ++ [withoutProcess message] }
  let (action, s) := s.next method
  let first := action.before.flatMap Frame.write ++ action.raw
  if action.hangsUp || method = "exit" then { state := s, bytes := first, hangsUp := true }
  else
    let reply := match id with
      | some id => if action.silent then [] else Frame.write (answer method id action)
      | none => []
    let (bytes, s) := s.emit (s.isHeld method id.isSome) (first ++ reply)
    { state := s, bytes }

def react (message : Json) : Reaction Script :=
  match message.stringAt? "method" with
  | some method => s.play method (message.get? "id") message
  | none => { state := { s with replies := s.replies ++ [message] } }

def peer : Peer Script := ⟨s, react⟩

end Script

end RouteAtlas.Rpc
