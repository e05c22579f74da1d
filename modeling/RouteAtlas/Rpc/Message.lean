import RouteAtlas.Json.Value

/-!
# Messages

The messages that travel between a client and a language server. What arrives is a request, a
notification or a response, told apart by the members it has; a member of the wrong form counts as
absent.
-/

namespace RouteAtlas.Rpc

/-- The name of a request: a number or a text. -/
inductive RequestId where
  | number (n : Int)
  | text (s : String)
  deriving DecidableEq, Repr

/-- A number must fit in 64 bits. -/
def RequestId.ofJson? (j : Json) : Option RequestId :=
  match j.int64?, j.string? with
  | some n, _ => some (.number n)
  | none, some s => some (.text s)
  | none, none => none

def RequestId.toJson : RequestId → Json
  | .number n => .integer n
  | .text s => .string s

/-- What a server says when a request fails. -/
structure Failure where
  code : Int
  message : String
  data : Option Json

/-- A member that may be absent; null counts as absent. -/
def present? : Option Json → Option Json
  | none | some .null => none
  | some j => some j

/-- An object with `code`, `message` and perhaps `data`, or a list of them in this order. -/
def Failure.ofJson? : Json → Option Failure
  | .array [code, message] => do some ⟨← code.int64?, ← message.string?, none⟩
  | .array [code, message, data] => do some ⟨← code.int64?, ← message.string?, present? (some data)⟩
  | j@(.object _) => do
    some ⟨← (← j.get? "code").int64?, ← (← j.get? "message").string?, present? (j.get? "data")⟩
  | _ => none

/-- The answer to a request. -/
structure Response where
  id : RequestId
  result : Json
  failure : Option Failure

/-- The result of a response; a failure wins over a result. -/
def Response.outcome (r : Response) : Except Failure Json :=
  match r.failure with
  | some f => .error f
  | none => .ok r.result

/-- A message of the server. -/
inductive Incoming where
  | response (response : Response)
  /-- A question of the server, which must be answered. -/
  | request (id : RequestId) (method : String) (params : Json)
  | notification (method : String) (params : Json)

/-- The message that a value is: it needs a usable name or a method. -/
def Incoming.ofJson? (j : Json) : Option Incoming :=
  if !j.isObject then none
  else
    let params := (j.get? "params").getD .null
    match (j.get? "id").bind RequestId.ofJson?, j.stringAt? "method" with
    | some id, some method => some (.request id method params)
    | none, some method => some (.notification method params)
    | some id, none =>
      some (.response ⟨id, (j.get? "result").getD .null, (j.get? "error").bind Failure.ofJson?⟩)
    | none, none => none

/-- A message to the server. -/
inductive Outgoing where
  | request (id : RequestId) (method : String) (params : Option Json)
  | notification (method : String) (params : Option Json)
  /-- The answer to a question of the server; it is always null. -/
  | reply (id : RequestId)

def paramsMember (params : Option Json) : List (String × Json) :=
  params.toList.map fun p => ("params", p)

def Outgoing.toJson : Outgoing → Json
  | .request id method params =>
    .object ([("jsonrpc", .string "2.0"), ("id", id.toJson), ("method", .string method)]
      ++ paramsMember params)
  | .notification method params =>
    .object ([("jsonrpc", .string "2.0"), ("method", .string method)] ++ paramsMember params)
  | .reply id => .object [("jsonrpc", .string "2.0"), ("id", id.toJson), ("result", .null)]

end RouteAtlas.Rpc
