import RouteAtlas.Rpc.Session

/-!
# The messages of a session

What a session writes on its own account, answers to questions of the server apart. A request writes
one message if the stream is open and none if it has ended; whatever the peer sends back, reading it
adds answers only. Opening a file writes a message if the server does not know of the file yet, the
file can be read and the stream is open.
-/

open List

namespace RouteAtlas.Rpc

open Files Source

/-- The message answers a question of the server. -/
def Outgoing.isReply : Outgoing → Bool
  | .reply _ => true
  | .request .. | .notification .. => false

/-! ## Reading adds answers only -/

namespace Client

theorem isReply_of_arrive {c : Client} {value : Json} {m : Outgoing}
    (h : (c.arrive value).2 = some m) : m.isReply := by
  unfold arrive at h
  split at h
  · cases h
  · cases h
    rfl
  · cases h
  · cases h

theorem isReply_of_mem_readFrames (fuel : Nat) (c : Client) :
    ∀ m ∈ (readFrames fuel c).2, m.isReply := by
  induction fuel generalizing c with
  | zero => exact fun m hm => absurd hm not_mem_nil
  | succ fuel ih =>
    intro m hm
    rw [readFrames] at hm
    split at hm
    · exact absurd hm not_mem_nil
    split at hm
    · exact absurd hm not_mem_nil
    · rcases mem_append.1 hm with hreply | hmore
      · exact isReply_of_arrive (Option.mem_toList.1 hreply)
      · exact ih _ m hmore
    · exact ih _ m hm
    · exact absurd hm not_mem_nil
    · exact absurd hm not_mem_nil

theorem isReply_of_mem_receive (c : Client) (bytes : List UInt8) :
    ∀ m ∈ (c.receive bytes).2, m.isReply := isReply_of_mem_readFrames _ _

end Client

namespace Connection

variable {σ : Type} {c : Connection σ}

/-- The messages that were written, without answers to questions of the server. -/
def own (c : Connection σ) : List Outgoing := c.written.filter (!·.isReply)

theorem client_post (m : Outgoing) : (c.post m).client = c.client := by
  simp only [post]
  split <;> rfl

theorem own_post (m : Outgoing) : (c.post m).own = c.own ++ [m].filter (!·.isReply) := by
  have hwritten : (c.post m).written = c.written ++ [m] := by
    simp only [post]
    split <;> rfl
  rw [own, hwritten, filter_append]
  rfl

theorem own_replies {replies : List Outgoing} (h : ∀ m ∈ replies, m.isReply) :
    (replies.foldl post c).own = c.own := by
  induction replies generalizing c with
  | nil => rfl
  | cons m replies ih =>
    have hown := ih (c := c.post m) fun m' hm' => h m' (mem_cons_of_mem m hm')
    have hm : (!m.isReply) = false := by rw [h m mem_cons_self]; rfl
    rw [foldl_cons, hown, own_post, filter_cons, hm]
    exact append_nil _

theorem own_turn : c.turn.own = c.own := by
  have hreplies := c.client.isReply_of_mem_receive c.arriving
  simp only [turn]
  split <;> exact own_replies hreplies

theorem own_settleUpTo (turns : Nat) (c : Connection σ) : (settleUpTo turns c).own = c.own := by
  induction turns generalizing c with
  | zero => rfl
  | succ turns ih =>
    simp only [settleUpTo]
    split
    · exact own_turn
    · rw [ih, own_turn]

/-- **However long an exchange goes on, it adds answers only.** -/
theorem own_settle : c.settle.own = c.own := own_settleUpTo _ c

/-! ## Requests -/

theorem own_call (c : Connection σ) (timeout : Nat) (method : String) (params : Option Json) :
    (c.call timeout method params).2.own =
      c.own ++ if c.client.closed then [] else [.request c.client.takeId.1 method params] := by
  unfold call ask
  by_cases h : c.client.closed
  · simp [h]
  simp only [h]
  refine (own_settle).trans ?_
  rw [own_post]
  rfl

end Connection

/-! ## Opening a file -/

/-- The message that tells the server about a file. -/
def openMessage (path : Path) (text : String) : Outgoing :=
  .notification "textDocument/didOpen" (some (Session.openParams path text))

namespace Session

variable {σ : Type} {s : Session σ} {t : Tree} {path : Path}

/-- The messages that the session has written, without answers to questions of the server. -/
def own (s : Session σ) : List Outgoing := s.connection.own

def closed (s : Session σ) : Bool := s.connection.client.closed

/-- The message that opening a file writes: none if the server knows of the file, if the file cannot
be read, or if the stream has ended. -/
def opening? (s : Session σ) (t : Tree) (path : Path) : Option Outgoing :=
  if s.opened.contains path.uri || s.closed then none else (t.text? path).map (openMessage path)

theorem didOpen_cases (s : Session σ) (t : Tree) (path : Path) :
    (path.uri ∈ s.opened ∧ s.didOpen t path = (.ok path.uri, s) ∧ s.opening? t path = none) ∨
    (path.uri ∉ s.opened ∧ s.opening? t path = none ∧ ∃ e, s.didOpen t path = (.error e, s)) ∨
    (path.uri ∉ s.opened ∧ s.closed = false ∧ ∃ text, t.text? path = some text ∧
      s.opening? t path = some (openMessage path text) ∧
      s.didOpen t path = (.ok path.uri, { s with
          connection := (s.connection.post (openMessage path text)).settle
          opened := path.uri :: s.opened })) := by
  unfold didOpen opening?
  by_cases hopened : path.uri ∈ s.opened
  · exact .inl ⟨hopened, by simp [hopened], by simp [hopened]⟩
  refine .inr ?_
  cases htext : t.text? path with
  | none => exact .inl ⟨hopened, by simp, .unreadable path, by simp [hopened]⟩
  | some text =>
    by_cases hclosed : s.closed
    · refine .inl ⟨hopened, by simp [hclosed], .connectionClosed, ?_⟩
      have htell : s.connection.client.closed := hclosed
      simp [hopened, after, Connection.tell, htell]
    · refine .inr ⟨hopened, eq_false_of_ne_true hclosed, text, rfl, by simp [hopened, hclosed], ?_⟩
      have htell : s.connection.client.closed = false := eq_false_of_ne_true hclosed
      simp [hopened, after, Connection.tell, htell, openMessage]

/-- **Opening a file writes its message or nothing.** -/
theorem own_didOpen (s : Session σ) (t : Tree) (path : Path) :
    (s.didOpen t path).2.own = s.own ++ (s.opening? t path).toList := by
  obtain ⟨-, hopen, hnone⟩ | ⟨-, hnone, e, hopen⟩ | ⟨-, -, text, -, hsome, hopen⟩ :=
    s.didOpen_cases t path
  · rw [hopen, hnone, Option.toList_none, append_nil]
  · rw [hopen, hnone, Option.toList_none, append_nil]
  rw [hopen, hsome]
  refine (Connection.own_settle).trans ?_
  rw [Connection.own_post]
  rfl

end Session

/-! ## Calls -/

/-- What can be asked of a session. -/
inductive Call where
  | definition (path : Path) (at_ : Position)
  | references (path : Path) (at_ : Position)
  | request (method : String) (params : Json)
  | command (name : String) (arguments : List Json)
  | dispose

namespace Session

variable {σ : Type}

def perform (s : Session σ) (t : Tree) : Call → Session σ
  | .definition path at_ => (s.definition t path at_).2
  | .references path at_ => (s.references t path at_).2
  | .request method params => (s.request method params).2
  | .command name arguments => (s.executeCommand name arguments).2
  | .dispose => s.dispose

/-! ## A peer that does not hang up -/

/-- A peer that answers the handshake and then only listens, whatever it is told. -/
def listener : Peer Unit where
  state := ()
  react _ message :=
    let answer := Json.object [("id", .integer 1), ("result", .object [])]
    { state := ()
      bytes := if message.stringAt? "method" = some "initialize" then Frame.write answer else [] }

/-- A session with that peer, before and after the handshake. -/
def joining : Session Unit := { root := ⟨"/"⟩, connection := { peer := listener }, timeout := 1 }

def connected : Session Unit := joining.handshake.2

def oneFile : Tree := { entries := [(["a.ts"], .file [])], working := [] }

end Session

end RouteAtlas.Rpc
