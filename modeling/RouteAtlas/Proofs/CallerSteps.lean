import Mathlib.Logic.Function.Basic
import Mathlib.Logic.Relation
import RouteAtlas.Rpc.Client

/-!
# Callers and the reader of a stream

Any number of callers share a client, and one reader takes the stream apart. Each of them is a
sequence of single steps on the client, and the steps of all of them interleave in any order.

`System.Step` is one of these steps and `System.Reaches` any number of them. A system also
remembers what arrived and what the callers received, which no step looks at.
-/

namespace RouteAtlas.Rpc

/-- How far a caller has come with its request. -/
inductive Caller where
  | idle
  | entered
  | numbered (id : RequestId)
  | enlisted (id : RequestId)
  | unwritten (id : RequestId)
  | waiting (id : RequestId)
  | expired (id : RequestId)
  | ended (id? : Option RequestId)

namespace Caller

def id? : Caller → Option RequestId
  | .idle | .entered => none
  | .numbered id | .enlisted id | .unwritten id | .waiting id | .expired id => some id
  | .ended id? => id?

def wasEnlisted : Caller → Bool
  | .idle | .entered | .numbered _ | .ended none => false
  | .enlisted _ | .unwritten _ | .waiting _ | .expired _ | .ended (some _) => true

/-- The caller's request was entered into the list, and the caller has no outcome yet. -/
def isPending : Caller → Bool
  | .enlisted _ | .unwritten _ | .waiting _ | .expired _ => true
  | .idle | .entered | .numbered _ | .ended _ => false

theorem wasEnlisted_of_isPending {caller : Caller} (h : caller.isPending) : caller.wasEnlisted := by
  cases caller <;> first | rfl | cases h

end Caller

/-- What a caller receives in the end. -/
inductive Receipt where
  /-- The stream had ended before the request was made. -/
  | refused
  | unwritten
  | disconnected
  | timedOut
  /-- A response, and its place among the values that arrived. -/
  | response (r : Response) (place : Option Nat)

/-- How far the reader of the stream has come. -/
inductive Reader where
  | reading
  /-- The client is marked as closed; its list is still to be cleared. -/
  | closing
  | ended

/-- A client with its callers and its reader. -/
structure System where
  client : Client := {}
  callers : Nat → Caller := fun _ => .idle
  reader : Reader := .reading
  issued : Nat := 0
  arrived : List Json := []
  /-- Where among them the answer stands that was put down for a request. -/
  placed : RequestId → Option Nat := fun _ => none
  received : List (Nat × Receipt) := []

def response? (value : Json) : Option Response :=
  match Incoming.ofJson? value with
  | some (.response r) => some r
  | _ => none

namespace System

def move (s : System) (k : Nat) (caller : Caller) : System :=
  { s with callers := Function.update s.callers k caller }

def finish (s : System) (k : Nat) (id? : Option RequestId) (receipt : Receipt) : System :=
  { s.move k (.ended id?) with received := s.received ++ [(k, receipt)] }

def arrive (s : System) (value : Json) : System :=
  { s with
    client := (s.client.arrive value).1
    arrived := s.arrived ++ [value]
    placed := fun id =>
      if (response? value).map Response.id = some id ∧ id ∈ s.client.pending then
        some s.arrived.length
      else s.placed id }

/-- One step of a caller or of the reader. -/
inductive Step (s : System) : System → Prop
  | enter {k} (hcaller : s.callers k = .idle) (hopen : s.client.closed = false) :
    Step s (s.move k .entered)
  | refuse {k} (hcaller : s.callers k = .idle) (hclosed : s.client.closed) :
    Step s (s.finish k none .refused)
  | takeId {k} (hcaller : s.callers k = .entered) :
    Step s { s.move k (.numbered s.client.takeId.1) with
      client := s.client.takeId.2, issued := s.issued + 1 }
  | enlist {k id} (hcaller : s.callers k = .numbered id) :
    Step s { s.move k (.enlisted id) with client := s.client.enlist id }
  | write {k id} (hcaller : s.callers k = .enlisted id) : Step s (s.move k (.waiting id))
  | failToWrite {k id} (hcaller : s.callers k = .enlisted id) : Step s (s.move k (.unwritten id))
  /-- A caller whose message was not written takes its request off the list. -/
  | withdraw {k id} (hcaller : s.callers k = .unwritten id) :
    Step s { s.finish k (some id) .unwritten with client := s.client.forget id }
  | take {k id r} (hcaller : s.callers k = .waiting id)
    (houtcome : s.client.outcome id = .response r) :
    Step s (s.finish k (some id) (.response r (s.placed id)))
  | wake {k id} (hcaller : s.callers k = .waiting id) (houtcome : s.client.outcome id = .closed) :
    Step s (s.finish k (some id) .disconnected)
  | expire {k id} (hcaller : s.callers k = .waiting id)
    (houtcome : s.client.outcome id = .timedOut) : Step s (s.move k (.expired id))
  /-- A caller whose time is up takes its request off the list. -/
  | leave {k id} (hcaller : s.callers k = .expired id) :
    Step s { s.finish k (some id) .timedOut with client := s.client.forget id }
  | arrive {value} (hreader : s.reader = .reading) : Step s (s.arrive value)
  | close (hreader : s.reader = .reading) :
    Step s { s with client := s.client.markClosed, reader := .closing }
  | clear (hreader : s.reader = .closing) :
    Step s { s with client := s.client.dropPending, reader := .ended }

abbrev Reaches : System → System → Prop := Relation.ReflTransGen Step

end System

/-! ## What arrives -/

namespace Client

variable {c : Client} {value : Json}
variable {id : RequestId}

theorem mem_pending_forget {other : RequestId} :
    other ∈ (c.forget id).pending ↔ other ∈ c.pending ∧ other ≠ id := by
  simp [forget]

/-- The outcome of a request hangs on the list and on the answers only. -/
theorem outcome_congr {c' : Client} (hanswers : c'.answers = c.answers)
    (hpending : id ∈ c'.pending ↔ id ∈ c.pending) : c'.outcome id = c.outcome id := by
  unfold outcome
  rw [hanswers]
  simp [hpending]

/-- A value either is the first response to a request in the list, which leaves the list for the
answers, or it changes neither. -/
theorem arrive_cases (c : Client) (value : Json) :
    (∃ r, response? value = some r ∧ r.id ∈ c.pending ∧ (c.arrive value).1 =
        { c with pending := (c.forget r.id).pending, answers := (r.id, r) :: c.answers }) ∨
    ((∀ r, response? value = some r → r.id ∉ c.pending) ∧
      (c.arrive value).1.pending = c.pending ∧ (c.arrive value).1.answers = c.answers ∧
      (c.arrive value).1.nextId = c.nextId ∧ (c.arrive value).1.closed = c.closed) := by
  unfold arrive response?
  cases hvalue : Incoming.ofJson? value with
  | none => exact .inr ⟨by simp, rfl, rfl, rfl, rfl⟩
  | some incoming =>
    cases incoming with
    | response r =>
      by_cases hid : r.id ∈ c.pending
      · refine .inl ⟨r, rfl, hid, ?_⟩
        simp only [answer, List.contains_iff_mem, hid]
        rfl
      · have hsame : c.answer r = c := by
          simp [answer, hid]
        refine .inr ⟨?_, ?_⟩
        · intro r' hr'
          cases hr'
          exact hid
        · simp [hsame]
    | request id method params => exact .inr ⟨by simp, rfl, rfl, rfl, rfl⟩
    | notification method params =>
      refine .inr ⟨by simp, ?_⟩
      simp only [notice]
      split
      · split <;> exact ⟨rfl, rfl, rfl, rfl⟩
      · exact ⟨rfl, rfl, rfl, rfl⟩

theorem nextId_arrive (c : Client) (value : Json) : (c.arrive value).1.nextId = c.nextId := by
  obtain ⟨r, -, -, harrive⟩ | ⟨-, -, -, hnext, -⟩ := c.arrive_cases value
  · rw [harrive]
  · exact hnext

theorem closed_arrive (c : Client) (value : Json) : (c.arrive value).1.closed = c.closed := by
  obtain ⟨r, -, -, harrive⟩ | ⟨-, -, -, -, hclosed⟩ := c.arrive_cases value
  · rw [harrive]
  · exact hclosed

theorem outcome_eq_response {r : Response} (h : c.outcome id = .response r) :
    (id, r) ∈ c.answers := by
  unfold outcome at h
  split at h
  · rename_i id' r' hfind
    cases h
    have hid : id' = id := by simpa using List.find?_some hfind
    exact hid ▸ List.mem_of_find?_eq_some hfind
  · split at h <;> cases h

theorem outcome_response_congr {c' : Client} {r : Response} (hanswers : c'.answers = c.answers)
    (h : c'.outcome id = .response r) : c.outcome id = .response r := by
  unfold outcome at h ⊢
  rw [hanswers] at h
  split at h
  · exact h
  · split at h <;> cases h

theorem not_mem_pending_of_closed (h : c.outcome id = .closed) : id ∉ c.pending := by
  unfold outcome at h
  split at h
  · cases h
  split at h
  · cases h
  · rename_i hpending
    simpa using hpending

theorem outcome_answered (r : Response) (pending : List RequestId) :
    { c with pending, answers := (r.id, r) :: c.answers }.outcome r.id = .response r := by
  simp [outcome]

/-- Only a response to a request in the list changes the outcome of that request. -/
theorem outcome_arrive (h : ∀ r, response? value = some r → r.id = id → id ∉ c.pending) :
    (c.arrive value).1.outcome id = c.outcome id := by
  obtain ⟨r, hr, hpending, harrive⟩ | ⟨-, hpending, hanswers, -⟩ := c.arrive_cases value
  · have hne : r.id ≠ id := fun hid => h r hr hid (hid ▸ hpending)
    have hsame : id ∈ (c.forget r.id).pending ↔ id ∈ c.pending := by
      simp [mem_pending_forget, Ne.symm hne]
    rw [harrive]
    simp [outcome, hne, hsame]
  · exact outcome_congr hanswers (by rw [hpending])

end Client

/-! ## What a step leaves alone -/

namespace System

variable {s s' : System}
variable {k : Nat} {c : Client}

theorem callers_move (s : System) (k : Nat) (caller : Caller) :
    (s.move k caller).callers k = caller := Function.update_self ..

theorem callers_move_of_ne {j : Nat} (h : j ≠ k) (s : System) (caller : Caller) :
    (s.move k caller).callers j = s.callers j := Function.update_of_ne h ..

theorem id?_move {caller : Caller} (h : caller.id? = (s.callers k).id?) (j : Nat) :
    ((s.move k caller).callers j).id? = (s.callers j).id? := by
  by_cases hj : j = k
  · rw [hj, callers_move, h]
  · rw [callers_move_of_ne hj]

theorem Step.id?_eq (h : Step s s') :
    ((∀ j, (s'.callers j).id? = (s.callers j).id?) ∧ s'.issued = s.issued ∧
      s'.client.nextId = s.client.nextId) ∨
    ∃ k, s.callers k = .entered ∧ s' = { s.move k (.numbered s.client.takeId.1) with
        client := s.client.takeId.2, issued := s.issued + 1 } := by
  cases h with
  | takeId hcaller => exact .inr ⟨_, hcaller, rfl⟩
  | enter hcaller | refuse hcaller | enlist hcaller | write hcaller | failToWrite hcaller
  | withdraw hcaller | take hcaller | wake hcaller | expire hcaller | leave hcaller =>
    exact .inl ⟨id?_move (by rw [hcaller]; rfl), rfl, rfl⟩
  | arrive => exact .inl ⟨fun _ => rfl, rfl, s.client.nextId_arrive _⟩
  | close | clear => exact .inl ⟨fun _ => rfl, rfl, rfl⟩

theorem Step.issued_le (h : Step s s') : s.issued ≤ s'.issued := by
  obtain ⟨-, hissued, -⟩ | ⟨k, -, rfl⟩ := h.id?_eq
  · exact Nat.le_of_eq hissued.symm
  · exact Nat.le_succ _

/-! ## Runs of the steps -/

/-- A caller makes its request, with no step of another in between. -/
def request (s : System) (k : Nat) : System :=
  { s with
    client := s.client.register.2
    callers := Function.update s.callers k (.waiting s.client.register.1)
    issued := s.issued + 1 }

theorem reaches_request (hcaller : s.callers k = .idle) (hopen : s.client.closed = false) :
    Reaches s (s.request k) := by
  have henter : Reaches s (s.move k .entered) := .single (.enter hcaller hopen)
  have htake := henter.tail (.takeId (callers_move s k _))
  have henlist := htake.tail (.enlist (callers_move _ k _))
  have hwrite := henlist.tail (.write (callers_move _ k _))
  -- the four moves of the caller come down to the last
  simp only [move, Function.update_idem] at hwrite
  exact hwrite

end System

end RouteAtlas.Rpc
