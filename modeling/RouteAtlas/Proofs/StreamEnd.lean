import RouteAtlas.Proofs.PairedReplies
import RouteAtlas.Rpc.Script

/-!
# Requests at the end of the stream

At the end of the stream the reader marks the client as closed and then clears its list, so that no
request waits any longer. A caller looks at the mark and enters its request in two steps. If it has
looked before the mark was set and enters its request after the list was cleared, nobody takes the
request off the list again but the caller itself, when its time is up. The same happens to all
requests if the reader is stuck, so that the end of the stream is lost on it.
-/

open List

namespace RouteAtlas.Rpc

/-- The caller has seen an open stream, and its request is not in the client's list yet. -/
def Caller.isEntering : Caller → Bool
  | .entered | .numbered _ => true
  | .idle | .enlisted _ | .unwritten _ | .waiting _ | .expired _ | .ended _ => false

theorem Caller.not_isPending_of_isEntering {caller : Caller} (h : caller.isEntering) :
    ¬ caller.isPending := by
  cases caller <;> first | exact Bool.false_ne_true | cases h

namespace Client

variable {c : Client} {id : RequestId}

theorem outcome_eq_timedOut (hlisted : id ∈ c.pending) (hnone : ∀ r, (id, r) ∉ c.answers) :
    c.outcome id = .timedOut := by
  have hfind : c.answers.find? (·.1 = id) = none := by
    rw [find?_eq_none]
    rintro ⟨other, r⟩ hmem hother
    have hid : other = id := by simpa using hother
    exact hnone r (hid ▸ hmem)
  rw [outcome, hfind]
  simp [hlisted]

/-- A request that is not in the list has its answer, or none can come. -/
theorem outcome_of_not_mem (h : id ∉ c.pending) :
    c.outcome id = .closed ∨ ∃ r, c.outcome id = .response r := by
  unfold outcome
  split
  · exact .inr ⟨_, rfl⟩
  · refine .inl (if_neg ?_)
    simpa using h

end Client

/-- **When the peer has hung up and all is read, a request is woken**, unless the reader is stuck:
then only its time ends the wait. -/
theorem Connection.outcome_settle_at_end {σ : Type} {c : Connection σ}
    (hended : c.listening = false) (hnone : c.arriving = []) (hopen : c.client.closed = false)
    (hread : Frame.readOpen? c.client.unread = none) {id : RequestId}
    (hlisted : id ∈ c.client.pending) (hunanswered : ∀ r, (id, r) ∉ c.client.answers) :
    c.settle.client.outcome id = if c.client.isStuck then .timedOut else .closed := by
  obtain ⟨peer, client, listening, arriving, written⟩ := c
  obtain rfl : listening = false := hended
  obtain rfl : arriving = [] := hnone
  have hreceive : client.receive [] = (client, []) := by
    show Client.readFrames ((client.unread ++ []).length + 1)
      { client with unread := client.unread ++ [] } = _
    rw [append_nil, Client.readFrames, if_neg (Bool.eq_false_iff.1 hopen), hread]
  have hturn : turn ⟨peer, client, false, [], written⟩ =
      ⟨peer, if client.isStuck then client else client.close, false, [], written⟩ := by
    simp only [turn, hreceive, foldl_nil]
    cases client.isStuck <;> rfl
  have hsettle : settle ⟨peer, client, false, [], written⟩ =
      turn ⟨peer, client, false, [], written⟩ := by
    show settleUpTo (63 + 1) _ = _
    rw [settleUpTo, hturn]
    rfl
  rw [hsettle, hturn]
  cases client.isStuck with
  | true => exact Client.outcome_eq_timedOut hlisted hunanswered
  | false =>
    have hgone : id ∉ client.close.pending := not_mem_nil
    obtain hclosed | ⟨r, hr⟩ := Client.outcome_of_not_mem hgone
    · exact hclosed
    · exact absurd (Client.outcome_eq_response hr) (hunanswered r)

namespace System

variable {s s' s₀ : System} {k : Nat} {id : RequestId}

def cleared (s : System) : System := { s with client := s.client.dropPending, reader := .ended }

/-! ## What a step can do -/

theorem Step.reader_cases (h : Step s s') :
    s'.reader = s.reader ∨ (s.reader = .reading ∧ s'.reader = .closing) ∨
      (s.reader = .closing ∧ s' = s.cleared) := by
  cases h with
  | close hreader => exact .inr (.inl ⟨hreader, rfl⟩)
  | clear hreader => exact .inr (.inr ⟨hreader, rfl⟩)
  | enter | refuse | takeId | enlist | write | failToWrite | withdraw | take | wake | expire
  | leave | arrive => exact .inl rfl

theorem Step.closed (h : Step s s') (hclosed : s.client.closed) : s'.client.closed := by
  cases h with
  | arrive => exact (s.client.closed_arrive _).trans hclosed
  | close => rfl
  | enter | refuse | takeId | enlist | write | failToWrite | withdraw | take | wake | expire
  | leave | clear => exact hclosed

theorem Step.id?_of_some (h : Step s s') (hid : (s.callers k).id? = some id) :
    (s'.callers k).id? = some id := by
  obtain ⟨hsame, -, -⟩ | ⟨j, hcaller, rfl⟩ := h.id?_eq
  · rw [hsame, hid]
  have hne : k ≠ j := by
    rintro rfl
    rw [hcaller] at hid
    cases hid
  exact (congrArg Caller.id? (callers_move_of_ne hne s _)).trans hid

theorem callers_move_eq (s : System) (j : Nat) (caller : Caller) (k : Nat) :
    (s.move j caller).callers k = if k = j then caller else s.callers k := by
  by_cases hk : k = j
  · rw [if_pos hk, hk, callers_move]
  · rw [if_neg hk, callers_move_of_ne hk]

theorem Step.isEntering (h : Step s s') (hclosed : s.client.closed)
    (hentering : (s'.callers k).isEntering) : (s.callers k).isEntering := by
  cases h with
  | enter _ hopen => exact absurd (hclosed.symm.trans hopen) Bool.noConfusion
  | @takeId j hcaller =>
    have hmoved := callers_move_eq s j (.numbered s.client.takeId.1) k
    by_cases hk : k = j
    · rw [hk, hcaller]
      rfl
    · rw [if_neg hk] at hmoved
      exact hmoved ▸ hentering
  | @refuse j | @enlist j | @write j | @failToWrite j | @withdraw j | @take j | @wake j
  | @expire j | @leave j =>
    -- the caller that moves is not entering any more
    replace hentering : ((s.move j _).callers k).isEntering := hentering
    rw [callers_move_eq] at hentering
    split at hentering
    · cases hentering
    · exact hentering
  | arrive | close | clear => exact hentering

/-- Only a caller that enters its request puts it on the list. -/
theorem Step.pending_cases (h : Step s s') :
    (∀ other ∈ s'.client.pending, other ∈ s.client.pending) ∨ ∃ j id, s.callers j = .numbered id ∧
        s' = { s.move j (.enlisted id) with client := s.client.enlist id } := by
  cases h with
  | enlist hcaller => exact .inr ⟨_, _, hcaller, rfl⟩
  | withdraw | leave => exact .inl fun _ hother => (Client.mem_pending_forget.1 hother).1
  | @arrive value =>
    refine .inl fun other hother => ?_
    obtain ⟨r, -, -, harrive⟩ | ⟨-, hpending, -⟩ := s.client.arrive_cases value
    · replace hother : other ∈ (s.client.arrive value).1.pending := hother
      rw [harrive] at hother
      exact (Client.mem_pending_forget.1 hother).1
    · exact hpending ▸ hother
  | clear => exact .inl fun _ hother => absurd hother not_mem_nil
  | enter | refuse | takeId | write | failToWrite | take | wake | expire | close =>
    exact .inl fun _ hother => hother

/-- Once the reader has ended, a request leaves the list only as its caller ends. -/
theorem Step.listed_of_ended (h : Step s s') (hended : s.reader = .ended)
    (hlisted : id ∈ s.client.pending) :
    id ∈ s'.client.pending ∨
      ∃ j, (s.callers j).id? = some id ∧ s'.callers j = .ended (some id) := by
  cases h with
  | @withdraw j other hcaller | @leave j other hcaller =>
    by_cases hother : id = other
    · subst hother
      exact .inr ⟨j, by rw [hcaller]; rfl, callers_move s j _⟩
    · exact .inl (Client.mem_pending_forget.2 ⟨hlisted, hother⟩)
  | enlist => exact .inl (mem_append_left _ hlisted)
  | arrive hreader | close hreader | clear hreader => cases hended.symm.trans hreader
  | enter | refuse | takeId | write | failToWrite | take | wake | expire => exact .inl hlisted

/-- A caller's request is in the list from the step on that enters it. -/
theorem Step.isPending (h : Step s s') (hpending : (s'.callers k).isPending)
    (hid : (s'.callers k).id? = some id) :
    ((s.callers k).isPending ∧ (s.callers k).id? = some id) ∨ id ∈ s'.client.pending := by
  cases h with
  | @enter j | @refuse j | @takeId j | @withdraw j | @take j | @wake j | @leave j =>
    -- the caller that moves has no request in the list
    replace hpending : ((s.move j _).callers k).isPending := hpending
    replace hid : ((s.move j _).callers k).id? = some id := hid
    rw [callers_move_eq] at hpending hid
    split at hpending
    · cases hpending
    · exact .inl ⟨hpending, by rwa [if_neg ‹_›] at hid⟩
  | @enlist j own hcaller =>
    rw [callers_move_eq] at hpending hid
    split at hpending
    · rw [if_pos ‹_›] at hid
      cases hid
      exact .inr (mem_append_right _ (mem_singleton.2 rfl))
    · exact .inl ⟨hpending, by rwa [if_neg ‹_›] at hid⟩
  | @write j own hcaller | @failToWrite j own hcaller | @expire j own hcaller =>
    rw [callers_move_eq] at hpending hid
    split at hpending
    · rename_i hk
      rw [if_pos hk] at hid
      rw [hk, hcaller]
      exact .inl ⟨rfl, hid⟩
    · exact .inl ⟨hpending, by rwa [if_neg ‹_›] at hid⟩
  | arrive | close | clear => exact .inl ⟨hpending, hid⟩

/-! ## When the list was cleared -/

theorem closed_of_reaches (h : Reaches {} s) (hreader : s.reader ≠ .reading) : s.client.closed := by
  induction h with
  | refl => exact absurd rfl hreader
  | @tail s s' _ hstep ih =>
    obtain hsame | ⟨hreading, hclosing⟩ | ⟨hclosing, rfl⟩ := hstep.reader_cases
    · exact hstep.closed (ih (hsame ▸ hreader))
    · cases hstep with
      | close => rfl
      | clear hreader' => cases hreading.symm.trans hreader'
      | enter | refuse | takeId | enlist | write | failToWrite | withdraw | take | wake | expire
      | leave | arrive => exact absurd hreading hreader
    · exact ih fun hreading => by cases hclosing.symm.trans hreading

theorem exists_cleared (h : Reaches {} s) (hended : s.reader = .ended) :
    ∃ s₀, Reaches {} s₀ ∧ s₀.reader = .closing ∧ Reaches s₀.cleared s := by
  induction h with
  | refl => cases hended
  | @tail s s' hs hstep ih =>
    obtain hsame | ⟨-, hclosing⟩ | ⟨hclosing, rfl⟩ := hstep.reader_cases
    · obtain ⟨s₀, hs₀, hclosing, hreaches⟩ := ih (hsame ▸ hended)
      exact ⟨s₀, hs₀, hclosing, hreaches.tail hstep⟩
    · cases hclosing.symm.trans hended
    · exact ⟨s, hs, hclosing, .refl⟩

theorem reaches_cleared (h : Reaches {} s₀) (hclosing : s₀.reader = .closing) :
    Reaches {} s₀.cleared := h.tail (.clear hclosing)

/-! ## Behind the clearing of the list -/

/-- What holds in every state behind the one in which the list was cleared: a request in the list is
that of a caller who was entering then. -/
structure Behind (s₀ s : System) : Prop where
  ended : s.reader = .ended
  closed : s.client.closed
  entering : ∀ k, (s.callers k).isEntering → (s₀.callers k).isEntering
  listed : ∀ id ∈ s.client.pending, ∃ k, (s.callers k).id? = some id ∧ (s₀.callers k).isEntering

theorem Behind.step (h : Behind s₀ s) (hstep : Step s s') : Behind s₀ s' where
  ended := by
    obtain hsame | ⟨hreading, -⟩ | ⟨hclosing, -⟩ := hstep.reader_cases
    · rw [hsame, h.ended]
    · cases h.ended.symm.trans hreading
    · cases h.ended.symm.trans hclosing
  closed := hstep.closed h.closed
  entering k hk := h.entering k (hstep.isEntering h.closed hk)
  listed := by
    intro id hid
    obtain hless | ⟨j, own, hcaller, rfl⟩ := hstep.pending_cases
    · obtain ⟨k, hk, hentering⟩ := h.listed id (hless id hid)
      exact ⟨k, hstep.id?_of_some hk, hentering⟩
    rcases mem_append.1 hid with hold | hnew
    · obtain ⟨k, hk, hentering⟩ := h.listed id hold
      exact ⟨k, hstep.id?_of_some hk, hentering⟩
    · rw [mem_singleton.1 hnew]
      have hself : (s.callers j).isEntering := by rw [hcaller]; rfl
      exact ⟨j, congrArg Caller.id? (callers_move s j _), h.entering j hself⟩

theorem Behind.of_reaches (h₀ : Reaches {} s₀) (hclosing : s₀.reader = .closing)
    (h : Reaches s₀.cleared s) : Behind s₀ s := by
  induction h with
  | refl =>
    have hreader : s₀.reader ≠ .reading := fun hreading => by cases hclosing.symm.trans hreading
    exact ⟨rfl, closed_of_reaches (s := s₀) h₀ hreader, fun _ hk => hk, fun _ hid => nomatch hid⟩
  | tail _ hstep ih => exact ih.step hstep

/-- The requests of callers who were entering when the list was cleared are in the list until these
callers end. -/
def Kept (s₀ s : System) : Prop :=
  ∀ k id, (s₀.callers k).isEntering → (s.callers k).isPending →
    (s.callers k).id? = some id → id ∈ s.client.pending

theorem Kept.step (h : Kept s₀ s) (hbehind : Behind s₀ s) (hnumbered : Numbered s)
    (hstep : Step s s') : Kept s₀ s' := by
  intro k id hentering hpending hid
  obtain ⟨hpending', hid'⟩ | hlisted := hstep.isPending hpending hid
  · obtain hstays | ⟨j, hj, hended⟩ :=
      hstep.listed_of_ended hbehind.ended (h k id hentering hpending' hid')
    · exact hstays
    · -- only the caller itself takes its request off, and ends with that
      rw [hnumbered.distinct j k id hj hid'] at hended
      rw [hended] at hpending
      cases hpending
  · exact hlisted

theorem Kept.of_reaches (h₀ : Reaches {} s₀) (hclosing : s₀.reader = .closing)
    (h : Reaches s₀.cleared s) (hfew : s.issued < 2 ^ 63) : Kept s₀ s := by
  induction h with
  | refl =>
    intro k id hentering hpending
    exact absurd hpending (Caller.not_isPending_of_isEntering hentering)
  | @tail s s' hs hstep ih =>
    have hfew' := Nat.lt_of_le_of_lt hstep.issued_le hfew
    have hsound := Sound.of_reaches ((reaches_cleared h₀ hclosing).trans hs) hfew'
    exact (ih hfew').step (Behind.of_reaches h₀ hclosing hs) hsound.numbered hstep

/-- A caller that has seen an open stream makes its request, whatever has happened since. -/
theorem reaches_request_of_entered (hcaller : s.callers k = .entered) :
    Reaches s (s.request k) := by
  have htake : Reaches s _ := .single (.takeId hcaller)
  have henlist := htake.tail (.enlist (callers_move s k _))
  have hwrite := henlist.tail (.write (callers_move _ k _))
  simp only [move, Function.update_idem] at hwrite
  exact hwrite

theorem exists_listed (hentering : (s₀.callers k).isEntering) :
    ∃ s, Reaches s₀.cleared s ∧ s.client.pending ≠ [] := by
  have hne : ∀ id : RequestId, [] ++ [id] ≠ [] := fun id => cons_ne_nil id []
  cases hk : s₀.callers k with
  | entered => exact ⟨_, reaches_request_of_entered hk, hne _⟩
  | numbered id => exact ⟨_, .single (.enlist hk), hne id⟩
  | idle | enlisted | unwritten | waiting | expired | ended =>
    rw [hk] at hentering
    cases hentering

/-- **Who is left waiting at the end of the stream**: exactly the callers that had seen an open
stream and had not entered their requests when the list was cleared. The requests of these stay in
the list, so that only their time ends the wait; all others have their answer or see that the stream
has ended. The list stays empty in every further run exactly if no caller was entering. All this is
for a reader that gets as far as the end of the stream; if it is stuck, every request waits until
its time is up. -/
theorem left_waiting_iff_entering (h : Reaches {} s) (hended : s.reader = .ended) :
    (∃ s₀, Reaches {} s₀ ∧ s₀.reader = .closing ∧ Reaches s₀.cleared s ∧
      ((∀ s', Reaches s₀.cleared s' → s'.client.pending = []) ↔
        ∀ k, (s₀.callers k).isEntering = false) ∧
      (s.issued < 2 ^ 63 → ∀ k id, s.callers k = .waiting id → ((s₀.callers k).isEntering = true →
          id ∈ s.client.pending ∧ s.client.outcome id = .timedOut) ∧
        ((s₀.callers k).isEntering = false → id ∉ s.client.pending ∧
          (s.client.outcome id = .closed ∨
            ∃ r, s.client.outcome id = .response r ∧ AnsweredBy s id r)))) ∧
    ∀ (σ : Type) (c : Connection σ) (id : RequestId), c.listening = false → c.arriving = [] →
      c.client.closed = false → Frame.readOpen? c.client.unread = none →
      id ∈ c.client.pending → (∀ r, (id, r) ∉ c.client.answers) →
      c.settle.client.outcome id = if c.client.isStuck then .timedOut else .closed := by
  refine ⟨?_, fun σ c id hended hnone hopen hread hlisted hunanswered =>
    Connection.outcome_settle_at_end hended hnone hopen hread hlisted hunanswered⟩
  obtain ⟨s₀, h₀, hclosing, hreaches⟩ := exists_cleared h hended
  refine ⟨s₀, h₀, hclosing, hreaches, ⟨?_, ?_⟩, ?_⟩
  · intro hempty k
    refine eq_false_of_ne_true fun hentering => ?_
    obtain ⟨s', hs', hne⟩ := exists_listed hentering
    exact hne (hempty s' hs')
  · intro hnone s' hs'
    refine eq_nil_iff_forall_not_mem.2 fun id hid => ?_
    obtain ⟨k, -, hentering⟩ := (Behind.of_reaches h₀ hclosing hs').listed id hid
    exact Bool.false_ne_true ((hnone k).symm.trans hentering)
  · intro hfew k id hcaller
    have hsound := Sound.of_reaches h hfew
    have hown : (s.callers k).id? = some id := by rw [hcaller]; rfl
    refine ⟨fun hentering => ?_, fun hnot => ?_⟩
    · have hlisted : id ∈ s.client.pending :=
        Kept.of_reaches h₀ hclosing hreaches hfew k id hentering (by rw [hcaller]; rfl) hown
      refine ⟨hlisted, Client.outcome_eq_timedOut hlisted fun r hr => ?_⟩
      exact (hsound.tracked.answered id r hr).2.1 hlisted
    · have hgone : id ∉ s.client.pending := by
        intro hlisted
        obtain ⟨j, hj, hentering⟩ := (Behind.of_reaches h₀ hclosing hreaches).listed id hlisted
        rw [hsound.numbered.distinct j k id hj hown, hnot] at hentering
        cases hentering
      refine ⟨hgone, (Client.outcome_of_not_mem hgone).imp_right ?_⟩
      rintro ⟨r, hr⟩
      exact ⟨r, hr, hsound.tracked.arrived id r hr⟩

/-- One request waits and a second caller has seen an open stream when the stream ends; then the
second caller makes its request. -/
def enteredLate : System :=
  let seen := (({} : System).request 0).move 1 .entered
  ({ seen with client := seen.client.markClosed, reader := .closing } : System).cleared.request 1

theorem reaches_enteredLate : Reaches {} enteredLate := by
  have hfirst : Reaches {} (({} : System).request 0) := reaches_request rfl rfl
  have hseen := hfirst.tail (.enter (k := 1) rfl rfl)
  have hended := (hseen.tail (.close rfl)).tail (.clear rfl)
  exact hended.trans (reaches_request_of_entered (k := 1) rfl)

/-- A request waits, the reader has met a header that asks for too much, and the peer has hung up.
-/
def stuckAtEnd : Connection Unit where
  peer := { state := (), react := fun _ _ => { state := () } }
  client :=
    { pending := [.number 1]
      unread := Frame.bytesOf "Content-Length: 18446744073709551615\r\n\r\n" }
  listening := false

/-- A connection to a peer that sends such a header and hangs up, as its answer to a request. -/
def toStuckPeer : Connection Script where
  peer := Script.peer { actions := [("m", [{ raw := stuckAtEnd.client.unread, hangsUp := true }])] }

def timeout? : Except SessionError Json → Option Nat
  | .error (.timeout milliseconds) => some milliseconds
  | _ => none

theorem stuck_facts :
    stuckAtEnd.client.isStuck ∧ (Frame.readOpen? stuckAtEnd.client.unread).isNone ∧
      (toStuckPeer.call 250 "m" none).2.listening = false ∧
      timeout? (toStuckPeer.call 250 "m" none).1 = some 250 := by
  decide +kernel

/-- The first caller was not entering when the list was cleared, and the second one was; and a
request to a reader that is stuck waits until its time is up. -/
theorem left_waiting_iff_entering_second :
    (enteredLate.callers 0 = .waiting (.number 1) ∧ enteredLate.callers 1 = .waiting (.number 2) ∧
      ∃ s₀, Reaches {} s₀ ∧ s₀.reader = .closing ∧ Reaches s₀.cleared enteredLate ∧
        (s₀.callers 0).isEntering = false ∧ (s₀.callers 1).isEntering = true) ∧
    stuckAtEnd.settle.client.outcome (.number 1) = .timedOut := by
  obtain ⟨⟨s₀, h₀, hclosing, hreaches, -, hwaiting⟩, hsettle⟩ :=
    left_waiting_iff_entering reaches_enteredLate rfl
  constructor
  · have hfew : enteredLate.issued < 2 ^ 63 := by decide
    refine ⟨rfl, rfl, s₀, h₀, hclosing, hreaches, ?_, ?_⟩
    · refine eq_false_of_ne_true fun hentering => ?_
      have hlisted := ((hwaiting hfew 0 (.number 1) rfl).1 hentering).1
      exact absurd hlisted (by decide)
    · refine Bool.of_not_eq_false fun hnot => ?_
      exact ((hwaiting hfew 1 (.number 2) rfl).2 hnot).1 (by decide)
  · obtain ⟨hstuck, hread, -⟩ := stuck_facts
    have houtcome := hsettle Unit stuckAtEnd (.number 1) rfl rfl rfl
      (Option.isNone_iff_eq_none.1 hread) mem_cons_self fun _ => not_mem_nil
    rwa [if_pos hstuck] at houtcome

/-- **A request outlives the stream**: the reader has ended and cleared the list, and a caller waits
with its request in the list, so that nothing but its time ends the wait; and a peer that hangs up
behind a header that asks for too much leaves its caller to its time. -/
theorem request_outlives_stream :
    (∃ s, Reaches {} s ∧ s.reader = .ended ∧ s.callers 1 = .waiting (.number 2) ∧
      s.client.pending = [.number 2] ∧ s.client.outcome (.number 2) = .timedOut) ∧
    (toStuckPeer.call 250 "m" none).2.listening = false ∧
      timeout? (toStuckPeer.call 250 "m" none).1 = some 250 :=
  ⟨⟨enteredLate, reaches_enteredLate, rfl, rfl, rfl, rfl⟩, stuck_facts.2.2⟩

end System

end RouteAtlas.Rpc
