import Mathlib.Algebra.Group.Nat.Defs
import Mathlib.Data.List.Nodup
import RouteAtlas.Proofs.CallerSteps

/-!
# Replies are paired by number

Whatever the order of the steps of callers and reader, as long as the numbers of requests have not
wrapped around, a caller that receives a response receives the one to its own request, and no
response is received twice. Three invariants of a step carry this, `Numbered`,
`Tracked` and `Settled`.
-/

open List

namespace RouteAtlas.Rpc.System

open Client

variable {s s' : System}

/-! ## The numbers of requests -/

/-- The numbers of requests are those up to the count of requests, each given once. -/
structure Numbered (s : System) : Prop where
  next : s.client.nextId = Int64.ofNat (s.issued + 1)
  range : ∀ k id, (s.callers k).id? = some id → ∃ n : Nat, n ≤ s.issued ∧ id = .number n
  distinct : ∀ j k id, (s.callers j).id? = some id → (s.callers k).id? = some id → j = k

theorem Numbered.takeId (h : Numbered s) (hfew : s.issued + 1 < 2 ^ 63) :
    s.client.takeId.1 = .number (s.issued + 1 : Nat) := by
  simp only [Client.takeId, h.next]
  rw [Int64.toInt_ofNat_of_lt hfew]

theorem Numbered.step (h : Numbered s) (hstep : Step s s') (hfew : s'.issued < 2 ^ 63) :
    Numbered s' := by
  obtain ⟨hid, hissued, hnext⟩ | ⟨k, hcaller, rfl⟩ := hstep.id?_eq
  · refine ⟨by rw [hnext, hissued, h.next], ?_, ?_⟩
    · intro j id hj
      rw [hissued]
      exact h.range j id (hid j ▸ hj)
    · intro i j id hi hj
      exact h.distinct i j id (hid i ▸ hi) (hid j ▸ hj)
  · have htaken := h.takeId hfew
    -- the new number is above all numbers that were given before
    have hfresh : ∀ j, (s.callers j).id? ≠ some s.client.takeId.1 := by
      intro j hj
      obtain ⟨n, hn, hid⟩ := h.range j _ hj
      rw [htaken] at hid
      injection hid with hid
      omega
    have hother : ∀ j id, j ≠ k →
        ((s.move k (.numbered s.client.takeId.1)).callers j).id? = some id →
          (s.callers j).id? = some id := by
      intro j id hj hjd
      rwa [callers_move_of_ne hj] at hjd
    have hself : ∀ id, ((s.move k (.numbered s.client.takeId.1)).callers k).id? = some id →
        id = s.client.takeId.1 := by
      intro id hk
      rw [callers_move] at hk
      exact (Option.some.inj hk).symm
    refine ⟨?_, ?_, ?_⟩
    · show s.client.nextId + 1 = Int64.ofNat (s.issued + 1 + 1)
      rw [h.next, Int64.ofNat_add (s.issued + 1)]
      rfl
    · intro j id hj
      by_cases hjk : j = k
      · subst hjk
        exact ⟨s.issued + 1, Nat.le_refl _, by rw [hself id hj, htaken]⟩
      · obtain ⟨n, hn, hid⟩ := h.range j id (hother j id hjk hj)
        exact ⟨n, Nat.le_succ_of_le hn, hid⟩
    · intro i j id hi hj
      by_cases hik : i = k <;> by_cases hjk : j = k
      · rw [hik, hjk]
      · subst hik
        exact absurd (hself id hi ▸ hother j id hjk hj) (hfresh j)
      · subst hjk
        exact absurd (hself id hj ▸ hother i id hik hi) (hfresh i)
      · exact h.distinct i j id (hother i id hik hi) (hother j id hjk hj)

/-! ## Requests in the list and answers -/

/-- The answer to a request is a response that arrived, at the place that is noted for it. -/
def AnsweredBy (s : System) (id : RequestId) (r : Response) : Prop :=
  ∃ n value, s.placed id = some n ∧ s.arrived[n]? = some value ∧ response? value = some r

/-- The requests in the list and the answers belong to callers, and the answers arrived. -/
structure Tracked (s : System) : Prop where
  listed : ∀ id ∈ s.client.pending, ∃ k, (s.callers k).id? = some id ∧ (s.callers k).isPending
  answered : ∀ id r, (id, r) ∈ s.client.answers → r.id = id ∧ id ∉ s.client.pending ∧
    ∃ k, (s.callers k).id? = some id ∧ (s.callers k).wasEnlisted
  arrived : ∀ id r, s.client.outcome id = .response r → AnsweredBy s id r

/-- A step of one caller that only takes requests off the list keeps track, provided that the
caller's own request is in the list only while the caller has no outcome. -/
theorem Tracked.of_move (h : Tracked s) {k : Nat} {c : Caller}
    (hcallers : s'.callers = (s.move k c).callers)
    (hid : ∀ id, (s.callers k).id? = some id → c.id? = some id)
    (hwas : (s.callers k).wasEnlisted → c.wasEnlisted)
    (hpending : ∀ id ∈ s'.client.pending, id ∈ s.client.pending ∧
      ((s.callers k).id? = some id → c.isPending))
    (hanswers : s'.client.answers = s.client.answers)
    (harrived : s'.arrived = s.arrived) (hplaced : s'.placed = s.placed) : Tracked s' := by
  have hself : s'.callers k = c := by rw [hcallers, callers_move]
  have hothers : ∀ j, j ≠ k → s'.callers j = s.callers j := fun j hj => by
    rw [hcallers, callers_move_of_ne hj]
  have hkeep : ∀ j id, (s.callers j).id? = some id → (s'.callers j).id? = some id := by
    intro j id hj
    by_cases hjk : j = k
    · subst hjk
      rw [hself, hid id hj]
    · rwa [hothers j hjk]
  refine ⟨?_, ?_, ?_⟩
  · intro id hmem
    obtain ⟨hmem, hown⟩ := hpending id hmem
    obtain ⟨j, hj, hlisted⟩ := h.listed id hmem
    refine ⟨j, hkeep j id hj, ?_⟩
    by_cases hjk : j = k
    · subst hjk
      rw [hself, hown hj]
    · rwa [hothers j hjk]
  · intro id r hmem
    rw [hanswers] at hmem
    obtain ⟨hr, hnot, j, hj, henlisted⟩ := h.answered id r hmem
    refine ⟨hr, fun hmem => hnot (hpending id hmem).1, j, hkeep j id hj, ?_⟩
    by_cases hjk : j = k
    · subst hjk
      rw [hself, hwas henlisted]
    · rwa [hothers j hjk]
  · intro id r houtcome
    unfold AnsweredBy
    rw [harrived, hplaced]
    exact h.arrived id r (outcome_response_congr hanswers houtcome)

theorem Tracked.not_mem_pending (h : Tracked s) {id : RequestId} {r : Response}
    (houtcome : s.client.outcome id = .response r) : id ∉ s.client.pending :=
  (h.answered id r (outcome_eq_response houtcome)).2.1

theorem Tracked.of_end (h : Tracked s) {k : Nat} {id : RequestId}
    (hid : (s.callers k).id? = some id)
    (hcallers : s'.callers = (s.move k (.ended (some id))).callers)
    (hpending : ∀ other ∈ s'.client.pending, other ∈ s.client.pending ∧ other ≠ id)
    (hanswers : s'.client.answers = s.client.answers)
    (harrived : s'.arrived = s.arrived) (hplaced : s'.placed = s.placed) : Tracked s' := by
  refine h.of_move hcallers (fun other hother => hid.symm.trans hother) (fun _ => rfl) ?_ hanswers
    harrived hplaced
  intro other hother
  obtain ⟨hother, hne⟩ := hpending other hother
  exact ⟨hother, fun hk => absurd (Option.some.inj (hk.symm.trans hid)) hne⟩

theorem Tracked.enlist (h : Tracked s) (hnumbered : Numbered s) {k : Nat} {id : RequestId}
    (hcaller : s.callers k = .numbered id) :
    Tracked { s.move k (.enlisted id) with client := s.client.enlist id } := by
  have hown : (s.callers k).id? = some id := by rw [hcaller]; rfl
  have hkeep : ∀ j, (s.callers j).wasEnlisted →
      (s.move k (.enlisted id)).callers j = s.callers j := by
    intro j hj
    refine callers_move_of_ne ?_ s _
    rintro rfl
    rw [hcaller] at hj
    cases hj
  refine ⟨?_, ?_, ?_⟩
  · intro other hother
    rcases mem_append.1 hother with hother | hother
    · obtain ⟨j, hj, hlisted⟩ := h.listed other hother
      have hwas : (s.callers j).wasEnlisted := Caller.wasEnlisted_of_isPending hlisted
      exact ⟨j, by rw [hkeep j hwas, hj], by rw [hkeep j hwas, hlisted]⟩
    · rw [mem_singleton.1 hother]
      exact ⟨k, by rw [callers_move]; rfl, by rw [callers_move]; rfl⟩
  · intro other r hmem
    obtain ⟨hr, hnot, j, hj, hwas⟩ := h.answered other r hmem
    refine ⟨hr, ?_, j, ?_, ?_⟩
    · intro hother
      rcases mem_append.1 hother with hother | hother
      · exact hnot hother
      -- the request that is entered has no answer: its caller had not entered it before
      · rw [mem_singleton.1 hother] at hj
        rw [hnumbered.distinct j k id hj hown, hcaller] at hwas
        cases hwas
    · rw [hkeep j hwas, hj]
    · rw [hkeep j hwas, hwas]
  · intro other r houtcome
    have hanswers : (s.client.enlist id).answers = s.client.answers := rfl
    exact h.arrived other r (outcome_response_congr hanswers houtcome)

theorem AnsweredBy.arrive {id : RequestId} {r : Response} {value : Json}
    (h : AnsweredBy s id r) (hplaced : (s.arrive value).placed id = s.placed id) :
    AnsweredBy (s.arrive value) id r := by
  obtain ⟨n, v, hn, hv, hr⟩ := h
  refine ⟨n, v, hplaced.trans hn, ?_, hr⟩
  obtain ⟨hlt, -⟩ := List.getElem?_eq_some_iff.1 hv
  exact (getElem?_append_left hlt).trans hv

/-- A value that is no answer to a request in the list leaves the answer to it where it is. -/
theorem Tracked.arrived_of_other (h : Tracked s) {value : Json} {id : RequestId} {r : Response}
    (hother : ∀ r', response? value = some r' → r'.id = id → id ∉ s.client.pending)
    (houtcome : (s.arrive value).client.outcome id = .response r) :
    AnsweredBy (s.arrive value) id r := by
  have hsame : s.client.outcome id = .response r :=
    (outcome_arrive hother).symm.trans houtcome
  refine (h.arrived id r hsame).arrive (if_neg ?_)
  rintro ⟨hid, hpending⟩
  obtain ⟨r', hr, hrid⟩ := Option.map_eq_some_iff.1 hid
  exact hother r' hr hrid hpending

theorem Tracked.arrive (h : Tracked s) (value : Json) : Tracked (s.arrive value) := by
  obtain ⟨r, hr, hmem, harrive⟩ | ⟨hnone, hpending, hanswers, -⟩ := s.client.arrive_cases value
  · have hclient : (s.arrive value).client =
      { s.client with
        pending := (s.client.forget r.id).pending, answers := (r.id, r) :: s.client.answers } :=
      harrive
    refine ⟨?_, ?_, ?_⟩
    · intro id hid
      rw [hclient] at hid
      exact h.listed id (mem_pending_forget.1 hid).1
    · intro id r' hr'
      rw [hclient] at hr' ⊢
      rcases mem_cons.1 hr' with heq | hold
      · cases heq
        obtain ⟨k, hk, hlisted⟩ := h.listed r.id hmem
        exact ⟨rfl, fun hin => (mem_pending_forget.1 hin).2 rfl, k, hk,
          Caller.wasEnlisted_of_isPending hlisted⟩
      · obtain ⟨hid, hnot, hcaller⟩ := h.answered id r' hold
        exact ⟨hid, fun hin => hnot (mem_pending_forget.1 hin).1, hcaller⟩
    · intro id r' houtcome
      by_cases hid : r.id = id
      · subst hid
        rw [hclient, outcome_answered] at houtcome
        cases houtcome
        refine ⟨s.arrived.length, value, if_pos ⟨by rw [hr]; rfl, hmem⟩, ?_, hr⟩
        exact getElem?_concat_length
      · refine h.arrived_of_other ?_ houtcome
        intro other hother hid'
        cases hr.symm.trans hother
        exact absurd hid' hid
  · refine ⟨?_, ?_, ?_⟩
    · intro id hid
      exact h.listed id (hpending ▸ hid)
    · intro id r hr
      show r.id = id ∧ id ∉ (s.client.arrive value).1.pending ∧ _
      rw [hpending]
      exact h.answered id r (hanswers ▸ hr)
    · intro id r houtcome
      exact h.arrived_of_other (fun other hother hid => hid ▸ hnone other hother) houtcome

theorem Tracked.step (h : Tracked s) (hnumbered : Numbered s) (hstep : Step s s') : Tracked s' := by
  cases hstep with
  | enter hcaller | refuse hcaller | takeId hcaller =>
    refine h.of_move rfl ?_ ?_ ?_ rfl rfl rfl
    · intro id hid
      rw [hcaller] at hid
      cases hid
    · intro hwas
      rw [hcaller] at hwas
      cases hwas
    · intro id hmem
      refine ⟨hmem, fun hid => ?_⟩
      rw [hcaller] at hid
      cases hid
  | enlist hcaller => exact h.enlist hnumbered hcaller
  | write hcaller | failToWrite hcaller | expire hcaller =>
    refine h.of_move rfl ?_ (fun _ => rfl) (fun _ hmem => ⟨hmem, fun _ => rfl⟩) rfl rfl rfl
    intro other hother
    rw [hcaller] at hother
    exact hother
  | withdraw hcaller | leave hcaller =>
    exact h.of_end (by rw [hcaller]; rfl) rfl (fun _ => mem_pending_forget.1) rfl rfl rfl
  | take hcaller houtcome =>
    refine h.of_end (by rw [hcaller]; rfl) rfl ?_ rfl rfl rfl
    exact fun other hmem => ⟨hmem, fun heq => h.not_mem_pending houtcome (heq ▸ hmem)⟩
  | wake hcaller houtcome =>
    refine h.of_end (by rw [hcaller]; rfl) rfl ?_ rfl rfl rfl
    exact fun other hmem => ⟨hmem, fun heq =>
      not_mem_pending_of_closed houtcome (heq ▸ hmem)⟩
  | arrive => exact h.arrive _
  | close => exact ⟨h.listed, h.answered, fun id r => h.arrived id r⟩
  | clear =>
    refine ⟨fun id hmem => absurd hmem not_mem_nil, ?_, ?_⟩
    · intro id r hmem
      obtain ⟨hid, -, hcaller⟩ := h.answered id r hmem
      exact ⟨hid, not_mem_nil, hcaller⟩
    · intro id r houtcome
      have hanswers : s.client.dropPending.answers = s.client.answers := rfl
      exact h.arrived id r (outcome_response_congr hanswers houtcome)

/-! ## What callers received -/

/-- Callers receive something as they end, once, and a response only with their own number. -/
structure Settled (s : System) : Prop where
  nodup : (s.received.map Prod.fst).Nodup
  ended : ∀ k receipt, (k, receipt) ∈ s.received → ∃ id?, s.callers k = .ended id?
  response : ∀ k r place, (k, Receipt.response r place) ∈ s.received →
    (s.callers k).id? = some r.id ∧
      ∃ n value, place = some n ∧ s.arrived[n]? = some value ∧ response? value = some r

theorem Settled.of_received_eq (h : Settled s) (hreceived : s'.received = s.received)
    (hcallers : ∀ k id?, s.callers k = .ended id? → s'.callers k = .ended id?)
    (harrived : ∀ (n : Nat) value, s.arrived[n]? = some value → s'.arrived[n]? = some value) :
    Settled s' := by
  refine ⟨hreceived ▸ h.nodup, ?_, ?_⟩
  · intro k receipt hmem
    obtain ⟨id?, hended⟩ := h.ended k receipt (hreceived ▸ hmem)
    exact ⟨id?, hcallers k id? hended⟩
  · intro k r place hmem
    obtain ⟨hid, n, value, hplace, hvalue, hr⟩ := h.response k r place (hreceived ▸ hmem)
    obtain ⟨id?, hended⟩ := h.ended k _ (hreceived ▸ hmem)
    refine ⟨?_, n, value, hplace, harrived n value hvalue, hr⟩
    rw [hcallers k id? hended, ← hended, hid]

theorem Settled.of_move (h : Settled s) {k : Nat} {c : Caller}
    (hrunning : ∀ id?, s.callers k ≠ .ended id?) (hcallers : s'.callers = (s.move k c).callers)
    (hreceived : s'.received = s.received) (harrived : s'.arrived = s.arrived) : Settled s' := by
  refine h.of_received_eq hreceived ?_ (fun n value => by rw [harrived]; exact id)
  intro j id? hj
  have hne : j ≠ k := fun heq => hrunning id? (heq ▸ hj)
  rw [hcallers, callers_move_of_ne hne, hj]

theorem Settled.of_finish (h : Settled s) {k : Nat} {id? : Option RequestId} {receipt : Receipt}
    (hrunning : ∀ id?, s.callers k ≠ .ended id?)
    (hcallers : s'.callers = (s.move k (.ended id?)).callers)
    (hreceived : s'.received = s.received ++ [(k, receipt)]) (harrived : s'.arrived = s.arrived)
    (hresponse : ∀ r place, receipt = .response r place → id? = some r.id ∧
      ∃ n value, place = some n ∧ s.arrived[n]? = some value ∧ response? value = some r) :
    Settled s' := by
  have hne : ∀ j receipt', (j, receipt') ∈ s.received → j ≠ k := by
    rintro j receipt' hmem rfl
    obtain ⟨id?, hended⟩ := h.ended j receipt' hmem
    exact hrunning id? hended
  refine ⟨?_, ?_, ?_⟩
  · rw [hreceived, map_append, nodup_append]
    refine ⟨h.nodup, nodup_singleton _, ?_⟩
    intro j hj i hi
    obtain ⟨⟨j, receipt'⟩, hmem, rfl⟩ := mem_map.1 hj
    rw [mem_singleton.1 hi]
    exact hne j receipt' hmem
  · intro j receipt' hmem
    rw [hreceived] at hmem
    rcases mem_append.1 hmem with hold | hnew
    · rw [hcallers, callers_move_of_ne (hne j receipt' hold)]
      exact h.ended j receipt' hold
    · cases mem_singleton.1 hnew
      exact ⟨id?, by rw [hcallers, callers_move]⟩
  · intro j r place hmem
    rw [hreceived] at hmem
    rw [harrived, hcallers]
    rcases mem_append.1 hmem with hold | hnew
    · rw [callers_move_of_ne (hne j _ hold)]
      exact h.response j r place hold
    · cases mem_singleton.1 hnew
      rw [callers_move]
      exact hresponse r place rfl

theorem Settled.step (h : Settled s) (htracked : Tracked s) (hstep : Step s s') : Settled s' := by
  cases hstep with
  | enter hcaller | takeId hcaller | enlist hcaller | write hcaller | failToWrite hcaller
  | expire hcaller =>
    refine h.of_move ?_ rfl rfl rfl
    intro id? hended
    cases hcaller.symm.trans hended
  | refuse hcaller | withdraw hcaller | wake hcaller | leave hcaller =>
    refine h.of_finish ?_ rfl rfl rfl ?_
    · intro id? hended
      cases hcaller.symm.trans hended
    · rintro r place ⟨⟩
  | @take k id r hcaller houtcome =>
    refine h.of_finish ?_ rfl rfl rfl ?_
    · intro id? hended
      cases hcaller.symm.trans hended
    · rintro r' place ⟨⟩
      obtain ⟨hid, -⟩ := htracked.answered id r (outcome_eq_response houtcome)
      exact ⟨congrArg some hid.symm, htracked.arrived id r houtcome⟩
  | arrive =>
    refine h.of_received_eq rfl (fun k id? => id) ?_
    intro n value hvalue
    obtain ⟨hlt, -⟩ := List.getElem?_eq_some_iff.1 hvalue
    exact (getElem?_append_left hlt).trans hvalue
  | close | clear => exact h.of_received_eq rfl (fun k id? => id) (fun n value => id)

/-! ## Every state that is reached -/

/-- What every step keeps. -/
structure Sound (s : System) : Prop where
  numbered : Numbered s
  tracked : Tracked s
  settled : Settled s

theorem Sound.init : Sound {} where
  numbered := ⟨rfl, by rintro k id ⟨⟩, by rintro j k id ⟨⟩⟩
  tracked := ⟨by rintro id ⟨⟩, by rintro id r ⟨⟩, by rintro id r ⟨⟩⟩
  settled := ⟨nodup_nil, by rintro k receipt ⟨⟩, by rintro k r place ⟨⟩⟩

theorem Sound.step (h : Sound s) (hstep : Step s s') (hfew : s'.issued < 2 ^ 63) : Sound s' where
  numbered := h.numbered.step hstep hfew
  tracked := h.tracked.step h.numbered hstep
  settled := h.settled.step h.tracked hstep

/-- The invariants hold until the numbers wrap around. -/
theorem Sound.of_reaches (h : Reaches {} s) (hfew : s.issued < 2 ^ 63) : Sound s := by
  induction h with
  | refl => exact Sound.init
  | tail _ hstep ih => exact (ih (Nat.lt_of_le_of_lt hstep.issued_le hfew)).step hstep hfew

/-- A value that is not the answer to a request of a caller who still waits for one. -/
inductive Stray (s : System) (value : Json) : Prop
  /-- A response with a number that no request has. -/
  | unknown {r} (hr : response? value = some r) (hid : ∀ k, (s.callers k).id? ≠ some r.id)
  | repeated {r first} (hr : response? value = some r)
    (hfirst : s.client.outcome r.id = .response first)
  | late {r k} (hr : response? value = some r) (hid : (s.callers k).id? = some r.id)
    (hlate : s.callers k = .expired r.id ∨ (k, Receipt.timedOut) ∈ s.received)
  | notification {method params}
    (hvalue : Incoming.ofJson? value = some (.notification method params))
  | request {id method params} (hvalue : Incoming.ofJson? value = some (.request id method params))
  | other (hvalue : Incoming.ofJson? value = none)

theorem Sound.outcome_arrive (h : Sound s) {value : Json} (hstray : Stray s value) {k : Nat}
    {id : RequestId} (hcaller : s.callers k = .waiting id) :
    (s.arrive value).client.outcome id = s.client.outcome id := by
  have hown : (s.callers k).id? = some id := by rw [hcaller]; rfl
  refine Client.outcome_arrive fun r hr hid => ?_
  cases hstray with
  | unknown hr' hnone =>
    cases hr'.symm.trans hr
    exact absurd (hid ▸ hown) (hnone k)
  | repeated hr' hfirst =>
    cases hr'.symm.trans hr
    exact hid ▸ h.tracked.not_mem_pending hfirst
  | @late r' j hr' hj hlate =>
    cases hr'.symm.trans hr
    -- the request of the late response would be that of the caller who waits
    have hjk : j = k := h.numbered.distinct j k id (hid ▸ hj) hown
    subst hjk
    rcases hlate with hexpired | hmem
    · cases hcaller.symm.trans hexpired
    · obtain ⟨id?, hended⟩ := h.settled.ended j _ hmem
      cases hcaller.symm.trans hended
  | notification hvalue | request hvalue | other hvalue =>
    rw [response?, hvalue] at hr
    cases hr

/-- In every state that is reached before the numbers wrap around: no two requests have one
number; a caller receives at most one outcome; a response that a caller receives has the number of
the caller's request, is one of the values that arrived, and is received by no other caller; and
strays change the outcome of no caller who waits. -/
theorem replies_paired {s : System} (h : Reaches {} s) (hfew : s.issued < 2 ^ 63) :
    (∀ j k id, (s.callers j).id? = some id → (s.callers k).id? = some id → j = k) ∧
    (s.received.map Prod.fst).Nodup ∧
    (∀ k r place, (k, Receipt.response r place) ∈ s.received → (s.callers k).id? = some r.id ∧
      ∃ n value, place = some n ∧ s.arrived[n]? = some value ∧ response? value = some r) ∧
    (∀ j k r r' place, (j, Receipt.response r place) ∈ s.received →
      (k, Receipt.response r' place) ∈ s.received → j = k) ∧
    ∀ value, Stray s value → ∀ k id, s.callers k = .waiting id →
      (s.arrive value).client.outcome id = s.client.outcome id := by
  have hsound := Sound.of_reaches h hfew
  refine ⟨hsound.numbered.distinct, hsound.settled.nodup, hsound.settled.response, ?_, ?_⟩
  · intro j k r r' place hj hk
    obtain ⟨hidj, n, value, hplace, hvalue, hr⟩ := hsound.settled.response j r place hj
    obtain ⟨hidk, n', value', hplace', hvalue', hr'⟩ := hsound.settled.response k r' place hk
    -- one place holds one value, and this value is one response
    cases hplace.symm.trans hplace'
    cases hvalue.symm.trans hvalue'
    cases hr.symm.trans hr'
    exact hsound.numbered.distinct j k r.id hidj hidk
  · intro value hstray k id hcaller
    exact hsound.outcome_arrive hstray hcaller

def emptyReply (n : Int) : Json := .object [("id", .integer n)]

/-- Two requests were made and only the second was answered: its caller has the response, and the
other waits. -/
def secondAnswered : System :=
  (((({} : System).request 0).request 1).arrive (emptyReply 2)).finish 1 (some (.number 2))
    (.response ⟨.number 2, .null, none⟩ (some 0))

theorem reaches_secondAnswered : Reaches {} secondAnswered := by
  have hfirst : Reaches {} (({} : System).request 0) := reaches_request rfl rfl
  have hsecond := hfirst.trans (reaches_request (k := 1) rfl rfl)
  have harrive : Reaches {} (((({} : System).request 0).request 1).arrive (emptyReply 2)) :=
    hsecond.tail (.arrive rfl)
  exact harrive.tail (.take rfl rfl)

/-- The answer to the second request comes before that to the first, and comes twice. -/
theorem replies_paired_repeated :
    secondAnswered.callers 0 = .waiting (.number 1) ∧
    (secondAnswered.received.map Prod.fst).Nodup ∧
    (secondAnswered.callers 1).id? = some (.number 2) ∧
    (secondAnswered.arrive (emptyReply 2)).client.outcome (.number 1) = .timedOut := by
  obtain ⟨-, hnodup, hresponse, -, hstray⟩ := replies_paired reaches_secondAnswered (by decide)
  have hrepeated : Stray secondAnswered (emptyReply 2) := .repeated rfl rfl
  exact ⟨rfl, hnodup, (hresponse 1 _ _ (mem_singleton.2 rfl)).1,
    hstray _ hrepeated 0 (.number 1) rfl⟩

end RouteAtlas.Rpc.System
