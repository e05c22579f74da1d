import Mathlib.Data.List.Nodup
import RouteAtlas.Proofs.CallerSteps
import RouteAtlas.Proofs.SessionMessages

/-!
# Files are opened once, before questions about them

A question about a place in a file tells the server about the file first, unless the server knows
of it. `InOrder` is what this comes to for the messages of a session: every file is announced once,
and before every question about it.

One call after the other keeps this order, whatever the peer does (`Session.asked_inquireAll`).
Callers that ask together keep it too. One of them at a time has the list of opened files: it looks
whether its file is in there, reads the file, announces it and notes it in the list, and gives the
list back. Only then does it make its request, by the steps of `System`. `Desk.Step` is one step of
any caller or of the reader of the stream, and the steps interleave in any order.

Results:
* `Orderly.step`, `Orderly.of_reaches`: the order is kept by every step, and so by every run.
* `opened_once_before_asked`: files are announced once, before any question about them.
-/

open List

namespace RouteAtlas.Rpc

open Files Source Connection

/-! ## Questions and their messages -/

/-- A question about a place in a file: where the name there is defined, or where it is used. -/
structure Inquiry where
  path : Path
  place : Position
  uses : Bool

namespace Inquiry

variable (i : Inquiry)

def method : String :=
  if i.uses then "textDocument/references" else "textDocument/definition"

def params (uri : String) : List (String × Json) :=
  placeParams uri i.place ++
    if i.uses then [("context", .object [("includeDeclaration", .bool false)])] else []

def message (id : RequestId) : Outgoing :=
  .request id i.method (some (.object (i.params i.path.uri)))

def call : Call :=
  if i.uses then .references i.path i.place else .definition i.path i.place

end Inquiry

/-- The file that the parameters of a message speak of. -/
def documentUri? (params : Json) : Option String :=
  (params.get? "textDocument").bind (Json.stringAt? "uri")

namespace Outgoing

def openedUri? : Outgoing → Option String
  | .notification method params =>
    if method = "textDocument/didOpen" then params.bind documentUri? else none
  | .request .. | .reply _ => none

def askedUri? : Outgoing → Option String
  | .request _ method params =>
    if method = "textDocument/definition" ∨ method = "textDocument/references" then
      params.bind documentUri?
    else none
  | .notification .. | .reply _ => none

end Outgoing

def openedUris (written : List Outgoing) : List String := written.filterMap Outgoing.openedUri?

theorem askedUri?_message (i : Inquiry) (id : RequestId) :
    (i.message id).askedUri? = some i.path.uri := by
  obtain ⟨path, place, uses⟩ := i
  cases uses <;> rfl

/-! ## The order of messages -/

/-- The messages of a session that knows which files it opened: they announce these files, each of
them once, and a question about a file stands behind its announcement. -/
structure InOrder (written : List Outgoing) (opened : List String) : Prop where
  announced : openedUris written = opened.reverse
  once : opened.Nodup
  before : ∀ front m back uri, written = front ++ m :: back → m.askedUri? = some uri →
    uri ∈ openedUris front

namespace InOrder

variable {written : List Outgoing} {opened : List String}

theorem nil : InOrder [] [] where
  announced := rfl
  once := nodup_nil
  before front m back _ hsplit _ := by
    exact absurd hsplit.symm (append_ne_nil_of_right_ne_nil _ (cons_ne_nil _ _))

theorem before_concat (h : InOrder written opened) {m : Outgoing}
    (hm : ∀ uri, m.askedUri? = some uri → uri ∈ opened) :
    ∀ front m' back uri, written ++ [m] = front ++ m' :: back → m'.askedUri? = some uri →
      uri ∈ openedUris front := by
  intro front m' back uri hsplit hasked
  rcases eq_nil_or_concat back with rfl | ⟨back', last, rfl⟩
  · obtain ⟨rfl, hlast⟩ := append_inj' hsplit rfl
    cases hlast
    rw [h.announced]
    exact mem_reverse.2 (hm uri hasked)
  · rw [concat_eq_append, ← cons_append, ← append_assoc] at hsplit
    obtain ⟨hfront, -⟩ := append_inj' hsplit rfl
    exact h.before front m' back' uri hfront hasked

theorem announce (h : InOrder written opened) {path : Path} (hnew : path.uri ∉ opened)
    (text : String) : InOrder (written ++ [openMessage path text]) (path.uri :: opened) where
  announced := by
    have hsplit : openedUris (written ++ [openMessage path text]) =
        openedUris written ++ [path.uri] := filterMap_append
    rw [hsplit, h.announced, reverse_cons]
  once := nodup_cons.2 ⟨hnew, h.once⟩
  before := h.before_concat fun uri hasked => by
    cases hasked

theorem ask (h : InOrder written opened) {i : Inquiry} (hopened : i.path.uri ∈ opened)
    (id : RequestId) : InOrder (written ++ [i.message id]) opened where
  announced := by
    have hsplit : openedUris (written ++ [i.message id]) = openedUris written ++ [] :=
      filterMap_append
    rw [hsplit, append_nil, h.announced]
  once := h.once
  before := h.before_concat fun uri hasked => by
    rw [askedUri?_message] at hasked
    exact Option.some.inj hasked ▸ hopened

theorem nodup_openedUris (h : InOrder written opened) : (openedUris written).Nodup :=
  h.announced ▸ nodup_reverse.2 h.once

theorem count_eq_one (h : InOrder written opened) {uri : String} (huri : uri ∈ opened) :
    (openedUris written).count uri = 1 :=
  count_eq_one_of_mem h.nodup_openedUris (h.announced ▸ mem_reverse.2 huri)

end InOrder

/-- Each file is announced at most once, and exactly once in front of every question about it. -/
def OpensFirst (written : List Outgoing) : Prop :=
  (∀ uri, (openedUris written).count uri ≤ 1) ∧
    ∀ front m back uri, written = front ++ m :: back → m.askedUri? = some uri →
      (openedUris front).count uri = 1

theorem InOrder.opensFirst {written : List Outgoing} {opened : List String}
    (h : InOrder written opened) : OpensFirst written := by
  refine ⟨fun uri => nodup_iff_count_le_one.1 h.nodup_openedUris uri, ?_⟩
  intro front m back uri hsplit hasked
  have hfront : (openedUris front).Sublist (openedUris written) :=
    hsplit ▸ (sublist_append_left front _).filterMap _
  exact count_eq_one_of_mem (h.nodup_openedUris.sublist hfront)
    (h.before front m back uri hsplit hasked)

/-! ## One question after the other -/

namespace Session

variable {σ : Type} {s : Session σ} {t : Tree}

/-- The session after a question, with the files as they are then. -/
def inquire (s : Session σ) (t : Tree) (i : Inquiry) : Session σ := s.perform t i.call

def inquireAll (s : Session σ) (questions : List (Tree × Inquiry)) : Session σ :=
  questions.foldl (fun s question => s.inquire question.1 question.2) s

theorem inquire_eq (t : Tree) (i : Inquiry) :
    s.inquire t i = (s.locations t i.path i.method i.params).2 := by
  obtain ⟨path, place, uses⟩ := i
  cases uses
  · -- no context is sent along
    rfl
  · rfl

theorem own_request (method : String) (params : Json) :
    (s.request method params).2.own = s.own ++ if s.disposed || s.closed then []
      else [.request s.connection.client.takeId.1 method (some params)] := by
  unfold request
  by_cases hdisposed : s.disposed
  · simp [hdisposed]
  · simp only [hdisposed]
    exact own_call ..

theorem opened_request (s : Session σ) (method : String) (params : Json) :
    (s.request method params).2.opened = s.opened := by
  unfold request
  split <;> rfl

theorem inquire_cases (s : Session σ) (t : Tree) (i : Inquiry) :
    (s.inquire t i = s ∧ (t.text? i.path = none ∨ s.closed)) ∨
    i.path.uri ∈ (s.didOpen t i.path).2.opened ∧ s.inquire t i =
        ((s.didOpen t i.path).2.request i.method (.object (i.params i.path.uri))).2 := by
  rw [inquire_eq, locations]
  obtain ⟨hknown, hopen, -⟩ | ⟨hnew, hnone, e, hopen⟩ | ⟨-, -, text, -, -, hopen⟩ :=
    s.didOpen_cases t i.path
  · rw [hopen]
    exact .inr ⟨hknown, rfl⟩
  · rw [hopen]
    refine .inl ⟨rfl, ?_⟩
    unfold opening? at hnone
    by_cases hclosed : s.closed
    · exact .inr hclosed
    · simpa [hnew, hclosed] using hnone
  · rw [hopen]
    exact .inr ⟨mem_cons_self, rfl⟩

theorem disposed_request (method : String) (params : Json) :
    (s.request method params).2.disposed = s.disposed := by
  unfold request
  split <;> rfl

theorem request_of_closed (h : s.closed) (method : String) (params : Json) :
    (s.request method params).2.closed := by
  have hclient : s.connection.client.closed := h
  unfold request
  split
  · exact h
  · simp only [call, ask, hclient]
    exact h

/-- What questions do to a session, with the messages that they write. -/
structure Asked (s : Session σ) (questions : List (Tree × Inquiry)) (more : List Outgoing)
    (s' : Session σ) : Prop where
  own : s'.own = s.own ++ more
  inOrder : ∀ told, InOrder told s.opened → InOrder (told ++ more) s'.opened
  opened : s.opened ⊆ s'.opened
  disposed : s'.disposed = s.disposed
  closed : s.closed → s'.closed
  /-- While the stream stays open, questions about files that can be read open them, and they are
  asked unless the session is disposed. -/
  asked : (∀ question ∈ questions, question.1.text? question.2.path ≠ none) → s'.closed = false →
    ∀ question ∈ questions, question.2.path.uri ∈ s'.opened ∧
      (s.disposed = false → ∃ id, question.2.message id ∈ more)

theorem Asked.same {questions : List (Tree × Inquiry)}
    (h : ∀ question ∈ questions, question.1.text? question.2.path ≠ none → s.closed) :
    Asked s questions [] s where
  own := (append_nil _).symm
  inOrder told htold := (append_nil told).symm ▸ htold
  opened := List.Subset.refl _
  disposed := rfl
  closed hclosed := hclosed
  asked hread hopen question hquestion := by
    have hclosed := h question hquestion (hread question hquestion)
    rw [hopen] at hclosed
    cases hclosed

theorem Asked.append {s₁ s₂ s₃ : Session σ} {questions questions' : List (Tree × Inquiry)}
    {more more' : List Outgoing} (h : Asked s₁ questions more s₂)
    (h' : Asked s₂ questions' more' s₃) :
    Asked s₁ (questions ++ questions') (more ++ more') s₃ where
  own := by rw [h'.own, h.own, append_assoc]
  inOrder told htold := by
    rw [← append_assoc]
    exact h'.inOrder _ (h.inOrder told htold)
  opened := List.Subset.trans h.opened h'.opened
  disposed := h'.disposed.trans h.disposed
  closed := h'.closed ∘ h.closed
  asked hread hopen question hquestion := by
    have hbetween : s₂.closed = false :=
      Bool.eq_false_iff.2 (mt h'.closed (Bool.eq_false_iff.1 hopen))
    rcases mem_append.1 hquestion with hfirst | hsecond
    · obtain ⟨hopened, hasked⟩ := h.asked (fun q hq => hread q (mem_append_left _ hq))
        hbetween question hfirst
      refine ⟨h'.opened hopened, fun hdisposed => ?_⟩
      obtain ⟨id, hid⟩ := hasked hdisposed
      exact ⟨id, mem_append_left _ hid⟩
    · obtain ⟨hopened, hasked⟩ := h'.asked (fun q hq => hread q (mem_append_right _ hq))
        hopen question hsecond
      refine ⟨hopened, fun hdisposed => ?_⟩
      obtain ⟨id, hid⟩ := hasked (h.disposed.trans hdisposed)
      exact ⟨id, mem_append_right _ hid⟩

theorem asked_didOpen (s : Session σ) (t : Tree) (path : Path) :
    Asked s [] (s.opening? t path).toList (s.didOpen t path).2 := by
  obtain ⟨-, hopen, hnone⟩ | ⟨-, hnone, e, hopen⟩ | ⟨hnew, hclosed, text, -, hsome, hopen⟩ :=
    s.didOpen_cases t path
  · rw [hopen, hnone]
    exact .same fun _ hmem => absurd hmem not_mem_nil
  · rw [hopen, hnone]
    exact .same fun _ hmem => absurd hmem not_mem_nil
  have hown := s.own_didOpen t path
  rw [hopen, hsome] at hown ⊢
  exact {
    own := hown
    inOrder := fun told htold => htold.announce hnew text
    opened := subset_cons_self _ _
    disposed := rfl
    closed := fun hended => absurd (hended.symm.trans hclosed) Bool.noConfusion
    asked := fun _ _ _ hmem => absurd hmem not_mem_nil }

theorem asked_request {i : Inquiry} (hopened : i.path.uri ∈ s.opened) :
    ∃ more, Asked s [(t, i)] more (s.request i.method (.object (i.params i.path.uri))).2 := by
  refine ⟨_, own_request .., fun told htold => ?_, ?_, disposed_request .., ?_, ?_⟩
  · rw [opened_request]
    split
    · rw [append_nil]
      exact htold
    · exact htold.ask hopened _
  · rw [opened_request]
    exact List.Subset.refl _
  · exact fun hclosed => request_of_closed hclosed ..
  · intro _ hopen question hquestion
    rw [mem_singleton.1 hquestion]
    refine ⟨(s.opened_request ..).symm ▸ hopened,
      fun hdisposed => ⟨s.connection.client.takeId.1, ?_⟩⟩
    have hstill : s.closed = false :=
      Bool.eq_false_iff.2 (mt (request_of_closed · _ _) (Bool.eq_false_iff.1 hopen))
    rw [hdisposed, hstill]
    exact mem_singleton.2 rfl

/-- **What one question does.** -/
theorem asked_inquire (s : Session σ) (t : Tree) (i : Inquiry) :
    ∃ more, Asked s [(t, i)] more (s.inquire t i) := by
  obtain ⟨hsame, hwhy⟩ | ⟨hopened, hinquire⟩ := s.inquire_cases t i
  · rw [hsame]
    refine ⟨[], .same fun question hquestion hread => ?_⟩
    rw [mem_singleton.1 hquestion] at hread
    exact hwhy.resolve_left hread
  · rw [hinquire]
    obtain ⟨more, hmore⟩ := asked_request (t := t) hopened
    exact ⟨_, (s.asked_didOpen t i.path).append hmore⟩

/-- **What questions do that are asked one after the other.** -/
theorem asked_inquireAll (s : Session σ) (questions : List (Tree × Inquiry)) :
    ∃ more, Asked s questions more (s.inquireAll questions) := by
  induction questions generalizing s with
  | nil => exact ⟨[], .same fun _ hmem => absurd hmem not_mem_nil⟩
  | cons question questions ih =>
    obtain ⟨more, hmore⟩ := s.asked_inquire question.1 question.2
    obtain ⟨more', hmore'⟩ := ih (s.inquire question.1 question.2)
    exact ⟨more ++ more', hmore.append hmore'⟩

end Session

/-! ## Callers that ask together -/

/-- How far the caller that has the list of opened files has come. -/
inductive Opening where
  | looking
  /-- Its file is not in the list, and it has read the file. -/
  | read (text : String)
  | entered (text : String)
  | announced

/-- How far a caller has come with opening its file. -/
inductive Stage where
  | idle
  | opened
  | failed

/-- Callers that share a client and a list of opened files. -/
structure Desk where
  system : System := {}
  opened : List String := []
  /-- Who has the list of opened files; the others wait for it. -/
  turn : Option (Nat × Opening) := none
  stages : Nat → Stage := fun _ => .idle
  /-- All messages that were written, without answers to questions of the server. -/
  written : List Outgoing := []

namespace Desk

def hold (d : Desk) (k : Nat) (opening : Opening) : Desk := { d with turn := some (k, opening) }

def release (d : Desk) (k : Nat) (stage : Stage) : Desk :=
  { d with turn := none, stages := Function.update d.stages k stage }

/-- One step of a caller, of which each asks the question that is given for it, or of the reader. -/
inductive Step (q : Nat → Inquiry) (d : Desk) : Desk → Prop
  | take {k} (hfree : d.turn = none) (hstage : d.stages k = .idle) : Step q d (d.hold k .looking)
  | known {k} (hturn : d.turn = some (k, .looking)) (hknown : (q k).path.uri ∈ d.opened) :
    Step q d (d.release k .opened)
  /-- The server does not know of the file, and the file is read. -/
  | read {k text} (hturn : d.turn = some (k, .looking)) (hnew : (q k).path.uri ∉ d.opened) :
    Step q d (d.hold k (.read text))
  /-- The server does not know of the file, and the file cannot be read. -/
  | unreadable {k} (hturn : d.turn = some (k, .looking)) (hnew : (q k).path.uri ∉ d.opened) :
    Step q d (d.release k .failed)
  | enter {k text} (hturn : d.turn = some (k, .read text))
    (hopen : d.system.client.closed = false) : Step q d (d.hold k (.entered text))
  | refuse {k text} (hturn : d.turn = some (k, .read text))
    (hclosed : d.system.client.closed) : Step q d (d.release k .failed)
  | announce {k text} (hturn : d.turn = some (k, .entered text)) :
    Step q d { d.hold k .announced with written := d.written ++ [openMessage (q k).path text] }
  | failToAnnounce {k text} (hturn : d.turn = some (k, .entered text)) :
    Step q d (d.release k .failed)
  | note {k} (hturn : d.turn = some (k, .announced)) :
    Step q d { d.release k .opened with opened := (q k).path.uri :: d.opened }
  | ask {k id} (hcaller : d.system.callers k = .enlisted id) :
    Step q d { d with
      system := d.system.move k (.waiting id), written := d.written ++ [(q k).message id] }
  /-- Any other step of the system; a caller takes part once its file is open. -/
  | other {s} (hstep : System.Step d.system s)
    (hwaiting : ∀ j id, s.callers j = .waiting id → d.system.callers j = .waiting id)
    (hgate : ∀ j, d.stages j ≠ .opened → s.callers j = d.system.callers j) :
    Step q d { d with system := s }

abbrev Reaches (q : Nat → Inquiry) : Desk → Desk → Prop := Relation.ReflTransGen (Step q)

variable {q : Nat → Inquiry} {d d' : Desk}

/-- The files that were announced: one of them may still have to be noted. -/
def told (q : Nat → Inquiry) (d : Desk) : List String :=
  match d.turn with
  | some (k, .announced) => (q k).path.uri :: d.opened
  | _ => d.opened

/-- The file of the caller that has the list is new once the caller has looked. -/
def Fresh (q : Nat → Inquiry) (d : Desk) : Prop :=
  match d.turn with
  | some (k, .read _) | some (k, .entered _) => (q k).path.uri ∉ d.opened
  | _ => True

/-- What holds at every moment. -/
structure Orderly (q : Nat → Inquiry) (d : Desk) : Prop where
  inOrder : InOrder d.written (d.told q)
  fresh : d.Fresh q
  holder : ∀ k opening, d.turn = some (k, opening) → d.stages k = .idle
  /-- The file of a caller that has opened it is in the list. -/
  opened : ∀ k, d.stages k = .opened → (q k).path.uri ∈ d.opened
  /-- A caller makes no request before its file is open. -/
  gate : ∀ k, d.stages k ≠ .opened → d.system.callers k = .idle

theorem told_eq (h : ∀ k, d.turn ≠ some (k, .announced)) : d.told q = d.opened := by
  unfold told
  split
  · exact absurd ‹_› (h _)
  · rfl

theorem subset_told (q : Nat → Inquiry) (d : Desk) : d.opened ⊆ d.told q := by
  unfold told
  split
  · exact subset_cons_self _ _
  · exact List.Subset.refl _

namespace Orderly

theorem init : Orderly q {} where
  inOrder := .nil
  fresh := trivial
  holder _ _ hturn := by cases hturn
  opened _ hstage := Stage.noConfusion hstage
  gate _ _ := rfl

/-- A caller that goes on with the list has only to mind what it writes. -/
theorem hold (h : Orderly q d) {k : Nat} {opening : Opening} {written : List Outgoing}
    (hidle : d.stages k = .idle)
    (hinOrder : InOrder written ((d.hold k opening).told q)) (hfresh : (d.hold k opening).Fresh q) :
    Orderly q { d.hold k opening with written } where
  inOrder := hinOrder
  fresh := hfresh
  holder j _ hturn := by
    cases hturn
    exact hidle
  opened := h.opened
  gate := h.gate

/-- A caller gives back the list, with the files in it that the server was told about. -/
theorem release (h : Orderly q d) {k : Nat} {stage : Stage} {opened : List String}
    (hidle : d.stages k = .idle) (hinOrder : InOrder d.written opened)
    (hmore : d.opened ⊆ opened) (hstage : stage = .opened → (q k).path.uri ∈ opened) :
    Orderly q { d.release k stage with opened } where
  inOrder := hinOrder
  fresh := trivial
  holder _ _ hturn := by cases hturn
  opened j hj := by
    by_cases hjk : j = k
    · subst hjk
      exact hstage ((Function.update_self ..).symm.trans hj)
    · have hbefore : d.stages j = .opened := (Function.update_of_ne hjk ..).symm.trans hj
      exact hmore (h.opened j hbefore)
  gate j hj := by
    by_cases hjk : j = k
    · subst hjk
      exact h.gate j fun hopened => Stage.noConfusion (hidle.symm.trans hopened)
    · exact h.gate j fun hbefore => hj ((Function.update_of_ne hjk ..).trans hbefore)

theorem fail (h : Orderly q d) {k : Nat} {opening : Opening} (hturn : d.turn = some (k, opening))
    (hinOrder : InOrder d.written d.opened) : Orderly q (d.release k .failed) :=
  h.release (h.holder k opening hturn) hinOrder (List.Subset.refl _) (fun hstage => nomatch hstage)

/-- **Every step keeps the order.** -/
theorem step (h : Orderly q d) (hstep : Step q d d') : Orderly q d' := by
  have hinOrder : (∀ k, d.turn ≠ some (k, .announced)) → InOrder d.written d.opened :=
    fun hturn => told_eq hturn ▸ h.inOrder
  cases hstep with
  | take hfree hstage => exact h.hold hstage (hinOrder (by simp [hfree])) trivial
  | known hturn hknown =>
    exact h.release (h.holder _ _ hturn) (hinOrder (by simp [hturn])) (List.Subset.refl _)
      fun _ => hknown
  | read hturn hnew => exact h.hold (h.holder _ _ hturn) (hinOrder (by simp [hturn])) hnew
  | unreadable hturn => exact h.fail hturn (hinOrder (by simp [hturn]))
  | enter hturn =>
    have hnew := h.fresh
    rw [Fresh, hturn] at hnew
    exact h.hold (h.holder _ _ hturn) (hinOrder (by simp [hturn])) hnew
  | refuse hturn => exact h.fail hturn (hinOrder (by simp [hturn]))
  | announce hturn =>
    have hnew := h.fresh
    rw [Fresh, hturn] at hnew
    exact h.hold (h.holder _ _ hturn) ((hinOrder (by simp [hturn])).announce hnew _) trivial
  | failToAnnounce hturn => exact h.fail hturn (hinOrder (by simp [hturn]))
  | note hturn =>
    have htold := h.inOrder
    rw [told, hturn] at htold
    exact h.release (h.holder _ _ hturn) htold (subset_cons_self _ _) fun _ => mem_cons_self
  | @ask k id hcaller =>
    -- a caller with a request has opened its file
    have hstage : d.stages k = .opened := by
      by_contra hstage
      rw [h.gate k hstage] at hcaller
      cases hcaller
    have hopened := d.subset_told q (h.opened k hstage)
    refine ⟨h.inOrder.ask hopened id, h.fresh, h.holder, h.opened, fun j hj => ?_⟩
    have hjk : j ≠ k := fun hjk => hj (hjk ▸ hstage)
    exact (System.callers_move_of_ne hjk ..).trans (h.gate j hj)
  | other _ _ hgate =>
    exact ⟨h.inOrder, h.fresh, h.holder, h.opened, fun j hj => (hgate j hj).trans (h.gate j hj)⟩

theorem of_reaches (h : Reaches q {} d) : Orderly q d := by
  induction h with
  | refl => exact .init
  | tail _ hstep ih => exact ih.step hstep

end Orderly

/-! ## Runs of the steps -/

theorem reaches_known {k : Nat} (hfree : d.turn = none) (hstage : d.stages k = .idle)
    (hknown : (q k).path.uri ∈ d.opened) : Reaches q d (d.release k .opened) :=
  .head (.take hfree hstage) (.single (.known rfl hknown))

/-- A caller opens its file, with no step of another in between. -/
theorem reaches_opened {k : Nat} (hfree : d.turn = none) (hstage : d.stages k = .idle)
    (hnew : (q k).path.uri ∉ d.opened) (hopen : d.system.client.closed = false) (text : String) :
    Reaches q d { d.release k .opened with
      opened := (q k).path.uri :: d.opened
      written := d.written ++ [openMessage (q k).path text] } :=
  .head (.take hfree hstage) <| .head (.read rfl hnew) <| .head (.enter rfl hopen) <|
    .head (.announce rfl) <| .single (.note rfl)

theorem step_of_move {k : Nat} {s : System} {caller : Caller} (hstage : d.stages k = .opened)
    (hstep : System.Step d.system s) (hcallers : s.callers = (d.system.move k caller).callers)
    (hcaller : ∀ id, caller ≠ .waiting id) : Step q d { d with system := s } := by
  refine .other hstep (fun j id hj => ?_) fun j hj => ?_
  · rw [hcallers] at hj
    by_cases hjk : j = k
    · rw [hjk, System.callers_move] at hj
      exact absurd hj (hcaller id)
    · rwa [System.callers_move_of_ne hjk] at hj
  · have hjk : j ≠ k := fun hjk => hj (hjk ▸ hstage)
    rw [hcallers, System.callers_move_of_ne hjk]

/-- A caller whose file is open makes its request, with no step of another in between. -/
theorem reaches_asked {k : Nat} (hstage : d.stages k = .opened)
    (hcaller : d.system.callers k = .idle) (hopen : d.system.client.closed = false) :
    Reaches q d { d with
      system := d.system.request k
      written := d.written ++ [(q k).message d.system.client.register.1] } := by
  have henter : Reaches q d _ :=
    .single (step_of_move hstage (.enter hcaller hopen) rfl fun _ => Caller.noConfusion)
  have htake := henter.tail
    (step_of_move hstage (.takeId (System.callers_move ..)) rfl fun _ => Caller.noConfusion)
  have henlist := htake.tail
    (step_of_move hstage (.enlist (System.callers_move ..)) rfl fun _ => Caller.noConfusion)
  have hask := henlist.tail (.ask (System.callers_move ..))
  simp only [System.move, Function.update_idem] at hask
  exact hask

end Desk

/-! ## Once, and before questions -/

/-- **Each file is announced once, and before every question about it.** This holds for callers that
ask together, at every moment of every interleaving, where the file of a caller that got past the
opening is announced exactly once; and for questions that are asked one after the other, with any
peer, where every file is announced that can be read, as long as the stream is open. -/
theorem opened_once_before_asked :
    (∀ (q : Nat → Inquiry) (d : Desk), Desk.Reaches q {} d → OpensFirst d.written ∧
        ∀ k, d.stages k = .opened → (openedUris d.written).count (q k).path.uri = 1) ∧
    ∀ (σ : Type) (s : Session σ) (questions : List (Tree × Inquiry)), s.opened = [] →
      ∃ told, (s.inquireAll questions).own = s.own ++ told ∧ OpensFirst told ∧
        ((∀ question ∈ questions, question.1.text? question.2.path ≠ none) →
          (s.inquireAll questions).closed = false →
          ∀ question ∈ questions, (openedUris told).count question.2.path.uri = 1 ∧
            (s.disposed = false → ∃ id, question.2.message id ∈ told)) := by
  constructor
  · intro q d hreaches
    have horderly := Desk.Orderly.of_reaches hreaches
    exact ⟨horderly.inOrder.opensFirst, fun k hstage =>
      horderly.inOrder.count_eq_one (d.subset_told q (horderly.opened k hstage))⟩
  · intro σ s questions hnone
    obtain ⟨told, hasked⟩ := s.asked_inquireAll questions
    have hinOrder := hasked.inOrder [] (hnone ▸ .nil)
    refine ⟨told, hasked.own, hinOrder.opensFirst, fun hread hopen question hquestion => ?_⟩
    obtain ⟨hopened, hmessage⟩ := hasked.asked hread hopen question hquestion
    exact ⟨hinOrder.count_eq_one hopened, hmessage⟩

def byTwoPaths (k : Nat) : Inquiry :=
  if k = 0 then ⟨⟨"/a.ts"⟩, ⟨0, 0⟩, false⟩ else ⟨⟨"/./a.ts"⟩, ⟨0, 0⟩, true⟩

/-- The two questions as they are asked one after the other. -/
def twoQuestions : List (Tree × Inquiry) :=
  [(Session.oneFile, byTwoPaths 0), (Session.oneFile, byTwoPaths 1)]

theorem byTwoPaths_facts :
    (byTwoPaths 1).path.uri = (byTwoPaths 0).path.uri ∧
      (twoQuestions.all fun question => (question.1.text? question.2.path).isSome) ∧
      Session.connected.opened = [] ∧
      (Session.connected.inquireAll twoQuestions).closed = false := by
  decide +kernel

/-- The first caller opens the file; the second finds it open and asks first. -/
theorem reaches_bothAsked : ∃ d, Desk.Reaches byTwoPaths {} d ∧ d.stages 1 = .opened ∧
    d.written.map Outgoing.askedUri? =
      [none, some (byTwoPaths 0).path.uri, some (byTwoPaths 0).path.uri] := by
  have hopened : Desk.Reaches byTwoPaths {} _ :=
    Desk.reaches_opened (k := 0) rfl rfl not_mem_nil rfl ""
  have hknown := hopened.trans (Desk.reaches_known (k := 1) rfl rfl
    (byTwoPaths_facts.1 ▸ mem_cons_self))
  have hsecond := hknown.trans (Desk.reaches_asked (k := 1) rfl rfl rfl)
  have hfirst := hsecond.trans (Desk.reaches_asked (k := 0) rfl rfl rfl)
  refine ⟨_, hfirst, rfl, ?_⟩
  show [none, some (byTwoPaths 1).path.uri, some (byTwoPaths 0).path.uri] = _
  rw [byTwoPaths_facts.1]

/-- Two callers with two paths to one file, together and one after the other: the file is announced
once. -/
theorem opened_once_before_asked_byTwoPaths :
    (∃ d, Desk.Reaches byTwoPaths {} d ∧ d.written.length = 3 ∧ OpensFirst d.written ∧
      (openedUris d.written).count (byTwoPaths 1).path.uri = 1) ∧
    ∃ told, (Session.connected.inquireAll twoQuestions).own = Session.connected.own ++ told ∧
      OpensFirst told ∧ (openedUris told).count (byTwoPaths 1).path.uri = 1 := by
  obtain ⟨-, hread, hnone, hopen⟩ := byTwoPaths_facts
  obtain ⟨d, hreaches, hstage, hasked⟩ := reaches_bothAsked
  constructor
  · obtain ⟨hfirst, honce⟩ := opened_once_before_asked.1 byTwoPaths d hreaches
    have hlength := congrArg List.length hasked
    rw [length_map] at hlength
    exact ⟨d, hreaches, hlength, hfirst, honce 1 hstage⟩
  · obtain ⟨told, hown, hfirst, honce⟩ :=
      opened_once_before_asked.2 Unit Session.connected twoQuestions hnone
    have hreadable : ∀ question ∈ twoQuestions, question.1.text? question.2.path ≠ none :=
      fun question hquestion =>
        Option.isSome_iff_ne_none.1 (all_eq_true.1 hread question hquestion)
    have hmem : (Session.oneFile, byTwoPaths 1) ∈ twoQuestions :=
      mem_cons_of_mem _ mem_cons_self
    exact ⟨told, hown, hfirst, (honce hreadable hopen _ hmem).1⟩

end RouteAtlas.Rpc
