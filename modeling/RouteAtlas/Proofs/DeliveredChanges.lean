import RouteAtlas.Proofs.CleanPaths
import RouteAtlas.Watch.Debouncer

/-!
# Delivered changes

Pushes, flushes and clears come to a debouncer in any order, with any times. What waits in it is
what was pushed since it was last emptied, each path once; so a push ends in one of three ways, and
no path is delivered more often than it was pushed.
-/

open List

namespace RouteAtlas.Watch

/-- The list holds the path, in whatever spelling. -/
def holds (paths : List Path) (p : Path) : Bool := paths.any (·.same p)

/-- Paths in their order, so each one once. -/
def InOrder (paths : List Path) : Prop := paths.Pairwise fun p q => p.compare q = .lt

variable {p q : Path} {paths : List Path}

theorem mem_insertPath (h : q ∈ insertPath p paths) : q = p ∨ q ∈ paths := by
  fun_induction insertPath p paths with
  | case1 => exact .inl (mem_singleton.mp h)
  | case2 r rest hlt => exact mem_cons.mp h
  | case3 r rest heq => exact .inr h
  | case4 r rest hgt ih =>
    rcases mem_cons.mp h with rfl | h
    · exact .inr mem_cons_self
    · exact (ih h).imp_right (mem_cons_of_mem r)

theorem holds_insertPath (p q : Path) (paths : List Path) :
    holds (insertPath p paths) q = (p.same q || holds paths q) := by
  unfold holds
  fun_induction insertPath p paths with
  | case1 => rfl
  | case2 r rest hlt => rfl
  | case3 r rest heq =>
    have hsame : p.same q = r.same q := by
      rw [Path.same, eq_of_beq (Path.compare_eq_iff_same.mp heq), Path.same]
    rw [hsame, any_cons, ← Bool.or_assoc, Bool.or_self]
  | case4 r rest hgt ih => rw [any_cons, ih, any_cons, Bool.or_left_comm]

theorem inOrder_insertPath (h : InOrder paths) : InOrder (insertPath p paths) := by
  fun_induction insertPath p paths with
  | case1 => exact pairwise_singleton _ _
  | case2 r rest hlt =>
    refine pairwise_cons.mpr ⟨fun s hs => ?_, h⟩
    rcases mem_cons.mp hs with rfl | hs
    · exact hlt
    · exact Std.TransCmp.lt_trans hlt ((pairwise_cons.mp h).1 s hs)
  | case3 r rest heq => exact h
  | case4 r rest hgt ih =>
    obtain ⟨hr, hrest⟩ := pairwise_cons.mp h
    refine pairwise_cons.mpr ⟨fun s hs => ?_, ih hrest⟩
    rcases mem_insertPath hs with rfl | hs
    · exact Std.OrientedCmp.gt_iff_lt.mp hgt
    · exact hr s hs

/-! ## Runs -/

/-- A call of the debouncer. -/
inductive Call where
  | push (path : Path) (time : Int)
  | ready (time : Int)
  | clear

/-- A call and what it answered. -/
structure Event where
  call : Call
  answer : Option (List Path) := none

namespace Event

def empties (e : Event) : Bool :=
  match e.call with
  | .clear => true
  | _ => e.answer.isSome

def pushed? (e : Event) : Option (Path × Int) :=
  match e.call with
  | .push path time => some (path, time)
  | _ => none

def pushes (p : Path) (e : Event) : Bool := e.pushed?.any (·.1.same p)

def delivers (p : Path) (e : Event) : Bool := e.answer.any (holds · p)

end Event

/-- The pushes since the debouncer was last emptied, the last one in front. -/
def waiting (history : List Event) : List (Path × Int) :=
  (history.takeWhile (!·.empties)).filterMap Event.pushed?

namespace Debouncer

variable {d : Debouncer} {window : Nat}

/-- What a call answers, and the debouncer after it. -/
def call (d : Debouncer) : Call → Option (List Path) × Debouncer
  | .push path time => (none, d.push path time)
  | .ready time => d.ready time
  | .clear => (none, d.clear)

def after (window : Nat) : List Call → Debouncer
  | [] => { window }
  | c :: calls => ((after window calls).call c).2

def history (window : Nat) : List Call → List Event
  | [] => []
  | c :: calls => ⟨c, ((after window calls).call c).1⟩ :: history window calls

theorem ready_cases (now : Int) :
    (∃ last, d.lastChange = some last ∧ d.pending ≠ [] ∧ d.window ≤ (now - last).toNat ∧
        d.ready now = (some d.pending, d.clear)) ∨
      (∀ last, d.lastChange = some last → d.pending ≠ [] → (now - last).toNat < d.window) ∧
        d.ready now = (none, d) := by
  unfold ready
  cases d.lastChange with
  | none => exact .inr ⟨fun _ h => absurd h (by simp), rfl⟩
  | some last =>
    by_cases h : d.pending.isEmpty || (now - last).toNat < d.window
    · refine .inr ⟨?_, if_pos h⟩
      intro _ hlast hne
      cases hlast
      simpa [hne] using h
    · refine .inl ⟨last, rfl, ?_⟩
      simp only [Bool.or_eq_true, List.isEmpty_iff, decide_eq_true_eq, not_or, Nat.not_lt] at h
      exact ⟨h.1, h.2, by simp [h.1, Nat.not_lt.mpr h.2]⟩

/-- A debouncer holds pushes: each path once and in order, with the time of the last one. -/
structure Waits (window : Nat) (d : Debouncer) (pushes : List (Path × Int)) : Prop where
  window : d.window = window
  last : d.lastChange = pushes.head?.map (·.2)
  sorted : InOrder d.pending
  pushed : ∀ q ∈ d.pending, q ∈ pushes.map (·.1)
  held : ∀ q ∈ pushes.map (·.1), holds d.pending q

namespace Waits

variable {pushes : List (Path × Int)}

theorem nil (d : Debouncer) (h : d.window = window) : Waits window d.clear [] :=
  ⟨h, rfl, List.Pairwise.nil, fun _ h => absurd h not_mem_nil, fun _ h => absurd h not_mem_nil⟩

theorem push (h : Waits window d pushes) (p : Path) (now : Int) :
    Waits window (d.push p now) ((p, now) :: pushes) where
  window := h.window
  last := rfl
  sorted := inOrder_insertPath h.sorted
  pushed q hq := by
    rcases mem_insertPath hq with rfl | hq
    · exact mem_cons_self
    · exact mem_cons_of_mem p (h.pushed q hq)
  held q hq := by
    rw [Debouncer.push, holds_insertPath, Bool.or_eq_true]
    rcases mem_cons.mp hq with rfl | hq
    · exact .inl (beq_self_eq_true _)
    · exact .inr (h.held q hq)

theorem pending_ne_nil_iff (h : Waits window d pushes) : d.pending ≠ [] ↔ pushes ≠ [] := by
  refine not_congr ⟨fun hnil => ?_, fun hnil => ?_⟩
  · refine eq_nil_iff_forall_not_mem.mpr fun x hx => ?_
    have := h.held x.1 (mem_map_of_mem hx)
    rw [hnil] at this
    cases this
  · refine eq_nil_iff_forall_not_mem.mpr fun q hq => ?_
    have := h.pushed q hq
    rw [hnil] at this
    cases this

/-- Each call keeps the waiting pushes as its event says. -/
theorem call {events : List Event} (h : Waits window d (waiting events)) (c : Call) :
    Waits window (d.call c).2 (waiting (⟨c, (d.call c).1⟩ :: events)) := by
  cases c with
  | push p now => exact h.push p now
  | clear => exact .nil d h.window
  | ready now =>
    rw [Debouncer.call]
    obtain ⟨last, -, -, -, hready⟩ | ⟨-, hready⟩ := ready_cases now <;> rw [hready]
    · exact .nil d h.window
    · exact h

theorem isSome_ready_iff (h : Waits window d pushes) (now : Int) :
    (d.ready now).1.isSome ↔ ∃ last, pushes.head? = some last ∧ window ≤ (now - last.2).toNat := by
  have hlast := h.last
  have hne := h.pending_ne_nil_iff
  obtain ⟨last, hsome, hpending, hpassed, hready⟩ | ⟨hwaits, hready⟩ := ready_cases now <;>
    rw [hready]
  · rw [hsome] at hlast
    obtain ⟨x, hx, rfl⟩ := Option.map_eq_some_iff.mp hlast.symm
    exact iff_of_true rfl ⟨x, hx, h.window ▸ hpassed⟩
  · refine iff_of_false Bool.false_ne_true ?_
    rintro ⟨x, hx, hpassed⟩
    rw [hx] at hlast
    have := hwaits x.2 hlast (hne.mpr (by rintro rfl; cases hx))
    exact Nat.not_lt.mpr hpassed (h.window ▸ this)

end Waits

/-- **What waits is what was pushed since the debouncer was last emptied**, after every run. -/
theorem waits_after (window : Nat) (calls : List Call) :
    Waits window (after window calls) (waiting (history window calls)) := by
  induction calls with
  | nil => exact .nil { window } rfl
  | cons c calls ih => exact ih.call c

theorem eq_of_ready {now : Int} (h : (d.ready now).1 = some paths) :
    paths = d.pending ∧ (d.ready now).2 = d.clear := by
  obtain ⟨last, -, -, -, hready⟩ | ⟨-, hready⟩ := ready_cases now <;> rw [hready] at h ⊢
  · exact ⟨(Option.some.inj h).symm, rfl⟩
  · cases h

theorem exists_before {calls : List Call} {later earlier : List Event} {e : Event}
    (h : history window calls = later ++ e :: earlier) :
    ∃ before, history window before = earlier ∧
      e.answer = ((after window before).call e.call).1 := by
  induction later generalizing calls with
  | nil =>
    cases calls with
    | nil => cases h
    | cons c calls =>
      cases h
      exact ⟨calls, rfl, rfl⟩
  | cons f later ih =>
    cases calls with
    | nil => cases h
    | cons c calls => exact ih (List.cons.inj h).2

theorem mem_waiting {later : List Event} (h : ∀ e ∈ later, e.empties = false) (p : Path)
    (time : Int) (earlier : List Event) :
    p ∈ (waiting (later ++ ⟨.push p time, none⟩ :: earlier)).map (·.1) := by
  rw [waiting, takeWhile_append_of_pos (by simpa using h), filterMap_append]
  exact mem_map.mpr ⟨(p, time), mem_append_right _ mem_cons_self, rfl⟩

/-- What has become of a push, by the first later call that emptied the debouncer: the path waits,
was delivered, or was cleared. -/
def Settled (d : Debouncer) (later : List Event) (p : Path) : Prop :=
  later.reverse.find? Event.empties = none ∧ holds d.pending p ∨
    (∃ now paths, later.reverse.find? Event.empties = some ⟨.ready now, some paths⟩ ∧
      holds paths p) ∨
    later.reverse.find? Event.empties = some ⟨.clear, none⟩

theorem settled_push {calls : List Call} {later earlier : List Event} {time : Int}
    (h : history window calls = later ++ ⟨.push p time, none⟩ :: earlier) :
    (after window calls).Settled later p := by
  unfold Settled
  cases hfind : later.reverse.find? Event.empties with
  | none =>
    have hno : ∀ e ∈ later, e.empties = false := by simpa using hfind
    exact .inl ⟨rfl, (waits_after window calls).held p (h ▸ mem_waiting hno p time earlier)⟩
  | some e =>
    obtain ⟨hempties, front, back, hsplit, hno⟩ := find?_eq_some_iff_append.mp hfind
    have hlater : later = back.reverse ++ e :: front.reverse := by
      rw [← reverse_reverse later, hsplit]
      simp
    rw [hlater, append_assoc] at h
    obtain ⟨before, hbefore, hanswer⟩ := exists_before h
    obtain ⟨c, answer⟩ := e
    cases c with
    | push q now =>
      cases hanswer
      cases hempties
    | clear =>
      cases hanswer
      exact .inr (.inr rfl)
    | ready now =>
      obtain ⟨paths, rfl⟩ := Option.isSome_iff_exists.mp hempties
      refine .inr (.inl ⟨now, paths, rfl, ?_⟩)
      rw [(eq_of_ready hanswer.symm).1]
      refine (waits_after window before).held p (hbefore ▸ mem_waiting ?_ p time earlier)
      simpa using hno

/-- Each path is delivered at most as often as it was pushed, what waits counted in. -/
theorem countP_delivers_le (window : Nat) (calls : List Call) (p : Path) :
    (history window calls).countP (Event.delivers p) +
        (if holds (after window calls).pending p then 1 else 0) ≤
      (history window calls).countP (Event.pushes p) := by
  induction calls with
  | nil => exact Nat.le_refl _
  | cons c calls ih =>
    rw [history, after, countP_cons, countP_cons]
    cases c with
    | push q now =>
      have hheld : holds ((after window calls).call (.push q now)).2.pending p =
          (q.same p || holds (after window calls).pending p) := holds_insertPath q p _
      have hpush : Event.pushes p ⟨.push q now, none⟩ = q.same p := rfl
      rw [hheld, call, hpush]
      by_cases hq : q.same p
      · rw [hq]
        exact Nat.add_le_add_right (Nat.le_trans (Nat.le_add_right _ _) ih) 1
      · rw [Bool.eq_false_iff.mpr hq]
        exact ih
    | clear => exact Nat.le_trans (Nat.add_le_add_right (Nat.le_add_right _ _) 0) ih
    | ready now =>
      rw [call]
      obtain ⟨last, -, -, -, hready⟩ | ⟨-, hready⟩ := ready_cases now <;> rw [hready]
      · exact ih
      · exact ih

/-- **A flush delivers exactly what was pushed since the debouncer was last emptied**, each path
once and in order, once the window has passed since the last push. After every run, a push waits,
was delivered or was cleared by the next call that emptied the debouncer, and no path was delivered
more often than it was pushed. -/
theorem delivers_pushed (window : Nat) (calls : List Call) :
    (∀ now, ((after window calls).ready now).1.isSome ↔
        ∃ last, (waiting (history window calls)).head? = some last ∧
          window ≤ (now - last.2).toNat) ∧
      (∀ now paths, ((after window calls).ready now).1 = some paths →
        InOrder paths ∧ (∀ q ∈ paths, q ∈ (waiting (history window calls)).map (·.1)) ∧
          (∀ q ∈ (waiting (history window calls)).map (·.1), holds paths q) ∧
            ((after window calls).ready now).2 = { window }) ∧
      (∀ later p time earlier, history window calls = later ++ ⟨.push p time, none⟩ :: earlier →
          (after window calls).Settled later p) ∧
      ∀ p, (history window calls).countP (Event.delivers p) +
          (if holds (after window calls).pending p then 1 else 0) ≤
        (history window calls).countP (Event.pushes p) := by
  have hwaits := waits_after window calls
  refine ⟨hwaits.isSome_ready_iff, fun now paths h => ?_, fun later p time earlier => settled_push,
    countP_delivers_le window calls⟩
  obtain ⟨rfl, hafter⟩ := eq_of_ready h
  refine ⟨hwaits.sorted, hwaits.pushed, hwaits.held, ?_⟩
  rw [hafter, clear, hwaits.window]

end Debouncer

end RouteAtlas.Watch
