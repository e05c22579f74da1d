import RouteAtlas.Proofs.AbsolutePaths

/-!
# Where cleaned paths lead

Followed from a directory, a path goes down by its names and up by its `..` steps, and stays at the
root when there is nothing above. What the steps of a path come to says where it leads from every
directory. Cleaning writes that down, except that two steps up in front take each other back; so a
cleaned path leads elsewhere exactly if the path is relative and goes up twice or more above its
start.
-/

open List

namespace RouteAtlas.Path

open Files

variable {c : Component} {cs : List Component} {dir : Place}

/-- The directory that one component leads to; the root has itself as its parent. -/
def Component.leadFrom (dir : Place) : Component → Place
  | .root => []
  | .current => dir
  | .parent => dir.dropLast
  | .name text => dir ++ [text]

/-- The directory that a path leads to from another one. -/
def leadFrom (p : Path) (dir : Place) : Place := p.components.foldl Component.leadFrom dir

/-- What the steps come to, seen from a directory. -/
def Reach.leadFrom (r : Reach) (dir : Place) : Place :=
  dir.take (dir.length - r.up) ++ r.names.reverse

namespace Reach

variable {r : Reach}

theorem leadFrom_step (hc : c.IsStep) :
    Component.leadFrom (r.leadFrom dir) c = (r.step c).leadFrom dir := by
  obtain ⟨up, names⟩ := r
  cases c with
  | root | current => cases hc
  | name text => simp [Component.leadFrom, leadFrom, step]
  | parent =>
    cases names with
    | nil =>
      simp only [Component.leadFrom, leadFrom, step, dropLast_eq_take, take_take,
        reverse_nil, append_nil, length_take, if_true, tail_nil]
      congr 1
      omega
    | cons name names => simp [Component.leadFrom, leadFrom, step]

theorem foldl_leadFrom (hcs : ∀ c ∈ cs, c.IsStep) :
    ∀ r : Reach, cs.foldl Component.leadFrom (r.leadFrom dir) = (cs.foldl step r).leadFrom dir := by
  induction cs with
  | nil => exact fun _ => rfl
  | cons c cs ih =>
    intro r
    obtain ⟨hc, hcs⟩ := forall_mem_cons.mp hcs
    rw [foldl_cons, leadFrom_step hc]
    exact ih hcs _

theorem up_foldl_le : ∀ r : Reach, (cs.foldl step r).up ≤ r.up + cs.count .parent := by
  induction cs with
  | nil => exact fun _ => Nat.le_refl _
  | cons c cs ih =>
    intro r
    refine Nat.le_trans (ih (r.step c)) ?_
    cases c with
    | root | current | name => simp [step]
    | parent =>
      simp only [step, count_cons_self]
      split <;> omega

end Reach

/-- **A path leads where its steps do**, from the root or from the given directory. -/
theorem leadFrom_eq (p : Path) (dir : Place) :
    p.leadFrom dir = p.reach.leadFrom (if p.isAbsolute then [] else dir) := by
  have hstart : (rootIf p.isAbsolute).foldl Component.leadFrom dir =
      (Reach.leadFrom {} (if p.isAbsolute then [] else dir)) := by
    cases p.isAbsolute <;> simp [rootIf, Component.leadFrom, Reach.leadFrom]
  rw [leadFrom, foldl_components (fun _ => rfl), hstart,
    Reach.foldl_leadFrom fun _ => isStep_of_mem_steps]
  rfl

theorem up_reach_le (p : Path) : p.reach.up ≤ p.components.count .parent := by
  have hsub : p.steps.Sublist p.components := components_eq p ▸ sublist_append_right _ _
  calc p.reach.up ≤ 0 + p.steps.count .parent := Reach.up_foldl_le {}
    _ = p.steps.count .parent := Nat.zero_add _
    _ ≤ p.components.count .parent := hsub.count_le _

/-- **Cleaning is idempotent, and a cleaned path leads to the same directory exactly if the path is
absolute or goes up at most once above its start**, from each directory that is deep enough. -/
theorem leadFrom_clean_eq_iff (p : Path) (dir : Place)
    (hdeep : p.components.count .parent ≤ dir.length) :
    p.clean.clean = p.clean ∧
      (p.clean.leadFrom dir = p.leadFrom dir ↔ p.isAbsolute ∨ p.reach.up ≤ 1) := by
  refine ⟨clean_clean p, ?_⟩
  have hup := up_reach_le p
  rw [leadFrom_eq, leadFrom_eq, isAbsolute_clean, reach_clean, Reach.leadFrom, Reach.leadFrom,
    append_left_inj]
  cases p.isAbsolute with
  | true => simp
  | false =>
    simp only [Bool.false_eq_true, if_false, false_or]
    refine ⟨fun h => ?_, fun h => by rw [Nat.mod_eq_of_lt (by omega)]⟩
    have hlen := congrArg List.length h
    simp only [length_take] at hlen
    omega

/-- A path that goes down, up twice and down again, followed from a directory two levels deep. -/
theorem leadFrom_clean_side :
    (Path.mk "a/../.././b").components.count .parent ≤ ["x", "y"].length ∧
      (Path.mk "a/../.././b").clean.clean = (Path.mk "a/../.././b").clean ∧
        (Path.mk "a/../.././b").clean.leadFrom ["x", "y"] =
          (Path.mk "a/../.././b").leadFrom ["x", "y"] :=
  have h := leadFrom_clean_eq_iff ⟨"a/../.././b"⟩ ["x", "y"] (by decide)
  ⟨by decide, h.1, h.2.mpr (by decide)⟩

/-- Two steps up are cleaned away, and the cleaned path stays where it is. -/
theorem leadFrom_clean_grandparent :
    (Path.mk "../..").components.count .parent ≤ ["x", "y"].length ∧
      (Path.mk "../..").leadFrom ["x", "y"] = [] ∧
        (Path.mk "../..").clean.leadFrom ["x", "y"] = ["x", "y"] := by
  decide

end RouteAtlas.Path
