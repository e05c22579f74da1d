/-!
# Sorting

A list in order, by insertion. Items of which each may stand before the other keep their order.
-/

namespace RouteAtlas

variable {α : Type} {le : α → α → Bool} {a b : α} {as : List α}

/-- Puts an item in front of the first one that it may stand before. -/
def insertBy (le : α → α → Bool) (a : α) : List α → List α
  | [] => [a]
  | b :: bs => if le a b then a :: b :: bs else b :: insertBy le a bs

def sortBy (le : α → α → Bool) (as : List α) : List α := as.foldr (insertBy le) []

theorem mem_insertBy : b ∈ insertBy le a as ↔ b = a ∨ b ∈ as := by
  induction as with
  | nil => simp [insertBy]
  | cons c cs ih =>
    rw [insertBy]
    split
    · exact List.mem_cons
    · rw [List.mem_cons, ih, List.mem_cons, or_left_comm]

theorem mem_sortBy : a ∈ sortBy le as ↔ a ∈ as := by
  induction as with
  | nil => rfl
  | cons b bs ih => rw [sortBy, List.foldr_cons, mem_insertBy, ← sortBy, ih, List.mem_cons]

end RouteAtlas
