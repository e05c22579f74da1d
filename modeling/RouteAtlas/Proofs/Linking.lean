import RouteAtlas.Inventory.Graph

/-!
# Linked routers come from the graph

Linking mounts may look things up and remember them, so it runs in a state. Whatever the look-ups
give, a linked router is a router of some file, with its own drafts.
-/

open List

namespace RouteAtlas.Inventory

variable {σ α β : Type}

/-! ## Lists of steps with a state -/

theorem run_mapM_cons (f : α → StateM σ β) (a : α) (as : List α) (s : σ) :
    ((a :: as).mapM f).run s = let first := (f a).run s
      let rest := (as.mapM f).run first.2
      (first.1 :: rest.1, rest.2) := by
  rw [mapM_cons]
  rfl

theorem mem_run_mapM {f : α → StateM σ β} {as : List α} {s : σ} {b : β}
    (h : b ∈ ((as.mapM f).run s).1) : ∃ a ∈ as, ∃ s', ((f a).run s').1 = b := by
  induction as generalizing s with
  | nil => cases h
  | cons a as ih =>
    rw [run_mapM_cons] at h
    rcases mem_cons.mp h with rfl | h
    · exact ⟨a, mem_cons_self, s, rfl⟩
    · obtain ⟨a', ha', s', rfl⟩ := ih h
      exact ⟨a', mem_cons_of_mem a ha', s', rfl⟩

/-- What the results of a list of steps have in common with the items, whatever the state. -/
theorem map_run_mapM {γ : Type} {f : α → StateM σ β} {p : β → γ} {q : α → γ}
    (h : ∀ a s, p ((f a).run s).1 = q a) (as : List α) (s : σ) :
    ((as.mapM f).run s).1.map p = as.map q := by
  induction as generalizing s with
  | nil => rfl
  | cons a as ih =>
    rw [run_mapM_cons, map_cons, map_cons, h, ih]

/-- A project in which no import is found. -/
def unresolved (_ : String) (_ : Path) : StateM Unit (Option Path) := pure none

def Network.Distinct (net : Network) : Prop :=
  (net.map (·.key)).Pairwise fun a b => a.same b = false

namespace Graph

variable {g : Graph} {resolve : String → Path → StateM σ (Option Path)}

/-! ## Routers by their keys -/

theorem mem_keyedRouters {c : Contribution} {t : Router} (h : (c, t) ∈ g.keyedRouters) :
    c ∈ g.contributions ∧ t ∈ c.routers := by
  have hmem : (c, t) ∈ g.contributions.flatMap fun c => c.routers.map (c, ·) := by
    revert h
    unfold keyedRouters
    induction g.contributions.flatMap fun c => c.routers.map (c, ·) with
    | nil => exact id
    | cons a as ih =>
      intro h
      rw [foldr_cons] at h
      split at h
      · exact mem_cons_of_mem a (ih h)
      · rcases mem_cons.mp h with h | h
        · exact h ▸ mem_cons_self
        · exact mem_cons_of_mem a (ih h)
  obtain ⟨c', hc, hp⟩ := mem_flatMap.mp hmem
  obtain ⟨t', ht, heq⟩ := mem_map.mp hp
  cases heq
  exact ⟨hc, ht⟩

theorem keyedRouters_distinct (g : Graph) :
    g.keyedRouters.Pairwise fun a b => a.2.key.same b.2.key = false := by
  unfold keyedRouters
  induction g.contributions.flatMap fun c => c.routers.map (c, ·) with
  | nil => exact .nil
  | cons a as ih =>
    rw [foldr_cons]
    split
    · exact ih
    rename_i hnew
    refine pairwise_cons.mpr ⟨fun b hb => ?_, ih⟩
    rw [RouterKey.same_comm, ← Bool.not_eq_true]
    exact fun hsame => hnew (any_eq_true.mpr ⟨b, hb, hsame⟩)

/-- **The routers of a linked network have distinct keys.** -/
theorem network_distinct (g : Graph) (resolve : String → Path → StateM σ (Option Path)) (s : σ) :
    ((g.network resolve).run s).1.Distinct := by
  have hkeys : ((g.network resolve).run s).1.map (·.key) = g.keyedRouters.map (·.2.key) :=
    map_run_mapM (fun _ _ => rfl) g.keyedRouters s
  rw [Network.Distinct, hkeys, pairwise_map]
  exact g.keyedRouters_distinct

/-! ## Linked entries -/

theorem run_mapM_linkEntry {ι : Type} (draft : ι → Draft) (file : Path) (s : σ) :
    ∀ items : List ι, ((items.map fun i => Entry.resource (draft i)).mapM
      (g.linkEntry resolve file)).run s = (items.map fun i => .resource (draft i), s)
  | [] => rfl
  | i :: items => by
    rw [map_cons, run_mapM_cons]
    exact congrArg (fun r : List LinkedEntry × σ => (LinkedEntry.resource (draft i) :: r.1, r.2))
      (run_mapM_linkEntry draft file s items)

/-- **The drafts of a linked network are drafts of the graph's files.** -/
theorem draft_of_mem_network {u : LinkedRouter} {draft : Draft} {s : σ}
    (hu : u ∈ ((g.network resolve).run s).1) (hd : .resource draft ∈ u.entries) :
    ∃ c ∈ g.contributions, ∃ t ∈ c.routers, .resource draft ∈ t.entries := by
  obtain ⟨⟨c, t⟩, hct, s', rfl⟩ := mem_run_mapM hu
  obtain ⟨hc, ht⟩ := mem_keyedRouters hct
  obtain ⟨entry, he, s'', heq⟩ := mem_run_mapM (f := g.linkEntry resolve c.file) hd
  cases entry with
  | resource d =>
    cases heq
    exact ⟨c, hc, t, ht, he⟩
  | mount m => cases heq

end Graph

end RouteAtlas.Inventory
