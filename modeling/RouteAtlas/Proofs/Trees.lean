import RouteAtlas.Inventory.Chain

/-!
# Nodes of a syntax tree

All nodes of a tree, tokens included, and what stays inside a tree: the sites that the passes look
at, and the values and roots that they follow from a node. In a placed tree a node lies in the range
of its parent, behind the sibling before it, as the parts of a text do.
-/

open List

namespace RouteAtlas

theorem Text.takeBytes_zero (cs : List Char) : Text.takeBytes 0 cs = [] := by
  cases cs with
  | nil => rfl
  | cons c cs => rw [Text.takeBytes, if_neg (Nat.not_le_of_lt c.utf8Size_pos)]

namespace Source

namespace Node

variable {n c : Node} {k : Kind} {step : Node → Option Node}

/-! ## Kinds -/

theorem exists_of_is (h : n.is k) :
    ∃ role start stop children, n = .mk (.named k) role start stop children := by
  obtain ⟨label, role, start, stop, children⟩ := n
  cases label with
  | token text => cases h
  | named kind =>
    obtain rfl : kind = k := Option.some.inj (beq_iff_eq.mp h)
    exact ⟨role, start, stop, children, rfl⟩

theorem exists_of_isOneOf {ks : List Kind} (h : n.isOneOf ks) :
    ∃ k ∈ ks, ∃ role start stop children, n = .mk (.named k) role start stop children := by
  obtain ⟨k, hk, hn⟩ := any_eq_true.mp h
  exact ⟨k, hk, exists_of_is hn⟩

theorem kind?_of_is (h : n.is k) : n.kind? = some k := eq_of_beq h

theorem kindIs_of_is (h : n.is k) (p : Kind → Bool) : n.kindIs p = p k := by
  obtain ⟨role, start, stop, children, rfl⟩ := exists_of_is h
  rfl

theorem is_of_is (h : n.is k) (l : Kind) : n.is l = (k == l) := by
  obtain ⟨role, start, stop, children, rfl⟩ := exists_of_is h
  rfl

theorem isOneOf_of_is (h : n.is k) (ks : List Kind) : n.isOneOf ks = ks.contains k := by
  obtain ⟨role, start, stop, children, rfl⟩ := exists_of_is h
  induction ks with
  | nil => rfl
  | cons l ks ih =>
    rw [isOneOf, any_cons, ← isOneOf, ih]
    rfl

/-! ## Nodes of a tree -/

mutual

/-- The nodes of a tree, each before its children. -/
def nodes : Node → List Node
  | mk label role start stop children => mk label role start stop children :: nodesOfAll children

def nodesOfAll : List Node → List Node
  | [] => []
  | n :: ns => n.nodes ++ nodesOfAll ns

end

mutual

instance decEq : (a b : Node) → Decidable (a = b)
  | mk label role start stop children, mk label' role' start' stop' children' =>
    have := decEqAll children children'
    decidable_of_iff (label = label' ∧ role = role' ∧ start = start' ∧ stop = stop' ∧
      children = children') (by rw [mk.injEq])

def decEqAll : (as bs : List Node) → Decidable (as = bs)
  | [], [] => isTrue rfl
  | [], _ :: _ => isFalse nofun
  | _ :: _, [] => isFalse nofun
  | a :: as, b :: bs =>
    have := decEq a b
    have := decEqAll as bs
    decidable_of_iff (a = b ∧ as = bs) (by rw [List.cons.injEq])

end

theorem nodesOfAll_eq (ns : List Node) : nodesOfAll ns = ns.flatMap nodes := by
  induction ns with
  | nil => rfl
  | cons n ns ih => rw [nodesOfAll, ih, flatMap_cons]

theorem nodes_eq (n : Node) : n.nodes = n :: n.children.flatMap nodes := by
  cases n with
  | mk label role start stop children => rw [nodes, nodesOfAll_eq, Node.children]

theorem self_mem_nodes (n : Node) : n ∈ n.nodes := by
  rw [nodes_eq]
  exact mem_cons_self

theorem mem_nodes_iff {m : Node} : m ∈ n.nodes ↔ m = n ∨ ∃ c ∈ n.children, m ∈ c.nodes := by
  rw [nodes_eq, mem_cons, mem_flatMap]

theorem mem_nodes_of_child (h : c ∈ n.children) : c ∈ n.nodes :=
  mem_nodes_iff.mpr (.inr ⟨c, h, c.self_mem_nodes⟩)

/-- **Induction over a tree**: what passes from the children of a node to the node holds of all
nodes. -/
theorem children_induction {motive : Node → Prop}
    (step : ∀ n : Node, (∀ c ∈ n.children, motive c) → motive n) (n : Node) : motive n :=
  @Node.rec motive (fun ns => ∀ c ∈ ns, motive c)
    (fun label role start stop children => step (mk label role start stop children))
    (forall_mem_nil _) (fun _ _ hc hcs => forall_mem_cons.mpr ⟨hc, hcs⟩) n

theorem mem_nodes_trans {m k : Node} (hm : m ∈ n.nodes) (hk : k ∈ m.nodes) : k ∈ n.nodes := by
  induction n using children_induction with
  | step n ih =>
    rcases mem_nodes_iff.mp hm with rfl | ⟨c, hc, hm⟩
    · exact hk
    · exact mem_nodes_iff.mpr (.inr ⟨c, hc, ih c hc hm⟩)

/-! ## Steps that stay inside -/

theorem mem_children_of_named (h : c ∈ n.named) : c ∈ n.children :=
  (mem_filter.mp h).1

theorem mem_children_of_child? {role : Role} (h : n.child? role = some c) : c ∈ n.children :=
  mem_of_find?_eq_some h

theorem mem_nodes_of_named (h : c ∈ n.named) : c ∈ n.nodes :=
  mem_nodes_of_child (mem_children_of_named h)

theorem mem_nodes_of_child? {role : Role} (h : n.child? role = some c) : c ∈ n.nodes :=
  mem_nodes_of_child (mem_children_of_child? h)

theorem mem_children_of_target? (h : n.target? = some c) : c ∈ n.children := by
  unfold target? at h
  cases hf : n.child? .function with
  | some f =>
    rw [hf] at h
    cases h
    exact mem_children_of_child? hf
  | none =>
    rw [hf] at h
    exact mem_children_of_child? h

theorem followUpTo_mem_nodes {step : Node → Option Node}
    (hstep : ∀ {n m}, step n = some m → m ∈ n.nodes) : ∀ (fuel : Nat) (n : Node),
    followUpTo step fuel n ∈ n.nodes
  | 0, n => n.self_mem_nodes
  | fuel + 1, n => by
    rw [followUpTo]
    split
    · rename_i m hm
      exact mem_nodes_trans (hstep hm) (followUpTo_mem_nodes hstep fuel m)
    · exact n.self_mem_nodes

/-- **Steps into a tree stay inside.** -/
theorem follow_mem_nodes (hstep : ∀ {n m}, step n = some m → m ∈ n.nodes) (n : Node) :
    n.follow step ∈ n.nodes :=
  followUpTo_mem_nodes hstep n.size n

theorem size_pos (n : Node) : 0 < n.size := by
  cases n with
  | mk label role start stop children => exact Nat.succ_pos _

theorem size_lt_of_mem_children {n m : Node} (h : m ∈ n.children) : m.size < n.size := by
  cases n with
  | mk label role start stop children =>
    have hle : ∀ ns : List Node, m ∈ ns → m.size ≤ sizeAll ns := by
      intro ns
      induction ns with
      | nil => exact fun hmem => absurd hmem not_mem_nil
      | cons k ns ih =>
        intro hmem
        rcases mem_cons.mp hmem with rfl | hmem
        · exact Nat.le_add_right _ _
        · exact Nat.le_trans (ih hmem) (Nat.le_add_left _ _)
    exact Nat.lt_succ_of_le (hle children h)

theorem follow_eq_self (h : step n = none) : n.follow step = n := by
  unfold follow
  cases n.size with
  | zero => rfl
  | succ fuel => rw [followUpTo, h]

theorem unwrapped_mem_nodes (n : Node) : n.unwrapped ∈ n.nodes := by
  refine follow_mem_nodes (fun {n m} h => ?_) n
  unfold unwrapStep? at h
  split at h
  · exact mem_nodes_of_named (mem_of_head? h)
  · split at h
    · exact mem_nodes_of_named (mem_of_find?_eq_some h)
    · cases h

end Node

/-! ## Sites -/

theorem sitesOfAll_eq (above : List Node) (ns : List Node) :
    sitesOfAll above ns = (ns.filter Node.isNamed).flatMap (·.sitesBelow above) := by
  induction ns with
  | nil => rfl
  | cons n ns ih =>
    rw [sitesOfAll, ih, filter_cons]
    split
    · rw [flatMap_cons]
    · rfl

theorem Node.sitesBelow_eq (above : List Node) (n : Node) :
    n.sitesBelow above = ⟨n, above⟩ :: n.named.flatMap (·.sitesBelow (n :: above)) := by
  cases n with
  | mk label role start stop children => rw [sitesBelow, sitesOfAll_eq]; rfl

theorem Node.node_mem_nodes_of_mem_sitesBelow {n : Node} {above : List Node} {s : Site}
    (h : s ∈ n.sitesBelow above) : s.node ∈ n.nodes := by
  induction n using children_induction generalizing above with
  | step n ih =>
    rw [sitesBelow_eq] at h
    rcases mem_cons.mp h with rfl | h
    · exact n.self_mem_nodes
    · obtain ⟨c, hc, hs⟩ := mem_flatMap.mp h
      exact mem_nodes_trans (mem_nodes_of_named hc) (ih c (mem_children_of_named hc) hs)

theorem exists_of_mem_ownNodesOfAll {ns : List Node} {m : Node} (h : m ∈ ownNodesOfAll ns) :
    ∃ c ∈ ns, m ∈ c.ownNodes := by
  induction ns with
  | nil => cases h
  | cons n ns ih =>
    rw [ownNodesOfAll] at h
    simp only [mem_cons, exists_eq_or_imp]
    split at h
    · exact (mem_append.mp h).imp_right ih
    · exact .inr (ih h)

theorem Node.mem_nodes_of_mem_ownNodes {n m : Node} (h : m ∈ n.ownNodes) : m ∈ n.nodes := by
  induction n using children_induction with
  | step n ih =>
    obtain ⟨label, role, start, stop, children⟩ := n
    rcases mem_cons.mp h with rfl | h
    · exact self_mem_nodes _
    · obtain ⟨c, hc, hm⟩ := exists_of_mem_ownNodesOfAll h
      exact mem_nodes_iff.mpr (.inr ⟨c, hc, ih c hc hm⟩)

/-! ## Places -/

namespace Node

variable {n : Node}

mutual

/-- The ranges of a tree: children lie in the range of their parent, one behind another. -/
def Placed : Node → Prop
  | mk _ _ start stop children => PlacedIn start stop children

def PlacedIn (start stop : Nat) : List Node → Prop
  | [] => start ≤ stop
  | n :: ns => start ≤ n.start ∧ n.Placed ∧ PlacedIn n.stop stop ns

end

mutual

instance decidablePlaced : (n : Node) → Decidable n.Placed
  | mk _ _ start stop children => decidablePlacedIn start stop children

instance decidablePlacedIn (start stop : Nat) : (ns : List Node) →
    Decidable (PlacedIn start stop ns)
  | [] => inferInstanceAs (Decidable (start ≤ stop))
  | n :: ns =>
    have := decidablePlaced n
    have := decidablePlacedIn n.stop stop ns
    inferInstanceAs (Decidable (start ≤ n.start ∧ n.Placed ∧ PlacedIn n.stop stop ns))

end

theorem Placed.children (h : n.Placed) : PlacedIn n.start n.stop n.children := by
  cases n with
  | mk label role start stop children => exact h

mutual

theorem Placed.start_le_stop : ∀ {n : Node}, n.Placed → n.start ≤ n.stop
  | mk _ _ _ _ _, h => PlacedIn.start_le_stop h

theorem PlacedIn.start_le_stop : ∀ {ns : List Node} {start stop : Nat},
    PlacedIn start stop ns → start ≤ stop
  | [], _, _, h => h
  | _ :: _, _, _, ⟨hle, hn, hns⟩ =>
    Nat.le_trans hle (Nat.le_trans (Placed.start_le_stop hn) (PlacedIn.start_le_stop hns))

end

theorem PlacedIn.of_mem : ∀ {ns : List Node} {start stop : Nat} {n : Node},
    PlacedIn start stop ns → n ∈ ns → n.Placed ∧ start ≤ n.start ∧ n.stop ≤ stop
  | m :: ns, start, stop, n, ⟨hle, hm, hns⟩, h => by
    rcases mem_cons.mp h with rfl | h
    · exact ⟨hm, hle, hns.start_le_stop⟩
    · obtain ⟨hn, hstart, hstop⟩ := hns.of_mem h
      exact ⟨hn, Nat.le_trans hle (Nat.le_trans hm.start_le_stop hstart), hstop⟩

mutual

/-- **The nodes of a placed tree lie in its range.** -/
theorem Placed.range_of_mem : ∀ {n m : Node}, n.Placed → m ∈ n.nodes →
    m.Placed ∧ n.start ≤ m.start ∧ m.stop ≤ n.stop
  | mk label role start stop children, m, h, hm => by
    rcases mem_cons.mp hm with rfl | hm
    · exact ⟨h, Nat.le_refl _, Nat.le_refl _⟩
    · exact PlacedIn.range_of_mem h hm

theorem PlacedIn.range_of_mem : ∀ {ns : List Node} {start stop : Nat} {m : Node},
    PlacedIn start stop ns → m ∈ nodesOfAll ns → m.Placed ∧ start ≤ m.start ∧ m.stop ≤ stop
  | n :: ns, start, stop, m, ⟨hle, hn, hns⟩, hm => by
    rcases mem_append.mp hm with hm | hm
    · obtain ⟨hp, hstart, hstop⟩ := Placed.range_of_mem hn hm
      exact ⟨hp, Nat.le_trans hle hstart, Nat.le_trans hstop hns.start_le_stop⟩
    · obtain ⟨hp, hstart, hstop⟩ := PlacedIn.range_of_mem hns hm
      exact ⟨hp, Nat.le_trans hle (Nat.le_trans hn.start_le_stop hstart), hstop⟩

end

theorem PlacedIn.pairwise : ∀ {ns : List Node} {start stop : Nat}, PlacedIn start stop ns →
    ns.Pairwise (·.stop ≤ ·.start)
  | [], _, _, _ => .nil
  | _ :: _, _, _, ⟨_, _, hns⟩ => .cons (fun _ h => (hns.of_mem h).2.1) hns.pairwise

/-- **The children of a placed tree follow one another.** -/
theorem Placed.ordered (h : n.Placed) : n.children.Pairwise (·.stop ≤ ·.start) :=
  h.children.pairwise

theorem source_of_stop_le (h : n.stop ≤ n.start) (source : String) : n.source source = "" := by
  rw [Node.source, Text.slice, Nat.sub_eq_zero_of_le h, Text.takeBytes_zero]

theorem start_lt_stop_of_text_ne {source : String} (h : n.text source ≠ "") : n.start < n.stop := by
  refine Nat.lt_of_not_le fun hle => h ?_
  rw [text, source_of_stop_le hle]
  rfl

end Node

end Source

end RouteAtlas
