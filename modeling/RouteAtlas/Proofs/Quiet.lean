import Mathlib.Data.Option.Basic
import Mathlib.Tactic.MkIffOfInductiveProp
import RouteAtlas.Inventory.Extract
import RouteAtlas.Proofs.Trees

/-!
# Code that leaves a router alone

While a file knows one router under one name, a tree that neither uses the name nor makes a router
adds nothing: no pass changes the findings at its nodes. What a pass follows from a node, a returned
value or the root of a chain, stays inside the tree and so leads nowhere either.
-/

open List Option

namespace RouteAtlas.Inventory

open Source Node Findings

/-! ## Trees without effect -/

/-- The kinds of nodes at which something is made, named or called. -/
def isActive (k : Kind) : Bool :=
  k == .callExpression || k == .newExpression || k == .variableDeclarator ||
    k.isFunctionDeclaration || k.isFunctionValue

theorem kindIs_of_inactive {n : Node} (h : n.kindIs isActive = false) {p : Kind → Bool}
    (hp : ∀ k, p k → isActive k) : n.kindIs p = false := by
  unfold kindIs at h ⊢
  cases hk : n.kind? with
  | none => rfl
  | some k =>
    rw [hk] at h
    exact eq_false_of_ne_true fun hpk => absurd (hp k hpk) (by simpa using h)

theorem is_of_inactive {n : Node} (h : n.kindIs isActive = false) {k : Kind}
    (hk : isActive k) : n.is k = false := by
  unfold kindIs at h
  refine eq_false_of_ne_true fun heq => ?_
  rw [eq_of_beq heq, any_some, hk] at h
  cases h

def Inert (n : Node) : Prop := ∀ m ∈ n.nodes, m.kindIs isActive = false
  deriving Decidable

/-- A tree that neither uses a variable nor makes a router. -/
@[mk_iff]
structure Quiet (r : Reading) (var : String) (n : Node) : Prop where
  unused : ∀ m ∈ n.nodes, m.is .identifier → r.textOf m ≠ var
  noRouter : ∀ m ∈ n.nodes, r.roleOf m ≠ .construction

instance (r : Reading) (var : String) (n : Node) : Decidable (Quiet r var n) :=
  decidable_of_iff' _ (quiet_iff r var n)

/-- No node of a tree starts at an offset. -/
def AwayFrom (offset : Nat) (n : Node) : Prop := ∀ m ∈ n.nodes, m.start ≠ offset

section

variable {r : Reading} {var : String} {offset : Nat} {n m : Node}

theorem Quiet.of_mem (h : Quiet r var n) (hm : m ∈ n.nodes) : Quiet r var m where
  unused k hk := h.unused k (mem_nodes_trans hm hk)
  noRouter k hk := h.noRouter k (mem_nodes_trans hm hk)

theorem AwayFrom.of_mem (h : AwayFrom offset n) (hm : m ∈ n.nodes) : AwayFrom offset m :=
  fun k hk => h k (mem_nodes_trans hm hk)

end

theorem chainRoot_mem_nodes (n : Node) : chainRoot n ∈ n.nodes := by
  refine follow_mem_nodes (fun {n m} h => ?_) n
  unfold rootStep? linkStep? receiver? at h
  split at h
  · exact mem_nodes_of_child? h
  split at h
  · -- the receiver is a part of the target, which is a part of the call
    obtain ⟨target, ht, h⟩ := bind_eq_some_iff.mp h
    obtain ⟨-, -, h⟩ := bind_eq_some_iff.mp h
    exact mem_nodes_trans (mem_nodes_of_child (mem_children_of_target? ht)) (mem_nodes_of_child? h)
  · split at h
    · exact mem_nodes_of_named (mem_of_head? h)
    · cases h

/-! ## Active sites -/

/-- The sites of a tree at which something is made, named or called. -/
def activeSites (above : List Node) (n : Node) : List Site :=
  (n.sitesBelow above).filter (·.node.kindIs isActive)

theorem activeSites_inert {n : Node} (h : Inert n) (above : List Node) :
    activeSites above n = [] := by
  rw [activeSites, filter_eq_nil_iff]
  intro s hs
  simp [h s.node (node_mem_nodes_of_mem_sitesBelow hs)]

theorem activeSites_eq (above : List Node) (n : Node) :
    activeSites above n = (if n.kindIs isActive then [⟨n, above⟩] else []) ++
        n.named.flatMap (activeSites (n :: above)) := by
  rw [activeSites, sitesBelow_eq, filter_cons, filter_flatMap]
  split <;> rfl

theorem activeSites_around {n c : Node} (hn : n.kindIs isActive = false) (hnamed : n.named = [c])
    (hc : c.kindIs isActive) (above : List Node) :
    activeSites above n = ⟨c, n :: above⟩ :: c.named.flatMap (activeSites (c :: n :: above)) := by
  rw [activeSites_eq, hn, hnamed, flatMap_singleton, activeSites_eq, hc]
  rfl

theorem filterMap_sites {β : Type} {f : Site → Option β}
    (hf : ∀ s : Site, s.node.kindIs isActive = false → f s = none) (n : Node) :
    n.sites.filterMap f = (activeSites [] n).filterMap f := by
  rw [activeSites, filterMap_filter]
  have heq : f = fun s : Site => if s.node.kindIs isActive then f s else none := by
    funext s
    split
    · rfl
    · exact hf s (eq_false_of_ne_true ‹_›)
  exact congrArg (List.filterMap · n.sites) heq

theorem filter_sites {f : Site → Bool}
    (hf : ∀ s : Site, s.node.kindIs isActive = false → f s = false) (n : Node) :
    n.sites.filter f = (activeSites [] n).filter f := by
  rw [activeSites, List.filter_filter]
  refine filter_congr fun s _ => ?_
  cases hs : s.node.kindIs isActive with
  | false => rw [hf s hs, Bool.and_false]
  | true => rw [Bool.and_true]

theorem foldl_eq_self {α β : Type} {step : β → α → β} {b : β} {as : List α}
    (h : ∀ a ∈ as, step b a = b) : as.foldl step b = b := by
  induction as with
  | nil => rfl
  | cons a as ih =>
    rw [foldl_cons, h a mem_cons_self]
    exact ih fun a' ha' => h a' (mem_cons_of_mem a ha')

/-! ## Findings with one router -/

/-- The findings know one router, under one name; no function makes routers. -/
structure KnowsOnly (x : Findings) (var : String) (scope : Nat × Nat) (offset : Nat) : Prop where
  names : x.names = [⟨var, scope, ⟨0, ""⟩⟩]
  owners : x.owners = [(offset, 0)]
  factories : x.factories = []

def OnlyFramework (bindings : List Binding) : Prop :=
  ∀ b ∈ bindings, isFrameworkModule b.specifier ∧ b.kind ≠ .namespace

section

variable {x : Findings} {r : Reading} {var : String} {scope : Nat × Nat} {offset : Nat} {n : Node}

namespace KnowsOnly

variable (h : KnowsOnly x var scope offset)
include h

theorem lookup?_of_ne {name : String} (hne : name ≠ var) (at_ : Nat) :
    x.lookup? name at_ = none := by
  simp [lookup?, h.names, hne.symm, firstLeast]

theorem lookup?_var {at_ : Nat} (hin : scope.1 ≤ at_) (hout : at_ ≤ scope.2) :
    x.lookup? var at_ = some ⟨0, ""⟩ := by
  simp [lookup?, h.names, hin, hout, firstLeast]

theorem owner?_of_ne {at_ : Nat} (hne : at_ ≠ offset) : x.owner? at_ = none := by
  simp [owner?, h.owners, hne]

/-- The root of a chain in a quiet tree is no router. -/
theorem root_none (hq : Quiet r var n) (ha : AwayFrom offset n) :
    ((chainRoot n).is .identifier → x.lookup? (r.textOf (chainRoot n)) (chainRoot n).start = none) ∧
    x.owner? (chainRoot n).start = none := by
  have hmem := chainRoot_mem_nodes n
  exact ⟨fun hid => h.lookup?_of_ne (hq.unused _ hmem hid) _, h.owner?_of_ne (ha _ hmem)⟩

theorem routerOf?_quiet (hq : Quiet r var n) (ha : AwayFrom offset n) : x.routerOf? r n = none := by
  obtain ⟨hlookup, howner⟩ := h.root_none hq ha
  unfold routerOf?
  simp only
  split
  · exact hlookup ‹_›
  split
  · rw [howner]
    rfl
  · rfl

theorem returned?_quiet (hq : Quiet r var n) (ha : AwayFrom offset n) : x.returned? r n = none := by
  unfold returned?
  cases hb : n.child? .body with
  | none => rfl
  | some body =>
    have hbody := mem_nodes_of_child? hb
    have hnone : ∀ e ∈ body.nodes, x.routerOf? r e.unwrapped = none := fun e he =>
      have hin := mem_nodes_trans hbody (mem_nodes_trans he e.unwrapped_mem_nodes)
      h.routerOf?_quiet (hq.of_mem hin) (ha.of_mem hin)
    simp only [bind_eq_bind, bind_some]
    split
    · rw [findSome?_eq_none_iff]
      intro ret hret
      have hret' := mem_nodes_of_mem_ownNodes (mem_filter.mp hret).1
      cases he : ret.named.head? with
      | none => rfl
      | some e =>
        exact hnone e (mem_nodes_trans hret' (mem_nodes_of_named (mem_of_head? he)))
    · exact hnone body body.self_mem_nodes

theorem factoryTarget?_none (hb : OnlyFramework r.bindings) (call : Node) :
    x.factoryTarget? r call = none := by
  have hfind : ∀ name b, findBinding? r.bindings name = some b →
      isFrameworkModule b.specifier ∧ b.kind ≠ .namespace := fun name b hf =>
    hb b (mem_of_find?_eq_some hf)
  unfold factoryTarget? Reading.moduleMember?
  cases call.target? with
  | none => rfl
  | some function =>
    simp only [bind_eq_bind, bind_some, h.factories]
    split
    · cases hf : findBinding? r.bindings (r.textOf function) with
      | none => rfl
      | some b => simp [(hfind _ b hf).1]
    · split
      · cases function.memberParts? r.source with
        | none => rfl
        | some parts =>
          cases hf : findBinding? r.bindings (r.textOf parts.1) with
          | none => simp [hf]
          | some b => simp [hf, (hfind _ b hf).2]
      · rfl

end KnowsOnly

/-! ## Passes at a node -/

theorem constructionAt?_inactive {s : Site} (h : s.node.kindIs isActive = false) :
    r.constructionAt? s = none := by
  have hd : s.node.is .variableDeclarator = false := is_of_inactive h rfl
  have hn : s.node.is .newExpression = false := is_of_inactive h rfl
  simp [Reading.constructionAt?, hd, hn]

theorem functionAt?_inactive {s : Site} (h : s.node.kindIs isActive = false) :
    r.functionAt? s = none := by
  have hdecl : s.node.kindIs Kind.isFunctionDeclaration = false :=
    kindIs_of_inactive h fun k h => by simp [isActive, h]
  have hd : s.node.is .variableDeclarator = false := is_of_inactive h rfl
  have hf : s.node.is .functionExpression = false := is_of_inactive h rfl
  have ha : s.node.is .arrowFunction = false := is_of_inactive h rfl
  simp [Reading.functionAt?, hdecl, hd, isOneOf, hf, ha]

theorem Quiet.constructionAt? {s : Site} (hq : Quiet r var s.node) :
    r.constructionAt? s = none := by
  unfold Reading.constructionAt?
  split
  · cases hv : s.node.child? .value with
    | none => rfl
    | some value =>
      have hroot : chainRoot value.unwrapped ∈ s.node.nodes :=
        mem_nodes_trans (mem_nodes_of_child? hv)
          (mem_nodes_trans value.unwrapped_mem_nodes (chainRoot_mem_nodes _))
      simp [hq.noRouter _ hroot]
  · simp [hq.noRouter _ s.node.self_mem_nodes]

theorem function_mem_nodes {s : Site} {f : NamedFunction} (hf : r.functionAt? s = some f) :
    f.function ∈ s.node.nodes := by
  unfold Reading.functionAt? at hf
  split at hf
  · simp only [bind_eq_bind, bind_eq_some_iff, Option.pure_def, Option.some.injEq] at hf
    obtain ⟨name, -, rfl⟩ := hf
    exact s.node.self_mem_nodes
  · split at hf
    · simp only [bind_eq_bind, bind_eq_some_iff, Option.pure_def, Option.some.injEq] at hf
      obtain ⟨name, -, value, hv, -, -, rfl⟩ := hf
      exact mem_nodes_of_child? hv
    · split at hf
      · cases hf
        exact s.node.self_mem_nodes
      · cases hf

namespace KnowsOnly

variable (h : KnowsOnly x var scope offset)
include h

theorem withFunction_quiet {s : Site} (hq : Quiet r var s.node) (ha : AwayFrom offset s.node)
    {f : NamedFunction} (hf : r.functionAt? s = some f) : x.withFunction r f = x := by
  have hin := function_mem_nodes hf
  rw [withFunction, h.returned?_quiet (hq.of_mem hin) (ha.of_mem hin)]

theorem withAlias_quiet (hb : OnlyFramework r.bindings) {s : Site} (hq : Quiet r var s.node)
    (ha : AwayFrom offset s.node) : x.withAlias r s = x := by
  unfold withAlias
  split
  · rename_i name value hname hvalue
    have hin : value.unwrapped ∈ s.node.nodes :=
      mem_nodes_trans (mem_nodes_of_child? hvalue) value.unwrapped_mem_nodes
    obtain ⟨hlookup, -⟩ := h.root_none (hq.of_mem hin) (ha.of_mem hin)
    simp only
    split
    · rfl
    split
    · rw [hlookup ‹_›]
    · split
      · rw [h.factoryTarget?_none hb]
      · rfl
  · rfl

theorem withChain_quiet (hq : Quiet r var n) (ha : AwayFrom offset n) : x.withChain r n = x := by
  obtain ⟨hlookup, howner⟩ := h.root_none hq ha
  have hstart : x.chainStart? r n = none := by
    unfold chainStart?
    simp only
    split
    · exact hlookup ‹_›
    split
    · rw [howner]
      rfl
    · rfl
  rw [withChain, hstart]

end KnowsOnly

end

end RouteAtlas.Inventory
