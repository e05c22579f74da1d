import Mathlib.Data.List.Nodup
import Mathlib.Data.List.Perm.Basic
import RouteAtlas.Proofs.Registrations

/-!
# Links of call chains

Chains are followed inwards from their outermost calls, through members and through parentheses,
non-null assertions and `await`. Outermost calls are recognised outwards, but through members only:
a call in a wrapper counts as outermost also where the wrapper is the object of a further call. The
chain of that further call goes through the wrapper, so the inner call is a part of two chains.

`chainsThrough` counts, from a node outwards, the outermost calls whose chains go through the node.
-/

open List

namespace RouteAtlas.Source.Node

/-- Where steps lead to smaller nodes, what is followed does not hang on the number of steps. -/
theorem follow_of_step {step : Node → Option Node}
    (hstep : ∀ {n m}, step n = some m → m.size < n.size) {n m : Node} (h : step n = some m) :
    n.follow step = m.follow step := by
  have hfuel : ∀ (fuel : Nat) (n : Node), n.size ≤ fuel →
      followUpTo step fuel n = followUpTo step n.size n := by
    intro fuel
    induction fuel using Nat.strongRecOn with
    | _ fuel ih =>
      intro n hn
      obtain ⟨size, hsize⟩ := Nat.exists_eq_succ_of_ne_zero (Nat.ne_of_gt n.size_pos)
      obtain ⟨less, rfl⟩ := Nat.exists_eq_succ_of_ne_zero
        (Nat.ne_of_gt (Nat.lt_of_lt_of_le n.size_pos hn))
      rw [hsize, followUpTo, followUpTo]
      split
      · rename_i m hm
        have hlt := hstep hm
        rw [ih less (Nat.lt_succ_self _) m (by omega), ih size (by omega) m (by omega)]
      · rfl
  obtain ⟨size, hsize⟩ := Nat.exists_eq_succ_of_ne_zero (Nat.ne_of_gt n.size_pos)
  have hlt := hstep h
  rw [follow, hsize, followUpTo, h]
  exact hfuel size m (by omega)

end RouteAtlas.Source.Node

namespace RouteAtlas.Inventory

open Source Node

variable {n m p : Node} {above : List Node}
variable {tree g : Node} {rest : List Node}

/-! ## A chain link by link -/

def isMemberCall (n : Node) : Bool := n.is .callExpression && n.target?.any isAccess

theorem isAccess_of_call (h : n.is .callExpression) : isAccess n = false := by
  simp [isAccess, isOneOf, is_of_is h]

theorem isWrapper_of_call (h : n.is .callExpression) : isWrapper n = false := by
  simp [isWrapper, isOneOf, is_of_is h]

theorem is_call_of_access (h : isAccess n) : n.is .callExpression = false := by
  by_contra hcall
  rw [isAccess_of_call (eq_true_of_ne_false hcall)] at h
  cases h

theorem isWrapper_of_access (h : isAccess n) : isWrapper n = false := by
  simp only [isAccess, isOneOf, any_cons, any_nil, Bool.or_false, Bool.or_eq_true] at h
  rcases h with h | h <;> simp [isWrapper, isOneOf, is_of_is h]

theorem receiver?_of_target {target : Node} (h : n.target? = some target) :
    receiver? n = if isAccess target then target.child? .object else none := by
  unfold receiver?
  rw [h]
  show Option.bind (guard (isAccess target)) (fun _ => target.child? .object) = _
  unfold guard
  split <;> rfl

theorem receiver?_of_none (h : n.target? = none) : receiver? n = none := by
  unfold receiver?
  rw [h]
  rfl

theorem exists_target_of_receiver? (h : receiver? n = some m) : ∃ target,
    n.target? = some target ∧ isAccess target ∧ target.child? .object = some m := by
  cases htarget : n.target? with
  | none =>
    rw [receiver?_of_none htarget] at h
    cases h
  | some target =>
    rw [receiver?_of_target htarget] at h
    split at h
    · exact ⟨target, rfl, ‹_›, h⟩
    · cases h

theorem size_lt_of_linkStep? (h : linkStep? n = some m) : m.size < n.size := by
  unfold linkStep? at h
  split at h
  · obtain ⟨target, htarget, -, hobject⟩ := exists_target_of_receiver? h
    exact Nat.lt_trans (size_lt_of_mem_children (mem_children_of_child? hobject))
      (size_lt_of_mem_children (mem_children_of_target? htarget))
  · split at h
    · exact size_lt_of_mem_children (mem_children_of_named (mem_of_head? h))
    · cases h

theorem size_lt_of_rootStep? (h : rootStep? n = some m) : m.size < n.size := by
  unfold rootStep? at h
  split at h
  · exact size_lt_of_mem_children (mem_children_of_child? h)
  · exact size_lt_of_linkStep? h

theorem callsInward_succ (fuel : Nat) (n : Node) : callsInward (fuel + 1) n =
    (if isMemberCall n then [n] else []) ++ ((linkStep? n).map (callsInward fuel)).getD [] := by
  rw [callsInward]
  cases hcall : n.is .callExpression with
  | false => simp [isMemberCall, hcall]
  | true =>
    cases htarget : n.target? with
    | none => simp [isMemberCall, linkStep?, hcall, htarget, receiver?_of_none htarget]
    | some target =>
      cases haccess : isAccess target <;>
        simp [isMemberCall, linkStep?, hcall, htarget, receiver?_of_target htarget, haccess]

theorem callsInward_of_le (fuel : Nat) (n : Node) (h : n.size ≤ fuel) :
    callsInward fuel n = callsInward n.size n := by
  induction fuel using Nat.strongRecOn generalizing n with
  | _ fuel ih =>
    obtain ⟨size, hsize⟩ := Nat.exists_eq_succ_of_ne_zero (Nat.ne_of_gt n.size_pos)
    obtain ⟨less, rfl⟩ := Nat.exists_eq_succ_of_ne_zero
      (Nat.ne_of_gt (Nat.lt_of_lt_of_le n.size_pos h))
    rw [hsize, callsInward_succ, callsInward_succ]
    cases hlink : linkStep? n with
    | none => rfl
    | some m =>
      have hlt := size_lt_of_linkStep? hlink
      simp only [Option.map_some]
      rw [ih less (Nat.lt_succ_self _) m (by omega), ih size (by omega) m (by omega)]

theorem chainCalls_eq (n : Node) : chainCalls n =
    ((linkStep? n).map chainCalls).getD [] ++ if isMemberCall n then [n] else [] := by
  obtain ⟨size, hsize⟩ := Nat.exists_eq_succ_of_ne_zero (Nat.ne_of_gt n.size_pos)
  rw [chainCalls, hsize, callsInward_succ, reverse_append]
  congr 1
  · cases hlink : linkStep? n with
    | none => rfl
    | some m =>
      have hlt := size_lt_of_linkStep? hlink
      simp only [Option.map_some, Option.getD_some, chainCalls]
      rw [callsInward_of_le size m (by omega)]
  · split <;> rfl

theorem chainRoot_eq (h : linkStep? n = some m) : chainRoot n = chainRoot m := by
  refine follow_of_step (fun hstep => size_lt_of_rootStep? hstep) ?_
  have haccess : isAccess n = false := by
    by_contra haccess
    have haccess := eq_true_of_ne_false haccess
    simp [linkStep?, is_call_of_access haccess, isWrapper_of_access haccess] at h
  rw [rootStep?, haccess]
  exact h

/-- The calls of a chain are smaller than what they are a part of, or it. -/
theorem size_le_of_mem_chainCalls (n : Node) : ∀ c ∈ chainCalls n, c.size ≤ n.size := by
  induction hsize : n.size using Nat.strongRecOn generalizing n with
  | _ size ih =>
    intro c hc
    rw [chainCalls_eq] at hc
    rcases mem_append.1 hc with hinner | hself
    · cases hlink : linkStep? n with
      | none => simp [hlink] at hinner
      | some m =>
        have hlt := size_lt_of_linkStep? hlink
        simp only [hlink] at hinner
        have hle := ih m.size (by omega) m rfl c hinner
        omega
    · split at hself
      · exact mem_singleton.1 hself ▸ Nat.le_of_eq hsize
      · cases hself

theorem nodup_chainCalls (n : Node) : (chainCalls n).Nodup := by
  induction hsize : n.size using Nat.strongRecOn generalizing n with
  | _ size ih =>
    rw [chainCalls_eq]
    cases hlink : linkStep? n with
    | none => split <;> simp
    | some m =>
      have hlt := size_lt_of_linkStep? hlink
      split
      · refine nodup_append.2 ⟨ih m.size (by omega) m rfl, by simp, ?_⟩
        rintro c hc _ hn rfl
        have hle := size_le_of_mem_chainCalls m c hc
        rw [mem_singleton.1 hn] at hle
        omega
      · rw [append_nil]
        exact ih m.size (by omega) m rfl

/-! ## From a link outwards -/

def isTarget (n : Node) : Bool := n.role == some .function || n.role == some .constructor

/-- A chain through a node goes on through a child: from a call to the member that is called, from
such a member to its object, and from a wrapper to its value. -/
def leadsTo (n m : Node) : Bool :=
  if n.is .callExpression then isAccess m && isTarget m
  else if isAccess n then !isAccess m && m.role == some .object
  else isWrapper n && !isAccess m && decide (n.named.head? = some m)

def startsChain (s : Site) : Bool := s.node.is .callExpression && isOutermostCall s

/-- The number of chains that are followed through a node. -/
def chainsThrough : Node → List Node → Nat
  | n, [] => (startsChain ⟨n, []⟩).toNat
  | n, p :: above =>
    (startsChain ⟨n, p :: above⟩).toNat + if leadsTo p n then chainsThrough p above else 0

/-- The number of chains that are followed through a node and start around it. -/
def chainsInto (n : Node) : List Node → Nat
  | [] => 0
  | p :: above => if leadsTo p n then chainsThrough p above else 0

theorem chainsThrough_eq (above : List Node) :
    chainsThrough n above = (startsChain ⟨n, above⟩).toNat + chainsInto n above := by
  cases above <;> rfl

/-- The calls of a chain that goes through a node. -/
def callsThrough (n : Node) : List Node :=
  if isAccess n then ((n.child? .object).map chainCalls).getD [] else chainCalls n

/-! ## Both ways are the same -/

/-- A node has at most one object and at most one part that is called. -/
def SingleParts (n : Node) : Prop :=
  (n.children.filter (·.role == some .object)).length ≤ 1 ∧ (n.children.filter isTarget).length ≤ 1
  deriving Decidable

theorem eq_toList_of_length_le_one {α : Type} {l : List α} (h : l.length ≤ 1) :
    l = l.head?.toList := by
  match l, h with
  | [], _ => rfl
  | [a], _ => rfl

theorem SingleParts.objects (h : SingleParts n) :
    n.children.filter (·.role == some .object) = (n.child? .object).toList := by
  rw [eq_toList_of_length_le_one h.1, head?_filter]
  rfl

theorem SingleParts.targets (h : SingleParts n) :
    n.children.filter isTarget = n.target?.toList := by
  have hmem : ∀ m ∈ n.children, isTarget m → n.children.filter isTarget = [m] := by
    intro m hm hrole
    have hlist := eq_toList_of_length_le_one h.2
    have hin : m ∈ n.children.filter isTarget := mem_filter.2 ⟨hm, hrole⟩
    rw [hlist, Option.mem_toList] at hin
    rw [hlist, hin]
    rfl
  unfold target?
  cases hfunction : n.child? .function with
  | some m =>
    have hrole : (m.role == some .function) := by simpa using find?_some hfunction
    exact hmem m (mem_children_of_child? hfunction) (by rw [isTarget, hrole]; rfl)
  | none =>
    cases hconstructor : n.child? .constructor with
    | some m =>
      have hrole : (m.role == some .constructor) := by
        simpa using find?_some hconstructor
      exact hmem m (mem_children_of_child? hconstructor) (by rw [isTarget, hrole, Bool.or_true])
    | none =>
      refine filter_eq_nil_iff.2 fun m hm hrole => ?_
      have hnot := find?_eq_none.1 hfunction m hm
      have hnot' := find?_eq_none.1 hconstructor m hm
      simp only [isTarget, Bool.or_eq_true] at hrole
      exact hrole.elim hnot hnot'

theorem isNamed_of_isOneOf {kinds : List Kind} (h : n.isOneOf kinds) : n.isNamed := by
  obtain ⟨kind, -, hkind⟩ := any_eq_true.1 h
  rw [isNamed, eq_of_beq hkind]
  rfl

theorem linkStep?_of_stop (hcall : n.is .callExpression = false) (hwrapper : isWrapper n = false) :
    linkStep? n = none := by
  simp [linkStep?, hcall, hwrapper]

theorem chainCalls_of_stop (hcall : n.is .callExpression = false) (hwrapper : isWrapper n = false) :
    chainCalls n = [] := by
  rw [chainCalls_eq, linkStep?_of_stop hcall hwrapper, isMemberCall, hcall]
  rfl

theorem chainCalls_of_access (h : isAccess n) : chainCalls n = [] :=
  chainCalls_of_stop (is_call_of_access h) (isWrapper_of_access h)

theorem chainCalls_of_token (h : n.isNamed = false) : chainCalls n = [] := by
  have hnone : n.kind? = none := by simpa [isNamed] using h
  refine chainCalls_of_stop ?_ ?_ <;> simp [isWrapper, isOneOf, is, hnone]

theorem filter_leadsTo_of_call (hparts : SingleParts n) (hcall : n.is .callExpression) :
    n.named.filter (leadsTo n) = n.target?.toList.filter isAccess := by
  rw [← hparts.targets, named, filter_filter, filter_filter]
  refine filter_congr fun m _ => ?_
  simp only [leadsTo, hcall]
  cases haccess : isAccess m with
  | false => rfl
  | true => simp [isNamed_of_isOneOf haccess]

theorem filter_leadsTo_of_access (hparts : SingleParts n) (haccess : isAccess n) :
    n.named.filter (leadsTo n) =
      (n.child? .object).toList.filter fun m => m.isNamed && !isAccess m := by
  rw [← hparts.objects, named, filter_filter, filter_filter]
  refine filter_congr fun m _ => ?_
  simp only [leadsTo, is_call_of_access haccess, haccess]
  cases m.isNamed <;> simp

theorem filter_leadsTo_of_wrapper (hnamed : n.named.Nodup) (hcall : n.is .callExpression = false)
    (haccess : isAccess n = false) (hwrapper : isWrapper n) :
    n.named.filter (leadsTo n) = n.named.head?.toList.filter (!isAccess ·) := by
  have hlead : leadsTo n = fun m => !isAccess m && decide (n.named.head? = some m) := by
    funext m
    simp [leadsTo, hcall, haccess, hwrapper]
  rw [hlead]
  cases hlist : n.named with
  | nil => rfl
  | cons value rest =>
    rw [hlist] at hnamed
    have hrest : rest.filter (fun m => !isAccess m && decide ((value :: rest).head? = some m)) =
        [] := by
      refine filter_eq_nil_iff.2 fun m hm hboth => ?_
      rw [Bool.and_eq_true, decide_eq_true_eq] at hboth
      exact (nodup_cons.1 hnamed).1 (Option.some.inj hboth.2 ▸ hm)
    rw [filter_cons, hrest]
    cases hinner : isAccess value <;> simp [hinner]

/-- **What is followed inwards is what leads outwards.** -/
theorem callsThrough_eq (hparts : SingleParts n) (hnamed : n.named.Nodup) : callsThrough n =
    (n.named.filter (leadsTo n)).flatMap callsThrough ++ if isMemberCall n then [n] else [] := by
  cases hcall : n.is .callExpression with
  | true =>
    rw [filter_leadsTo_of_call hparts hcall, callsThrough, isAccess_of_call hcall, chainCalls_eq]
    cases htarget : n.target? with
    | none => simp [linkStep?, hcall, receiver?_of_none htarget]
    | some target =>
      cases haccess : isAccess target <;>
        simp [linkStep?, hcall, receiver?_of_target htarget, haccess, callsThrough]
  | false =>
    have hmember : isMemberCall n = false := by rw [isMemberCall, hcall]; rfl
    rw [hmember, callsThrough]
    cases haccess : isAccess n with
    | true =>
      rw [filter_leadsTo_of_access hparts haccess]
      cases n.child? .object with
      | none => rfl
      | some m =>
        cases hname : m.isNamed with
        | false => simp [hname, chainCalls_of_token hname]
        | true =>
          cases hinner : isAccess m with
          | false => simp [hname, hinner, callsThrough]
          | true => simp [hinner, chainCalls_of_access hinner]
    | false =>
      cases hwrapper : isWrapper n with
      | true =>
        have hlink : linkStep? n = n.named.head? := by simp [linkStep?, hcall, hwrapper]
        rw [filter_leadsTo_of_wrapper hnamed hcall haccess hwrapper, chainCalls_eq, hmember, hlink]
        cases n.named.head? with
        | none => rfl
        | some value =>
          cases hinner : isAccess value with
          | false => simp [hinner, callsThrough]
          | true => simp [hinner, chainCalls_of_access hinner]
      | false =>
        have hlead : leadsTo n = fun _ => false := by
          funext m
          simp [leadsTo, hcall, haccess, hwrapper]
        rw [chainCalls_of_stop hcall hwrapper, hlead]
        simp

/-! ## How often a call is processed -/

/-- The calls of all chains that start in a part of a tree, chain by chain. -/
def processedIn (n : Node) (above : List Node) : List Node :=
  ((n.sitesBelow above).filter startsChain).flatMap fun s => chainCalls s.node

/-- The calls of members in a part of a tree, each as often as chains go through it. -/
def countedIn (n : Node) (above : List Node) : List Node :=
  ((n.sitesBelow above).filter (isMemberCall ·.node)).flatMap fun s =>
    List.replicate (chainsThrough s.node s.above) s.node

/-- What the chosen sites of a node give: what the node itself gives, then its children. -/
theorem flatMap_filter_sitesBelow (chosen : Site → Bool) (f : Site → List Node) (n : Node)
    (above : List Node) : ((n.sitesBelow above).filter chosen).flatMap f =
      (if chosen ⟨n, above⟩ then f ⟨n, above⟩ else []) ++
        n.named.flatMap fun m => ((m.sitesBelow (n :: above)).filter chosen).flatMap f := by
  rw [sitesBelow_eq, filter_cons, filter_flatMap]
  split
  · rw [flatMap_cons, flatMap_assoc]
  · rw [flatMap_assoc]
    rfl

theorem processedIn_eq (above : List Node) : processedIn n above =
    (if startsChain ⟨n, above⟩ then chainCalls n else []) ++
      n.named.flatMap fun m => processedIn m (n :: above) :=
  flatMap_filter_sitesBelow startsChain _ n above

theorem countedIn_eq (above : List Node) : countedIn n above =
    (if isMemberCall n then List.replicate (chainsThrough n above) n else []) ++
      n.named.flatMap fun m => countedIn m (n :: above) :=
  flatMap_filter_sitesBelow (isMemberCall ·.node) _ n above

/-- Sums over the children of a node, one child after the other. -/
theorem count_flatMap_add (f g T : Node → List Node) (lead : Node → Bool) (k : Nat) (v : Node) :
    ∀ ns : List Node,
      (∀ m ∈ ns, (f m).count v + (if lead m then k else 0) * (T m).count v = (g m).count v) →
      (ns.flatMap f).count v + k * ((ns.filter lead).flatMap T).count v = (ns.flatMap g).count v
  | [], _ => by simp
  | m :: ns, h => by
    have hm := h m mem_cons_self
    have hns := count_flatMap_add f g T lead k v ns fun m' hm' => h m' (mem_cons_of_mem m hm')
    rw [flatMap_cons, flatMap_cons, count_append, count_append, ← hm, filter_cons]
    cases lead m with
    | false => simp only [Bool.false_eq_true, if_false]; omega
    | true => simp only [if_true, flatMap_cons, count_append, Nat.mul_add]; omega

/-- The sites of a tree: no two of them have one node, and each has single parts. -/
@[mk_iff]
structure RegularIn (n : Node) (above : List Node) : Prop where
  parts : ∀ s ∈ n.sitesBelow above, SingleParts s.node
  distinct : ((n.sitesBelow above).map Site.node).Nodup

theorem self_mem_sitesBelow (n : Node) (above : List Node) : ⟨n, above⟩ ∈ n.sitesBelow above := by
  rw [sitesBelow_eq]
  exact mem_cons_self

theorem mem_sitesBelow_of_named (hm : m ∈ n.named) {s : Site} (hs : s ∈ m.sitesBelow (n :: above)) :
    s ∈ n.sitesBelow above := by
  rw [sitesBelow_eq]
  exact mem_cons_of_mem _ (mem_flatMap.2 ⟨m, hm, hs⟩)

theorem RegularIn.nodup_flatMap (h : RegularIn n above) :
    (n.named.flatMap fun m => (m.sitesBelow (n :: above)).map Site.node).Nodup := by
  have hdistinct := h.distinct
  rw [sitesBelow_eq, map_cons, map_flatMap] at hdistinct
  exact (nodup_cons.1 hdistinct).2

theorem RegularIn.named (h : RegularIn n above) (hm : m ∈ n.named) : RegularIn m (n :: above) where
  parts s hs := h.parts s (mem_sitesBelow_of_named hm hs)
  distinct := (List.nodup_flatMap.1 h.nodup_flatMap).1 m hm

theorem RegularIn.nodup_named (h : RegularIn n above) : n.named.Nodup := by
  refine (List.nodup_flatMap.1 h.nodup_flatMap).2.imp fun {m m'} hdisjoint heq => ?_
  have hself : m ∈ (m.sitesBelow (n :: above)).map Site.node :=
    mem_map.2 ⟨_, self_mem_sitesBelow m _, rfl⟩
  exact hdisjoint hself (heq ▸ hself)

/-- **Chains in a part of a tree, and chains that come into it**, hold each call as often as chains
go through it. -/
theorem count_processedIn (v n : Node) (above : List Node) (h : RegularIn n above) :
    (processedIn n above).count v + chainsInto n above * (callsThrough n).count v =
      (countedIn n above).count v := by
  -- the children, each of which takes the chains that lead to it
  have hchildren := count_flatMap_add (fun m => processedIn m (n :: above))
    (fun m => countedIn m (n :: above)) callsThrough (leadsTo n) (chainsThrough n above) v n.named
    fun m hm =>
      have := size_lt_of_mem_children (mem_children_of_named hm)
      count_processedIn v m (n :: above) (h.named hm)
  have hown := callsThrough_eq (n := n) (h.parts _ (self_mem_sitesBelow n above)) h.nodup_named
  have hstart : (if startsChain ⟨n, above⟩ then chainCalls n else []).count v =
      (startsChain ⟨n, above⟩).toNat * (callsThrough n).count v := by
    cases hstarts : startsChain ⟨n, above⟩ with
    | false => simp
    | true =>
      rw [startsChain, Bool.and_eq_true] at hstarts
      simp [callsThrough, isAccess_of_call hstarts.1]
  have hself : (if isMemberCall n then List.replicate (chainsThrough n above) n else []).count v =
      chainsThrough n above * (if isMemberCall n then [n] else []).count v := by
    cases isMemberCall n with
    | false => simp
    | true => by_cases hv : n = v <;> simp [count_replicate, hv]
  calc (processedIn n above).count v + chainsInto n above * (callsThrough n).count v
      = (n.named.flatMap fun m => processedIn m (n :: above)).count v +
          chainsThrough n above * (callsThrough n).count v := by
        rw [processedIn_eq, count_append, chainsThrough_eq, Nat.add_mul]
        omega
    _ = (n.named.flatMap fun m => countedIn m (n :: above)).count v +
          chainsThrough n above * (if isMemberCall n then [n] else []).count v := by
        rw [hown, count_append, Nat.mul_add]
        omega
    _ = (countedIn n above).count v := by
        rw [countedIn_eq, count_append]
        omega
termination_by n.size

/-! ## The calls of a tree -/

/-- No two sites of a tree have one node, and no node has two objects or two parts that are called.
Nodes carry their places, so the first is a matter of nodes without extent only. -/
def Regular (tree : Node) : Prop := RegularIn tree []

instance (tree : Node) : Decidable (Regular tree) :=
  decidable_of_iff' _ (regularIn_iff tree [])

/-- The calls whose chains are followed. -/
def outermostCalls (tree : Node) : List Site := tree.sites.filter startsChain

def memberCalls (tree : Node) : List Site := tree.sites.filter (isMemberCall ·.node)

/-- **All chains of a tree together** hold each call of a member as often as chains go through it.
-/
theorem processed_perm (h : Regular tree) :
    ((outermostCalls tree).flatMap fun s => chainCalls s.node).Perm
      ((memberCalls tree).flatMap fun s =>
        List.replicate (chainsThrough s.node s.above) s.node) := by
  refine perm_iff_count.2 fun v => ?_
  have hcount := count_processedIn v tree [] h
  rwa [chainsInto, Nat.zero_mul, Nat.add_zero] at hcount

theorem countP_mem_chainCalls (v : Node) (sites : List Site) :
    sites.countP (fun s => decide (v ∈ chainCalls s.node)) =
      (sites.flatMap fun s => chainCalls s.node).count v := by
  induction sites with
  | nil => rfl
  | cons s sites ih =>
    rw [countP_cons, ih, flatMap_cons, count_append, (nodup_chainCalls s.node).count]
    simp only [decide_eq_true_eq]
    exact Nat.add_comm _ _

theorem count_replicates {count : Site → Nat} {sites : List Site}
    (hdistinct : (sites.map Site.node).Nodup) {c : Site} (hc : c ∈ sites) :
    (sites.flatMap fun s => List.replicate (count s) s.node).count c.node = count c := by
  have hnone : ∀ (sites : List Site), c.node ∉ sites.map Site.node →
      (sites.flatMap fun s => List.replicate (count s) s.node).count c.node = 0 := by
    intro sites hnot
    refine count_eq_zero.2 fun hmem => hnot ?_
    obtain ⟨s, hs, hmem⟩ := mem_flatMap.1 hmem
    exact mem_map.2 ⟨s, hs, (eq_of_mem_replicate hmem).symm⟩
  induction sites with
  | nil => cases hc
  | cons s sites ih =>
    rw [map_cons, nodup_cons] at hdistinct
    rw [flatMap_cons, count_append, count_replicate]
    rcases mem_cons.1 hc with rfl | hc
    · rw [hnone sites hdistinct.1]
      simp
    · have hne : s.node ≠ c.node := fun heq => hdistinct.1 (heq ▸ mem_map.2 ⟨c, hc, rfl⟩)
      rw [ih hdistinct.2 hc]
      simp [hne]

/-- **The number of outermost calls in whose chains a call of a member is.** -/
theorem countP_outermostCalls (h : Regular tree) {c : Site} (hc : c ∈ memberCalls tree) :
    (outermostCalls tree).countP (fun o => decide (c.node ∈ chainCalls o.node)) =
      chainsThrough c.node c.above := by
  have hdistinct : ((memberCalls tree).map Site.node).Nodup :=
    h.distinct.sublist (filter_sublist.map _)
  rw [countP_mem_chainCalls, (processed_perm h).count_eq, count_replicates hdistinct hc]

/-! ## Calls in wrappers that are called on -/

/-- A node is the value of a wrapper that is the object of a called member, or that is itself so
wrapped. -/
def calledInWrapper : Node → List Node → Bool
  | _, [] => false
  | n, w :: above => isWrapper w && decide (w.named.head? = some n) &&
      (!isOutermostCall ⟨w, above⟩ || calledInWrapper w above)

theorem not_outermost_iff :
    isOutermostCall ⟨n, p :: g :: rest⟩ = false ↔
      isAccess p ∧ n.role = some .object ∧ g.is .callExpression ∧ isTarget p := by
  show (!(isAccess p && n.role == some .object && g.is .callExpression && isTarget p)) = false ↔ _
  simp [and_assoc]

theorem exists_of_not_outermost (h : isOutermostCall ⟨n, above⟩ = false) :
    ∃ p g rest, above = p :: g :: rest := by
  match above, h with
  | p :: g :: rest, _ => exact ⟨p, g, rest, rfl⟩

theorem outermost_of_not_access (h : isAccess p = false) : isOutermostCall ⟨n, p :: above⟩ := by
  cases above with
  | nil => rfl
  | cons g rest => simp [isOutermostCall, h]

theorem leadsTo_call (hcall : p.is .callExpression) : leadsTo p n = (isAccess n && isTarget n) := by
  rw [leadsTo, if_pos hcall]

theorem leadsTo_access (haccess : isAccess p) :
    leadsTo p n = (!isAccess n && n.role == some .object) := by
  rw [leadsTo, if_neg (Bool.eq_false_iff.1 (is_call_of_access haccess)), if_pos haccess]

theorem leadsTo_other (hcall : p.is .callExpression = false) (haccess : isAccess p = false) :
    leadsTo p n = (isWrapper p && !isAccess n && decide (p.named.head? = some n)) := by
  rw [leadsTo, if_neg (Bool.eq_false_iff.1 hcall), if_neg (Bool.eq_false_iff.1 haccess)]

theorem chainsThrough_of_not_call (h : n.is .callExpression = false) (above : List Node) :
    chainsThrough n above = chainsInto n above := by
  rw [chainsThrough_eq, startsChain, h, Bool.false_and, Bool.toNat_false, Nat.zero_add]

theorem chainsInto_access (h : isAccess p) (g : Node) (rest : List Node) :
    chainsInto p (g :: rest) =
      if g.is .callExpression ∧ isTarget p = true then chainsThrough g rest else 0 := by
  rw [chainsInto]
  cases hcall : g.is .callExpression with
  | true => simp [leadsTo_call hcall, h]
  | false =>
    cases haccess : isAccess g with
    | true => simp [leadsTo_access haccess, h]
    | false => simp [leadsTo_other hcall haccess, h]

/-- The chains through a call that is the object of a called member are those of the next call. -/
theorem chainsThrough_of_not_outermost (hcall : n.is .callExpression)
    (h : isOutermostCall ⟨n, p :: g :: rest⟩ = false) :
    chainsThrough n (p :: g :: rest) = chainsThrough g rest := by
  obtain ⟨haccess, hrole, hg, htarget⟩ := not_outermost_iff.1 h
  have hlead : leadsTo p n := by
    simp [leadsTo_access haccess, isAccess_of_call hcall, hrole]
  rw [chainsThrough_eq, startsChain, h, Bool.and_false, chainsInto, if_pos hlead,
    chainsThrough_of_not_call (is_call_of_access haccess), chainsInto_access haccess,
    if_pos ⟨hg, htarget⟩]
  exact Nat.zero_add _

/-- **Every call is in a chain** that is followed, if it has a place in one. -/
theorem chainsThrough_pos {n : Node} (hcall : n.is .callExpression) (above : List Node) :
    0 < chainsThrough n above := by
  cases houter : isOutermostCall ⟨n, above⟩ with
  | true =>
    rw [chainsThrough_eq, startsChain, hcall, houter]
    exact Nat.lt_of_lt_of_le Nat.zero_lt_one (Nat.le_add_right _ _)
  | false =>
    obtain ⟨p, g, rest, rfl⟩ := exists_of_not_outermost houter
    rw [chainsThrough_of_not_outermost hcall houter]
    exact chainsThrough_pos (not_outermost_iff.1 houter).2.2.1 rest
termination_by above.length

/-- A chain comes into a node that is the object of a called member, in wrappers or not. -/
theorem chainsInto_pos_iff (haccess : isAccess n = false) (above : List Node) :
    0 < chainsInto n above ↔ isOutermostCall ⟨n, above⟩ = false ∨ calledInWrapper n above := by
  induction above generalizing n with
  | nil => simp [chainsInto, isOutermostCall, calledInWrapper]
  | cons p above ih =>
    rw [chainsInto, calledInWrapper]
    cases hcall : p.is .callExpression with
    | true =>
      simp [leadsTo_call hcall, haccess, isWrapper_of_call hcall,
        outermost_of_not_access (isAccess_of_call hcall)]
    | false =>
      cases hmember : isAccess p with
      | true =>
        -- the object of a member, which is called or not
        rw [leadsTo_access hmember, chainsThrough_of_not_call hcall, isWrapper_of_access hmember]
        cases above with
        | nil => simp [chainsInto, isOutermostCall]
        | cons g rest =>
          have hpos : g.is .callExpression → 0 < chainsThrough g rest :=
            fun hg => chainsThrough_pos hg rest
          rw [chainsInto_access hmember, not_outermost_iff]
          by_cases hg : g.is .callExpression = true <;> by_cases htarget : isTarget p = true <;>
            by_cases hrole : n.role = some .object <;>
              simp [hg, htarget, hrole, haccess, hmember, hpos]
      | false =>
        rw [leadsTo_other hcall hmember, chainsThrough_of_not_call hcall,
          outermost_of_not_access hmember]
        have hinner := ih hmember
        cases isWrapper p with
        | false => simp
        | true => by_cases hvalue : p.named.head? = some n <;> simp [hvalue, haccess, hinner]

theorem mem_sitesBelow_cases (n : Node) (base : List Node) {s : Site} (h : s ∈ n.sitesBelow base) :
    s = ⟨n, base⟩ ∨ ∃ p above, s.above = p :: above ∧ ⟨p, above⟩ ∈ n.sitesBelow base ∧
      s.node ∈ p.named := by
  rw [sitesBelow_eq] at h
  rcases mem_cons.1 h with hself | hinner
  · exact .inl hself
  obtain ⟨m, hm, hs⟩ := mem_flatMap.1 hinner
  have := size_lt_of_mem_children (mem_children_of_named hm)
  right
  obtain rfl | ⟨p, above, habove, hp, hnode⟩ := mem_sitesBelow_cases m (n :: base) hs
  · exact ⟨n, base, rfl, self_mem_sitesBelow n base, hm⟩
  · exact ⟨p, above, habove, mem_sitesBelow_of_named hm hp, hnode⟩
termination_by n.size

theorem mem_sites_above (h : ⟨n, p :: above⟩ ∈ tree.sites) :
    ⟨p, above⟩ ∈ tree.sites ∧ n ∈ p.named := by
  obtain hroot | ⟨p', above', habove, hp, hn⟩ := mem_sitesBelow_cases tree [] h
  · cases hroot
  · cases habove
    exact ⟨hp, hn⟩

theorem mem_sites_of_not_outermost (hregular : Regular tree)
    (hsite : ⟨n, p :: g :: rest⟩ ∈ tree.sites) (h : isOutermostCall ⟨n, p :: g :: rest⟩ = false) :
    ⟨g, rest⟩ ∈ tree.sites ∧ isMemberCall g := by
  obtain ⟨haccess, -, hg, htarget⟩ := not_outermost_iff.1 h
  obtain ⟨hgsite, hpnamed⟩ := mem_sites_above (mem_sites_above hsite).1
  have hparts : SingleParts g := hregular.parts _ hgsite
  have hmem : p ∈ g.children.filter isTarget :=
    mem_filter.2 ⟨mem_children_of_named hpnamed, htarget⟩
  rw [hparts.targets, Option.mem_toList] at hmem
  refine ⟨hgsite, ?_⟩
  rw [isMemberCall, hg, hmem]
  exact haccess

theorem chainsThrough_eq_one (hregular : Regular tree)
    (h : ∀ c ∈ memberCalls tree, calledInWrapper c.node c.above = false) (n : Node)
    (above : List Node) (hsite : ⟨n, above⟩ ∈ tree.sites) (hmember : isMemberCall n) :
    chainsThrough n above = 1 := by
  have hcall : n.is .callExpression := (Bool.and_eq_true_iff.1 hmember).1
  cases houter : isOutermostCall ⟨n, above⟩ with
  | true =>
    have hwrapper := h _ (mem_filter.2 ⟨hsite, hmember⟩)
    have hnone : ¬ 0 < chainsInto n above := by
      rw [chainsInto_pos_iff (isAccess_of_call hcall), houter, hwrapper]
      simp
    rw [chainsThrough_eq, startsChain, hcall, houter, Nat.eq_zero_of_not_pos hnone]
    rfl
  | false =>
    obtain ⟨p, g, rest, rfl⟩ := exists_of_not_outermost houter
    obtain ⟨hg, hgmember⟩ := mem_sites_of_not_outermost hregular hsite houter
    rw [chainsThrough_of_not_outermost hcall houter]
    exact chainsThrough_eq_one hregular h g rest hg hgmember
termination_by above.length

/-- **Each call of a member is in one chain only**, exactly if no call of a member is called on in a
wrapper. -/
theorem chainsThrough_eq_one_iff (hregular : Regular tree) :
    (∀ c ∈ memberCalls tree, chainsThrough c.node c.above = 1) ↔
      ∀ c ∈ memberCalls tree, calledInWrapper c.node c.above = false := by
  constructor
  · intro hone c hc
    by_contra hwrapped
    have hwrapped := eq_true_of_ne_false hwrapped
    have hmember : isMemberCall c.node := (mem_filter.1 hc).2
    have hcall : c.node.is .callExpression := (Bool.and_eq_true_iff.1 hmember).1
    have hinto : 0 < chainsInto c.node c.above :=
      (chainsInto_pos_iff (isAccess_of_call hcall) c.above).2 (.inr hwrapped)
    -- a call in a wrapper counts as outermost, so its own chain comes on top
    have houter : isOutermostCall ⟨c.node, c.above⟩ := by
      obtain ⟨node, above⟩ := c
      cases above with
      | nil => rfl
      | cons w above =>
        rw [calledInWrapper, Bool.and_eq_true, Bool.and_eq_true] at hwrapped
        refine outermost_of_not_access ?_
        by_contra haccess
        rw [isWrapper_of_access (eq_true_of_ne_false haccess)] at hwrapped
        exact absurd hwrapped.1.1 Bool.false_ne_true
    have hthrough := hone c hc
    rw [chainsThrough_eq, startsChain, hcall, houter] at hthrough
    simp only [Bool.and_self, Bool.toNat_true] at hthrough
    omega
  · intro hnone c hc
    obtain ⟨hsite, hmember⟩ := mem_filter.1 hc
    exact chainsThrough_eq_one hregular hnone c.node c.above hsite hmember

end RouteAtlas.Inventory
