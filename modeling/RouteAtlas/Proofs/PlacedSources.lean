import RouteAtlas.Proofs.PlacedRules
import RouteAtlas.Source.Parse

/-!
# The syntax tree of every text is placed

What the grammar reads lies one behind another, at every depth of nesting, and comments are put into
the gaps between tokens. So the nodes of a parsed text lie in the ranges of their parents, in order,
and the tree reaches to the end of the text. Its functions have heads, so no two of them start at
one place, and its names have some text and nothing inside.
-/

open List

namespace RouteAtlas

namespace Text

theorem byteLength_takeBytes_le : ∀ (n : Nat) (cs : List Char), byteLength (takeBytes n cs) ≤ n
  | n, [] => Nat.zero_le n
  | n, c :: cs => by
    rw [takeBytes]
    split
    · have := byteLength_takeBytes_le (n - c.utf8Size) cs
      rw [byteLength]
      omega
    · exact Nat.zero_le n

end Text

namespace Source

open Grammar Node

/-! ## Statements -/

variable (language : Language) (text : List Char)

/-- **Every rule of the grammar reads some node**, and all its nodes lie one behind another. -/
theorem solid_ruleFor (fuel : Nat) (goal : Goal) : Solid (ruleFor language fuel goal) := by
  induction fuel generalizing goal with
  | zero => exact inferInstanceAs (Solid failure)
  | succ fuel ih =>
    have : Context.Sound ⟨language, ruleFor language fuel⟩ := ⟨ih⟩
    cases goal <;> rw [ruleFor] <;> infer_instance

instance : Solid hashBang := by
  refine ⟨fun text lo last => .get_bind fun c hc => ?_⟩
  split
  · rintro _ rfl
    exact Yields.ensures text lo last _ hc
  · exact .failure

theorem stands_statements : ∃ c, Stands text 0 0 (statements language text) c := by
  have := solid_ruleFor language (nesting text.length) .statement
  have hstart : Stands text 0 0 [] ⟨text, 0, 0⟩ :=
    ⟨Nat.le_refl _, Nat.le_refl _, Nat.le_refl _, .refl, absurd rfl, .nil⟩
  rw [statements]
  split
  · rename_i nodes c hrun
    exact ⟨c, Yields.ensures text 0 0 _ hstart _ _ hrun⟩
  · exact ⟨_, hstart⟩

theorem placedIn_statements :
    Node.PlacedIn 0 (Text.byteLength text) (statements language text) := by
  obtain ⟨c, hstands⟩ := stands_statements language text
  by_cases hne : statements language text = []
  · rw [hne]
    exact Nat.zero_le _
  · refine (hstands.placed hne).mono (Nat.le_trans hstands.last_le_pos ?_)
    have := hstands.reads.byteLength_eq
    omega

/-! ## Comments -/

theorem placedIn_commentsBetween {start stop : Nat} (h : start ≤ stop) :
    Node.PlacedIn start stop (commentsBetween text start stop) := by
  rw [commentsBetween]
  split
  · refine (placedIn_commentsFrom (Nat.le_refl start) fun hplain => absurd rfl hplain).mono ?_
    have := Text.byteLength_takeBytes_le (stop - start) (Text.dropBytes start text)
    omega
  · exact h

theorem start_withComments (n : Node) :
    (n.withComments text).start = n.start ∧ (n.withComments text).stop = n.stop := by
  cases n with
  | mk label role start stop children => cases children <;> exact ⟨rfl, rfl⟩

theorem kindIs_withComments (n : Node) (p : Kind → Bool) :
    (n.withComments text).kindIs p = n.kindIs p := by
  cases n with
  | mk label role start stop children => cases children <;> rfl

mutual

/-- **Comments keep a tree placed.** -/
theorem placed_withComments (text : List Char) : ∀ {n : Node},
    n.Placed → (n.withComments text).Placed
  | .mk _ _ _ _ [], h => h
  | .mk _ _ _ _ (_ :: _), h => placedIn_withComments text h

theorem placedIn_withComments (text : List Char) : ∀ {ns : List Node} {start stop : Nat},
    Node.PlacedIn start stop ns → Node.PlacedIn start stop (childrenWithComments text start stop ns)
  | [], _, _, h => placedIn_commentsBetween text h
  | n :: ns, start, stop, ⟨hle, hn, hns⟩ => by
    obtain ⟨hstart, hstop⟩ := start_withComments text n
    refine (placedIn_commentsBetween text hle).append
      ⟨Nat.le_of_eq hstart.symm, placed_withComments text hn, ?_⟩
    rw [hstop]
    exact placedIn_withComments text hns

end

theorem not_kindIs_of_comment {p : Kind → Bool} (hp : p .comment = false) {text : List Char}
    {start stop : Nat} {m : Node} (h : m ∈ nodesOfAll (commentsBetween text start stop)) :
    ¬ m.kindIs p := by
  rw [commentsBetween] at h
  split at h
  · rw [nodesOfAll_eq] at h
    obtain ⟨n, hn, hm⟩ := mem_flatMap.mp h
    obtain ⟨r, -, rfl⟩ := mem_map.mp hn
    rw [mem_singleton.mp hm]
    exact fun h => Bool.false_ne_true (hp.symm.trans h)
  · exact nomatch h

mutual

/-- The nodes of a tree with comments are those of the tree, comments apart. -/
theorem mem_nodes_of_withComments {p : Kind → Bool} (hp : p .comment = false)
    (text : List Char) : ∀ {n m : Node}, m ∈ (n.withComments text).nodes →
    m.kindIs p → ∃ k ∈ n.nodes, m = k.withComments text
  | .mk label role start stop [], m, hm, _ => by
    exact ⟨m, hm, by rw [mem_singleton.mp hm, withComments]⟩
  | .mk label role start stop (c :: cs), m, hm, hkind => by
    rcases mem_cons.mp hm with rfl | hm
    · exact ⟨_, self_mem_nodes _, rfl⟩
    · obtain ⟨k, hk, hmk⟩ := mem_nodesOfAll_of_withComments hp text hm hkind
      exact ⟨k, mem_cons_of_mem _ hk, hmk⟩

theorem mem_nodesOfAll_of_withComments {p : Kind → Bool} (hp : p .comment = false)
    (text : List Char) : ∀ {ns : List Node} {start stop : Nat} {m : Node},
    m ∈ nodesOfAll (childrenWithComments text start stop ns) →
    m.kindIs p → ∃ k ∈ nodesOfAll ns, m = k.withComments text
  | [], start, stop, m, hm, hkind => absurd hkind (not_kindIs_of_comment hp hm)
  | n :: ns, start, stop, m, hm, hkind => by
    rw [childrenWithComments, nodesOfAll_append] at hm
    rcases mem_append.mp hm with hm | hm
    · exact absurd hkind (not_kindIs_of_comment hp hm)
    rcases mem_append.mp hm with hm | hm
    · obtain ⟨k, hk, hmk⟩ := mem_nodes_of_withComments hp text hm hkind
      exact ⟨k, mem_append_left _ hk, hmk⟩
    · obtain ⟨k, hk, hmk⟩ := mem_nodesOfAll_of_withComments hp text hm hkind
      exact ⟨k, mem_append_right _ hk, hmk⟩

end

/-- **Comments keep the forms of nodes.** -/
theorem formedAll_withComments {text : List Char} {ns : List Node} (start stop : Nat)
    (h : Node.FormedAll text ns) :
    Node.FormedAll text (childrenWithComments text start stop ns) := by
  refine fun m hm => ⟨fun hfunction => ?_, fun hword => ?_⟩
  · obtain ⟨k, hk, rfl⟩ := mem_nodesOfAll_of_withComments rfl text hm hfunction
    obtain ⟨hbegins, hinside⟩ := (h k hk).1 (by rwa [kindIs_withComments] at hfunction)
    obtain ⟨hstart, hstop⟩ := start_withComments text k
    refine ⟨by rwa [Node.Begins, hstart, hstop], fun m hm hinner => ?_⟩
    obtain ⟨k', hk', rfl⟩ : ∃ k' ∈ nodesOfAll k.children, m = k'.withComments text := by
      cases k with
      | mk label role start stop children =>
        cases children with
        | nil => exact nomatch hm
        | cons c cs => exact mem_nodesOfAll_of_withComments rfl text hm hinner
    rw [hstart, (start_withComments text k').1]
    exact hinside k' hk' (by rwa [kindIs_withComments] at hinner)
  · obtain ⟨k, hk, rfl⟩ := mem_nodesOfAll_of_withComments rfl text hm hword
    obtain ⟨hleaf, hlt⟩ := (h k hk).2 (by rwa [kindIs_withComments] at hword)
    cases k with
    | mk label role start stop children =>
      obtain rfl : children = [] := hleaf
      exact ⟨rfl, hlt⟩

/-! ## Sources -/

/-- **The tree of every text is placed.** -/
theorem placed_parse (text : String) : (parse language text).Placed := by
  -- A tree that starts at its first node and ends behind its last one.
  have hroot : ∀ {nodes : List Node} {stop : Nat}, Node.PlacedIn 0 stop nodes →
      Node.PlacedIn ((nodes.head?.map start).getD stop) stop nodes := by
    intro nodes stop h
    cases nodes with
    | nil => exact Nat.le_refl stop
    | cons n nodes => exact h.from_head
  have hstatements := placedIn_statements language text.toList
  refine hroot ?_
  split
  · exact placedIn_withComments _ hstatements
  · exact hstatements

/-- **The nodes of every text are formed.** -/
theorem formed_parse (text : String) {n : Node}
    (hn : n ∈ (parse language text).nodes) : n.Formed text.toList := by
  obtain ⟨c, hstands⟩ := stands_statements language text.toList
  have hall : Node.FormedAll text.toList (parse language text).children := by
    change Node.FormedAll text.toList (if _ then _ else _)
    split
    · exact formedAll_withComments _ _ hstands.formed
    · exact hstands.formed
  rcases mem_cons.mp hn with rfl | hn
  · exact formed_of_plain
  · exact hall n hn

end Source

end RouteAtlas
