import RouteAtlas.Proofs.CleanPaths
import RouteAtlas.Proofs.FunctionHeads
import RouteAtlas.Source.Grammar.Literal

/-!
# Readers and the places of what they read

A reader moves over a text and builds nodes behind one another. `Stands` is what holds of it all the
time: the nodes that it has read since some offset lie one behind another up to the last token, the
last token ends where the reader stands or before, what is left is the rest of the text, and
functions and names are formed as they should be. A rule that goes from such a place to such a place
is `Places`, and `Solid` if it also reads some node. Rules that are put together from others inherit
this, so that it is found by instances; readers that keep nodes and go on with them are followed
step by step, with `Ensures`.
-/

open List

namespace RouteAtlas

/-! ## Bytes -/

namespace Text

theorem byteLength_toList (s : String) : byteLength s.toList = s.utf8ByteSize := by
  have hlist : ∀ cs, byteLength cs = (String.ofList cs).utf8ByteSize := by
    intro cs
    induction cs with
    | nil => rfl
    | cons c cs ih =>
      rw [byteLength, ih, String.ofList_cons, String.utf8ByteSize_append,
        String.utf8ByteSize_singleton]
  rw [hlist, String.ofList_toList]

theorem dropBytes_byteLength (cs ds : List Char) : dropBytes (byteLength cs) (cs ++ ds) = ds := by
  induction cs with
  | nil =>
    cases ds with
    | nil => rfl
    | cons d ds => exact if_neg (Nat.not_le_of_lt d.utf8Size_pos)
  | cons c cs ih =>
    rw [cons_append, byteLength, dropBytes, if_pos (Nat.le_add_right _ _),
      Nat.add_sub_cancel_left, ih]

theorem Passes.dropBytes {cs rest : List Char} {i j : Nat} (h : Passes cs i rest j) :
    Text.dropBytes (j - i) cs = rest := by
  obtain ⟨front, rfl, rfl⟩ := h
  rw [Nat.add_sub_cancel_left, dropBytes_byteLength]

end Text

namespace Source

/-! ## Places and roles -/

namespace Node

variable {xs ys : List Node} {lo hi : Nat} {n : Node}

/-- The node without its part in its parent. -/
def bare : Node → Node
  | mk label _ start stop children => mk label none start stop children

@[simp] theorem bare_withRole (role : Role) (n : Node) : (n.withRole role).bare = n.bare := by
  cases n
  rfl

@[simp] theorem bare_comp_withRole (role : Role) : bare ∘ withRole role = bare :=
  funext (bare_withRole role)

theorem placedIn_bare (lo hi : Nat) : PlacedIn lo hi (xs.map bare) ↔ PlacedIn lo hi xs := by
  induction xs generalizing lo with
  | nil => rfl
  | cons n xs ih =>
    cases n with
    | mk label role start stop children =>
      rw [map_cons, PlacedIn, ih]
      rfl

/-- Where nodes lie does not depend on their parts. -/
theorem PlacedIn.of_bare (h : PlacedIn lo hi xs) (hbare : ys.map bare = xs.map bare) :
    PlacedIn lo hi ys := by
  rwa [← placedIn_bare, hbare, placedIn_bare]

theorem PlacedIn.lower {lo' : Nat} (h : PlacedIn lo hi xs) (hle : lo' ≤ lo) :
    PlacedIn lo' hi xs := by
  cases xs with
  | nil => exact Nat.le_trans hle h
  | cons n xs => exact ⟨Nat.le_trans hle h.1, h.2⟩

theorem PlacedIn.mono {hi' : Nat} (h : PlacedIn lo hi xs) (hle : hi ≤ hi') :
    PlacedIn lo hi' xs := by
  induction xs generalizing lo with
  | nil => exact Nat.le_trans h hle
  | cons n xs ih => exact ⟨h.1, h.2.1, ih h.2.2⟩

theorem PlacedIn.append {mid : Nat} (hxs : PlacedIn lo mid xs) (hys : PlacedIn mid hi ys) :
    PlacedIn lo hi (xs ++ ys) := by
  induction xs generalizing lo with
  | nil => exact hys.lower hxs
  | cons n xs ih => exact ⟨hxs.1, hxs.2.1, ih hxs.2.2⟩

theorem PlacedIn.split (h : PlacedIn lo hi (xs ++ n :: ys)) :
    PlacedIn lo n.start xs ∧ PlacedIn n.start hi (n :: ys) := by
  induction xs generalizing lo with
  | nil => exact ⟨h.1, Nat.le_refl _, h.2⟩
  | cons m xs ih => exact ⟨⟨h.1, h.2.1, (ih h.2.2).1⟩, (ih h.2.2).2⟩

theorem PlacedIn.from_head (h : PlacedIn lo hi (n :: xs)) : PlacedIn n.start hi (n :: xs) :=
  ⟨Nat.le_refl _, h.2⟩

theorem PlacedIn.to_last (h : PlacedIn lo hi xs) (hne : xs ≠ []) :
    ∃ last, xs.getLast? = some last ∧ PlacedIn lo last.stop xs ∧ last.stop ≤ hi := by
  induction xs generalizing lo with
  | nil => exact absurd rfl hne
  | cons n xs ih =>
    obtain ⟨hlo, hn, hxs⟩ := h
    cases xs with
    | nil => exact ⟨n, rfl, ⟨hlo, hn, Nat.le_refl _⟩, hxs⟩
    | cons m xs =>
      obtain ⟨last, hlast, hplaced, hhi⟩ := ih hxs (cons_ne_nil m xs)
      exact ⟨last, by rw [getLast?_cons_cons, hlast], ⟨hlo, hn, hplaced⟩, hhi⟩

theorem PlacedIn.spanning (h : PlacedIn lo hi xs) (hne : xs ≠ []) (kind : Kind) :
    PlacedIn lo hi [spanning kind xs] := by
  obtain ⟨last, hlast, hplaced, hhi⟩ := h.to_last hne
  obtain ⟨n, xs, rfl⟩ := exists_cons_of_ne_nil hne
  rw [Node.spanning, hlast]
  exact ⟨h.1, hplaced.from_head, hhi⟩

/-! ## Forms and roles -/

variable {text : List Char}

theorem formedAll_map_bare : FormedAll text (xs.map bare) ↔ FormedAll text xs := by
  induction xs with
  | nil => rfl
  | cons n xs ih =>
    cases n with
    | mk label role start stop children =>
      rw [map_cons, formedAll_cons, formedAll_cons, ih]
      rfl

/-- The forms of nodes do not depend on parts. -/
theorem FormedAll.of_bare (h : FormedAll text xs) (hbare : ys.map bare = xs.map bare) :
    FormedAll text ys := by
  rwa [← formedAll_map_bare, hbare, formedAll_map_bare]

theorem Opens.withRole (h : n.Opens text) (role : Role) : (n.withRole role).Opens text := by
  cases n
  exact h

theorem Opens.headed_spanning (h : n.Opens text) (hplaced : PlacedIn lo hi (n :: xs))
    (kind : Kind) : (spanning kind (n :: xs)).Headed text := by
  obtain ⟨last, hlast, hlasts, -⟩ := hplaced.to_last (cons_ne_nil n xs)
  rw [Node.spanning, hlast]
  exact h.headed hlasts.from_head

end Node

namespace Grammar

variable {α β : Type}

/-! ## What holds behind a reader -/

/-- **What holds behind a reader**, if it succeeds, where something holds before it. -/
def Ensures (P : Cursor → Prop) (p : Read α) (Q : α → Cursor → Prop) : Prop :=
  ∀ c, P c → ∀ a c', p.run c = some (a, c') → Q a c'

section Ensures

variable {P : Cursor → Prop} {Q R : α → Cursor → Prop} {S : β → Cursor → Prop} {p q : Read α}

theorem Ensures.pure {a : α} (h : ∀ c, P c → Q a c := by exact fun _ h => h) :
    Ensures P (pure a) Q := by
  rintro c hc _ _ ⟨⟩
  exact h c hc

theorem Ensures.failure : Ensures P failure Q := fun _ _ _ _ h => nomatch h

theorem Ensures.bind {f : α → Read β} (hp : Ensures P p Q) (hf : ∀ a, Ensures (Q a) (f a) S) :
    Ensures P (p >>= f) S := by
  intro c hc b c'' h
  obtain ⟨⟨a, c'⟩, ha, hb⟩ := Option.bind_eq_some_iff.mp h
  exact hf a c' (hp c hc a c' ha) b c'' hb

theorem Ensures.orElse (hp : Ensures P p Q) (hq : Ensures P q Q) : Ensures P (p <|> q) Q := by
  intro c hc a c' h
  change (p.run c <|> q.run c) = some (a, c') at h
  cases hfirst : p.run c with
  | none =>
    rw [hfirst] at h
    exact hq c hc a c' h
  | some found =>
    rw [hfirst] at h
    exact hp c hc a c' (hfirst.trans h)

theorem Ensures.weaken (hp : Ensures P p Q) (h : ∀ a c, Q a c → R a c) : Ensures P p R :=
  fun c hc a c' hrun => h a c' (hp c hc a c' hrun)

theorem Ensures.and (hp : Ensures P p Q) (hp' : Ensures P p R) :
    Ensures P p fun a c => Q a c ∧ R a c :=
  fun c hc a c' hrun => ⟨hp c hc a c' hrun, hp' c hc a c' hrun⟩

theorem Ensures.any : Ensures P p fun _ _ => True := fun _ _ _ _ _ => trivial

theorem Ensures.of_and {b : Prop} (h : b → Ensures P p Q) : Ensures (fun c => P c ∧ b) p Q :=
  fun c hc => h hc.2 c hc.1

theorem Ensures.get_bind {f : Cursor → Read β} (h : ∀ c, P c → Ensures (· = c) (f c) S) :
    Ensures P (get >>= f) S :=
  fun c hc b c' hrun => h c hc c rfl b c' hrun

theorem Ensures.opt_bind {f : Option α → Read β} (hp : Ensures P p Q)
    (hsome : ∀ a, Ensures (Q a) (f (some a)) S) (hnone : Ensures P (f none) S) :
    Ensures P (opt p >>= f) S := by
  intro c hc b c'' h
  have hopt : (opt p).run c = ((some <$> p).run c <|> some (none, c)) := rfl
  rw [StateT.run_bind, hopt, StateT.run_map] at h
  cases hfirst : p.run c with
  | none =>
    rw [hfirst] at h
    exact hnone c hc b c'' h
  | some found =>
    rw [hfirst] at h
    exact hsome found.1 found.2 (hp c hc found.1 found.2 hfirst) b c'' h

theorem Ensures.ite {b : Prop} [Decidable b] (hp : b → Ensures P p Q) (hq : ¬ b → Ensures P q Q) :
    Ensures P (if b then p else q) Q := by
  split
  · exact hp ‹b›
  · exact hq ‹¬ b›

end Ensures

/-! ## Looking ahead -/

/-- The reader only looks ahead: what holds before it holds behind it. -/
class Looks (p : Read α) : Prop where
  keeps : ∀ P, Ensures P p fun _ => P

theorem Ensures.look {P : Cursor → Prop} {Q : β → Cursor → Prop} {p : Read α} {f : α → Read β}
    [hp : Looks p] (hf : ∀ a, Ensures P (f a) Q) : Ensures P (p >>= f) Q :=
  (hp.keeps P).bind hf

instance {a : α} : Looks (pure a : Read α) := ⟨fun _ => .pure⟩

instance : Looks (failure : Read α) := ⟨fun _ => .failure⟩

instance : Looks (get : Read Cursor) :=
  ⟨fun _ _ hc _ _ h => by cases h; exact hc⟩

instance {p : Read α} {f : α → Read β} [hp : Looks p] [hf : ∀ a, Looks (f a)] : Looks (p >>= f) :=
  ⟨fun P => (hp.keeps P).bind fun a => (hf a).keeps P⟩

instance {p q : Read α} [hp : Looks p] [hq : Looks q] : Looks (p <|> q) :=
  ⟨fun P => (hp.keeps P).orElse (hq.keeps P)⟩

instance {b : Prop} [Decidable b] {p q : Read α} [Looks p] [Looks q] :
    Looks (if b then p else q) := by
  split <;> infer_instance

instance {b : Bool} : Looks (guardRead b) :=
  inferInstanceAs (Looks (if b then pure () else failure))

instance {p : Read α} : Looks (lookahead p) :=
  ⟨fun P => .get_bind fun c hc =>
    .bind (Q := fun _ _ => True) (fun _ _ _ _ _ => trivial) fun _ =>
      .bind (Q := fun _ => P) (fun _ _ _ _ h => by cases h; exact hc) fun _ => .pure⟩

/-! ## Where a reader stands -/

/-- **Where a reader stands** in a text, with what is left of it: it has read nodes since the offset
`lo`, which lie one behind another up to the last token and are formed. -/
structure Stands (text : List Char) (lo last : Nat) (xs : List Node) (c : Cursor) : Prop where
  last_le : last ≤ c.last
  last_le_pos : c.last ≤ c.pos
  lo_le : lo ≤ c.pos
  reads : Text.Passes text 0 c.rest c.pos
  placed : xs ≠ [] → Node.PlacedIn lo c.last xs
  formed : Node.FormedAll text xs

section Stands

variable {text : List Char} {lo last : Nat} {xs ys : List Node} {n : Node} {c c' : Cursor}

theorem Stands.start (h : Stands text lo last xs c) : Stands text c.pos c.last [] c :=
  ⟨Nat.le_refl _, h.last_le_pos, Nat.le_refl _, h.reads, absurd rfl, .nil⟩

theorem Stands.append (h : Stands text lo last xs c) (h' : Stands text c.pos c.last ys c') :
    Stands text lo last (xs ++ ys) c' := by
  refine ⟨Nat.le_trans h.last_le h'.last_le, h'.last_le_pos, Nat.le_trans h.lo_le h'.lo_le,
    h'.reads, fun hne => ?_, Node.formedAll_append.mpr ⟨h.formed, h'.formed⟩⟩
  by_cases hys : ys = []
  · subst hys
    rw [append_nil] at hne ⊢
    exact (h.placed hne).mono h'.last_le
  · refine Node.PlacedIn.append ?_ (h'.placed hys)
    cases xs with
    | nil => exact h.lo_le
    | cons n xs => exact (h.placed (cons_ne_nil n xs)).mono h.last_le_pos

theorem Stands.rebuilt (h : Stands text lo last xs c)
    (hbare : ys.map Node.bare = xs.map Node.bare) : Stands text lo last ys c :=
  ⟨h.last_le, h.last_le_pos, h.lo_le, h.reads, fun hne => by
    refine (h.placed ?_).of_bare hbare
    rintro rfl
    exact hne (map_eq_nil_iff.mp hbare), h.formed.of_bare hbare⟩

/-- **The last nodes may be put below one.** -/
theorem Stands.spanningLast (h : Stands text lo last (xs ++ ys) c) (kind : Kind) [kind.Plain]
    {zs : List Node} (hne : zs ≠ []) (hbare : zs.map Node.bare = ys.map Node.bare) :
    Stands text lo last (xs ++ [Node.spanning kind zs]) c := by
  have hzs : Stands text lo last (xs ++ zs) c :=
    h.rebuilt (by rw [map_append, map_append, hbare])
  obtain ⟨hxs, hbelow⟩ := Node.formedAll_append.mp hzs.formed
  refine ⟨h.last_le, h.last_le_pos, h.lo_le, h.reads, fun _ => ?_, Node.formedAll_append.mpr
    ⟨hxs, Node.formed_of_plain.all hbelow⟩⟩
  have hplaced := hzs.placed (append_ne_nil_of_right_ne_nil xs hne)
  obtain ⟨n, zs, rfl⟩ := exists_cons_of_ne_nil hne
  exact hplaced.split.1.append (hplaced.split.2.spanning hne kind)

theorem Stands.spanning (h : Stands text lo last xs c) (kind : Kind) [kind.Plain] (hne : ys ≠ [])
    (hbare : ys.map Node.bare = xs.map Node.bare) :
    Stands text lo last [Node.spanning kind ys] c := by
  have hall : Stands text lo last ([] ++ xs) c := h
  exact hall.spanningLast kind hne hbare

/-- **Nodes may be put below a function** if it can begin with the first one. -/
theorem Stands.spanningOpened (h : Stands text lo last xs c) (kind : Kind)
    [hk : kind.Compound] (hne : xs ≠ []) (hopens : ∀ x ∈ xs.head?, x.Opens text) :
    Stands text lo last [Node.spanning kind xs] c := by
  have hplaced := h.placed hne
  obtain ⟨n, xs, rfl⟩ := exists_cons_of_ne_nil hne
  exact ⟨h.last_le, h.last_le_pos, h.lo_le, h.reads, fun _ => hplaced.spanning hne kind,
    Node.formedAll_cons.mpr ⟨⟨fun _ => (hopens n rfl).headed_spanning hplaced kind,
      fun hword => (nomatch hk.isWord_eq_false.symm.trans hword)⟩, h.formed, .nil⟩⟩

/-- The first node may be taken for a leaf. -/
theorem Stands.leaf (h : Stands text lo last (n :: xs) c) {label : Label} {role : Option Role}
    (hlabel : (Node.mk label role n.start n.stop []).Formed text) :
    Stands text lo last (.mk label role n.start n.stop [] :: xs) c := by
  refine ⟨h.last_le, h.last_le_pos, h.lo_le, h.reads, fun _ => ?_, Node.formedAll_cons.mpr
    ⟨hlabel, .nil, (Node.formedAll_cons.mp h.formed).2.2⟩⟩
  obtain ⟨hlo, hn, hxs⟩ := h.placed (cons_ne_nil n xs)
  exact ⟨hlo, hn.start_le_stop, hxs⟩

end Stands

/-! ## Rules -/

/-- What holds of all that a reader gives, wherever it starts. -/
class Yields (post : List Char → Nat → Nat → α → Cursor → Prop) (p : Read α) : Prop where
  ensures : ∀ text lo last, Ensures (Stands text lo last []) p (post text lo last)

/-- The nodes of a rule lie behind one another. -/
abbrev Places (p : Rule) : Prop := Yields Stands p

abbrev StandsSome (text : List Char) (lo last : Nat) (xs : List Node) (c : Cursor) : Prop :=
  Stands text lo last xs c ∧ xs ≠ []

/-- The nodes of a rule lie behind one another, and there is at least one. -/
abbrev Solid (p : Rule) : Prop := Yields StandsSome p

/-- The node of a reader lies where it was read. -/
abbrev Gives (p : Read Node) : Prop := Yields (fun text lo last n => Stands text lo last [n]) p

/-- The reader goes on with a node that was read before. -/
class Extends (f : Node → Read Node) : Prop where
  extend : ∀ n text lo last,
    Ensures (Stands text lo last [n]) (f n) fun m => Stands text lo last [m]

theorem Extends.pure : Extends pure := ⟨fun _ _ _ _ => .pure⟩

instance {p : Rule} [hp : Solid p] : Places p :=
  ⟨fun text lo last => (hp.ensures text lo last).weaken fun _ _ h => h.1⟩

section After

variable {text : List Char} {lo last : Nat} {xs ys : List Node} {Q : α → Cursor → Prop}
variable {p : Rule} {f : Node → Read Node} {kind : Kind}

/-- **A rule goes on behind what was read.** -/
theorem Places.after [hp : Places p] :
    Ensures (Stands text lo last xs) p fun ys => Stands text lo last (xs ++ ys) :=
  fun c hc ys c' h => hc.append (hp.ensures text c.pos c.last c hc.start ys c' h)

theorem Solid.after [hp : Solid p] :
    Ensures (Stands text lo last xs) p fun ys c => Stands text lo last (xs ++ ys) c ∧ ys ≠ [] := by
  intro c hc ys c' h
  obtain ⟨hys, hne⟩ := hp.ensures text c.pos c.last c hc.start ys c' h
  exact ⟨hc.append hys, hne⟩

theorem Gives.after {p : Read Node} [hp : Gives p] :
    Ensures (Stands text lo last xs) p fun n => Stands text lo last (xs ++ [n]) :=
  fun c hc n c' h => hc.append (hp.ensures text c.pos c.last c hc.start n c' h)

theorem Extends.after [hf : Extends f] {n : Node} :
    Ensures (Stands text lo last (xs ++ [n])) (f n) fun m => Stands text lo last (xs ++ [m]) := by
  intro c hc m c' h
  obtain ⟨hxs, hn⟩ := (hc.placed (by simp)).split
  obtain ⟨hheads, hhead⟩ := Node.formedAll_append.mp hc.formed
  have hlow : n.start ≤ c.pos :=
    Nat.le_trans (hn.2.1.start_le_stop) (Nat.le_trans hn.2.2 hc.last_le_pos)
  have hm := hf.extend n text n.start last c
    ⟨hc.last_le, hc.last_le_pos, hlow, hc.reads, fun _ => hn, hhead⟩ m c' h
  refine ⟨hm.last_le, hm.last_le_pos, ?_, hm.reads, fun _ => hxs.append (hm.placed (by simp)),
    Node.formedAll_append.mpr ⟨hheads, hm.formed⟩⟩
  exact Nat.le_trans (Node.PlacedIn.start_le_stop hxs) hm.lo_le

theorem Ensures.places [Places p] {f : List Node → Read α}
    (h : ∀ ys, Ensures (Stands text lo last (xs ++ ys)) (f ys) Q) :
    Ensures (Stands text lo last xs) (p >>= f) Q :=
  Places.after.bind h

theorem Ensures.solid [Solid p] {f : List Node → Read α}
    (h : ∀ ys, ys ≠ [] → Ensures (Stands text lo last (xs ++ ys)) (f ys) Q) :
    Ensures (Stands text lo last xs) (p >>= f) Q :=
  Solid.after.bind fun ys c hc => h ys hc.2 c hc.1

theorem Ensures.gives {p : Read Node} [Gives p] {f : Node → Read α}
    (h : ∀ n, Ensures (Stands text lo last (xs ++ [n])) (f n) Q) :
    Ensures (Stands text lo last xs) (p >>= f) Q :=
  Gives.after.bind h

theorem Ensures.extend [Extends f] {n : Node} {k : Node → Read α}
    (h : ∀ m, Ensures (Stands text lo last (xs ++ [m])) (k m) Q) :
    Ensures (Stands text lo last (xs ++ [n])) (f n >>= k) Q :=
  Extends.after.bind h

theorem Ensures.span [kind.Plain] (hne : ys ≠ [] := by simp)
    (hbare : ys.map Node.bare = xs.map Node.bare := by simp) :
    Ensures (Stands text lo last xs) (Pure.pure [Node.spanning kind ys])
      (StandsSome text lo last) :=
  .pure fun _ hc => ⟨hc.spanning kind hne hbare, cons_ne_nil _ _⟩

theorem Ensures.spanNode [kind.Plain] (hne : ys ≠ [] := by simp)
    (hbare : ys.map Node.bare = xs.map Node.bare := by simp) :
    Ensures (Stands text lo last xs) (Pure.pure (Node.spanning kind ys))
      fun n => Stands text lo last [n] :=
  .pure fun _ hc => hc.spanning kind hne hbare

theorem Ensures.extendSpan [hf : Extends f] [kind.Plain] (hne : ys ≠ [] := by simp)
    (hbare : ys.map Node.bare = xs.map Node.bare := by simp) :
    Ensures (Stands text lo last xs) (f (Node.spanning kind ys)) fun n => Stands text lo last [n] :=
  fun c hc => hf.extend _ text lo last c (hc.spanning kind hne hbare)

theorem Ensures.nodes (hne : ys ≠ [] := by simp)
    (hbare : ys.map Node.bare = xs.map Node.bare := by simp) :
    Ensures (Stands text lo last xs) (Pure.pure ys) (StandsSome text lo last) :=
  .pure fun _ hc => ⟨hc.rebuilt hbare, hne⟩

end After

/-! ## Rules made of rules -/

section Yields

variable {post : List Char → Nat → Nat → α → Cursor → Prop} {p q : Read α}

instance : Yields post (failure : Read α) := ⟨fun _ _ _ => .failure⟩

instance [hp : Yields post p] [hq : Yields post q] : Yields post (p <|> q) :=
  ⟨fun text lo last => (hp.ensures text lo last).orElse (hq.ensures text lo last)⟩

instance {b : Prop} [Decidable b] [Yields post p] [Yields post q] :
    Yields post (if b then p else q) := by
  split <;> infer_instance

instance {r : Read β} {f : β → Read α} [Looks r] [hf : ∀ b, Yields post (f b)] :
    Yields post (r >>= f) :=
  ⟨fun text lo last => .look fun b => (hf b).ensures text lo last⟩

end Yields

section FirstOf

variable {post : List Char → Nat → Nat → List Node → Cursor → Prop} {p : Rule} {ps qs : List Rule}

instance : Yields post (firstOf []) := inferInstanceAs (Yields post failure)

instance [Yields post p] [Yields post (firstOf ps)] : Yields post (firstOf (p :: ps)) :=
  inferInstanceAs (Yields post (p <|> firstOf ps))

instance {words : List String} {f : String → Rule} [hf : ∀ s, Yields post (f s)] :
    Yields post (firstOf (words.map f)) := by
  induction words with
  | nil => exact inferInstanceAs (Yields post failure)
  | cons s words ih => exact inferInstanceAs (Yields post (f s <|> firstOf (words.map f)))

theorem firstOf_append (ps qs : List Rule) : firstOf (ps ++ qs) = (firstOf ps <|> firstOf qs) := by
  induction ps with
  | nil => rfl
  | cons p ps ih =>
    funext c
    change (p c <|> firstOf (ps ++ qs) c) = ((p c <|> firstOf ps c) <|> firstOf qs c)
    rw [ih]
    cases p c <;> rfl

instance [Yields post (firstOf ps)] [Yields post (firstOf qs)] :
    Yields post (firstOf (ps ++ qs)) := by
  rw [firstOf_append]
  infer_instance

end FirstOf

instance : Places (pure []) := ⟨fun _ _ _ => .pure⟩

instance {p : Read Node} [hp : Gives p] : Solid (one p) :=
  ⟨fun text lo last => (hp.ensures text lo last).bind fun _ =>
    .pure fun _ h => ⟨h, cons_ne_nil _ _⟩⟩

instance {p : Rule} [hp : Places p] : Gives (sole p) := by
  refine ⟨fun text lo last => (hp.ensures text lo last).bind fun xs => ?_⟩
  split
  · exact .pure
  · exact .failure

theorem solid_one {p : Read Node}
    (h : ∀ text lo last, Ensures (Stands text lo last []) p fun n => Stands text lo last [n]) :
    Solid (one p) :=
  have : Gives p := ⟨h⟩
  inferInstance

instance {kind : Kind} [kind.Plain] {p : Rule} [hp : Solid p] : Solid (node kind p) :=
  ⟨fun text lo last => (hp.ensures text lo last).bind fun _ => .pure fun _ h =>
    ⟨h.1.spanning kind h.2 rfl, cons_ne_nil _ _⟩⟩

theorem solid_node {kind : Kind} [kind.Plain] {p : Rule}
    (h : ∀ text lo last, Ensures (Stands text lo last []) p (StandsSome text lo last)) :
    Solid (node kind p) :=
  have : Solid p := ⟨h⟩
  inferInstance

/-- A statement may reach behind its last node, but not behind the last token. -/
instance {kind : Kind} [kind.Plain] {p : Rule} [hp : Solid p] : Solid (statement kind p) := by
  refine ⟨fun text lo last => (hp.ensures text lo last).bind fun xs => .get_bind ?_⟩
  rintro c ⟨hc, hne⟩
  refine .pure ?_
  rintro _ rfl
  obtain ⟨n, xs, rfl⟩ := exists_cons_of_ne_nil hne
  have hplaced := hc.placed hne
  exact ⟨⟨hc.last_le, hc.last_le_pos, hc.lo_le, hc.reads, fun _ =>
    ⟨hplaced.1, hplaced.from_head, Nat.le_refl _⟩,
    Node.formed_of_plain.all hc.formed⟩, cons_ne_nil _ _⟩

theorem solid_statement {kind : Kind} [kind.Plain] {p : Rule}
    (h : ∀ text lo last, Ensures (Stands text lo last []) p (StandsSome text lo last)) :
    Solid (statement kind p) :=
  have : Solid p := ⟨h⟩
  inferInstance

instance {role : Role} {p : Rule} [hp : Places p] : Places (part role p) :=
  ⟨fun text lo last => (hp.ensures text lo last).bind fun _ => .pure fun _ h =>
    h.rebuilt (by simp)⟩

instance {role : Role} {p : Rule} [hp : Solid p] : Solid (part role p) :=
  ⟨fun text lo last => (hp.ensures text lo last).bind fun _ => .pure fun _ h =>
    ⟨h.1.rebuilt (by simp), by simpa using h.2⟩⟩

instance : Places (inOrder []) := inferInstanceAs (Places (pure []))

instance {p : Rule} {ps : List Rule} [hp : Places p] [Places (inOrder ps)] :
    Places (inOrder (p :: ps)) :=
  ⟨fun text lo last => (hp.ensures text lo last).bind fun _ => .places fun _ => .pure⟩

instance {p : Rule} {ps : List Rule} [hp : Places p] [Solid (inOrder ps)] :
    Solid (inOrder (p :: ps)) :=
  ⟨fun text lo last => (hp.ensures text lo last).bind fun _ => .solid fun _ hne => .pure fun _ h =>
    ⟨h, append_ne_nil_of_right_ne_nil _ hne⟩⟩

instance {p : Rule} {ps : List Rule} [hp : Solid p] [Places (inOrder ps)] :
    Solid (inOrder (p :: ps)) :=
  ⟨fun text lo last => (hp.ensures text lo last).bind fun xs c hc =>
    (.places fun _ => .pure fun _ h => ⟨h, append_ne_nil_of_left_ne_nil hc.2 _⟩ :
      Ensures (Stands text lo last xs) _ _) c hc.1⟩

theorem Places.manyUpTo {p : Rule} [hp : Places p] (fuel : Nat) : Places (manyUpTo fuel p) := by
  induction fuel with
  | zero => exact inferInstanceAs (Places (pure []))
  | succ fuel ih =>
    refine ⟨fun text lo last =>
      .opt_bind (hp.ensures text lo last) (fun xs => ?_) (.pure fun _ h => h)⟩
    exact .places fun _ => .pure

instance {p : Rule} [Places p] : Places (many p) :=
  ⟨fun text lo last => .look fun fuel => (Places.manyUpTo fuel).ensures text lo last⟩

/-! ## Rules that functions begin with -/

/-- A function may begin with the first node of a rule, if there is one. -/
abbrev Opening (p : Rule) : Prop := Yields (fun text _ _ xs _ => ∀ x ∈ xs.head?, x.Opens text) p

section Opening

variable {p : Rule} {ps : List Rule}

theorem Opening.solid [hs : Solid p] [hp : Opening p] (text : List Char) (lo last : Nat) :
    Ensures (Stands text lo last []) p fun xs c =>
      Stands text lo last xs c ∧ xs ≠ [] ∧ ∀ x ∈ xs.head?, x.Opens text :=
  ((hs.ensures text lo last).and (hp.ensures text lo last)).weaken fun _ _ h => ⟨h.1.1, h.1.2, h.2⟩

/-- A rule that a function begins with, and what is done with its nodes. -/
theorem Ensures.opening {text : List Char} {lo last : Nat} {Q : α → Cursor → Prop} [Solid p]
    [Opening p] {f : List Node → Read α}
    (h : ∀ ys, ys ≠ [] → (∀ y ∈ ys.head?, y.Opens text) →
      Ensures (Stands text lo last ys) (f ys) Q) : Ensures (Stands text lo last []) (p >>= f) Q :=
  (Opening.solid text lo last).bind fun ys => .of_and fun hys => h ys hys.1 hys.2

instance : Opening (pure []) := ⟨fun _ _ _ => .pure fun _ _ _ hx => nomatch hx⟩

instance {role : Role} [hp : Opening p] : Opening (part role p) := by
  refine ⟨fun text lo last => (hp.ensures text lo last).bind fun xs => .pure fun _ h => ?_⟩
  cases xs with
  | nil => exact fun _ hx => nomatch hx
  | cons x xs =>
    rintro _ ⟨⟩
    exact (h x rfl).withRole role

instance {kind : Kind} [kind.Plain] [Solid p] [Opening p] : Opening (node kind p) := by
  refine ⟨fun text lo last => .opening fun ys hne hopens => .pure fun c hc => ?_⟩
  rintro _ ⟨⟩
  have hplaced := hc.placed hne
  obtain ⟨y, ys, rfl⟩ := exists_cons_of_ne_nil hne
  exact ⟨(hopens y rfl).headed_spanning hplaced kind, Kind.Simple.hasHead_eq_false⟩

theorem solid_function {kind : Kind} [kind.Compound]
    (h : ∀ text lo last, Ensures (Stands text lo last []) p fun xs c =>
      Stands text lo last xs c ∧ xs ≠ [] ∧ ∀ x ∈ xs.head?, x.Opens text) : Solid (node kind p) :=
  ⟨fun text lo last => (h text lo last).bind fun _ => .pure fun _ hxs =>
    ⟨hxs.1.spanningOpened kind hxs.2.1 hxs.2.2, cons_ne_nil _ _⟩⟩

instance : Opening (inOrder []) := inferInstanceAs (Opening (pure []))

theorem opens_append {text : List Char} {xs ys : List Node} (hxs : ∀ x ∈ xs.head?, x.Opens text)
    (hys : xs = [] → ∀ y ∈ ys.head?, y.Opens text) : ∀ x ∈ (xs ++ ys).head?, x.Opens text := by
  cases xs with
  | nil => exact hys rfl
  | cons x xs => exact hxs

theorem Opening.after {text : List Char} {lo last : Nat} {xs : List Node} [hp : Opening p] :
    Ensures (Stands text lo last xs) p fun ys _ => ∀ y ∈ ys.head?, y.Opens text :=
  fun c hc ys c' h => hp.ensures text c.pos c.last c hc.start ys c' h

-- Behind a rule that reads some node it does not matter what follows; a rule that may read none
-- leaves the head to the rules behind it.
instance [Solid p] [Opening p] : Opening (inOrder (p :: ps)) :=
  ⟨fun _ _ _ => .opening fun _ hne hopens => Ensures.any.bind fun _ => .pure fun _ _ =>
    opens_append hopens fun hnil => absurd hnil hne⟩

instance [hp : Places p] [ho : Opening p] [Opening (inOrder ps)] : Opening (inOrder (p :: ps)) :=
  ⟨fun text lo last => ((hp.ensures text lo last).and (ho.ensures text lo last)).bind fun _ =>
    .of_and fun hopens => Opening.after.bind fun _ => .pure fun _ h =>
      opens_append hopens fun _ => h⟩

instance [Solid p] [Opening p] : Opening (many p) := by
  refine ⟨fun text lo last => .look fun fuel => ?_⟩
  cases fuel with
  | zero => exact .pure fun _ _ _ hx => nomatch hx
  | succ fuel =>
    refine .opt_bind (Opening.solid text lo last) (fun xs => .of_and fun hxs => ?_)
      (.pure fun _ _ _ hx => nomatch hx)
    exact Ensures.any.bind fun _ => .pure fun _ _ =>
      opens_append hxs.2 fun hnil => absurd hnil hxs.1

end Opening

end Grammar

end Source

end RouteAtlas
