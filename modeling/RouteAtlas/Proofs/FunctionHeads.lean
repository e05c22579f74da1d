import RouteAtlas.Proofs.Trees

/-!
# How functions and declarators begin

A function begins with something of its own, a keyword, a name or its parameters, a declarator with
what it declares and a new object with its keyword. Other such nodes inside stand behind that. So no
two of them start at one place, and no line ends where one starts. `Headed` says this of a node, and
`Opens` of the node that another one begins with. A name has some text and nothing inside it.
-/

open List

namespace RouteAtlas

/-! ## Reading on -/

namespace Text

theorem byteLength_append (cs ds : List Char) :
    byteLength (cs ++ ds) = byteLength cs + byteLength ds := by
  induction cs with
  | nil => simp [byteLength]
  | cons c cs ih => rw [cons_append, byteLength, byteLength, ih, Nat.add_assoc]

theorem byteLength_pos {cs : List Char} (h : cs ≠ []) : 0 < byteLength cs := by
  obtain ⟨c, cs, rfl⟩ := exists_cons_of_ne_nil h
  exact Nat.add_pos_left c.utf8Size_pos _

/-- From characters at the offset `i` one gets to the characters `rest` at the offset `j`. -/
def Passes (cs : List Char) (i : Nat) (rest : List Char) (j : Nat) : Prop :=
  ∃ front, cs = front ++ rest ∧ i + byteLength front = j

variable {cs ds rest : List Char} {i j k : Nat}

theorem Passes.refl : Passes cs i cs i := ⟨[], rfl, rfl⟩

theorem Passes.trans (h : Passes cs i ds j) (h' : Passes ds j rest k) : Passes cs i rest k := by
  obtain ⟨front, rfl, rfl⟩ := h
  obtain ⟨front', rfl, rfl⟩ := h'
  exact ⟨front ++ front', (append_assoc ..).symm, by rw [byteLength_append, Nat.add_assoc]⟩

theorem Passes.le (h : Passes cs i rest j) : i ≤ j := by
  obtain ⟨front, -, rfl⟩ := h
  exact Nat.le_add_right _ _

theorem Passes.byteLength_eq (h : Passes cs i rest j) :
    j + byteLength rest = i + byteLength cs := by
  obtain ⟨front, rfl, rfl⟩ := h
  rw [byteLength_append, Nat.add_assoc]

end Text

namespace Source

/-! ## Kinds without a head -/

/-- The kind is one of a name that may be used or bound. -/
@[reducible] def Kind.isWord : Kind → Bool
  | .identifier => true
  | .shorthandPropertyIdentifier => true
  | .shorthandPropertyIdentifierPattern => true
  | .typeIdentifier => true
  | _ => false

/-- The kind is none of a function, a declarator or a new object, in a form that is evaluated when
instances are looked for. -/
@[reducible] def Kind.isSimple : Kind → Bool
  | .functionExpression => false
  | .arrowFunction => false
  | .generatorFunction => false
  | .functionDeclaration => false
  | .generatorFunctionDeclaration => false
  | .methodDefinition => false
  | .variableDeclarator => false
  | .newExpression => false
  | _ => true

/-- The kind has no head and is none of a name. -/
@[reducible] def Kind.isPlain : Kind → Bool
  | .identifier => false
  | .shorthandPropertyIdentifier => false
  | .shorthandPropertyIdentifierPattern => false
  | .typeIdentifier => false
  | k => k.isSimple

/-- A node of the kind begins with something of its own. -/
def Kind.hasHead (k : Kind) : Bool := !k.isSimple

theorem Kind.hasHead_of_isFunction {k : Kind} (h : k.isFunction) : k.hasHead := by
  cases k <;> first | rfl | cases h

theorem Kind.isPlain_eq (k : Kind) : k.isPlain = (k.isSimple && !k.isWord) := by
  cases k <;> rfl

class Same (a b : Bool) : Prop where
  eq : a = b

instance {a : Bool} : Same a a := ⟨rfl⟩

class Kind.Simple (k : Kind) : Prop where
  hasHead_eq_false : k.hasHead = false

class Kind.Compound (k : Kind) : Prop where
  isWord_eq_false : k.isWord = false

class Kind.Plain (k : Kind) : Prop extends k.Simple, k.Compound

instance {k : Kind} [h : Same k.isSimple true] : k.Simple :=
  ⟨by rw [Kind.hasHead, h.eq]; rfl⟩

instance {k : Kind} [h : Same k.isWord false] : k.Compound := ⟨h.eq⟩

instance {k : Kind} [h : Same k.isPlain true] : k.Plain := by
  obtain ⟨hsimple, hword⟩ := Bool.and_eq_true_iff.mp (k.isPlain_eq.symm.trans h.eq)
  exact { hasHead_eq_false := by rw [Kind.hasHead, hsimple]; rfl
          isWord_eq_false := by simpa using hword }

instance {b : Prop} [Decidable b] {k l : Kind} [k.Compound] [l.Compound] :
    (if b then k else l).Compound := by
  split <;> infer_instance

instance {b : Prop} [Decidable b] {k l : Kind} [k.Plain] [l.Plain] :
    (if b then k else l).Plain := by
  split <;> infer_instance

namespace Node

variable {text : List Char} {n m : Node} {xs ys : List Node}
variable {role : Option Role} {start stop : Nat}

/-! ## Where a node begins -/

/-- The node begins with a character of the text that is no line feed. -/
def Begins (text : List Char) (n : Node) : Prop :=
  ∃ c rest, Text.Passes text 0 (c :: rest) n.start ∧ c ≠ '\n' ∧ n.start + c.utf8Size ≤ n.stop

/-- **A head**: the node begins with a character, in front of all nodes inside it that have a head.
-/
def Headed (text : List Char) (n : Node) : Prop :=
  n.Begins text ∧ ∀ m ∈ nodesOfAll n.children, m.kindIs Kind.hasHead → n.start < m.start

def Opens (text : List Char) (n : Node) : Prop :=
  n.Headed text ∧ n.kindIs Kind.hasHead = false

/-- The node has a head if its kind has one; if it is a name, it has some text and nothing inside.
-/
def Formed (text : List Char) (n : Node) : Prop :=
  (n.kindIs Kind.hasHead → n.Headed text) ∧
    (n.kindIs Kind.isWord → n.children = [] ∧ n.start < n.stop)

def FormedAll (text : List Char) (xs : List Node) : Prop := ∀ n ∈ nodesOfAll xs, n.Formed text

theorem hasHead_of_isFunction (h : n.kindIs Kind.isFunction) : n.kindIs Kind.hasHead := by
  unfold kindIs at *
  cases hk : n.kind? with
  | none => rw [hk] at h; cases h
  | some k => rw [hk] at h; exact Kind.hasHead_of_isFunction h

theorem Begins.start_lt_stop (h : n.Begins text) : n.start < n.stop := by
  obtain ⟨c, _, -, -, hstop⟩ := h
  have := c.utf8Size_pos
  omega

theorem nodesOfAll_append (xs ys : List Node) :
    nodesOfAll (xs ++ ys) = nodesOfAll xs ++ nodesOfAll ys := by
  simp [nodesOfAll_eq]

theorem mem_nodesOfAll_cons :
    m ∈ nodesOfAll (n :: xs) ↔ m = n ∨ m ∈ nodesOfAll n.children ∨ m ∈ nodesOfAll xs := by
  rw [nodesOfAll, mem_append, nodes_eq, mem_cons, ← nodesOfAll_eq, or_assoc]

theorem FormedAll.nil : FormedAll text [] := fun _ h => nomatch h

theorem formedAll_cons : FormedAll text (n :: xs) ↔
    n.Formed text ∧ FormedAll text n.children ∧ FormedAll text xs := by
  constructor
  · intro h
    exact ⟨h n (mem_nodesOfAll_cons.mpr (.inl rfl)),
      fun m hm => h m (mem_nodesOfAll_cons.mpr (.inr (.inl hm))),
      fun m hm => h m (mem_nodesOfAll_cons.mpr (.inr (.inr hm)))⟩
  · rintro ⟨hn, hchildren, hxs⟩ m hm
    rcases mem_nodesOfAll_cons.mp hm with rfl | hm | hm
    · exact hn
    · exact hchildren m hm
    · exact hxs m hm

theorem formedAll_append : FormedAll text (xs ++ ys) ↔ FormedAll text xs ∧ FormedAll text ys := by
  simp only [FormedAll, nodesOfAll_append, forall_mem_append]

theorem Formed.all {label : Label} (hn : (mk label role start stop xs).Formed text)
    (h : FormedAll text xs) : FormedAll text [mk label role start stop xs] :=
  formedAll_cons.mpr ⟨hn, h, .nil⟩

theorem formed_of_plain {kind : Kind} [hk : kind.Plain] :
    (mk (.named kind) role start stop xs).Formed text :=
  ⟨fun h => (nomatch hk.hasHead_eq_false.symm.trans h),
    fun h => (nomatch hk.isWord_eq_false.symm.trans h)⟩

theorem formed_token {label : String} : (mk (.token label) role start stop xs).Formed text :=
  ⟨fun h => (nomatch h), fun h => (nomatch h)⟩

/-- **What begins with an opening node has a head.** -/
theorem Opens.headed {label : Label} (h : n.Opens text)
    (hplaced : PlacedIn n.start stop (n :: xs)) :
    (mk label role n.start stop (n :: xs)).Headed text := by
  obtain ⟨⟨hbegins, hinside⟩, hplain⟩ := h
  have hlt := hbegins.start_lt_stop
  obtain ⟨c, rest, hpasses, hc, hstop⟩ := hbegins
  obtain ⟨-, -, hxs⟩ := hplaced
  refine ⟨⟨c, rest, hpasses, hc, Nat.le_trans hstop hxs.start_le_stop⟩, ?_⟩
  intro m hm hhead
  rcases mem_nodesOfAll_cons.mp hm with rfl | hm | hm
  · exact nomatch hplain.symm.trans hhead
  · exact hinside m hm hhead
  · exact Nat.lt_of_lt_of_le hlt (hxs.range_of_mem hm).2.1

end Node

end Source

end RouteAtlas
