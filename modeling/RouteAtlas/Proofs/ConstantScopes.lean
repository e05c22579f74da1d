import RouteAtlas.Proofs.ChainRecords
import RouteAtlas.Proofs.Variables

/-!
# Constants and scopes

A name in a path has the value of the first declarator of that name in the file, wherever the two
stand. That is the constant to which the name refers if the declarator is a `const` in whose home
the name stands and nothing in between binds the name; so it is for names that the file declares
once, as a constant of the whole file.
-/

open List Option

namespace RouteAtlas.Source

/-! ## The nodes around a site -/

theorem mem_above_of_mem_base (n : Node) (base : List Node) {s : Site} (hs : s ∈ n.sitesBelow base)
    {b : Node} (hb : b ∈ base) : b ∈ s.above := by
  rw [Node.sitesBelow_eq] at hs
  rcases mem_cons.mp hs with rfl | hs
  · exact hb
  · obtain ⟨m, hm, hs⟩ := mem_flatMap.mp hs
    have := Node.size_lt_of_mem_children (Node.mem_children_of_named hm)
    exact mem_above_of_mem_base m _ hs (mem_cons_of_mem n hb)
termination_by n.size

theorem eq_root_or_mem_above {tree : Node} {s : Site} (hs : s ∈ tree.sites) :
    s = ⟨tree, []⟩ ∨ tree ∈ s.above := by
  rw [Node.sites, Node.sitesBelow_eq] at hs
  rcases mem_cons.mp hs with rfl | hs
  · exact .inl rfl
  · obtain ⟨m, -, hs⟩ := mem_flatMap.mp hs
    exact .inr (mem_above_of_mem_base m _ hs mem_cons_self)

/-- A step outwards from a site is from a named child of a site. -/
theorem Site.named_of_mem_steps {tree : Node} {s : Site} (hs : s ∈ tree.sites) {c e : Node}
    (h : (c, e) ∈ s.steps) : c ∈ e.named ∧ ∃ outer, ⟨e, outer⟩ ∈ tree.sites := by
  obtain ⟨n, above⟩ := s
  induction above generalizing n with
  | nil => cases h
  | cons p above ih =>
    obtain ⟨hp, hn⟩ := Inventory.mem_sites_above hs
    rcases mem_cons.mp h with heq | h
    · cases heq
      exact ⟨hn, above, hp⟩
    · exact ih p hp h

end RouteAtlas.Source

namespace RouteAtlas.Inventory

open Source Scope

/-! ## The first declarator -/

def declaresValue (source x : String) (d : Site) : Bool :=
  (constantOf? source d.node).any (x == ·.1)

variable (source : String)

/-- **The declarator from which the value of a name comes**: the first one in the file. -/
def firstDeclarator? (tree : Node) (x : String) : Option Site :=
  tree.sites.find? (declaresValue source x)

theorem lookup_filterMap {α : Type} (f : α → Option (String × Node)) (x : String) (as : List α) :
    (as.filterMap f).lookup x =
      (as.find? fun a => (f a).any (x == ·.1)).bind fun a => (f a).map Prod.snd := by
  induction as with
  | nil => rfl
  | cons a as ih =>
    rw [filterMap_cons, find?_cons]
    cases ha : f a with
    | none => exact ih
    | some entry =>
      simp only [any_some]
      rw [lookup_cons]
      cases x == entry.1 with
      | true => simp [ha]
      | false => exact ih

/-- **A name is looked up at its first declarator.** -/
theorem lookup_constantsOf (tree : Node) (x : String) :
    (constantsOf source tree).lookup x =
      (firstDeclarator? source tree x).bind fun d => (constantOf? source d.node).map Prod.snd :=
  lookup_filterMap (fun s : Site => constantOf? source s.node) x tree.sites

theorem of_constantOf? {source x : String} {n value : Node}
    (h : constantOf? source n = some (x, value)) : n.is .variableDeclarator ∧
      ∃ name inner, n.child? .name = some name ∧ name.text source = x ∧
        n.child? .value = some inner ∧ value = inner.unwrapped := by
  obtain ⟨_, hdeclarator, h⟩ := bind_eq_some_iff.mp h
  obtain ⟨name, hname, h⟩ := bind_eq_some_iff.mp h
  obtain ⟨inner, hinner, h⟩ := bind_eq_some_iff.mp h
  obtain ⟨_, -, h⟩ := bind_eq_some_iff.mp h
  obtain ⟨rfl, rfl⟩ := Prod.mk.inj (some.inj h)
  exact ⟨(guard_eq_some' _).mp hdeclarator, name, inner, hname, rfl, hinner, rfl⟩

theorem exists_of_declaresValue {source x : String} {d : Site}
    (h : declaresValue source x d) : ∃ value, constantOf? source d.node = some (x, value) := by
  unfold declaresValue at h
  cases hentry : constantOf? source d.node with
  | none =>
    rw [hentry] at h
    cases h
  | some entry =>
    rw [hentry] at h
    obtain rfl : x = entry.1 := beq_iff_eq.mp h
    exact ⟨entry.2, rfl⟩

/-! ## Constants -/

def IsConst (d : Site) : Prop :=
  ∃ p ∈ d.parent?, p.is .lexicalDeclaration ∧ ∃ k ∈ p.child? .kind, k.label = .token "const"
  deriving Decidable

/-- How the value of a name comes from another declarator than the constant to which it refers. -/
inductive ConstantMiss where
  /-- The first declarator of the name is no `const`. -/
  | mutable
  /-- It stands in another function or block than the name. -/
  | outside
  /-- A nearer scope binds the name, by a parameter or a declaration. -/
  | hidden
  deriving DecidableEq, Repr

/-- The name at a site does not refer to the declarator as to a constant. -/
def ConstantMissed (s d : Site) : ConstantMiss → Prop
  | .mutable => ¬ IsConst d
  | .outside => ∀ home ∈ home? d, home ∉ s.above
  | .hidden => ∃ home ∈ home? d, Nearer source s home (s.node.text source)

/-- **The file declares a name once**, by a constant of the whole file that nothing else binds. -/
@[mk_iff]
structure DeclaredOnce (source : String) (tree : Node) (x : String) (d : Site) : Prop where
  site : d ∈ tree.sites
  const : IsConst d
  name : GivesName source d x
  home : home? d = some tree
  only : ∀ e ∈ tree.sites, e.node.is .variableDeclarator → GivesName source e x → e = d
  unbound : ∀ e ∈ tree.sites, e.node ≠ tree → ∀ c ∈ e.node.named, ¬ Binds source c e.node x

theorem textAt?_identifier {constants : Constants} {source : String} {n : Node}
    (h : n.is .identifier) (depth : Nat) : constants.textAt? source (depth + 1) n =
      (constants.lookup (n.text source)).bind (constants.textAt? source depth) := by
  have hunwrapped : n.unwrapped = n := unwrapped_of_kind h (by decide)
  rw [Constants.textAt?, hunwrapped]
  simp only [is_of_ne h .string (by decide), is_of_ne h .number (by decide),
    is_of_ne h .templateString (by decide), h]
  rfl

section Scoped

variable {source x : String} {tree : Node} {s d : Site}

theorem not_identifier_of_home {home : Node} (hconst : IsConst d) (hhome : home? d = some home) :
    home.is .identifier = false := by
  obtain ⟨p, hp, hlexical, -⟩ := hconst
  have hvar : isVar d = false := by
    rw [isVar, mem_def.mp hp]
    exact is_of_ne hlexical _ (by decide)
  rw [home?, hvar] at hhome
  have hholds : holdsDeclarations home := find?_some hhome
  obtain ⟨k, hk, his⟩ := List.any_eq_true.mp hholds
  refine is_of_ne his _ ?_
  rintro rfl
  revert hk
  decide

/-- **A name that is declared once refers to its constant** everywhere. -/
theorem refers_of_declaredOnce (h : DeclaredOnce source tree x d) (hs : s ∈ tree.sites)
    (hident : s.node.is .identifier) (hx : s.node.text source = x) : Refers source s d := by
  have habove : tree ∈ s.above := by
    refine (eq_root_or_mem_above hs).resolve_left ?_
    rintro rfl
    rw [not_identifier_of_home h.const h.home] at hident
    cases hident
  refine ⟨hx ▸ h.name, tree, h.home, habove, ?_⟩
  rintro ⟨⟨c, e⟩, hstep, hbinds⟩
  have hsteps : (c, e) ∈ s.steps := (List.takeWhile_prefix _).subset hstep
  have hne : e ≠ tree := by simpa using mem_takeWhile_imp hstep
  obtain ⟨hc, outer, he⟩ := Site.named_of_mem_steps hs hsteps
  exact h.unbound ⟨e, outer⟩ he hne c hc (hx ▸ hbinds)

theorem eq_of_declaredOnce (h : DeclaredOnce source tree x d) {e : Site}
    (he : firstDeclarator? source tree x = some e) : e = d := by
  obtain ⟨value, hvalue⟩ := exists_of_declaresValue (find?_some he)
  obtain ⟨hdeclarator, name, -, hname, htext, -⟩ := of_constantOf? hvalue
  exact h.only e (mem_of_find?_eq_some he) hdeclarator ⟨name, hname, htext⟩

theorem lookup_of_declaredOnce (h : DeclaredOnce source tree x d) {value looked : Node}
    (hvalue : d.node.child? .value = some value)
    (hlooked : (constantsOf source tree).lookup x = some looked) : looked = value.unwrapped := by
  rw [lookup_constantsOf] at hlooked
  obtain ⟨e, he, hlooked⟩ := bind_eq_some_iff.mp hlooked
  obtain rfl := eq_of_declaredOnce h he
  obtain ⟨entry, hentry, rfl⟩ := map_eq_some_iff.mp hlooked
  obtain ⟨-, -, inner, -, -, hinner, heq⟩ := of_constantOf? hentry
  rw [heq, some.inj (hinner.symm.trans hvalue)]

/-- **Where the value of a name comes from.** It is the value of the first declarator of the name in
the file. This is the constant to which the name refers unless the declarator is no constant, is out
of sight, or is hidden; it is so in particular if the file declares the name once. -/
theorem constant_scoped_iff (hs : s ∈ tree.sites) (hident : s.node.is .identifier = true)
    {depth : Nat} {v : String}
    (h : (constantsOf source tree).textAt? source (depth + 1) s.node = some v) :
    ∃ d value, firstDeclarator? source tree (s.node.text source) = some d ∧
      d.node.child? .value = some value ∧
      (constantsOf source tree).textAt? source depth value.unwrapped = some v ∧
      (IsConst d ∧ Refers source s d ↔ ¬ ∃ miss, ConstantMissed source s d miss) ∧
      ∀ e, DeclaredOnce source tree (s.node.text source) e →
        e = d ∧ IsConst d ∧ Refers source s d := by
  rw [textAt?_identifier hident] at h
  obtain ⟨looked, hlooked, htext⟩ := bind_eq_some_iff.mp h
  rw [lookup_constantsOf] at hlooked
  obtain ⟨d, hd, hvalue⟩ := bind_eq_some_iff.mp hlooked
  obtain ⟨value', hdeclares⟩ := exists_of_declaresValue (find?_some hd)
  obtain ⟨hdeclarator, name, inner, hname, hspelled, hinner, rfl⟩ := of_constantOf? hdeclares
  rw [hdeclares] at hvalue
  obtain rfl : inner.unwrapped = looked := some.inj hvalue
  refine ⟨d, inner, hd, hinner, htext, ?_, fun e he => ?_⟩
  · rw [refers_iff ⟨name, hname, hspelled⟩]
    constructor
    · rintro ⟨hconst, hinside, hnearer⟩ ⟨miss, hmiss⟩
      cases miss with
      | mutable => exact hmiss hconst
      | outside => exact hinside hmiss
      | hidden => exact hnearer hmiss
    · intro hmiss
      exact ⟨by_contra fun h => hmiss ⟨.mutable, h⟩, fun h => hmiss ⟨.outside, h⟩,
        fun h => hmiss ⟨.hidden, h⟩⟩
  · obtain rfl := eq_of_declaredOnce he hd
    exact ⟨rfl, he.const, refers_of_declaredOnce he hs hident rfl⟩

end Scoped

/-! ## Names in paths -/

instance : DecidableEq Site := fun s d =>
  decidable_of_iff (s.node = d.node ∧ s.above = d.above) (by rw [Site.mk.injEq])

instance (source : String) (tree : Node) (x : String) (d : Site) :
    Decidable (DeclaredOnce source tree x d) :=
  decidable_of_iff' _ (declaredOnce_iff source tree x d)

/-- The name at a site is the path of a chain of one call that a router records. -/
def IsPath (r : Reading) (s : Site) : Prop :=
  s.node.is .identifier ∧ ∃ outer ∈ outermostCalls r.file.tree,
    chainCalls outer.node = [outer.node] ∧ outer.node.arguments.head? = some s.node ∧
      (r.routers.withChain r outer.node).routers ≠ r.routers.routers
  deriving Decidable

/-- The value comes from a constant to which the name refers. -/
def FromConstant (r : Reading) (s : Site) (v : String) : Prop :=
  ∃ d ∈ r.file.tree.sites, IsConst d ∧ Refers r.source s d ∧
    ∃ value ∈ d.node.child? .value, r.constant? value = some v
  deriving Decidable

theorem constant?_importing (text : String) (n : Node) : (importing text).constant? n =
    (constantsOf (importing text).source (importing text).file.tree).textAt?
      (importing text).source (8 + 1) n :=
  rfl

def onceFile : Reading := importing "let a=new Hono();const p='/a';()=>a.get(p,h)"

/-- Paths whose values do not come from the constants to which they refer: there is a constant of
the same name in another block, the name is a variable with another value by then, the name is a
parameter. -/
def unscopedFiles : List Reading :=
  ["let a=new Hono();\x7bconst p='/a'\x7d\x7bconst p='/b';a.get(p,h)\x7d",
    "let a=new Hono(),p='/a';p='/b';a.get(p,h)",
    "let a=new Hono();const p='/a';p=>a.get(p,h)"].map importing

theorem constant_facts :
    (∃ s ∈ onceFile.file.tree.sites, IsPath onceFile s ∧ onceFile.constant? s.node = some "/a" ∧
      ∃ d ∈ onceFile.file.tree.sites,
        DeclaredOnce onceFile.source onceFile.file.tree (s.node.text onceFile.source) d) ∧
    ∀ r ∈ unscopedFiles, ∃ s ∈ r.file.tree.sites, IsPath r s ∧ r.constant? s.node = some "/a" ∧
      ¬ FromConstant r s "/a" := by
  decide +kernel

/-- The path has the value of the constant to which it refers. -/
theorem constant_scoped_iff_once :
    ∃ s ∈ onceFile.file.tree.sites, IsPath onceFile s ∧ onceFile.constant? s.node = some "/a" ∧
      ∃ d value, firstDeclarator? onceFile.source onceFile.file.tree
          (s.node.text onceFile.source) = some d ∧
        d.node.child? .value = some value ∧
        (constantsOf onceFile.source onceFile.file.tree).textAt? onceFile.source 8
          value.unwrapped = some "/a" ∧
        IsConst d ∧ Refers onceFile.source s d ∧
        ¬ ∃ miss, ConstantMissed onceFile.source s d miss := by
  obtain ⟨⟨s, hs, hpath, hvalue, e, -, honce⟩, -⟩ := constant_facts
  obtain ⟨d, value, hfirst, hdeclared, htext, hmissed, hright⟩ :=
    constant_scoped_iff hs hpath.1 ((constant?_importing _ _).symm.trans hvalue)
  obtain ⟨-, hconst, hrefers⟩ := hright e honce
  exact ⟨s, hs, hpath, hvalue, d, value, hfirst, hdeclared, htext, hconst, hrefers,
    hmissed.mp ⟨hconst, hrefers⟩⟩

/-- **The values of paths ignore scopes.** -/
theorem constants_ignore_scopes : unscopedFiles.length = 3 ∧
    ∀ r ∈ unscopedFiles, ∃ s ∈ r.file.tree.sites, IsPath r s ∧ r.constant? s.node = some "/a" ∧
      ¬ FromConstant r s "/a" :=
  ⟨rfl, constant_facts.2⟩

end RouteAtlas.Inventory
