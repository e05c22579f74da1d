import RouteAtlas.Proofs.ConstantScopes
import RouteAtlas.Proofs.TextExpressions

/-!
# Folding of constant texts

What the search for the known value of an expression gives for expressions of texts and numbers: its
parts one behind another. That is the value of the expression by the rules of the language as long
as no two numbers are added and no template holds a carriage return, and else it is not.
-/

open List Option

namespace RouteAtlas.Inventory

open Source Scope Node

/-! ## Written expressions -/

/-- The node holds another one and else comments and tokens only. -/
def HoldsOnly (n m : Node) : Prop := n.named.filter (!·.is .comment) = [m]
  deriving Decidable

/-- A text is written between two quotes. -/
def Quoted (quote : Char) (content written : String) : Prop :=
  quote ∉ content.toList ∧ written = String.ofList (quote :: (content.toList ++ [quote]))
  deriving Decidable

def substitutions (n : Node) : List Node := n.named.filter (·.is .templateSubstitution)

mutual

/-- **A node is written as an expression**: strings and templates without escapes, whole numbers in
their shortest form, names of constants that are declared once. -/
def Spells (source : String) (tree : Node) : Expr → Node → Prop
  | .text content, n =>
    n.is .string ∧ '\\' ∉ content.toList ∧
      (Quoted '"' content (n.source source) ∨ Quoted '\'' content (n.source source))
  | .number k, n => n.is .number ∧ k < exactBelow ∧ n.text source = toString k
  | .template pieces, n =>
    n.is .templateString ∧ n.start + 2 ≤ n.stop ∧
      SpellsPieces source tree (n.stop - 1) pieces (n.start + 1) (substitutions n)
  | .sum left right, n =>
    n.is .binaryExpression ∧ (∃ op ∈ n.child? .operator, op.text source = "+") ∧
      (∃ m ∈ n.child? .left, Spells source tree left m) ∧
      ∃ m ∈ n.child? .right, Spells source tree right m
  | .parens inner, n =>
    n.is .parenthesizedExpression ∧ ∃ m ∈ n.named, HoldsOnly n m ∧ Spells source tree inner m
  | .name x definition, n =>
    n.is .identifier ∧ n.text source = x ∧ ∃ d ∈ tree.sites, DeclaredOnce source tree x d ∧
      ∃ value ∈ d.node.child? .value, Spells source tree definition value

/-- The text from an offset to the end of a template and the substitutions in it are written as
pieces. -/
def SpellsPieces (source : String) (tree : Node) (stop : Nat) : Pieces → Nat → List Node → Prop
  | .last content, cursor, parts =>
    parts = [] ∧ '\\' ∉ content.toList ∧ Text.slice source cursor stop = content
  | .fill content inner rest, cursor, parts =>
    ∃ part ∈ parts.head?, '\\' ∉ content.toList ∧ Text.slice source cursor part.start = content ∧
      (∃ m ∈ part.named, HoldsOnly part m ∧ Spells source tree inner m) ∧
      SpellsPieces source tree stop rest part.stop parts.tail

end

/-- **The search leaves no substitution as it is written**, in the expression and in all that it
follows from there. -/
def Constants.Resolves (constants : Constants) (source : String) : (depth : Nat) → Node → Prop
  | 0, _ => True
  | depth + 1, n =>
    (n.unwrapped.is .templateString → ∀ part ∈ substitutions n.unwrapped,
      ∃ m ∈ part.named.head?, (constants.textAt? source depth m).isSome ∧
        Constants.Resolves constants source depth m) ∧
    (n.unwrapped.is .identifier → ∀ value ∈ constants.lookup (n.unwrapped.text source),
      Constants.Resolves constants source depth value) ∧
    (n.unwrapped.is .binaryExpression → ∀ role ∈ [Role.left, Role.right],
      ∀ m ∈ n.unwrapped.child? role, Constants.Resolves constants source depth m)

/-! ## Wrappers -/

theorem size_lt_of_unwrapStep? {n m : Node} (h : n.unwrapStep? = some m) : m.size < n.size := by
  refine size_lt_of_mem_children (mem_children_of_named ?_)
  unfold unwrapStep? at h
  split at h
  · exact mem_of_head? h
  · split at h
    · exact mem_of_find?_eq_some h
    · cases h

theorem unwrapped_of_step {n m : Node} (h : n.unwrapStep? = some m) : n.unwrapped = m.unwrapped :=
  follow_of_step size_lt_of_unwrapStep? h

theorem unwrapped_unwrapped (n : Node) : n.unwrapped.unwrapped = n.unwrapped := by
  cases h : n.unwrapStep? with
  | none =>
    have hself : n.unwrapped = n := follow_eq_self h
    rw [hself, hself]
  | some m =>
    have := size_lt_of_unwrapStep? h
    rw [unwrapped_of_step h]
    exact unwrapped_unwrapped m
termination_by n.size

section Search

variable {constants : Constants} {source : String} {n m : Node} {depth : Nat}

/-- The value of an expression is that of what is in its wrappers. -/
theorem textAt?_congr (h : n.unwrapped = m.unwrapped) :
    constants.textAt? source depth n = constants.textAt? source depth m := by
  cases depth with
  | zero => rfl
  | succ depth => rw [Constants.textAt?, Constants.textAt?, h]

theorem resolves_congr (h : n.unwrapped = m.unwrapped) :
    constants.Resolves source depth n ↔ constants.Resolves source depth m := by
  cases depth with
  | zero => exact Iff.rfl
  | succ depth => rw [Constants.Resolves, Constants.Resolves, h]

/-! ## The kinds of expressions -/

theorem textAt?_string (h : n.is .string) :
    constants.textAt? source (depth + 1) n = n.stringValue? source := by
  rw [Constants.textAt?, unwrapped_of_kind h (by decide)]
  simp only [is_of_is h]
  rfl

theorem textAt?_number (h : n.is .number) :
    constants.textAt? source (depth + 1) n = some (n.text source) := by
  rw [Constants.textAt?, unwrapped_of_kind h (by decide)]
  simp only [is_of_is h]
  rfl

/-- The value of a substitution. -/
def substituted (constants : Constants) (source : String) (depth : Nat) (part : Node) :
    Option String :=
  part.named.head?.bind (constants.textAt? source depth)

theorem textAt?_template (h : n.is .templateString) :
    constants.textAt? source (depth + 1) n =
      some (fillTemplate source (substituted constants source depth)
        (max (n.stop - 1) (n.start + 1)) (n.start + 1) (substitutions n)) := by
  rw [Constants.textAt?, unwrapped_of_kind h (by decide)]
  simp only [is_of_is h]
  rfl

theorem textAt?_sum (h : n.is .binaryExpression) {v : String}
    (hv : constants.textAt? source (depth + 1) n = some v) : ∃ left right a b,
      n.child? .left = some left ∧ n.child? .right = some right ∧
      constants.textAt? source depth left = some a ∧
      constants.textAt? source depth right = some b ∧ v = a ++ b := by
  rw [Constants.textAt?, unwrapped_of_kind h (by decide)] at hv
  simp only [is_of_is h] at hv
  obtain ⟨_, -, hv⟩ := bind_eq_some_iff.mp hv
  obtain ⟨_, -, hv⟩ := bind_eq_some_iff.mp hv
  obtain ⟨left, hleft, hv⟩ := bind_eq_some_iff.mp hv
  obtain ⟨a, ha, hv⟩ := bind_eq_some_iff.mp hv
  obtain ⟨right, hright, hv⟩ := bind_eq_some_iff.mp hv
  obtain ⟨b, hb, hv⟩ := bind_eq_some_iff.mp hv
  exact ⟨left, right, a, b, hleft, hright, ha, hb, (some.inj hv).symm⟩

theorem textAt?_comment (h : n.is .comment) : constants.textAt? source depth n = none := by
  cases depth with
  | zero => rfl
  | succ depth =>
    rw [Constants.textAt?, unwrapped_of_kind h (by decide)]
    simp only [is_of_is h]
    rfl

theorem eq_of_holdsOnly (h : HoldsOnly n m) {c : Node} (hc : n.named.head? = some c)
    (hv : (constants.textAt? source depth c).isSome) : c = m := by
  have hcomment : c.is .comment = false := by
    cases hcomment : c.is .comment with
    | false => rfl
    | true =>
      rw [textAt?_comment hcomment] at hv
      cases hv
  have hmem : c ∈ n.named.filter (!·.is .comment) :=
    mem_filter.mpr ⟨mem_of_head? hc, by rw [hcomment]; rfl⟩
  rw [h] at hmem
  exact mem_singleton.mp hmem

theorem unwrapped_parens (hparens : n.is .parenthesizedExpression) (h : HoldsOnly n m)
    (hv : (constants.textAt? source depth n).isSome) : n.unwrapped = m.unwrapped := by
  have hstep : n.unwrapStep? = n.named.head? := by
    rw [unwrapStep?, isOneOf_of_is hparens]
    rfl
  cases hhead : n.named.head? with
  | none =>
    have hnil : n.named = [] := head?_eq_none_iff.mp hhead
    rw [HoldsOnly, hnil] at h
    cases h
  | some c =>
    have hunwrapped := unwrapped_of_step (hstep.trans hhead)
    rw [textAt?_congr hunwrapped] at hv
    rw [hunwrapped, eq_of_holdsOnly h hhead hv]

end Search

/-! ## Folding -/

section Folding

variable {source : String} {tree : Node}

mutual

/-- **What is found for a written expression** is its parts one behind another. -/
theorem folded_of_spells : ∀ (e : Expr) {n : Node} {depth : Nat} {v : String},
    Spells source tree e n → (constantsOf source tree).textAt? source depth n = some v →
      (constantsOf source tree).Resolves source depth n → v = e.folded
  | _, _, 0, _, _, hv, _ => by cases hv
  | .text content, n, depth + 1, v, ⟨hstring, _, hquoted⟩, hv, _ => by
    obtain ⟨q, hq, hsource⟩ : ∃ q ∈ ['"', '\''],
        n.source source = String.ofList (q :: (content.toList ++ [q])) := by
      rcases hquoted with h | h
      · exact ⟨'"', mem_cons_self, h.2⟩
      · exact ⟨'\'', mem_cons_of_mem _ mem_cons_self, h.2⟩
    rw [textAt?_string hstring, stringValue?, if_pos hstring, text, hsource,
      unquote?_quoted hq] at hv
    exact (some.inj hv).symm
  | .number k, n, depth + 1, v, ⟨hnumber, _, htext⟩, hv, _ => by
    rw [textAt?_number hnumber, htext] at hv
    exact (some.inj hv).symm
  | .template pieces, n, depth + 1, v, ⟨htemplate, hticks, hpieces⟩, hv, hresolves => by
    rw [Constants.Resolves, unwrapped_of_kind htemplate (by decide)] at hresolves
    rw [textAt?_template htemplate, Nat.max_eq_left (by omega)] at hv
    rw [← some.inj hv]
    exact filled_of_spells pieces hpieces (hresolves.1 htemplate)
  | .sum left right, n, depth + 1, v, ⟨hsum, _, ⟨l, hl, hleft⟩, r, hr, hright⟩, hv, hresolves => by
    rw [Constants.Resolves, unwrapped_of_kind hsum (by decide)] at hresolves
    obtain ⟨l', r', a, b, hl', hr', ha, hb, rfl⟩ := textAt?_sum hsum hv
    obtain rfl : l = l' := some.inj (hl.symm.trans hl')
    obtain rfl : r = r' := some.inj (hr.symm.trans hr')
    have hparts := hresolves.2.2 hsum
    rw [folded_of_spells left hleft ha (hparts .left (by decide) l hl),
      folded_of_spells right hright hb (hparts .right (by decide) r hr)]
    rfl
  | .parens inner, n, depth + 1, v, ⟨hparens, m, _, hholds, hinner⟩, hv, hresolves => by
    have hunwrapped := unwrapped_parens hparens hholds (isSome_iff_exists.mpr ⟨v, hv⟩)
    rw [textAt?_congr hunwrapped] at hv
    exact folded_of_spells inner hinner hv ((resolves_congr hunwrapped).mp hresolves)
  | .name x definition, n, depth + 1, v, ⟨hname, htext, d, _, honce, value, hvalue, hdefinition⟩,
      hv, hresolves => by
    rw [Constants.Resolves, unwrapped_of_kind hname (by decide)] at hresolves
    rw [textAt?_identifier hname] at hv
    obtain ⟨looked, hlooked, hv⟩ := bind_eq_some_iff.mp hv
    have hinner := hresolves.2.1 hname looked hlooked
    have hlookedvalue : looked = value.unwrapped := lookup_of_declaredOnce honce hvalue
      (htext ▸ hlooked)
    subst hlookedvalue
    rw [textAt?_congr (unwrapped_unwrapped value)] at hv
    exact folded_of_spells definition hdefinition hv
      ((resolves_congr (unwrapped_unwrapped value)).mp hinner)

theorem filled_of_spells : ∀ (p : Pieces) {stop cursor : Nat} {parts : List Node} {depth : Nat},
    SpellsPieces source tree stop p cursor parts → (∀ part ∈ parts, ∃ m ∈ part.named.head?,
        ((constantsOf source tree).textAt? source depth m).isSome ∧
          (constantsOf source tree).Resolves source depth m) →
      fillTemplate source (substituted (constantsOf source tree) source depth) stop cursor parts =
        p.folded
  | .last content, stop, cursor, parts, depth, ⟨hparts, _, hcontent⟩, _ => by
    rw [hparts, fillTemplate, hcontent]
    rfl
  | .fill content inner rest, stop, cursor, [], depth, ⟨_, hpart, _⟩, _ => by cases hpart
  | .fill content inner rest, stop, cursor, part :: parts, depth,
      ⟨part', hpart, _, hcontent, ⟨m, _, hholds, hinner⟩, hrest⟩, hresolves => by
    obtain rfl : part = part' := some.inj hpart
    obtain ⟨c, hc, hsome, hresolved⟩ := hresolves part mem_cons_self
    obtain rfl : c = m := eq_of_holdsOnly hholds hc hsome
    obtain ⟨w, hw⟩ := isSome_iff_exists.mp hsome
    have hsubstituted : substituted (constantsOf source tree) source depth part = some w := by
      rw [substituted, mem_def.mp hc]
      exact hw
    have hfilled := filled_of_spells rest hrest
      fun other hother => hresolves other (mem_cons_of_mem part hother)
    rw [tail_cons] at hfilled
    rw [fillTemplate, hsubstituted, hcontent, hfilled, folded_of_spells inner hinner hw hresolved]
    rfl

end

/-- **When folding keeps the value.** If a value is found for a written expression and no
substitution is left, it is the value of the expression by the rules of the language exactly if no
two numbers are added and no template holds a carriage return. -/
theorem folding_faithful_iff {e : Expr} {n : Node} {depth : Nat} {v : String}
    (hspells : Spells source tree e n)
    (hv : (constantsOf source tree).textAt? source depth n = some v)
    (hresolves : (constantsOf source tree).Resolves source depth n) :
    v = e.value.spelled ↔ e.Faithful := by
  rw [folded_of_spells e hspells hv hresolves]
  exact e.folded_eq_value_iff.2

end Folding

/-! ## Folded and added -/

mutual

instance decidableSpells (source : String) (tree : Node) : (e : Expr) → (n : Node) →
    Decidable (Spells source tree e n)
  | .text _, _ => inferInstanceAs (Decidable (_ ∧ _))
  | .number _, _ => inferInstanceAs (Decidable (_ ∧ _))
  | .template pieces, n =>
    have := decidableSpellsPieces source tree (n.stop - 1) pieces (n.start + 1) (substitutions n)
    inferInstanceAs (Decidable (_ ∧ _))
  | .sum left right, _ =>
    have := decidableSpells source tree left
    have := decidableSpells source tree right
    inferInstanceAs (Decidable (_ ∧ _))
  | .parens inner, _ =>
    have := decidableSpells source tree inner
    inferInstanceAs (Decidable (_ ∧ _))
  | .name _ definition, _ =>
    have := decidableSpells source tree definition
    inferInstanceAs (Decidable (_ ∧ _))

instance decidableSpellsPieces (source : String) (tree : Node) (stop : Nat) : (p : Pieces) →
    (cursor : Nat) → (parts : List Node) → Decidable (SpellsPieces source tree stop p cursor parts)
  | .last _, _, _ => inferInstanceAs (Decidable (_ ∧ _))
  | .fill _ inner rest, _, _ =>
    have := decidableSpells source tree inner
    have := decidableSpellsPieces source tree stop rest
    inferInstanceAs (Decidable (∃ part ∈ _, _))

end

instance decidableResolves (constants : Constants) (source : String) : (depth : Nat) →
    (n : Node) → Decidable (constants.Resolves source depth n)
  | 0, _ => inferInstanceAs (Decidable True)
  | depth + 1, _ =>
    have := decidableResolves constants source depth
    inferInstanceAs (Decidable (_ ∧ _))

/-- A value is found for an expression in a file, and no substitution is left. -/
def Folds (r : Reading) (e : Expr) (v : String) : Prop :=
  ∃ s ∈ r.file.tree.sites, Spells r.source r.file.tree e s.node ∧
    (constantsOf r.source r.file.tree).text? r.source s.node = some v ∧
    (constantsOf r.source r.file.tree).Resolves r.source constantDepth s.node
  deriving Decidable

/-- A constant and a number in a template, and a string behind it. -/
def faithfulFile : Reading := importing "const p='/v';f(`$\x7bp\x7d/$\x7b1\x7d`+('/x'))"

def faithfulExpr : Expr :=
  .sum (.template (.fill "" (.name "p" (.text "/v")) (.fill "/" (.number 1) (.last ""))))
    (.parens (.text "/x"))

def addingFile : Reading := importing "f('/'+(1+2))"

def addingExpr : Expr := .sum (.text "/") (.parens (.sum (.number 1) (.number 2)))

/-- A line of a template ends in a carriage return and a line feed. -/
def brokenLineFile : Reading := importing "f(`/\r\n`)"

def brokenLineExpr : Expr := .template (.last "/\r\n")

theorem folding_facts : (Folds faithfulFile faithfulExpr "/v/1/x" ∧ faithfulExpr.Faithful) ∧
    (Folds addingFile addingExpr "/12" ∧ addingExpr.value.spelled = "/3") ∧
    Folds brokenLineFile brokenLineExpr "/\r\n" ∧ brokenLineExpr.value.spelled = "/\n" := by
  decide +kernel

/-- Folding keeps the value of a template with a constant and a number. -/
theorem folding_faithful_iff_template : Folds faithfulFile faithfulExpr "/v/1/x" ∧
    faithfulExpr.Faithful ∧ "/v/1/x" = faithfulExpr.value.spelled := by
  obtain ⟨hfolds, hfaithful⟩ := folding_facts.1
  obtain ⟨s, hs, hspells, hv, hresolves⟩ := hfolds
  exact ⟨folding_facts.1.1, hfaithful, (folding_faithful_iff hspells hv hresolves).mpr hfaithful⟩

/-- **Folding changes values**: it writes two numbers one behind the other in place of their sum,
and keeps the carriage returns of templates. -/
theorem folding_changes_values :
    (Folds addingFile addingExpr "/12" ∧ addingExpr.value.spelled = "/3") ∧
    Folds brokenLineFile brokenLineExpr "/\r\n" ∧ brokenLineExpr.value.spelled = "/\n" :=
  folding_facts.2

end RouteAtlas.Inventory
