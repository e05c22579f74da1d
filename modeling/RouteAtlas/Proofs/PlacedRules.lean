import RouteAtlas.Proofs.PlacedTokens
import RouteAtlas.Source.Grammar.Module

/-!
# The places of what the grammar reads

Rule by rule, in the order of the grammar: if the rules that a rule calls by way of its context are
solid, then the rule is solid too. Most rules are put together from others alone, and instances are
found. Followed by hand are the rules that keep a node and go on with it (a call behind its
function, an operator behind its left side) or that choose by what they have read. A function is
solid because it can begin with what it begins with: its keyword, its modifiers, its name or its
parameters.
-/

open List

-- A search for instances goes through all the rules that a rule is put together from.
set_option synthInstance.maxSize 1000

namespace RouteAtlas.Source.Grammar

open Extends Solid Yields

/-- The rules that a context calls read some node each. -/
class Context.Sound (g : Context) : Prop where
  solid : ∀ goal, Solid (g.rule goal)

section Rules

variable {g : Context} [hg : g.Sound]

instance {goal : Goal} : Solid (g.rule goal) := hg.solid goal

instance : Solid (expressions g) := by
  refine ⟨fun _ _ _ => .solid fun _ hne => .places fun _ => .ite (fun hmore => ?_) fun _ => ?_⟩
  · exact .nodes hne (by simp [List.isEmpty_iff.mp hmore])
  · exact .span (by simp [hne])

/-! ## Patterns -/

instance {kind : Kind} [kind.Plain] {left : Rule} [Solid left] :
    Solid (withDefault g kind left) := by
  refine ⟨fun _ _ _ => .solid fun _ hne => .opt_bind Gives.after (fun eq => ?_) (.nodes hne)⟩
  exact .places fun _ => .span

instance {fuel : Nat} : Extends (members g fuel) := by
  induction fuel with
  | zero => exact .pure
  | succ fuel ih =>
    refine ⟨fun n text lo last => .look fun s => ?_⟩
    split
    · exact .gives fun _ => .places fun _ => .extendSpan
    · exact .gives fun _ => .places fun _ => .gives fun _ => .extendSpan
    · exact .pure

instance {targets : Bool} : Solid (target g targets) := by
  refine solid_one fun _ _ _ => .gives fun n => .ite (fun _ => ?_) fun _ => ?_
  · exact .look fun _ => after
  · exact .pure

instance {targets : Bool} : Solid (pattern g targets) := by
  unfold pattern
  infer_instance

/-! ## Types -/

theorem solid_opening_modifier (s : String) :
    Solid (modifier s) ∧ (s ≠ "" → Opening (modifier s)) := by
  refine solid_opening_one fun text lo last => (Takes.takes text lo last).bind fun n =>
    .look fun cs => ?_
  cases cs with
  | nil => exact .failure
  | cons c cs => exact .look fun _ => .pure

instance {s : String} : Solid (modifier s) := (solid_opening_modifier s).1

theorem opening_modifier {s : String} (hs : s ≠ "") : Opening (modifier s) :=
  (solid_opening_modifier s).2 hs

theorem opening_namedModifier {kind : Kind} [kind.Plain] {words : List String}
    (h : "" ∉ words) : Opening (namedModifier kind words) := by
  have : Opening (firstOf (words.map modifier)) := by
    induction words with
    | nil => exact inferInstanceAs (Opening failure)
    | cons s words ih =>
      have := opening_modifier (ne_of_not_mem_cons h).symm
      have := ih (not_mem_of_not_mem_cons h)
      exact inferInstanceAs (Opening (modifier s <|> firstOf (words.map modifier)))
  infer_instance

instance : Opening (typeParameters g) := by
  have : Opening (one (raw "<")) := opening_one (by decide)
  unfold typeParameters
  infer_instance

instance : Solid (typedParameter g) := by
  refine ⟨fun _ _ _ => .solid fun _ hne => .places fun _ => .places fun _ => ?_⟩
  exact .span (by simp [hne])

instance : Solid (assertion g) :=
  solid_node fun _ _ _ => .gives fun _ => .look fun _ => .look fun _ => .places fun _ =>
    .nodes

instance : Solid (callSignature g) := by
  unfold callSignature
  infer_instance

instance : Opening (callSignature g) := by
  unfold callSignature
  infer_instance

instance : Opening memberModifiers := by
  have : Opening accessibility := opening_namedModifier (by decide)
  have : Opening overriding := opening_namedModifier (by decide)
  have : Opening (modifier "static") := opening_modifier (by decide)
  have : Opening (modifier "readonly") := opening_modifier (by decide)
  unfold memberModifiers
  infer_instance

instance {kind : Kind} [kind.Plain] : Solid (objectTypeAs g kind) := by
  unfold objectTypeAs
  infer_instance

instance : Solid predefinedType :=
  ⟨fun _ _ _ => .solid fun _ hne => .look fun _ => .look fun _ => .nodes hne⟩

instance {fuel : Nat} : Extends (qualified fuel) := by
  induction fuel with
  | zero => exact .pure
  | succ fuel ih =>
    refine ⟨fun n text lo last => .look fun _ => .ite (fun _ => ?_) fun _ => .pure⟩
    exact .gives fun _ => .gives fun _ => .extendSpan

instance : Solid typeReference := by
  refine ⟨fun _ _ _ => .look fun _ => .ite (fun _ => ?_) fun _ => ensures _ _ _⟩
  exact .look fun _ => .gives fun _ => .extend fun _ => .gives fun _ => .gives fun _ =>
    .span

instance : Solid (namedType g) := by
  refine ⟨fun _ _ _ => .solid fun _ hne => .look fun _ => .look fun _ =>
    .ite (fun _ => ?_) fun _ => ?_⟩
  · exact .places fun _ => .span (by simp [hne])
  · exact .nodes hne

instance {fuel : Nat} : Extends (queryMembers fuel) := by
  induction fuel with
  | zero => exact .pure
  | succ fuel ih =>
    refine ⟨fun n text lo last => .look fun s => ?_⟩
    split
    · exact .gives fun _ => .places fun _ => .extendSpan
    · refine .look fun _ => .ite (fun _ => ?_) fun _ => .pure
      exact .gives fun _ => .places fun _ => .gives fun _ => .extendSpan
    · exact .pure

instance : Gives (importCall g) :=
  ⟨fun _ _ _ => .gives fun _ => .places fun _ => .spanNode⟩

instance : Solid (typeQuery g) := by
  refine solid_node fun _ _ _ => .gives fun keyword => .gives fun _ => .look fun _ =>
    .extend fun _ => .look fun _ => .look fun _ => .ite (fun _ => .places fun _ => ?_) fun _ => ?_
  · refine .pure fun _ h => ⟨?_, by simp⟩
    rw [append_assoc] at h
    exact h.spanningLast _ (by simp) (by simp)
  · exact .nodes

instance : Solid (importType g) :=
  solid_one fun _ _ _ => .look fun _ => .gives fun _ => after

instance {fuel : Nat} : Extends (indexed g fuel) := by
  induction fuel with
  | zero => exact .pure
  | succ fuel ih =>
    refine ⟨fun _ _ _ _ => .look fun _ => .look fun _ => .ite (fun _ => ?_) fun _ => ?_⟩
    · exact .gives fun _ => .places fun _ => .gives fun _ => .extendSpan
    · exact .pure

instance : Solid (indexedType g) :=
  solid_one fun _ _ _ => .gives fun _ => .look fun _ => after

instance : Solid (prefixedType g) := by
  have : Solid (do
      let bound ← inOrder [one (word "extends"), indexedType g]
      guardRead ((← peekSymbol) != some "?")
      return bound) :=
    ⟨fun _ _ _ => .solid fun _ hne => .look fun _ => .look fun _ => .nodes hne⟩
  unfold prefixedType
  infer_instance

instance {s : String} {kind : Kind} [kind.Plain] {operand : Rule} [Solid operand] {fuel : Nat} :
    Extends (joined s kind operand fuel) := by
  induction fuel with
  | zero => exact .pure
  | succ fuel ih =>
    refine ⟨fun _ _ _ _ => .opt_bind Gives.after (fun _ => ?_) (.pure)⟩
    exact .places fun _ => .extendSpan

instance {s : String} {kind : Kind} [kind.Plain] {operand : Rule} [Solid operand] :
    Solid (operatorType s kind operand) := by
  refine solid_one fun _ _ _ => .opt_bind Gives.after (fun _ => ?_) ?_
  · exact .gives fun _ => .look fun _ => .extendSpan
  · exact .gives fun _ => .look fun _ => after

instance : Solid (type g) := by
  refine ⟨fun _ _ _ => .solid fun _ hne => .places fun _ => .ite (fun hnone => ?_) fun _ => ?_⟩
  · exact .nodes hne (by simp [List.isEmpty_iff.mp hnone])
  · exact .span (by simp [hne])

/-! ## Functions and classes -/

theorem solid_opening_asyncWord : Solid asyncWord ∧ (True → Opening asyncWord) :=
  solid_opening_one fun text lo last => (Takes.takes text lo last).bind fun _ => .look fun _ =>
    .look fun _ => .pure fun _ h => ⟨h.1, fun _ => h.2 (by decide)⟩

instance : Solid asyncWord := solid_opening_asyncWord.1

instance : Opening asyncWord := solid_opening_asyncWord.2 trivial

instance {plain generator : Kind} [plain.Compound] [generator.Compound] {name : Rule}
    [Places name] : Solid (functionAs g plain generator name) := by
  have : Opening (one (word "function")) := opening_one (by decide)
  refine ⟨fun _ _ _ => .opening fun _ hne hopens => .places fun _ => .places fun _ =>
    .pure fun _ hc => ⟨hc.spanningOpened _ (by simp [hne]) ?_, cons_ne_nil _ _⟩⟩
  rw [append_assoc]
  exact opens_append hopens fun hnil => absurd hnil hne

instance : Solid (arrowFunction g) := by
  have : Solid (do guardRead !(← newLine); one (symbol "=>")) := inferInstance
  have : Solid (arrowBody g) := by
    unfold arrowBody
    infer_instance
  exact solid_function fun _ _ _ => .opening fun _ hne hopens => .places fun _ => .pure fun _ hc =>
    ⟨hc, by simp [hne], opens_append hopens fun hnil => absurd hnil hne⟩

instance : Solid (methodDefinition g) := by
  have : Opening (modifier "static") := opening_modifier (by decide)
  have : Opening (modifier "async") := opening_modifier (by decide)
  have : Opening (modifier "get") := opening_modifier (by decide)
  have : Opening (modifier "set") := opening_modifier (by decide)
  unfold methodDefinition
  exact solid_function Opening.solid

/-- What stands behind a field may depend on the field. -/
instance {p : Rule} {f : List Node → Rule} [Solid p] [∀ xs, Places (f xs)] :
    Solid (do let xs ← p; return xs ++ (← f xs)) :=
  ⟨fun _ _ _ => .solid fun _ hne => .places fun _ => .nodes (by simp [hne])⟩

instance : Solid (classBody g) := by
  unfold classBody
  infer_instance

/-! ## Markup -/

theorem solid_tagMembers {fuel : Nat} {ns : List Node} (hne : ns ≠ []) (text : List Char)
    (lo last : Nat) : Ensures (Stands text lo last ns) (tagMembers fuel ns)
      (StandsSome text lo last) := by
  induction fuel generalizing ns with
  | zero => exact .nodes hne
  | succ fuel ih =>
    refine .look fun _ => .ite (fun _ => ?_) fun _ => .nodes hne
    refine .gives fun dot => .gives fun name c hc => ih (by simp) c ?_
    exact hc.spanning _ (by simp) (by simp)

instance : Solid tagName := by
  have : Solid (do tagMembers (← budget) (← dashedName .identifier)) :=
    ⟨fun text lo last => .look fun _ => .solid fun _ hne => solid_tagMembers hne text lo last⟩
  unfold tagName
  infer_instance

instance : Places markupText := by
  refine ⟨fun text lo last => .get_bind fun c hc => .guard fun _ => .ite (fun _ => ?_) fun _ => ?_⟩
  · rintro c rfl _ _ ⟨⟩
    obtain ⟨rest, hrest⟩ : textChars c.rest <+: c.rest := Front.isPrefix c.rest
    have hpasses : Text.Passes c.rest c.pos (c.rest.drop (textChars c.rest).length)
        (c.pos + Text.byteLength (textChars c.rest)) :=
      ⟨textChars c.rest, (prefix_iff_eq_append.mp (Front.isPrefix c.rest)).symm, rfl⟩
    exact ⟨hc.last_le, Nat.le_trans hc.last_le_pos hpasses.le, Nat.le_trans hc.lo_le hpasses.le,
      hc.reads.trans hpasses, absurd rfl, .nil⟩
  · rintro _ rfl
    exact Yields.ensures text lo last _ hc

instance : Solid (markup g) := by
  unfold markup
  infer_instance

/-! ## Values -/

instance : Looks noOperand := by
  refine ⟨fun P => .look fun cs => ?_⟩
  cases cs with
  | nil => exact .pure
  | cons c cs =>
    refine .look fun w => ?_
    cases w <;> exact .pure

instance : Solid (bareTypeArguments g) :=
  ⟨fun _ _ _ => .solid fun _ hne => .look fun _ => .look fun _ => .nodes hne⟩

instance {inner : Read Node} [Gives inner] : Solid (newObject g inner) := by
  refine ⟨fun text lo last => (Takes.takes text lo last).bind fun keyword => .of_and fun hopens =>
    .look fun _ => .ite (fun _ => ?_) fun _ => ?_⟩
  · exact .gives fun _ => .gives fun _ => .span
  · refine .gives fun _ => .places fun _ => .pure fun _ hc => ⟨?_, cons_ne_nil _ _⟩
    refine (hc.rebuilt (by simp)).spanningOpened _ (cons_ne_nil _ _) ?_
    rintro _ ⟨⟩
    exact hopens (by decide)

instance : Solid importValue := by
  refine ⟨fun text lo last => .gives fun keyword => .look fun _ => .ite (fun _ => ?_) fun _ => ?_⟩
  · refine .gives fun dot => .gives fun target => .pure fun c hc => ?_
    have hread : Stands text lo last (keyword :: [dot, target]) c := hc
    have hleaf : Stands text lo last [.token "import" keyword.start keyword.stop, dot, target] c :=
      hread.leaf Node.formed_token
    exact ⟨hleaf.spanning _ (by simp) rfl, by simp⟩
  · exact .nodes

theorem plain_of_wordValue {w : String} {kind : Kind} (h : wordValues.lookup w = some kind) :
    kind.Plain := by
  have hall : ∀ x ∈ wordValues, x.2.isPlain := by decide
  obtain ⟨front, rest, hvalues, -⟩ := lookup_eq_some_iff.mp h
  have : Same kind.isPlain true := ⟨hall (w, kind) (by rw [hvalues]; simp)⟩
  infer_instance

instance {inner : Read Node} [Gives inner] : Solid (worded g inner) := by
  refine ⟨fun text lo last => .look fun w => ?_⟩
  cases w with
  | none => exact .failure
  | some w =>
    dsimp only
    split
    · rename_i kind hkind
      have := plain_of_wordValue hkind
      exact ensures text lo last
    · exact ensures text lo last

instance {inner : Read Node} [Gives inner] : Solid (primary g inner) := by
  refine ⟨fun text lo last => .look fun cs => ?_⟩
  split
  · exact .failure
  all_goals exact ensures text lo last

instance : Solid optionalMark :=
  solid_one fun _ _ _ => .gives fun _ => .pure fun _ h => h.leaf Node.formed_of_plain

section Accesses

variable {link : Rule} [Places link] {n : Node}

instance : Extends (memberAccess link) :=
  ⟨fun _ _ _ _ => .places fun _ => .places fun _ => .spanNode⟩

instance : Extends (indexAccess g link) :=
  ⟨fun _ _ _ _ => .places fun _ => .spanNode⟩

instance : Extends (call g link) :=
  ⟨fun _ _ _ _ => .places fun _ => .spanNode⟩

end Accesses

instance : Extends (tagged g) :=
  ⟨fun _ _ _ _ => .places fun _ => .spanNode⟩

instance : Extends (assured g) :=
  ⟨fun _ _ _ _ => .look fun _ => .look fun _ => .gives fun _ => .spanNode⟩

instance : Extends (instantiated g) :=
  ⟨fun _ _ _ _ => .places fun _ => .spanNode⟩

instance {calls : Bool} : Extends (access g calls) := by
  refine ⟨fun n text lo last => .look fun cs => ?_⟩
  have hextend : ∀ {f : Node → Read Node} [Extends f],
      Ensures (Stands text lo last [n]) (f n) fun m => Stands text lo last [m] :=
    extend n text lo last
  split
  · exact hextend
  · exact hextend
  · exact hextend
  · exact .look fun _ => .orElse hextend (.orElse hextend hextend)
  · exact .look fun _ => hextend
  · exact .look fun _ => .orElse hextend hextend
  · exact .look fun _ => hextend
  · exact .failure

instance {calls : Bool} {fuel : Nat} : Extends (accesses g calls fuel) := by
  induction fuel with
  | zero => exact .pure
  | succ fuel ih =>
    refine ⟨fun n text lo last => .opt_bind (extend n text lo last) (fun m => ?_) ?_⟩
    · exact extend m text lo last
    · exact .pure

instance {fuel : Nat} : Gives (maker g fuel) := by
  induction fuel with
  | zero => exact ⟨fun _ _ _ => .failure⟩
  | succ fuel ih => exact ⟨fun _ _ _ => .gives fun _ => .look fun _ => after⟩

instance : Solid (chain g) :=
  solid_one fun _ _ _ => .look fun _ => .gives fun _ => .look fun _ => after

/-! ## Operators -/

instance : Solid (stepped g) := by
  refine ⟨fun text lo last => .orElse (ensures text lo last) ?_⟩
  refine .solid fun _ hne => .look fun _ => .look fun _ =>
    .ite (fun _ => ?_) fun _ => .nodes hne
  exact .places fun _ => .span (by simp [hne])

theorem ensures_peekOperator {P : Cursor → Prop} :
    Ensures P peekOperator fun found c => P c ∧ ∀ op ∈ found, Gives op.1 := by
  refine .look fun s => ?_
  cases s with
  | some s =>
    refine .pure fun _ h => ⟨h, fun op hop => ?_⟩
    obtain ⟨_, -, rfl⟩ := Option.map_eq_some_iff.mp hop
    exact inferInstanceAs (Gives (symbol s))
  | none =>
    refine .look fun w => ?_
    cases w with
    | none => exact .pure fun _ h => ⟨h, fun _ hop => nomatch hop⟩
    | some w =>
      refine .pure fun _ h => ⟨h, fun op hop => ?_⟩
      obtain ⟨_, -, rfl⟩ := Option.map_eq_some_iff.mp hop
      exact inferInstanceAs (Gives (word w))

instance {fuel least : Nat} : Extends (climb g fuel least) := by
  induction fuel generalizing least with
  | zero => exact .pure
  | succ fuel ih =>
    refine ⟨fun n text lo last => ensures_peekOperator.bind fun found => .of_and fun hop => ?_⟩
    cases found with
    | none => exact .pure
    | some found =>
      have : Gives found.1 := hop found rfl
      refine .ite (fun _ => .pure) fun _ => .gives fun _ => .gives fun _ => ?_
      exact .extend fun _ => .extendSpan

instance : Extends (ascription g) := by
  refine ⟨fun n text lo last => .look fun _ => .look fun _ => .look fun w => ?_⟩
  split
  · exact .gives fun _ => .places fun _ => .spanNode
  · exact .gives fun _ => .places fun _ => .spanNode
  · exact .failure

instance {fuel : Nat} : Extends (ascribed g fuel) := by
  induction fuel with
  | zero => exact .pure
  | succ fuel ih =>
    refine ⟨fun n text lo last => .opt_bind (extend n text lo last) (fun m => ?_) ?_⟩
    · refine .look fun _ => .bind (extend m text lo last) fun k => ?_
      exact extend k text lo last
    · exact .pure

instance : Solid (binary g) :=
  solid_one fun _ _ _ => .gives fun _ => .look fun _ => .extend fun _ => after

instance : Solid (conditional g) := by
  refine ⟨fun _ _ _ => .solid fun _ hne => .look fun _ =>
    .ite (fun _ => ?_) fun _ => .nodes hne⟩
  exact .places fun _ => .span (by simp [hne])

/-! ## Assignments -/

instance : Solid (destructuringAssignment g) := by
  refine ⟨fun text lo last => .look fun cs => ?_⟩
  split
  · exact ensures text lo last
  · exact ensures text lo last
  · exact .failure

instance : Solid (yielded g) := by
  refine solid_node fun _ _ _ => .gives fun _ => .look fun _ => .ite (fun _ => ?_) fun _ => ?_
  · exact .nodes
  · exact .places fun _ => .nodes

instance : Solid (assignment g) := by
  refine ⟨fun _ _ _ => .solid fun _ hne => .look fun s => ?_⟩
  split
  · exact .places fun _ => .span (by simp [hne])
  · refine .ite (fun _ => ?_) fun _ => .nodes hne
    exact .places fun _ => .span (by simp [hne])
  · exact .nodes hne

instance : Looks (startsArrow g) := by
  refine ⟨fun P => .look fun cs => ?_⟩
  split
  · exact .pure
  · exact .pure
  · exact .ite (fun _ => .pure) fun _ => Looks.keeps P

/-! ## Declarations -/

instance : Solid (declarator g) := solid_function Opening.solid

instance {kind : Kind} [kind.Plain] {keyword : Rule} [Solid keyword] :
    Solid (variableList g kind keyword) :=
  solid_statement fun _ _ _ => .solid fun _ hne => .places fun _ => .places fun _ =>
    .nodes (by simp [hne])

instance : Solid moduleName := by
  refine ⟨fun text lo last => .orElse (ensures text lo last) ?_⟩
  refine (solid_one fun _ _ _ => .gives fun _ => .look fun _ =>
    .ite (fun _ => ?_) fun _ => ?_).ensures
    text lo last
  · exact .look fun _ => .extend fun _ => .gives fun _ => .gives fun _ =>
      .spanNode
  · exact .pure

instance : Solid (plainDeclaration g) := by
  unfold plainDeclaration
  infer_instance

instance : Solid (typedDeclaration g) := by
  unfold typedDeclaration
  infer_instance

instance : Solid (declaration g) := by
  unfold declaration
  infer_instance

/-! ## Statements -/

instance {w : String} : Solid (keywordStatement g w) := by
  unfold keywordStatement
  split <;> infer_instance

instance : Solid (plainStatement g) := by
  refine ⟨fun text lo last => .look fun cs => ?_⟩
  split <;> exact ensures text lo last

/-! ## Imports and exports -/

instance : Solid (typeWord g) := by
  have : Gives (do
      let n ← word "type"
      guardRead ((← peekSymbol) == some "*")
      return n) :=
    ⟨fun _ _ _ => .gives fun _ => .look fun _ => .look fun _ => .pure⟩
  unfold typeWord
  infer_instance

instance {kind : Kind} [kind.Plain] : Solid (specifier g kind) := by
  have hclosed : ∀ {p : Rule} [Solid p], Solid (do
      let xs ← p
      let next ← peekSymbol
      guardRead (next == some "," || next == some "\x7d")
      return xs) :=
    ⟨fun _ _ _ => .solid fun _ hne => .look fun _ => .look fun _ => .nodes hne⟩
  unfold specifier
  infer_instance

instance : Solid (exportStatement g) := by
  unfold exportStatement
  infer_instance

instance : Solid (statementRule g) := by
  refine ⟨fun text lo last => .look fun w => ?_⟩
  split
  · exact ensures text lo last
  · exact ensures text lo last
  · exact .look fun _ => .ite (fun _ => ensures text lo last) fun _ => ensures text lo last

end Rules

end RouteAtlas.Source.Grammar
