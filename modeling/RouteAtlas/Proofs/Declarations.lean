import RouteAtlas.Proofs.ExportChains
import RouteAtlas.Proofs.Trees

/-!
# Where declarations come from

A declaration that an expansion finds, in whatever module, is made by a statement at the top of that
module, and the function that it holds, if any, stands in this statement.
-/

open Option

namespace RouteAtlas

namespace Expansion

open Files Source Inventory Modules Modules.Resolver

variable {t : Tree} {m : Module} {name own : String} {statement : Node} {d : Declaration}
variable {find : String → Path → Option Path}

/-- **A declaration is made by a statement** of a module, which holds its function. -/
structure Declaration.MadeBy (m : Module) (statement : Node) (d : Declaration) : Prop where
  file_eq : d.file = m
  statement_eq : d.statement = statement
  function_mem : ∀ f ∈ d.function, f ∈ statement.nodes

theorem Module.mem_nodes_of_inner? {inner : Node} (h : inner? statement = some inner) :
    inner ∈ statement.nodes := by
  unfold inner? at h
  split at h
  · exact Node.mem_nodes_of_child? h
  · cases h
    exact statement.self_mem_nodes

theorem Module.madeBy_of_declarator? {inner : Node} (hinner : inner ∈ statement.nodes)
    (h : m.declarator? name statement inner = some d) : d.MadeBy m statement := by
  obtain ⟨declarator, hdeclarator, h⟩ := bind_eq_some_iff.mp h
  have hmem : declarator ∈ statement.nodes := Node.mem_nodes_trans hinner
    (Node.mem_nodes_of_named (List.mem_of_find?_eq_some hdeclarator))
  cases hvalue : declarator.child? .value with
  | none =>
    rw [hvalue] at h
    cases h
    exact ⟨rfl, rfl, nofun⟩
  | some value =>
    rw [hvalue, map_some] at h
    dsimp only at h
    split at h
    · cases h
      refine ⟨rfl, rfl, ?_⟩
      rintro _ ⟨⟩
      exact Node.mem_nodes_trans hmem (Node.mem_nodes_trans
        (Node.mem_nodes_of_child? hvalue) value.unwrapped_mem_nodes)
    · cases h
      exact ⟨rfl, rfl, nofun⟩

theorem Module.madeBy_of_declarationIn? (h : m.declarationIn? name statement = some d) :
    d.MadeBy m statement := by
  obtain ⟨inner, hinner, h⟩ := bind_eq_some_iff.mp h
  have hmem := mem_nodes_of_inner? hinner
  split at h
  · cases h
    exact ⟨rfl, rfl, by rintro _ ⟨⟩; exact hmem⟩
  split at h
  · exact madeBy_of_declarator? hmem h
  split at h
  · cases h
    exact ⟨rfl, rfl, nofun⟩
  split at h
  · cases h
    exact ⟨rfl, rfl, nofun⟩
  · exact nomatch h

theorem Module.madeBy_anonymousDefault (m : Module) (statement : Node) :
    (m.anonymousDefault statement).MadeBy m statement := by
  refine ⟨rfl, rfl, fun f hf => ?_⟩
  exact Node.mem_nodes_of_named (List.mem_of_find?_eq_some hf)

/-- The statement gives something out by default, under one of the module's names. -/
def Module.DefaultsTo (m : Module) (statement : Node) (own : String) : Prop :=
  (∃ declaration ∈ statement.child? .declaration, ∃ n ∈ declaration.child? .name,
      m.textOf n = own) ∨
    ∃ value ∈ statement.child? .value, value.is .identifier ∧ m.textOf value = own

/-- **What a statement gives out by default**: what it lists, what it names, or itself. -/
theorem Module.defaultIn?_cases {found : Module.DefaultExport}
    (h : m.defaultIn? statement = some found) : statement.is .exportStatement ∧
      ((∃ own, found = .name own ∧ m.exportedName? "default" statement = some own) ∨
        statement.hasToken "default" ∧
          ((∃ own, found = .name own ∧ m.DefaultsTo statement own) ∨
            found = .statement (m.anonymousDefault statement) ∧
              ∀ own, ¬ m.DefaultsTo statement own)) := by
  unfold defaultIn? at h
  cases hexport : statement.is .exportStatement with
  | false => simp [hexport] at h
  | true =>
    refine ⟨rfl, ?_⟩
    cases htoken : statement.hasToken "default" with
    | false =>
      simp only [hexport, htoken] at h
      obtain ⟨own, hown, rfl⟩ := map_eq_some_iff.mp h
      exact .inl ⟨own, rfl, hown⟩
    | true =>
      refine .inr ⟨rfl, ?_⟩
      simp only [hexport, htoken, Bool.not_true, Bool.false_eq_true, if_false] at h
      cases hname : (statement.child? .declaration).bind (·.child? .name) with
      | some n =>
        rw [hname] at h
        obtain ⟨declaration, hdeclaration, hn⟩ := bind_eq_some_iff.mp hname
        cases h
        exact .inl ⟨_, rfl, .inl ⟨declaration, hdeclaration, n, hn, rfl⟩⟩
      | none =>
        rw [hname] at h
        -- Without a name of its own the statement can only be known by a value.
        have hvalue : ∀ own, m.DefaultsTo statement own →
            ∃ value ∈ statement.child? .value, value.is .identifier ∧ m.textOf value = own := by
          rintro own (⟨declaration, hdeclaration, n, hn, -⟩ | hvalue)
          · rw [mem_def.mp hdeclaration, bind_some, mem_def.mp hn] at hname
            cases hname
          · exact hvalue
        cases hchild : statement.child? .value with
        | none =>
          rw [hchild] at h hvalue
          cases h
          refine .inr ⟨rfl, fun own hown => ?_⟩
          obtain ⟨value, hmem, -⟩ := hvalue own hown
          cases hmem
        | some value =>
          rw [hchild] at h hvalue
          dsimp only at h
          split at h
          · cases h
            exact .inl ⟨_, rfl, .inr ⟨value, hchild, ‹_›, rfl⟩⟩
          rename_i hidentifier
          cases h
          refine .inr ⟨rfl, fun own hown => ?_⟩
          obtain ⟨_, ⟨⟩, his, -⟩ := hvalue own hown
          exact hidentifier his

theorem Module.exists_of_defaultExport {found : Module.DefaultExport} (h : m.defaultExport = found)
    (hne : found ≠ .missing) : ∃ statement ∈ m.statements, m.defaultIn? statement = some found := by
  unfold defaultExport at h
  cases hfirst : m.statements.findSome? m.defaultIn? with
  | none =>
    rw [hfirst] at h
    exact absurd h.symm hne
  | some first =>
    rw [hfirst] at h
    obtain rfl : first = found := h
    exact List.exists_of_findSome?_eq_some hfirst

/-! ## Found declarations -/

/-- **A declaration of the project**: it is made by a statement of a file that can be read. -/
structure Declaration.Within (t : Tree) (d : Declaration) : Prop where
  loaded : Module.load? t d.file.path = some d.file
  statement_mem : d.statement ∈ d.file.statements
  function_mem : ∀ f ∈ d.function, f ∈ d.statement.nodes

theorem Declaration.MadeBy.within (h : d.MadeBy m statement) (hm : Module.load? t m.path = some m)
    (hstatement : statement ∈ m.statements) : d.Within t := by
  obtain ⟨rfl, rfl, hfunction⟩ := h
  exact ⟨hm, hstatement, hfunction⟩

theorem Module.within_declaration? (hm : Module.load? t m.path = some m)
    (h : m.declaration? name = some d) : d.Within t := by
  obtain ⟨statement, hmem, hin⟩ := List.exists_of_findSome?_eq_some h
  exact (madeBy_of_declarationIn? hin).within hm hmem

/-- What a module offers of its own: a statement given out by default, or what it declares under a
name that it gives out. -/
theorem Module.offer_own (h : m.offer find name = .own d) :
    m.source name = .statement d ∨
      ∃ own, m.source name = .name own ∧ m.declaration? own = some d := by
  unfold offer at h
  cases hsource : m.source name with
  | missing =>
    rw [hsource] at h
    exact nomatch h
  | statement d' =>
    rw [hsource] at h
    cases h
    exact .inl rfl
  | name own =>
    refine .inr ⟨own, rfl, ?_⟩
    rw [hsource] at h
    dsimp only [offerAs] at h
    cases hd : m.declaration? own with
    | none =>
      rw [hd] at h
      exact nomatch h
    | some d' =>
      rw [hd] at h
      cases h
      rfl

theorem Module.offer_passed {sources : List (Path × String)}
    (h : m.offer find name = .passed sources) : sources = m.sources find name ∨
      ∃ own s, m.source name = .name own ∧ m.declaration? own = none ∧
        m.importOf? find own = some s ∧ sources = [s] := by
  unfold offer at h
  cases hsource : m.source name with
  | missing =>
    rw [hsource] at h
    cases h
    exact .inl rfl
  | statement d =>
    rw [hsource] at h
    exact nomatch h
  | name own =>
    rw [hsource] at h
    dsimp only [offerAs] at h
    cases hd : m.declaration? own with
    | some d =>
      rw [hd] at h
      exact nomatch h
    | none =>
      rw [hd] at h
      cases himport : m.importOf? find own with
      | none =>
        rw [himport] at h
        cases h
        exact .inl rfl
      | some s =>
        rw [himport] at h
        cases h
        exact .inr ⟨own, s, rfl, hd, himport, rfl⟩

theorem Module.within_offer (hm : Module.load? t m.path = some m) (h : m.offer find name = .own d) :
    d.Within t := by
  obtain hsource | ⟨own, -, hown⟩ := offer_own h
  · unfold source at hsource
    split at hsource
    · obtain ⟨statement, hmem, hin⟩ := exists_of_defaultExport hsource nofun
      obtain ⟨own, hown, -⟩ | ⟨-, ⟨own, hown, -⟩ | ⟨hd, -⟩⟩ := (defaultIn?_cases hin).2
      · cases hown
      · cases hown
      · cases hd
        exact (m.madeBy_anonymousDefault statement).within hm hmem
    · cases hsource
  · exact within_declaration? hm hown

theorem within_of_chain {n : Nat} {file : Path} (h : Chain (offerIn t find) n file name d) :
    d.Within t := by
  induction h with
  | @own file name d hoffer =>
    obtain ⟨m, hm, hown⟩ := exists_of_offerIn hoffer nofun
    exact Module.within_offer (Module.path_of_load? hm ▸ hm) hown
  | step _ _ _ ih => exact ih

/-- **What a module gives out is a declaration of the project.** -/
theorem within_exported? {hops : Nat} {file : Path} {r r' : Resolver}
    (h : (exported? t hops file name).run r = (some d, r')) : d.Within t := by
  have htells : Tells r' (exported? t hops file name) _ := tells_exported? t hops file name
  obtain ⟨n, -, hchain⟩ := exists_chain_of_follow (htells.eq h (.refl r')).symm
  exact within_of_chain hchain

end Expansion

end RouteAtlas
