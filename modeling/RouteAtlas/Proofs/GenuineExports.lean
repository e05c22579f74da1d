import RouteAtlas.Proofs.Declarations

/-!
# What a module really gives out

By the rules of modules a file gives out under a name what it declares there with `export`, what it
lists in a clause, and what it exports by default; and it passes on what it imports and lists, and
what it re-exports. Following a name keeps to these rules with one exception: for a name that no
clause lists, a declaration at the top of a file is taken whether it is exported or not, and so is
an import. A file that has a function for itself and passes on another one of the same name is taken
to give out its own.
-/

open List Option

namespace RouteAtlas.Expansion

open Files Source Inventory Modules Modules.Resolver Expansion.Module

/-! ## The rules -/

namespace Module

variable (m : Module)

/-- An item of an export clause without a module gives out a name of this one under another. -/
def Lists (statement : Node) (own name : String) : Prop :=
  statement.is .exportStatement ∧ statement.child? .source = none ∧
    ∃ clause ∈ statement.named, clause.is .exportClause ∧ ∃ item ∈ clause.named,
      ∃ n ∈ item.child? .name, m.textOf n = own ∧
        ((item.child? .alias).map m.textOf).getD own = name

/-- The module gives out what it knows under one name under another one. -/
inductive GivesName : (own name : String) → Prop
  | listed {statement : Node} {own name : String} (hmem : statement ∈ m.statements)
      (hlists : m.Lists statement own name) : GivesName own name
  | default {statement : Node} {own : String} (hmem : statement ∈ m.statements)
      (hexport : statement.is .exportStatement)
      (htoken : statement.hasToken "default") (hnames : m.DefaultsTo statement own) :
      GivesName own "default"

/-- The statement exports what it declares under its name. -/
def ExportsByName (statement : Node) : Prop :=
  statement.is .exportStatement ∧ statement.hasToken "default" = false

/-- **What a module gives out of its own** under a name. -/
inductive Gives : (name : String) → Declaration → Prop
  | declared {statement : Node} {name : String} {d : Declaration} (hmem : statement ∈ m.statements)
      (hexport : ExportsByName statement) (hdeclares : m.declarationIn? name statement = some d) :
      Gives name d
  | named {statement : Node} {own name : String} {d : Declaration} (hgives : m.GivesName own name)
      (hmem : statement ∈ m.statements) (hdeclares : m.declarationIn? own statement = some d) :
      Gives name d
  | statement {statement : Node} (hmem : statement ∈ m.statements)
      (hexport : statement.is .exportStatement)
      (htoken : statement.hasToken "default")
      (hnameless : ∀ own, ¬ m.DefaultsTo statement own) :
      Gives "default" (m.anonymousDefault statement)

end Module

section Rules

variable (t : Tree) (find : String → Path → Option Path)

/-- **A file passes a name on** from another one: it imports it and gives out what it has imported,
or re-exports it. -/
inductive PassesOn : (file : Path) → (name : String) → (next : Path) → (name' : String) → Prop
  | imported {file next : Path} {m : Module} {own name : String} {b : Binding}
      (hm : load? t file = some m) (hgives : m.GivesName own name) (hb : b ∈ m.bindings)
      (hkind : b.kind = .default ∨ b.kind = .named) (hlocal : b.localName = own)
      (hnext : find b.specifier file = some next) : PassesOn file name next b.imported
  | reExported {file next : Path} {m : Module} {name x : String} {b : Binding}
      (hm : load? t file = some m) (hb : b ∈ m.bindings) (hx : b.forwards? name = some x)
      (hnext : find b.specifier file = some next) : PassesOn file name next x

/-- A name of a file leads to a name of another one. -/
inductive Leads : (file : Path) → (name : String) → (file' : Path) → (name' : String) → Prop
  | here {file : Path} {name : String} : Leads file name file name
  | on {file next file' : Path} {name name' name'' : String}
      (h : PassesOn t find file name next name') (rest : Leads next name' file' name'') :
      Leads file name file' name''

/-- **A file gives out a declaration under a name**, itself or through other files. -/
def Exports (file : Path) (name : String) (d : Declaration) : Prop :=
  ∃ file' name' m, Leads t find file name file' name' ∧ load? t file' = some m ∧
    m.Gives name' d

end Rules

/-! ## Names that a module has for itself -/

namespace Module

variable {m : Module} {name own : String} {statement : Node} {d : Declaration}

/-- **A module has a declaration for itself**: it declares the name, but neither exports the
declaration nor lists the name. -/
structure KeepsDeclaration (m : Module) (name : String) (d : Declaration) : Prop where
  ne_default : name ≠ "default"
  unlisted : ∀ own, ¬ m.GivesName own name
  declared : d.statement ∈ m.statements ∧ m.declarationIn? name d.statement = some d
  notExported : ¬ ExportsByName d.statement

/-- A module has an import for itself: it imports the name, but does not list it. -/
structure KeepsImport (m : Module) (name : String) (b : Binding) : Prop where
  ne_default : name ≠ "default"
  unlisted : ∀ own, ¬ m.GivesName own name
  undeclared : m.declaration? name = none
  bound : findBinding? m.bindings name = some b

theorem Gives.file_eq (h : m.Gives name d) : d.file = m := by
  cases h with
  | declared _ _ hdeclares | named _ _ hdeclares =>
    exact (madeBy_of_declarationIn? hdeclares).file_eq
  | statement => rfl

/-- **What a module has for itself it does not give out.** -/
theorem not_gives_of_keeps (h : m.KeepsDeclaration name d) : ¬ m.Gives name d := by
  intro hgives
  cases hgives with
  | declared hmem hexport hdeclares =>
    rw [← (madeBy_of_declarationIn? hdeclares).statement_eq] at hexport
    exact h.notExported hexport
  | named hgives _ _ => exact h.unlisted _ hgives
  | statement => exact h.ne_default rfl

theorem listedName?_eq_some_iff {item : Node} : m.listedName? name item = some own ↔
    ∃ n ∈ item.child? .name, m.textOf n = own ∧
      ((item.child? .alias).map m.textOf).getD own = name := by
  unfold listedName?
  cases item.child? .name with
  | none => simp
  | some n =>
    simp only [bind_eq_bind, bind_some, ite_none_right_eq_some,
      Option.some.injEq, mem_def, exists_eq_left']
    constructor
    · rintro ⟨rfl, rfl⟩
      exact ⟨rfl, rfl⟩
    · rintro ⟨rfl, rfl⟩
      exact ⟨rfl, rfl⟩

theorem lists_of_exportedName? (h : m.exportedName? name statement = some own) :
    m.Lists statement own name := by
  unfold exportedName? at h
  split at h
  · rename_i hexport
    simp only [Bool.and_eq_true, isNone_iff_eq_none] at hexport
    obtain ⟨clause, hclause, h⟩ := exists_of_findSome?_eq_some h
    obtain ⟨item, hitem, h⟩ := exists_of_findSome?_eq_some h
    obtain ⟨hnamed, his⟩ := mem_filter.mp hclause
    exact ⟨hexport.1, hexport.2, clause, hnamed, his, item, hitem, listedName?_eq_some_iff.mp h⟩
  · exact nomatch h

theorem exportedName?_of_lists (h : m.Lists statement own name) :
    (m.exportedName? name statement).isSome := by
  obtain ⟨hexport, hsource, clause, hclause, his, item, hitem, hlisted⟩ := h
  unfold exportedName?
  rw [if_pos (by simp [hexport, hsource]), findSome?_isSome_iff]
  refine ⟨clause, mem_filter.mpr ⟨hclause, his⟩, ?_⟩
  refine findSome?_isSome_iff.mpr ⟨item, hitem, ?_⟩
  rw [listedName?_eq_some_iff.mpr hlisted]
  rfl

theorem givesName_of_localName? (h : m.localName? name = some own) : m.GivesName own name := by
  obtain ⟨statement, hmem, hin⟩ := exists_of_findSome?_eq_some h
  exact .listed hmem (lists_of_exportedName? hin)

theorem unlisted_of_localName? (hname : name ≠ "default") (h : m.localName? name = none) :
    ∀ own, ¬ m.GivesName own name := by
  intro own hgives
  cases hgives with
  | listed hmem hlists =>
    have hsome := exportedName?_of_lists hlists
    rw [findSome?_eq_none_iff.mp h _ hmem] at hsome
    cases hsome
  | default => exact hname rfl

theorem givesName_of_defaultExport (h : m.defaultExport = .name own) :
    m.GivesName own "default" := by
  obtain ⟨statement, hmem, hin⟩ := exists_of_defaultExport h nofun
  obtain ⟨hexport, ⟨own', hown, hlisted⟩ | ⟨htoken, ⟨own', hown, hnames⟩ | ⟨hown, -⟩⟩⟩ :=
    defaultIn?_cases hin
  · cases hown
    exact .listed hmem (lists_of_exportedName? hlisted)
  · cases hown
    exact .default hmem hexport htoken hnames
  · cases hown

/-- A name behind a name of a module is given out under it, unless it is the same name and not
listed. -/
theorem givesName_or_unlisted (h : m.source name = .name own) :
    m.GivesName own name ∨ own = name ∧ name ≠ "default" ∧ ∀ own, ¬ m.GivesName own name := by
  unfold source at h
  split at h
  · rename_i hname
    subst hname
    exact .inl (givesName_of_defaultExport h)
  · rename_i hname
    cases hlocal : m.localName? name with
    | some listed =>
      rw [hlocal] at h
      cases h
      exact .inl (givesName_of_localName? hlocal)
    | none =>
      rw [hlocal] at h
      cases h
      exact .inr ⟨rfl, hname, unlisted_of_localName? hname hlocal⟩

end Module

/-! ## Following a name -/

section Following

variable {t : Tree} {find : String → Path → Option Path} {file next : Path} {name name' : String}
  {m : Module} {d : Declaration}

/-- What a module offers of its own it gives out, or has for itself. -/
theorem gives_or_keeps (h : m.offer find name = .own d) :
    m.Gives name d ∨ m.KeepsDeclaration name d := by
  obtain hsource | ⟨own, hsource, hown⟩ := offer_own h
  · unfold source at hsource
    split at hsource
    · rename_i hname
      subst hname
      obtain ⟨statement, hmem, hin⟩ := exists_of_defaultExport hsource nofun
      obtain ⟨hexport, ⟨own, hown, -⟩ | ⟨htoken, ⟨own, hown, -⟩ | ⟨hd, hnameless⟩⟩⟩ :=
        defaultIn?_cases hin
      · cases hown
      · cases hown
      · cases hd
        exact .inl (.statement hmem hexport htoken hnameless)
    · cases hsource
  · obtain ⟨statement, hmem, hin⟩ := exists_of_findSome?_eq_some hown
    obtain hgives | ⟨rfl, hname, hunlisted⟩ := givesName_or_unlisted hsource
    · exact .inl (.named hgives hmem hin)
    by_cases hexport : Module.ExportsByName statement
    · exact .inl (.declared hmem hexport hin)
    · obtain ⟨-, rfl, -⟩ := madeBy_of_declarationIn? hin
      exact .inr ⟨hname, hunlisted, ⟨hmem, hin⟩, hexport⟩

theorem find_of_ownFile? {b : Binding} (hm : load? t file = some m)
    (h : m.ownFile? find b = some next) : find b.specifier file = some next := by
  rw [← path_of_load? hm]
  exact (filter_eq_some_iff.mp h).1

theorem passesOn_or_keeps (hm : load? t file = some m) {sources : List (Path × String)}
    (h : m.offer find name = .passed sources) (hmem : (next, name') ∈ sources) :
    PassesOn t find file name next name' ∨ ∃ b, m.KeepsImport name b := by
  obtain rfl | ⟨own, s, hsource, hundeclared, himport, rfl⟩ := offer_passed h
  · obtain ⟨b, hb, hpassed⟩ := mem_filterMap.mp hmem
    obtain ⟨x, hx, hpassed⟩ := bind_eq_some_iff.mp hpassed
    obtain ⟨path, hpath, hpair⟩ := map_eq_some_iff.mp hpassed
    cases hpair
    exact .inl (.reExported hm hb hx (find_of_ownFile? hm hpath))
  · obtain rfl := mem_singleton.mp hmem
    obtain ⟨b, hb, himported⟩ := bind_eq_some_iff.mp himport
    obtain ⟨path, hpath, hpair⟩ := map_eq_some_iff.mp himported
    cases hpair
    obtain ⟨hbound, hkind⟩ := filter_eq_some_iff.mp hb
    obtain hgives | ⟨rfl, hname, hunlisted⟩ := givesName_or_unlisted hsource
    · have hproper := find?_some hbound
      simp only [Bool.and_eq_true, beq_iff_eq] at hproper hkind
      refine .inl (.imported hm hgives (mem_of_find?_eq_some hbound) ?_ hproper.2
        (find_of_ownFile? hm hpath))
      cases hb : b.kind <;> simp_all
    · exact .inr ⟨b, hname, hunlisted, hundeclared, hbound⟩

/-- **A chain of offers keeps to the rules** until it comes to a name that a module has for
itself. -/
theorem exports_or_keeps {n : Nat} (h : Chain (offerIn t find) n file name d) :
    Exports t find file name d ∨ ∃ file' name' m, Leads t find file name file' name' ∧
      load? t file' = some m ∧ (m.KeepsDeclaration name' d ∨ ∃ b, m.KeepsImport name' b) := by
  induction h with
  | @own file name d hoffer =>
    obtain ⟨m, hm, hown⟩ := exists_of_offerIn hoffer nofun
    rcases gives_or_keeps hown with hgives | hkeeps
    · exact .inl ⟨file, name, m, .here, hm, hgives⟩
    · exact .inr ⟨file, name, m, .here, hm, .inl hkeeps⟩
  | @step n file next name name' d sources hoffer hmem rest ih =>
    obtain ⟨m, hm, hpassed⟩ := exists_of_offerIn hoffer fun h => by cases h; cases hmem
    rcases passesOn_or_keeps hm hpassed hmem with hpasses | hkeeps
    · rcases ih with ⟨file', name'', m', hleads, hend⟩ | ⟨file', name'', m', hleads, hend⟩
      · exact .inl ⟨file', name'', m', .on hpasses hleads, hend⟩
      · exact .inr ⟨file', name'', m', .on hpasses hleads, hend⟩
    · exact .inr ⟨file, name, m, .here, hm, .inr hkeeps⟩

theorem offer_of_keeps (hkeeps : m.KeepsDeclaration name d) (hd : m.declaration? name = some d) :
    m.offer find name = .own d := by
  have hlocal : m.localName? name = none := by
    cases h : m.localName? name with
    | none => rfl
    | some own => exact absurd (givesName_of_localName? h) (hkeeps.unlisted own)
  have hsource : m.source name = .name name := by
    rw [source, if_neg hkeeps.ne_default, hlocal]
    rfl
  simp [offer, hsource, offerAs, hd]

section Found

variable {hops : Nat} {r r' : Resolver} (h : (exported? t hops file name).run r = (some d, r'))

include h

theorem follow_eq_some : follow (offerIn t (r'.finds t)) hops file name = some d :=
  have htells : Tells r' (exported? t hops file name) _ := tells_exported? t hops file name
  (htells.eq h (.refl r')).symm

/-- A declaration that the first module has for itself is what is found. -/
theorem eq_of_keeps {own : Declaration} (hm : load? t file = some m)
    (hkeeps : m.KeepsDeclaration name own) (hown : m.declaration? name = some own) : d = own := by
  have hfollow := follow_eq_some h
  cases hops with
  | zero => exact nomatch hfollow
  | succ hops =>
    rw [follow, offerIn, hm] at hfollow
    dsimp only at hfollow
    rw [offer_of_keeps hkeeps hown] at hfollow
    exact (some.inj hfollow).symm

/-- **Following a name keeps to the rules of modules, except for names that a module has for
itself.** A declaration that is found for a name is given out under it by the rules, unless the name
leads to one that a module declares or imports without giving it out. If the first module itself
declares the name for itself, then this declaration is found, which it does not give out. -/
theorem exported_by_rules_or_kept :
    (Exports t (r'.finds t) file name d ∨
      ∃ file' name' m, Leads t (r'.finds t) file name file' name' ∧ Module.load? t file' = some m ∧
        (m.KeepsDeclaration name' d ∧ ¬ m.Gives name' d ∨ ∃ b, m.KeepsImport name' b)) ∧
    ∀ m own, Module.load? t file = some m → m.declaration? name = some own →
      m.KeepsDeclaration name own → d = own ∧ ¬ m.Gives name own := by
  constructor
  · obtain ⟨n, -, hchain⟩ := exists_chain_of_follow (follow_eq_some h)
    obtain hexports | ⟨file', name', m, hleads, hm, hkeeps⟩ := exports_or_keeps hchain
    · exact .inl hexports
    · refine .inr ⟨file', name', m, hleads, hm, hkeeps.imp_left fun hkeeps => ⟨hkeeps, ?_⟩⟩
      exact not_gives_of_keeps hkeeps
  · intro m own hm hown hkeeps
    exact ⟨eq_of_keeps h hm hkeeps hown, not_gives_of_keeps hkeeps⟩

end Found

end Following

/-! ## A private function -/

namespace Shadowed

/-- A file with a function for itself, which passes on another one of the same name. -/
def file : Path := ⟨"/p/m.ts"⟩

def origin : Path := ⟨"/p/b.ts"⟩

def tree : Tree :=
  { entries := [(["p"], .directory),
      (["p", "m.ts"], .file "function n()\x7b\x7dexport\x7bn\x7dfrom'./b'".toUTF8.toList),
      (["p", "b.ts"], .file "export function n()\x7b\x7d".toUTF8.toList)] }

def resolver : Resolver := { root := ⟨"/p"⟩ }

def passed : Binding := ⟨"n", "n", "./b", .reExport⟩

theorem facts :
    (∃ m ∈ load? tree file, m.bindings = [passed] ∧ m.localName? "n" = none ∧
      ∃ d ∈ m.declaration? "n", d.statement.is .exportStatement = false) ∧
    (∃ m ∈ load? tree origin, m.bindings = []) ∧
    resolver.finds tree "./b" file = some origin ∧
    ((exported? tree exportHops file "n").run resolver).1.isSome := by
  decide +kernel

theorem kept : ∃ m d r', load? tree file = some m ∧ m.declaration? "n" = some d ∧
    m.KeepsDeclaration "n" d ∧
    (exported? tree exportHops file "n").run resolver = (some d, r') := by
  obtain ⟨⟨m, hm, -, hlocal, d, hd, hprivate⟩, -, -, hfound⟩ := facts
  have hname : "n" ≠ "default" := by decide
  obtain ⟨statement, hmem, hin⟩ := exists_of_findSome?_eq_some hd
  obtain ⟨-, rfl, -⟩ := madeBy_of_declarationIn? hin
  have hkeeps : m.KeepsDeclaration "n" d :=
    ⟨hname, unlisted_of_localName? hname hlocal, ⟨hmem, hin⟩, fun hexport => by
      rw [hexport.1] at hprivate
      cases hprivate⟩
  obtain ⟨⟨found, r'⟩, hrun⟩ :
    ∃ result, (exported? tree exportHops file "n").run resolver = result := ⟨_, rfl⟩
  rw [hrun] at hfound
  obtain ⟨d', rfl⟩ := isSome_iff_exists.mp hfound
  obtain rfl := eq_of_keeps hrun hm hkeeps hd
  exact ⟨m, d', r', hm, hd, hkeeps, hrun⟩

/-- From the file the name leads to the other file only, and from there to nowhere. -/
theorem leads_cases {find : String → Path → Option Path} (hfind : find "./b" file = some origin)
    {file' : Path} {name' : String} (h : Leads tree find file "n" file' name') :
    (file' = file ∨ file' = origin) ∧ name' = "n" := by
  obtain ⟨⟨m, hm, hbindings, -⟩, ⟨m', hm', hnone⟩, -⟩ := facts
  have hnext : ∀ {next x}, PassesOn tree find file "n" next x → next = origin ∧ x = "n" := by
    intro next x h
    cases h with
    | imported hm₁ _ hb hkind =>
      obtain rfl := some.inj (hm.symm.trans hm₁)
      rw [hbindings, mem_singleton] at hb
      subst hb
      exact hkind.elim nofun nofun
    | reExported hm₁ hb hx hfound =>
      obtain rfl := some.inj (hm.symm.trans hm₁)
      rw [hbindings, mem_singleton] at hb
      subst hb
      exact ⟨some.inj (hfound.symm.trans hfind), (some.inj hx).symm⟩
  have hlast : ∀ {next x}, ¬ PassesOn tree find origin "n" next x := by
    intro next x h
    cases h with
    | imported hm₁ _ hb | reExported hm₁ hb =>
      obtain rfl := some.inj (hm'.symm.trans hm₁)
      rw [hnone] at hb
      cases hb
  cases h with
  | here => exact ⟨.inl rfl, rfl⟩
  | on hpasses rest =>
    obtain ⟨rfl, rfl⟩ := hnext hpasses
    cases rest with
    | here => exact ⟨.inr rfl, rfl⟩
    | on hpasses => exact absurd hpasses hlast

end Shadowed

/-- The name is one that the module has for itself. -/
theorem exported_by_rules_or_kept_shadowed :
    ∃ m d r', Module.load? Shadowed.tree Shadowed.file = some m ∧
      (exported? Shadowed.tree exportHops Shadowed.file "n").run Shadowed.resolver = (some d, r') ∧
      m.KeepsDeclaration "n" d ∧ ¬ m.Gives "n" d := by
  obtain ⟨m, d, r', hm, hd, hkeeps, hrun⟩ := Shadowed.kept
  exact ⟨m, d, r', hm, hrun, hkeeps, ((exported_by_rules_or_kept hrun).2 m d hm hd hkeeps).2⟩

/-- **A function is given out that the module has for itself**: the file declares it without
exporting it, and passes on another one of the same name. -/
theorem private_function_given_out :
    ∃ d r', (exported? Shadowed.tree exportHops Shadowed.file "n").run Shadowed.resolver =
        (some d, r') ∧
      ¬ Exports Shadowed.tree (r'.finds Shadowed.tree) Shadowed.file "n" d := by
  obtain ⟨m, d, r', hm, hd, hkeeps, hrun⟩ := Shadowed.kept
  refine ⟨d, r', hrun, ?_⟩
  rintro ⟨file', name', m', hleads, hm', hgives⟩
  have htells : Tells r' (exported? Shadowed.tree exportHops Shadowed.file "n") _ :=
    tells_exported? Shadowed.tree exportHops Shadowed.file "n"
  have hfind : r'.finds Shadowed.tree "./b" Shadowed.file = some Shadowed.origin :=
    (finds_eq_of_root (htells.later hrun).root (by decide) Shadowed.tree Shadowed.file).trans
      Shadowed.facts.2.2.1
  obtain ⟨rfl | rfl, rfl⟩ := Shadowed.leads_cases hfind hleads
  · obtain rfl := some.inj (hm.symm.trans hm')
    exact not_gives_of_keeps hkeeps hgives
  · -- The other file gives out a function of its own.
    have hfile : m = m' :=
      (madeBy_of_declarationIn? hkeeps.declared.2).file_eq.symm.trans hgives.file_eq
    have hpath := (path_of_load? hm).symm.trans (hfile ▸ path_of_load? hm')
    exact absurd hpath (by decide)

end RouteAtlas.Expansion
