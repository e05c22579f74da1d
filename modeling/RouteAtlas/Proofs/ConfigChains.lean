import Mathlib.Data.List.Chain
import RouteAtlas.Modules.Config

/-!
# Chains of configurations

A configuration may extend another one, which may extend a third. The files that are followed make a
chain (`Followed`): it starts at the file that was asked for, each next file is the one that the
file before it extends, and it ends where nothing is extended, where the extended file cannot be
loaded, or after `longestChain` links, so a file that extends itself makes a chain too. A loaded
configuration takes each of its settings from the nearest file of the chain that has it (`Merges`).
-/

open List

namespace RouteAtlas.Modules.Config

open Files

/-! ## The files of a chain -/

/-- A configuration file with what stands in it. -/
structure Layer where
  path : Path
  written : WrittenConfig

namespace Layer

variable (l : Layer)

def dir : Path := dirOf l.path

def baseUrl? : Option Path :=
  (l.written.options.bind (·.baseUrl)).map fun url => (l.dir.join url).clean

def aliases? : Option (List Alias) := l.written.options.bind (·.paths)

def includes? : Option (List String) := l.written.includes

def parent? : Option Path := (parentName? l.written).map (parentPath l.dir)

end Layer

/-- The file can be read and is no configuration. -/
def Invalid (t : Tree) (path : Path) : Prop :=
  ∃ text, t.text? path = some text ∧
    (Json.readWritten? (stripJsonc text)).bind WrittenConfig.ofJson? = none

/-- The files that are followed from a path, with at most so many links. -/
structure Followed (t : Tree) (links : Nat) (path : Path) (chain : List Layer) : Prop where
  starts : chain.head?.map Layer.path = some path
  reads : ∀ l ∈ chain, readWritten t l.path = .ok l.written
  linked : chain.IsChain fun l next => l.parent? = some next.path
  bounded : chain.length ≤ links + 1
  /-- Only the number of links or a file that cannot be loaded ends a chain early. -/
  ends : chain.length = links + 1 ∨
    ∀ parent ∈ chain.getLast?.bind Layer.parent?, ∃ e, readWritten t parent = .error e

/-- The directory from which the targets of aliases count: the base directory if the chain has one,
or else that of the nearest file with aliases, or else that of the last file. -/
def aliasBaseOf (chain : List Layer) : Option Path :=
  chain.findSome? Layer.baseUrl? <|>
    (chain.find? (·.aliases?.isSome)).map Layer.dir <|> chain.getLast?.map Layer.dir

/-- Every setting is the one of the nearest file that has it. -/
structure Merges (chain : List Layer) (config : Config) : Prop where
  path : chain.head?.map Layer.path = some config.path
  baseUrl : config.baseUrl = chain.findSome? Layer.baseUrl?
  aliases : config.aliases = (chain.findSome? Layer.aliases?).getD []
  includes : config.includes = (chain.findSome? Layer.includes?).getD []
  aliasBase : some config.aliasBase = aliasBaseOf chain

/-! ## One file put over a chain -/

section Override

variable (base : Config) (l : Layer)

@[simp]
theorem override_path : (base.override l.path l.written).path = l.path := by
  unfold override
  dsimp only
  split <;> split <;> rfl

@[simp]
theorem override_baseUrl :
    (base.override l.path l.written).baseUrl = l.baseUrl?.or base.baseUrl := by
  obtain ⟨path, parent, options, includes⟩ := l
  rcases options with _ | ⟨_ | url, _ | paths⟩ <;> rfl

@[simp]
theorem override_aliases :
    (base.override l.path l.written).aliases = l.aliases?.getD base.aliases := by
  obtain ⟨path, parent, options, includes⟩ := l
  rcases options with _ | ⟨_ | url, _ | paths⟩ <;> rfl

@[simp]
theorem override_includes :
    (base.override l.path l.written).includes = l.includes?.getD base.includes := by
  obtain ⟨path, parent, options, includes⟩ := l
  rcases options with _ | ⟨_ | url, _ | paths⟩ <;> rfl

theorem override_aliasBase :
    (base.override l.path l.written).aliasBase =
      l.baseUrl?.getD
        (if l.aliases?.isSome && base.baseUrl.isNone then l.dir else base.aliasBase) := by
  obtain ⟨path, parent, options, includes⟩ := l
  rcases options with _ | ⟨_ | url, _ | paths⟩ <;> rfl

end Override

theorem merges_single (l : Layer) : Merges [l] ((unset l.path).override l.path l.written) where
  path := by simp
  baseUrl := by cases h : l.baseUrl? <;> simp [unset]
  aliases := by cases h : l.aliases? <;> simp [unset]
  includes := by cases h : l.includes? <;> simp [unset]
  aliasBase := by
    rw [override_aliasBase]
    cases hurl : l.baseUrl? <;> cases halias : l.aliases? <;>
      simp [aliasBaseOf, unset, hurl, halias, Layer.dir]

/-- A file put over those that it extends: its own settings first, then theirs. -/
theorem Merges.over {chain : List Layer} {base : Config} (h : Merges chain base) (l : Layer) :
    Merges (l :: chain) (base.override l.path l.written) where
  path := by simp
  baseUrl := by
    rw [override_baseUrl, h.baseUrl, findSome?_cons]
    cases l.baseUrl? <;> rfl
  aliases := by
    rw [override_aliases, h.aliases, findSome?_cons]
    cases l.aliases? <;> rfl
  includes := by
    rw [override_includes, h.includes, findSome?_cons]
    cases l.includes? <;> rfl
  aliasBase := by
    have hlast : (l :: chain).getLast? = chain.getLast? := by
      cases chain with
      | nil => exact nomatch h.path
      | cons next rest => rfl
    have hbase := h.aliasBase
    rw [override_aliasBase, h.baseUrl]
    unfold aliasBaseOf at hbase ⊢
    rw [findSome?_cons, find?_cons, hlast]
    cases l.baseUrl? with
    | some url => rfl
    | none =>
      -- aliases of its own move the base only where no file of the chain names one
      cases hurl : chain.findSome? Layer.baseUrl? with
      | some url => simpa [hurl] using hbase
      | none =>
        cases l.aliases? with
        | some aliases => simp
        | none => simpa [hurl] using hbase

/-! ## The chain of a loaded configuration -/

variable {t : Tree} {links : Nat} {path : Path} {chain : List Layer} {config : Config}

/-- What loading a file does: it puts the file over the loaded parent, or over nothing where there
is no link left, no parent, or none that can be loaded. -/
theorem loadUpTo_cases (h : loadUpTo t links path = .ok config) :
    ∃ l : Layer, l.path = path ∧ readWritten t path = .ok l.written ∧
      ((config = (unset path).override path l.written ∧
          (links = 0 ∨ ∀ parent ∈ l.parent?, ∃ e, loadUpTo t (links - 1) parent = .error e)) ∨
        ∃ parent base, 0 < links ∧ l.parent? = some parent ∧
          loadUpTo t (links - 1) parent = .ok base ∧ config = base.override path l.written) := by
  cases hread : readWritten t path with
  | error e => cases links <;> rw [loadUpTo, hread] at h <;> exact nomatch h
  | ok written =>
    cases links with
    | zero =>
      rw [loadUpTo, hread] at h
      exact ⟨⟨path, written⟩, rfl, rfl, .inl ⟨(Except.ok.inj h).symm, .inl rfl⟩⟩
    | succ links =>
      rw [loadUpTo, hread] at h
      replace h := (Except.ok.inj h).symm
      refine ⟨⟨path, written⟩, rfl, rfl, ?_⟩
      simp only [Layer.parent?, Layer.dir]
      cases hname : parentName? written with
      | none => exact .inl ⟨by simpa [hname] using h, .inr (by simp)⟩
      | some name =>
        simp only [hname] at h
        cases hload : loadUpTo t links (parentPath (dirOf path) name) with
        | error e => rw [hload] at h; exact .inl ⟨h, .inr (by simp [hload])⟩
        | ok base => rw [hload] at h; exact .inr ⟨_, base, by omega, rfl, hload, h⟩

/-- What a file extends cannot make loading it fail. -/
theorem loadUpTo_error_iff :
    (∃ e, loadUpTo t links path = .error e) ↔ ∃ e, readWritten t path = .error e := by
  cases links <;> rw [loadUpTo] <;> cases hread : readWritten t path <;>
    simp [bind, Except.bind, pure, Except.pure]

theorem readWritten_error_iff :
    (∃ e, readWritten t path = .error e) ↔ t.text? path = none ∨ Invalid t path := by
  unfold readWritten Invalid
  cases htext : t.text? path with
  | none => simp
  | some text =>
    simp only [Option.some.injEq, exists_eq_left']
    cases (Json.readWritten? (stripJsonc text)).bind WrittenConfig.ofJson? <;> simp

namespace Followed

theorem exists_cons (h : Followed t links path chain) :
    ∃ l rest, chain = l :: rest ∧ l.path = path ∧ readWritten t path = .ok l.written := by
  cases chain with
  | nil => exact nomatch h.starts
  | cons l rest =>
    have hpath : l.path = path := by simpa using h.starts
    exact ⟨l, rest, rfl, hpath, hpath ▸ h.reads l mem_cons_self⟩

theorem single {l : Layer} (hread : readWritten t l.path = .ok l.written)
    (hend : links = 0 ∨ ∀ parent ∈ l.parent?, ∃ e, readWritten t parent = .error e) :
    Followed t links l.path [l] where
  starts := rfl
  reads := by simpa using hread
  linked := .singleton l
  bounded := by simp
  ends := by simpa using hend

theorem cons {l : Layer} {parent : Path} (hread : readWritten t l.path = .ok l.written)
    (hparent : l.parent? = some parent) (h : Followed t links parent chain) :
    Followed t (links + 1) l.path (l :: chain) := by
  obtain ⟨next, rest, rfl, hnext, -⟩ := h.exists_cons
  exact {
    starts := rfl
    reads := forall_mem_cons.mpr ⟨hread, h.reads⟩
    linked := .cons_cons (hnext ▸ hparent) h.linked
    bounded := Nat.succ_le_succ h.bounded
    ends := by simpa [length_cons] using h.ends }

theorem tail {l next : Layer} {rest : List Layer}
    (h : Followed t (links + 1) path (l :: next :: rest)) :
    Followed t links next.path (next :: rest) where
  starts := rfl
  reads := (forall_mem_cons.mp h.reads).2
  linked := h.linked.tail
  bounded := Nat.le_of_succ_le_succ h.bounded
  ends := by simpa [length_cons] using h.ends

/-- A chain goes on as long as it can. -/
theorem eq_nil_of_single {l : Layer} {more : List Layer} (h : Followed t links path [l])
    (hother : Followed t links path (l :: more)) : more = [] := by
  cases more with
  | nil => rfl
  | cons next rest =>
    have hbound : rest.length + 1 + 1 ≤ links + 1 := hother.bounded
    have hparent : l.parent? = some next.path := (isChain_cons_cons.mp hother.linked).1
    have hnext : readWritten t next.path = .ok next.written := hother.reads next (by simp)
    rcases h.ends with hlength | hend
    · have : 1 = links + 1 := hlength
      omega
    · obtain ⟨e, he⟩ := hend next.path (by simpa using hparent)
      exact nomatch hnext.symm.trans he

theorem unique {other : List Layer} (h : Followed t links path chain)
    (hother : Followed t links path other) : chain = other := by
  induction chain generalizing links path other with
  | nil => exact nomatch h.starts
  | cons l rest ih =>
    obtain ⟨_, _, hcons, hpath, hread⟩ := h.exists_cons
    obtain ⟨rfl, rfl⟩ := List.cons.inj hcons
    obtain ⟨m, more, rfl, hpath', hread'⟩ := hother.exists_cons
    obtain rfl : l = m := by
      cases l
      cases hpath.trans hpath'.symm
      cases Except.ok.inj (hread.symm.trans hread')
      rfl
    rcases rest with _ | ⟨next, rest⟩
    · rw [eq_nil_of_single h hother]
    rcases more with _ | ⟨next', more⟩
    · exact absurd (eq_nil_of_single hother h) (cons_ne_nil _ _)
    -- both go on, to the file that the first one extends
    have hparent := (isChain_cons_cons.mp h.linked).1
    have hparent' := (isChain_cons_cons.mp hother.linked).1
    have hnext : next'.path = next.path := Option.some.inj (hparent'.symm.trans hparent)
    obtain ⟨links, rfl⟩ : ∃ n, links = n + 1 := by
      have hbound : rest.length + 1 + 1 ≤ links + 1 := h.bounded
      exact ⟨links - 1, by omega⟩
    rw [ih h.tail (hnext ▸ hother.tail)]

end Followed

theorem exists_followed (h : loadUpTo t links path = .ok config) :
    ∃ chain, Followed t links path chain ∧ Merges chain config := by
  induction links generalizing path config with
  | zero =>
    obtain ⟨l, rfl, hread, ⟨rfl, -⟩ | ⟨_, _, hpos, -⟩⟩ := loadUpTo_cases h
    · exact ⟨[l], .single hread (.inl rfl), merges_single l⟩
    · exact absurd hpos (Nat.lt_irrefl 0)
  | succ links ih =>
    obtain ⟨l, rfl, hread, ⟨rfl, hend⟩ | ⟨parent, base, -, hparent, hbase, rfl⟩⟩ := loadUpTo_cases h
    · refine ⟨[l], .single hread (.inr fun parent hp => ?_), merges_single l⟩
      rcases hend with hzero | hend
      · exact absurd hzero (Nat.succ_ne_zero links)
      · exact loadUpTo_error_iff.mp (hend parent hp)
    · obtain ⟨chain, hchain, hmerges⟩ := ih hbase
      exact ⟨l :: chain, .cons hread hparent hchain, hmerges.over l⟩

/-- Loading a configuration gives an error exactly if the file itself cannot be read or is no
configuration. What it gives otherwise comes from the one chain of files that is followed from it:
its base directory, its aliases and its included files are each those of the nearest file that names
them, and the targets of aliases count from the base directory, or else from the nearest file with
aliases, or else from the last file. -/
theorem load_takes_nearest (t : Tree) (path : Path) :
    ((∃ e, load t path = .error e) ↔ t.text? path = none ∨ Invalid t path) ∧
    ∀ config, load t path = .ok config →
      ∃ chain, Followed t longestChain path chain ∧ Merges chain config ∧
        ∀ other, Followed t longestChain path other → other = chain := by
  refine ⟨loadUpTo_error_iff.trans readWritten_error_iff, fun config h => ?_⟩
  obtain ⟨chain, hchain, hmerges⟩ := exists_followed h
  exact ⟨chain, hchain, hmerges, fun other hother => hother.unique hchain⟩

def circular : Tree where
  entries := [(["a.json"], .file "\x7b\"extends\":\"/b\",\"include\":[\"s\"]\x7d".toUTF8.toList),
    (["b.json"], .file ("\x7b\"extends\":\"/a\"," ++
      "\"compilerOptions\":\x7b\"baseUrl\":\"q\"\x7d\x7d").toUTF8.toList)]

private theorem eq_ok_of_toOption {ε α : Type} {x : Except ε α} {a : α}
    (h : x.toOption = some a) : x = .ok a := by
  cases x with
  | error e => exact nomatch h
  | ok b => exact congrArg Except.ok (Option.some.inj h)

theorem circular_linked :
    (readWritten circular ⟨"/a.json"⟩).toOption.bind (Layer.parent? ⟨⟨"/a.json"⟩, ·⟩) =
        some ⟨"/b.json"⟩ ∧
      (readWritten circular ⟨"/b.json"⟩).toOption.bind (Layer.parent? ⟨⟨"/b.json"⟩, ·⟩) =
        some ⟨"/a.json"⟩ ∧
      (load circular ⟨"/a.json"⟩).toOption.map (fun c => (c.baseUrl, c.includes)) =
        some (some ⟨"/q"⟩, ["s"]) := by
  decide +kernel

/-- The chain goes round three times and is cut off after its five links; the base directory is that
of the second file. -/
theorem load_takes_nearest_circular :
    ∃ config chain, load circular ⟨"/a.json"⟩ = .ok config ∧
      Followed circular longestChain ⟨"/a.json"⟩ chain ∧ Merges chain config ∧
      chain.map (·.path.text) = ["/a.json", "/b.json", "/a.json", "/b.json", "/a.json", "/b.json"] ∧
      config.baseUrl = some ⟨"/q"⟩ ∧ config.includes = ["s"] := by
  obtain ⟨ha, hb, hload⟩ := circular_linked
  obtain ⟨a, ha, hparent⟩ := Option.bind_eq_some_iff.mp ha
  obtain ⟨b, hb, hparent'⟩ := Option.bind_eq_some_iff.mp hb
  obtain ⟨config, hconfig, hsettings⟩ := Option.map_eq_some_iff.mp hload
  replace ha := eq_ok_of_toOption ha
  replace hb := eq_ok_of_toOption hb
  replace hconfig := eq_ok_of_toOption hconfig
  obtain ⟨hurl, hincludes⟩ := Prod.mk.inj hsettings
  have hchain : Followed circular longestChain ⟨"/a.json"⟩
      [⟨⟨"/a.json"⟩, a⟩, ⟨⟨"/b.json"⟩, b⟩, ⟨⟨"/a.json"⟩, a⟩, ⟨⟨"/b.json"⟩, b⟩, ⟨⟨"/a.json"⟩, a⟩,
        ⟨⟨"/b.json"⟩, b⟩] :=
    .cons ha hparent <| .cons hb hparent' <| .cons ha hparent <| .cons hb hparent' <|
      .cons ha hparent <| .single (l := ⟨⟨"/b.json"⟩, b⟩) hb (.inl rfl)
  obtain ⟨chain, hfollowed, hmerges, honly⟩ := (load_takes_nearest circular _).2 config hconfig
  exact ⟨config, chain, hconfig, hfollowed, hmerges, by rw [← honly _ hchain]; rfl, hurl, hincludes⟩

end RouteAtlas.Modules.Config
