import RouteAtlas.Proofs.PlainTrees
import RouteAtlas.Source.Catalog
import RouteAtlas.Watch.Set

/-!
# Watched files without ignore rules

In a tree without ignore files no directory has rules, so whether a path is watched follows from the
path and the root configuration alone, whatever the set has read before. A walk then enters every
directory that is not skipped by its name, and so finds every file that is watched: what is read
when a project is loaded is what is read when a path is refreshed.
-/

open List Option

namespace RouteAtlas

open Files Ignore Rules Tree Path.Component
open Files.Tree (pathOf)

/-! ## Trees without ignore files -/

def IsRuleFile (place : Place) : Prop :=
  [".gitignore"] <:+ place ∨ [".ignore"] <:+ place ∨ [".git", "info", "exclude"] <:+ place
  deriving Decidable

/-- No file of the tree holds ignore rules. -/
def Files.Tree.Ruleless (t : Tree) : Prop :=
  ∀ place, (t.fileAt? place).isSome → ¬ IsRuleFile place

theorem ruleless_iff {t : Tree} :
    t.Ruleless ↔ ∀ x ∈ t.entries, (t.fileAt? x.1).isSome → ¬ IsRuleFile x.1 := by
  refine ⟨fun h x _ => h x.1, fun h place hsome => ?_⟩
  obtain ⟨bytes, hfile⟩ := isSome_iff_exists.mp hsome
  exact h _ (mem_entries_of_fileAt? hfile) hsome

instance (t : Tree) : Decidable t.Ruleless := decidable_of_iff _ ruleless_iff.symm

theorem followFrom_append {t : Tree} (ht : t.Plain) {links : Nat} {place q : Place}
    {lead : List String} {names : Place} (hn : IsPlace names)
    (h : t.followFrom links place (lead ++ names) = some q) : names <:+ q := by
  obtain ⟨onLink, hfollow⟩ := t.exists_followBy links
  have hnames := fun place => hfollow ▸ ht.followFrom_eq links place hn
  rw [hfollow] at h
  induction lead generalizing place with
  | nil =>
    rw [nil_append, hnames] at h
    split at h
    · exact some.inj h ▸ suffix_append place names
    · cases h
  | cons part lead ih =>
    rw [cons_append, followBy] at h
    split at h
    · cases h
    split at h
    · exact ih h
    split at h
    · exact ih h
    split at h
    · cases h
    · exact absurd (by assumption) (ht.linkless _ _)
    · exact ih h

theorem pieces_join (dir : Path) (rel : String) :
    Text.pieces '/' rel <:+ Text.pieces '/' (dir.join rel).text := by
  rw [Path.join]
  split
  · exact suffix_refl _
  split
  · rename_i hlast
    obtain ⟨front, hfront⟩ := getLast?_eq_some_iff.mp (eq_of_beq hlast)
    have htext : dir.text ++ rel = String.ofList front ++ "/" ++ rel :=
      String.toList_inj.mp (by simp [hfront])
    rw [htext, Text.pieces_append_slash]
    exact suffix_append _ _
  · rw [Text.pieces_append_slash]
    exact suffix_append _ _

namespace Files.Tree.Ruleless

variable {t : Tree}

theorem bytes?_join (hr : t.Ruleless) (ht : t.Plain) {rel : String} (dir : Path)
    (hnames : IsPlace (Text.pieces '/' rel))
    (hrule : ∀ place, Text.pieces '/' rel <:+ place → IsRuleFile place) :
    t.bytes? (dir.join rel) = none := by
  rw [eq_none_iff_forall_ne_some]
  intro bytes hbytes
  rw [bytes?] at hbytes
  split at hbytes
  · rename_i content hat
    obtain ⟨place, hreal, hentry⟩ := bind_eq_some_iff.mp hat
    obtain ⟨lead, hlead⟩ := pieces_join dir rel
    have hend : Text.pieces '/' rel <:+ place := by
      rw [real?, ← hlead] at hreal
      split at hreal
      · cases hreal
      · exact followFrom_append ht hnames hreal
    exact hr place (by rw [fileAt?_eq_some_iff.mpr hentry]; rfl) (hrule place hend)
  · cases hbytes

theorem ofFile_eq (hr : t.Ruleless) (ht : t.Plain) (dir : Path) {rel : String}
    (hrel : rel ∈ [".gitignore", ".ignore", ".git/info/exclude"]) :
    ofFile t dir (dir.join rel) = ⟨dir, []⟩ := by
  have hnone : t.bytes? (dir.join rel) = none := by
    simp only [mem_cons, not_mem_nil, or_false] at hrel
    rcases hrel with rfl | rfl | rfl
    · exact hr.bytes?_join ht dir (by decide) fun _ h => .inl h
    · exact hr.bytes?_join ht dir (by decide) fun _ h => .inr (.inl h)
    · exact hr.bytes?_join ht dir (by decide) fun _ h => .inr (.inr h)
  rw [ofFile, hnone]

end Files.Tree.Ruleless

/-! ## Watched paths -/

theorem Rules.verdictBelow_of_empty {r : Rules} (h : r.rules = []) (path : Path) (isDir : Bool) :
    r.verdictBelow path isDir = .none := by
  simp [Rules.verdictBelow, Rules.isEmpty, h]

theorem ofPath?_of_isConfigFile {path : Path} (h : Watch.isConfigFile path) :
    Source.Language.ofPath? path = none := by
  rw [Watch.isConfigFile] at h
  split at h
  · rename_i name hname
    have hmem : name ∈ ["tsconfig.json", "jsconfig.json", "package.json"] := by
      simpa [Watch.configFiles] using h
    rw [Source.Language.ofPath?, hname]
    simp only [mem_cons, not_mem_nil, or_false] at hmem
    rcases hmem with rfl | rfl | rfl <;> decide
  · cases h

theorem isConfigFile_eq_false {path : Path} (h : (Source.Language.ofPath? path).isSome) :
    Watch.isConfigFile path = false :=
  eq_false_of_ne_true fun hconfig => by rw [ofPath?_of_isConfigFile hconfig] at h; cases h

namespace Watch.WatchSet

/-- The set heeds ignore files and has read no rule. -/
structure Unruled (w : WatchSet) : Prop where
  heeds : w.noIgnore = false
  exclude : w.exclude.rules = []
  known : ∀ e ∈ w.known, e.2.rules = []

/-- A set after reading more directories, none of which had a rule. -/
def HasRead (w w' : WatchSet) : Prop := w'.Unruled ∧ w' = { w with known := w'.known }

/-- A source below the root that is included and in no directory that is skipped. -/
def tracks (w : WatchSet) (path : Path) : Bool :=
  match Path.below? w.root path with
  | none => false
  | some rel =>
    !(rel.map text).any skippedDirs.contains &&
      (Source.Language.ofPath? path).isSome && w.includes path rel

variable {t : Tree} {w w' w'' : WatchSet}

theorem isSome_of_tracks {path : Path} (h : w.tracks path) :
    (Source.Language.ofPath? path).isSome := by
  rw [tracks] at h
  split at h
  · cases h
  · rw [Bool.and_eq_true, Bool.and_eq_true] at h
    exact h.1.2

theorem Unruled.hasRead (hw : w.Unruled) : w.HasRead w := ⟨hw, rfl⟩

theorem HasRead.trans (h : w.HasRead w') (h' : w'.HasRead w'') : w.HasRead w'' :=
  ⟨h'.1, by rw [h'.2, h.2]⟩

/-- What a set tracks does not depend on what it has read. -/
theorem HasRead.tracks_eq (h : w.HasRead w') (path : Path) : w'.tracks path = w.tracks path := by
  rw [h.2]
  rfl

theorem Unruled.rulesFor (hw : w.Unruled) (ht : t.Plain) (hr : t.Ruleless) (dir : Path) :
    (w.rulesFor t dir).1.rules = [] ∧ w.HasRead (w.rulesFor t dir).2 := by
  rw [WatchSet.rulesFor]
  split
  · rename_i e hfind
    exact ⟨hw.known _ (mem_of_find?_eq_some hfind), hw.hasRead⟩
  have hnew : (ofFile t dir (dir.join ".gitignore")).rules = [] := by
    rw [hr.ofFile_eq ht dir (by decide)]
  refine ⟨hnew, ⟨hw.heeds, hw.exclude, fun e he => ?_⟩, rfl⟩
  rcases mem_cons.mp he with rfl | he
  · exact hnew
  · exact hw.known e he

theorem lastVerdict_of_none {vs : List Verdict} (h : ∀ v ∈ vs, v = .none) :
    lastVerdict vs = .none := by
  induction vs with
  | nil => rfl
  | cons v vs ih =>
    rw [h v mem_cons_self]
    exact ih fun u hu => h u (mem_cons_of_mem v hu)

theorem Unruled.isIgnored (hw : w.Unruled) (ht : t.Plain) (hr : t.Ruleless) (path : Path) :
    (w.isIgnored t path).1 = false ∧ w.HasRead (w.isIgnored t path).2 := by
  -- the fold over the directories keeps: no verdict so far says anything, and no rule was read
  have hfold : ∀ (dirs : List Path) (vs : List Verdict) (w' : WatchSet),
      (∀ v ∈ vs, v = .none) → w.HasRead w' →
      let out := dirs.foldl
        (fun out dir => (out.1 ++ [(out.2.rulesFor t dir).1.verdictBelow path (t.isDir path)],
          (out.2.rulesFor t dir).2)) (vs, w')
      (∀ v ∈ out.1, v = .none) ∧ w.HasRead out.2 := by
    intro dirs
    induction dirs with
    | nil => exact fun vs w' hvs hw' => ⟨hvs, hw'⟩
    | cons dir dirs ih =>
      intro vs w' hvs hw'
      obtain ⟨hrules, hread⟩ := hw'.1.rulesFor ht hr dir
      refine ih _ _ (fun v hv => ?_) (hw'.trans hread)
      rcases mem_append.mp hv with hv | hv
      · exact hvs v hv
      · rw [mem_singleton.mp hv]
        exact Rules.verdictBelow_of_empty hrules path _
  have hstart : ∀ v ∈ [w.exclude.verdictBelow path (t.isDir path)], v = .none := fun v hv =>
    mem_singleton.mp hv ▸ Rules.verdictBelow_of_empty hw.exclude path _
  obtain ⟨hvs, hread⟩ := hfold (w.dirsTo path) _ w hstart hw.hasRead
  rw [WatchSet.isIgnored, hw.heeds]
  refine ⟨?_, hread⟩
  simp [lastVerdict_of_none hvs]

/-- **What is watched.** Without ignore files a path other than a configuration file is watched
exactly if it is tracked. -/
theorem Unruled.contains (hw : w.Unruled) (ht : t.Plain) (hr : t.Ruleless) {path : Path}
    (hconfig : isConfigFile path = false) :
    (w.contains t path).1 = w.tracks path ∧ w.HasRead (w.contains t path).2 := by
  rw [WatchSet.contains, tracks]
  cases Path.below? w.root path with
  | none => exact ⟨rfl, hw.hasRead⟩
  | some rel =>
    have hgit : (rel.map text).contains ".git" →
        (rel.map text).any skippedDirs.contains := fun h =>
      List.any_eq_true.mpr ⟨".git", by simpa using h, by decide⟩
    by_cases hskip : (rel.map text).any skippedDirs.contains
    · simp only [hw.heeds, hskip, Bool.not_false, Bool.and_self, if_true, ite_self, Bool.not_true,
        Bool.false_and]
      exact ⟨trivial, hw.hasRead⟩
    · rw [Bool.not_eq_true] at hskip
      have hgit' : (rel.map text).contains ".git" = false :=
        Bool.eq_false_iff.mpr fun h => by rw [hgit h] at hskip; cases hskip
      simp only [hskip, hgit', hconfig, Bool.false_and, Bool.not_false, Bool.true_and]
      by_cases hsource : (Source.Language.ofPath? path).isSome && w.includes path rel
      · rw [Bool.and_eq_true] at hsource
        have hnone : (Source.Language.ofPath? path).isNone = false := by
          rw [← not_isSome, hsource.1]; rfl
        obtain ⟨hignored, hread⟩ := hw.isIgnored ht hr path
        simp only [hnone, hsource.1, hsource.2, Bool.not_true, Bool.or_self, Bool.false_eq_true,
          if_false, hignored, Bool.not_false, Bool.and_self]
        exact ⟨trivial, hread⟩
      · rw [Bool.not_eq_true] at hsource
        have hout : ((Source.Language.ofPath? path).isNone || !w.includes path rel) := by
          rw [← not_isSome, ← Bool.not_and, hsource]
          rfl
        rw [if_pos hout, hsource]
        exact ⟨rfl, hw.hasRead⟩

/-- Among the sources those are watched that are tracked. -/
theorem HasRead.watches (h : w.HasRead w') (ht : t.Plain) (hr : t.Ruleless) (path : Path) :
    ((w'.contains t path).1 && (Source.Language.ofPath? path).isSome) = w.tracks path := by
  have hsource : w.tracks path → (Source.Language.ofPath? path).isSome := isSome_of_tracks
  cases hconfig : isConfigFile path with
  | true =>
    rw [ofPath?_of_isConfigFile hconfig] at hsource ⊢
    simpa using hsource
  | false =>
    rw [(h.1.contains ht hr hconfig).1, h.tracks_eq, Bool.and_eq_left_iff_imp]
    exact hsource

theorem unruled_ofRoot (ht : t.Plain) (hr : t.Ruleless) (root : Path) :
    (ofRoot t root false).Unruled where
  heeds := rfl
  exclude := by
    rw [ofRoot, if_neg (by simp), hr.ofFile_eq ht root (by decide)]
  known _ h := absurd h not_mem_nil

end Watch.WatchSet

/-! ## Walks -/

namespace Files

variable {t : Tree}

/-- The rules of a directory without ignore files. -/
def DirRules.Empty (d : DirRules) : Prop :=
  d.own.rules = [] ∧ d.git.rules = [] ∧ d.exclude.rules = []

theorem DirRules.empty_at (ht : t.Plain) (hr : t.Ruleless) (dir : Path) :
    (DirRules.at t dir).Empty :=
  ⟨congrArg rules (hr.ofFile_eq ht dir (by decide)),
    congrArg rules (hr.ofFile_eq ht dir (by decide)),
    congrArg rules (hr.ofFile_eq ht dir (by decide))⟩

theorem firstVerdict_of_empty {rules : List Rules} (h : ∀ r ∈ rules, r.rules = []) (path : Path)
    (isDir : Bool) : firstVerdict rules path isDir = .none := by
  unfold firstVerdict
  induction rules with
  | nil => rfl
  | cons r rules ih =>
    have hr : r.verdict path isDir = .none := by
      simp [Rules.verdict, Rules.isEmpty, h r mem_cons_self]
    rw [foldl_cons, hr]
    exact ih fun u hu => h u (mem_cons_of_mem r hu)

theorem dirsVerdict_of_empty {dirs : List DirRules} (h : ∀ d ∈ dirs, d.Empty) (path : Path)
    (isDir : Bool) : dirsVerdict dirs path isDir = .none := by
  have hkind : ∀ kind : DirRules → Rules, (∀ d ∈ dirs, (kind d).rules = []) →
      firstVerdict (dirs.map kind) path isDir = .none := by
    intro kind hd
    refine firstVerdict_of_empty (fun r hr => ?_) path isDir
    obtain ⟨d, hmem, rfl⟩ := List.mem_map.mp hr
    exact hd d hmem
  rw [dirsVerdict, hkind _ fun d hd => (h d hd).1, hkind _ fun d hd => (h d hd).2.1,
    hkind _ fun d hd => (h d hd).2.2]
  rfl

theorem leavesOut_eq {dirs : List DirRules} (h : ∀ d ∈ dirs, d.Empty) (root path : Path)
    (name : String) (isDir : Bool) :
    leavesOut {} ⟨root, []⟩ dirs path name isDir = (isDir && isSkippedDir false name) := by
  rw [leavesOut, dirsVerdict_of_empty h]
  rfl

theorem mem_names {place : Place} {name : String} {e : Entry} :
    (name, e) ∈ t.names place ↔ (place ++ [name], e) ∈ t.entries := by
  have hbelow : ∀ p, nameBelow? place p = some name ↔ p = place ++ [name] := by
    intro p
    rw [nameBelow?, ← Text.stripList?_eq_some_iff]
    split
    · rename_i n h
      rw [h, Option.some.injEq, Option.some.injEq, List.cons.injEq, and_iff_left rfl]
    · rename_i hother
      exact iff_of_false (by simp) (hother name)
  rw [names, mem_sortBy, mem_filterMap]
  constructor
  · rintro ⟨⟨p, e'⟩, hmem, h⟩
    obtain ⟨n, hn, heq⟩ := map_eq_some_iff.mp h
    obtain ⟨rfl, rfl⟩ := Prod.mk.inj heq
    exact (hbelow p).mp hn ▸ hmem
  · intro hmem
    exact ⟨_, hmem, by simp [(hbelow _).mpr rfl]⟩

theorem isSkippedDir_eq (name : String) : isSkippedDir false name = skippedDirs.contains name := by
  by_cases h₁ : name = "node_modules"
  · subst h₁; decide
  · by_cases h₂ : name = ".git"
    · subst h₂; decide
    · simp [isSkippedDir, h₁, h₂]

/-- A place that holds something is not deeper than the tree has entries. -/
theorem Tree.Plain.length_le (ht : t.Plain) {place : Place} (h : (t.entry? place).isSome) :
    place.length ≤ t.entries.length := by
  let fronts := (List.range place.length).map fun n => place.take (n + 1)
  have hnodup : fronts.Nodup := by
    refine List.Nodup.map_on (fun i hi j hj hij => ?_) nodup_range
    rw [mem_range] at hi hj
    have := congrArg List.length hij
    rw [length_take, length_take] at this
    omega
  have hsub : fronts ⊆ t.entries.map Prod.fst := by
    intro q hq
    obtain ⟨n, hn, rfl⟩ := List.mem_map.mp hq
    rw [mem_range] at hn
    have hne : place.take (n + 1) ≠ [] := by
      rw [← length_pos_iff, length_take]
      omega
    have hsome : (t.entry? (place.take (n + 1))).isSome := by
      by_cases hrest : place.drop (n + 1) = []
      · rwa [← take_append_drop (n + 1) place, hrest, append_nil] at h
      · rw [isDirAt_iff.mp (ht.isDirAt_of_below hrest (by rwa [take_append_drop]))]
        rfl
    obtain ⟨e, he⟩ := isSome_iff_exists.mp hsome
    rw [t.entry?_of_ne hne] at he
    exact List.mem_map_of_mem (mem_of_lookup he)
  have hlength := hnodup.length_le_of_subset hsub
  rwa [length_map, length_range, length_map] at hlength

/-- **A walk finds every file** in directories that are not skipped. -/
theorem mem_walkDir (ht : t.Plain) (hr : t.Ruleless) (root : Path) {rest : Place} :
    ∀ {fuel : Nat} {dirs : List DirRules} {place : Place}, (∀ d ∈ dirs, d.Empty) →
      IsPlace place → rest ≠ [] → rest.length ≤ fuel → (t.fileAt? (place ++ rest)).isSome →
      rest.any skippedDirs.contains = false →
      pathOf (place ++ rest) ∈ walkDir t {} ⟨root, []⟩ fuel dirs (pathOf place) place := by
  induction rest with
  | nil => exact fun _ _ hne => absurd rfl hne
  | cons name rest ih =>
    intro fuel dirs place hdirs hp _ hfuel hfile hskip
    obtain ⟨fuel, rfl⟩ : ∃ n, fuel = n + 1 := ⟨fuel - 1, by simp at hfuel; omega⟩
    obtain ⟨bytes, hbytes⟩ := isSome_iff_exists.mp hfile
    rw [fileAt?_eq_some_iff] at hbytes
    have hname : IsName name :=
      (ht.named.isPlace hbytes).of_append.2 name mem_cons_self
    have happ : place ++ name :: rest = place ++ [name] ++ rest := by simp
    rw [any_cons, Bool.or_eq_false_iff] at hskip
    have hskip' : name ∉ skippedDirs := by simpa using hskip.1
    have hdirs' : ∀ d ∈ DirRules.at t (pathOf place) :: dirs, d.Empty := by
      intro d hd
      rcases mem_cons.mp hd with rfl | hd
      · exact DirRules.empty_at ht hr _
      · exact hdirs d hd
    have hmem : ∀ e, t.entry? (place ++ [name]) = some e → (name, e) ∈ t.names place := by
      intro e he
      rw [t.entry?_of_ne (by simp)] at he
      exact mem_names.mpr (mem_of_lookup he)
    rw [walkDir, mem_flatMap]
    by_cases hrest : rest = []
    · subst hrest
      refine ⟨(name, .file bytes), hmem _ hbytes, ?_⟩
      simp [leavesOut_eq hdirs', pathOf_join hp hname]
    · have hdir := ht.isDirAt_of_below hrest (by rw [← happ, hbytes]; rfl)
      refine ⟨(name, .directory), hmem _ (isDirAt_iff.mp hdir), ?_⟩
      have hlen : rest.length ≤ fuel := by simpa using hfuel
      have hdeeper := ih hdirs' (hp.append hname.isPlace) hrest hlen (by rwa [← happ]) hskip.2
      simpa [leavesOut_eq hdirs', isSkippedDir_eq, hskip', pathOf_join hp hname] using hdeeper

theorem isPlace_of_mem_walkDir (ht : t.Named) {sel : Selection} {included : Rules} {fuel : Nat} :
    ∀ {dirs : List DirRules} {dir place : Place} {path : Path}, IsPlace dir →
      path ∈ walkDir t sel included fuel dirs (pathOf dir) place →
      ∃ q, IsPlace q ∧ path = pathOf q := by
  induction fuel with
  | zero => exact fun _ h => absurd h not_mem_nil
  | succ fuel ih =>
    intro dirs dir place path hp h
    rw [walkDir, mem_flatMap] at h
    obtain ⟨⟨name, e⟩, hmem, h⟩ := h
    have hname : IsName name := (ht _ (mem_names.mp hmem)).of_append.2 name mem_cons_self
    have hplace := hp.append hname.isPlace
    simp only [pathOf_join hp hname] at h
    generalize (if sel.noIgnore = true then dirs else DirRules.at t (pathOf dir) :: dirs)
      = dirs' at h
    split at h
    · exact absurd h not_mem_nil
    split at h
    · exact ⟨_, hplace, mem_singleton.mp h⟩
    · exact ih hplace h
    · exact absurd h not_mem_nil

theorem walk_eq (ht : t.Plain) {place : Place} (hp : IsPlace place)
    (hdir : t.isDirAt place) :
    walk t (pathOf place) {} = .ok (walkDir t {} ⟨pathOf place, []⟩ (t.entries.length + 1)
      (rulesAbove t (pathOf place)) (pathOf place) place) := by
  have hentry := isDirAt_iff.mp hdir
  have hat : t.at? (pathOf place) = some .directory := by rw [ht.at?_pathOf hp, hentry]
  have hreal : t.real? (pathOf place) = some place := by
    rw [ht.real?_pathOf hp, if_pos (by rw [hentry]; rfl)]
  simp only [walk, hat, hreal]
  rfl

end Files

/-! ## Sources -/

namespace Source

variable {t : Tree} {place : Place}

theorem rulesAbove_empty (ht : t.Plain) (hr : t.Ruleless) (root : Path) :
    ∀ d ∈ rulesAbove t root, d.Empty := by
  intro d hd
  obtain ⟨dir, -, rfl⟩ := List.mem_map.mp hd
  exact DirRules.empty_at ht hr dir

/-- **The catalog of a project** lists clean paths of sources, and every source that can be read and
lies in no directory that is skipped. -/
theorem catalog_eq (ht : t.Plain) (hr : t.Ruleless) (hp : IsPlace place)
    (hdir : t.isDirAt place) :
    ∃ entries, catalog t (pathOf place) {} = .ok entries ∧
      (∀ e ∈ entries, (Language.ofPath? e.path).isSome ∧ ∃ q, IsPlace q ∧ e.path = pathOf q) ∧
      ∀ rest, IsPlace rest → (t.bytes? (pathOf (place ++ rest))).isSome →
        (Language.ofPath? (pathOf (place ++ rest))).isSome →
        rest.any skippedDirs.contains = false →
        ∃ e ∈ entries, e.path = pathOf (place ++ rest) := by
  rw [catalog, walk_eq ht hp hdir]
  refine ⟨_, rfl, fun e he => ?_, fun rest hrest hbytes hlanguage hskip => ?_⟩
  · rw [mem_sortBy, mem_filterMap] at he
    obtain ⟨path, hpath, hentry⟩ := he
    obtain ⟨language, hlanguage, hentry⟩ := bind_eq_some_iff.mp hentry
    obtain ⟨bytes, -, hentry⟩ := bind_eq_some_iff.mp hentry
    obtain rfl := some.inj hentry
    exact ⟨by rw [hlanguage]; rfl, isPlace_of_mem_walkDir ht.named hp hpath⟩
  · obtain ⟨language, hlanguage⟩ := isSome_iff_exists.mp hlanguage
    obtain ⟨bytes, hbytes⟩ := isSome_iff_exists.mp hbytes
    have hfile := hbytes
    rw [ht.bytes?_pathOf (hp.append hrest)] at hfile
    have hne : rest ≠ [] := by
      rintro rfl
      rw [append_nil, fileAt?, isDirAt_iff.mp hdir] at hfile
      cases hfile
    have hsome : (t.entry? (place ++ rest)).isSome := by
      rw [fileAt?_eq_some_iff.mp hfile]; rfl
    have hdepth := ht.length_le hsome
    rw [length_append] at hdepth
    have hwalk := mem_walkDir ht hr (pathOf place)
      (rulesAbove_empty ht hr (pathOf place)) hp hne
      (show rest.length ≤ t.entries.length + 1 by omega) (by rw [hfile]; rfl) hskip
    obtain ⟨e, he, hpath⟩ : ∃ e, entryAt? t (pathOf place) (pathOf (place ++ rest)) = some e
        ∧ e.path = pathOf (place ++ rest) := by
      rw [entryAt?, hlanguage, hbytes]
      exact ⟨_, rfl, rfl⟩
    exact ⟨e, mem_sortBy.mpr (mem_filterMap.mpr ⟨_, hwalk, he⟩), hpath⟩

end Source

end RouteAtlas
