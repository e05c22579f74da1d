import RouteAtlas.Proofs.DirectoriesAbove
import RouteAtlas.Proofs.Lookups
import RouteAtlas.Proofs.PlainTrees

/-!
# What a resolved module is

Whatever way a module is found, by an extension, by a source in place of what it is compiled to, by
the manifest of a package or by an index file, its path is looked up before it is given out, and so
is the place where a linked package settles. A bare specifier that the configuration gives no file
for is looked for in the dependencies of the importing file's directory and of those above it.
-/

open List Option

namespace RouteAtlas

open Files

/-! ## Paths that lead to files -/

namespace Files.Tree

variable {t : Tree} {path : Path}

/-- A path leads to a file, by however many links it takes. -/
def LeadsToFile (t : Tree) (path : Path) : Prop :=
  path.text ≠ "" ∧ ∃ links place bytes,
    t.followFrom links (if path.isAbsolute then [] else t.working) (Text.pieces '/' path.text) =
      some place ∧ t.entry? place = some (.file bytes)

theorem grounded_of_entries (h : ∀ x ∈ t.entries, IsPlace x.1 ∧ t.isDirAt x.1.dropLast) :
    t.Grounded where
  named x hx := (h x hx).1
  inDirectory place name hsome := by
    obtain ⟨e, he⟩ := isSome_iff_exists.mp hsome
    rw [entry?_of_ne _ (by simp)] at he
    simpa using (h _ (mem_of_lookup he)).2

theorem real?_of_isFile (h : t.isFile path) :
    ∃ place bytes, t.real? path = some place ∧ t.entry? place = some (.file bytes) := by
  unfold isFile at? at h
  split at h
  · rename_i bytes hat
    obtain ⟨place, hreal, hentry⟩ := bind_eq_some_iff.mp hat
    exact ⟨place, bytes, hreal, hentry⟩
  · cases h

theorem leadsToFile_of_isFile (h : t.isFile path) : t.LeadsToFile path := by
  obtain ⟨place, bytes, hreal, hentry⟩ := real?_of_isFile h
  obtain ⟨hne, hfollow⟩ := ite_none_left_eq_some.mp hreal
  exact ⟨hne, mostLinks, place, bytes, hfollow, hentry⟩

/-- On the way to a file there are directories only, so the names that lead to it meet no link. -/
theorem Grounded.followBy_names (ht : t.Grounded) (onLink : Place → List String → Option Place)
    {rest : Place} (hrest : IsPlace rest) {bytes : List UInt8} : ∀ {place : Place},
    t.entry? (place ++ rest) = some (.file bytes) →
      t.followBy onLink place rest = some (place ++ rest) := by
  induction rest with
  | nil => simp [followBy]
  | cons name rest ih =>
    intro place h
    obtain ⟨hblank, hdot, hdots, -⟩ := hrest name mem_cons_self
    have hdir := ht.isDirAt_of_below (cons_ne_nil name rest) (by rw [h]; rfl)
    rw [append_cons] at h ⊢
    have hnext := ih (fun n hn => hrest n (mem_cons_of_mem name hn)) h
    have hstep : ∃ e, t.entry? (place ++ [name]) = some e ∧ ∀ target, e ≠ .link target := by
      rcases rest with _ | ⟨next, rest⟩
      · exact ⟨_, by simpa using h, by simp⟩
      · have hbelow := ht.isDirAt_of_below (cons_ne_nil next rest) (by rw [h]; rfl)
        exact ⟨_, isDirAt_iff.mp hbelow, by simp⟩
    obtain ⟨e, he, hlink⟩ := hstep
    rw [followBy, hdir, he]
    cases e with
    | link target => exact absurd rfl (hlink target)
    | directory | file => simpa [hblank, hdot, hdots] using hnext

theorem Grounded.leadsToFile_pathOf (ht : t.Grounded) {place : Place} {bytes : List UInt8}
    (h : t.entry? place = some (.file bytes)) : t.LeadsToFile (pathOf place) := by
  have hne : place ≠ [] := by
    rintro rfl
    exact nomatch t.entry?_nil.symm.trans h
  refine ⟨by simp [pathOf], 0, place, bytes, ?_, h⟩
  rw [isAbsolute_pathOf, pieces_pathOf (ht.named.isPlace h), if_neg hne, followFrom, followBy]
  have hfollow : t.followBy (fun _ _ => none) [] place = some ([] ++ place) :=
    ht.followBy_names _ (ht.named.isPlace h) h
  simpa [isDirAt, entry?_nil] using hfollow

end Files.Tree

/-! ## Files that are found -/

namespace Modules

variable {t : Tree} {path dir found : Path} {package : String} {inside : Option String}

theorem isFile_of_fileAt? (h : fileAt? t path = some found) : t.isFile found :=
  find?_some h

theorem isFile_of_indexOf? (h : indexOf? t dir = some found) : t.isFile found :=
  find?_some h

theorem isFile_of_fileOfDirectory? (h : fileOfDirectory? t dir = some found) : t.isFile found := by
  obtain ⟨-, h⟩ := ite_none_right_eq_some.mp h
  rcases (orElse_eq_some _ _ _).mp h with h | ⟨-, h⟩
  · obtain ⟨entry, -, h⟩ := bind_eq_some_iff.mp h
    rcases (orElse_eq_some _ _ _).mp h with h | ⟨-, h⟩
    · exact isFile_of_fileAt? h
    · exact isFile_of_indexOf? h
  · exact isFile_of_indexOf? h

theorem isFile_of_fileOrDirectory? (h : fileOrDirectory? t path = some found) : t.isFile found := by
  rcases (orElse_eq_some _ _ _).mp h with h | ⟨-, h⟩
  · exact isFile_of_fileAt? h
  · exact isFile_of_fileOfDirectory? h

/-- The dependencies of a directory hold a package that gives a file. -/
structure Supplies (t : Tree) (package : String) (inside : Option String) (dir found : Path) :
    Prop where
  notDependencies : dir.fileName? ≠ some "node_modules"
  isDir : t.isDir ((dir.join "node_modules").join package)
  gives : inside.elim (fileOfDirectory? t ((dir.join "node_modules").join package))
    (fun sub => fileOrDirectory? t (((dir.join "node_modules").join package).join sub)) = some found

theorem dependencyIn?_eq_some_iff :
    dependencyIn? t package inside dir = some found ↔ Supplies t package inside dir found := by
  unfold dependencyIn?
  constructor
  · intro h
    obtain ⟨hdir, h⟩ := ite_none_left_eq_some.mp h
    simp only [Bool.or_eq_true, beq_iff_eq, Bool.not_eq_true', not_or, Bool.not_eq_false] at hdir
    exact ⟨hdir.1, hdir.2, by cases inside <;> exact h⟩
  · rintro ⟨hname, hdir, h⟩
    rw [if_neg (by simp [hname, hdir])]
    cases inside <;> exact h

theorem Supplies.isFile (h : Supplies t package inside dir found) : t.isFile found := by
  cases hinside : inside with
  | none => exact isFile_of_fileOfDirectory? (by simpa [hinside] using h.gives)
  | some sub => exact isFile_of_fileOrDirectory? (by simpa [hinside] using h.gives)

/-- The nearest directory, from one upwards, whose dependencies hold the package of a specifier. -/
def NearestSupply (t : Tree) (specifier : String) (start found : Path) : Prop :=
  (splitBare specifier).1 ≠ "" ∧ ∃ n dir, start.up? n = some dir ∧
    Supplies t (splitBare specifier).1 (splitBare specifier).2 dir found ∧
    ∀ m < n, ∀ nearer other, start.up? m = some nearer →
      ¬ Supplies t (splitBare specifier).1 (splitBare specifier).2 nearer other

theorem dependency?_eq_some_iff {specifier : String} :
    dependency? t specifier dir = some found ↔ NearestSupply t specifier dir found := by
  unfold dependency? NearestSupply
  simp only [ite_none_left_eq_some, findSome?_eq_some_iff]
  refine and_congr_right fun _ => ⟨?_, ?_⟩
  · rintro ⟨nearer, above, further, hsplit, hfound, hnone⟩
    refine ⟨nearer.length, above, ?_, dependencyIn?_eq_some_iff.mp hfound,
      fun m hm d other hd hs => ?_⟩
    · rw [← Path.getElem?_ancestors, hsplit]
      simp
    · rw [← Path.getElem?_ancestors, hsplit, getElem?_append_left hm] at hd
      have := hnone d (mem_of_getElem? hd)
      rw [dependencyIn?_eq_some_iff.mpr hs] at this
      cases this
  · rintro ⟨n, above, habove, hfound, hnone⟩
    rw [← Path.getElem?_ancestors] at habove
    obtain ⟨hn, rfl⟩ := List.getElem?_eq_some_iff.mp habove
    refine ⟨dir.ancestors.take n, dir.ancestors[n], dir.ancestors.drop (n + 1), by simp,
      dependencyIn?_eq_some_iff.mpr hfound, fun d hd => ?_⟩
    obtain ⟨m, hm, rfl⟩ := mem_iff_getElem.mp hd
    rw [length_take] at hm
    refine eq_none_iff_forall_ne_some.mpr fun other ho => ?_
    refine hnone m (by omega) _ other ?_ (dependencyIn?_eq_some_iff.mp ho)
    rw [← Path.getElem?_ancestors, getElem_take, getElem?_eq_getElem]

namespace Resolver

variable {r : Resolver} {specifier : String} {importer : Path}

theorem leadsToFile_settle (ht : t.Grounded) (h : t.isFile found) :
    t.LeadsToFile (r.settle t found) := by
  obtain ⟨place, bytes, hreal, hentry⟩ := Tree.real?_of_isFile h
  unfold settle Tree.canonical?
  rw [hreal]
  dsimp only [map_some]
  split
  · exact Tree.leadsToFile_of_isFile h
  · split
    · exact ht.leadsToFile_pathOf hentry
    · exact Tree.leadsToFile_of_isFile h

theorem isFile_of_bareFile? {config : Option Config}
    (h : bareFile? t config specifier dir = some found) : t.isFile found := by
  rcases (orElse_eq_some _ _ _).mp h with h | ⟨-, h⟩
  · obtain ⟨target, -, h⟩ := exists_of_findSome?_eq_some h
    exact isFile_of_fileOrDirectory? h
  · obtain ⟨-, _, _, -, hsupplies, -⟩ := dependency?_eq_some_iff.mp h
    exact hsupplies.isFile

theorem run_resolve_eq_ok_iff :
    ((resolve t specifier importer).run r).1 = .ok path ↔
      r.finds t specifier importer = some path := by
  rw [run_resolve]
  cases r.finds t specifier importer <;> simp

/-- Every path that a resolver gives leads to a file. A bare specifier for which the configuration
gives no file stands for the file that the nearest directory supplies, settled. -/
theorem resolve_gives_files (ht : t.Grounded) (r : Resolver) (specifier : String)
    (importer path : Path) :
    (((resolve t specifier importer).run r).1 = .ok path → t.LeadsToFile path) ∧
    ∀ dir, importer.parent? = some dir → isBare specifier = true →
      (∀ target ∈ (r.config? t dir).elim [] (configTargets · specifier),
        fileOrDirectory? t target = none) →
      (((resolve t specifier importer).run r).1 = .ok path ↔
        ∃ found, NearestSupply t specifier dir found ∧ path = r.settle t found) := by
  rw [run_resolve_eq_ok_iff, finds_eq]
  refine ⟨fun h => ?_, fun dir hdir hbare htargets => ?_⟩
  · obtain ⟨dir, -, h⟩ := bind_eq_some_iff.mp h
    obtain ⟨found, hfound, rfl⟩ := map_eq_some_iff.mp h
    refine leadsToFile_settle ht ?_
    split at hfound
    · exact isFile_of_bareFile? hfound
    · exact isFile_of_fileOrDirectory? hfound
  · have hnone := findSome?_eq_none_iff.mpr htargets
    rw [hdir, bind_some, if_pos hbare, bareFile?, hnone]
    change Option.map _ (dependency? t specifier dir) = _ ↔ _
    rw [map_eq_some_iff]
    exact exists_congr fun found => and_congr dependency?_eq_some_iff eq_comm

/-- A project with a package of its own that is linked into the dependencies; a directory below has
dependencies with nothing in them. -/
def linkedPackage : Tree where
  entries := [(["p"], .directory), (["p", "k"], .directory), (["p", "k", "index.ts"], .file []),
    (["p", "node_modules"], .directory), (["p", "node_modules", "k"], .link "../k"),
    (["p", "s"], .directory), (["p", "s", "node_modules"], .directory),
    (["p", "s", "node_modules", "k"], .directory)]

theorem resolve_gives_files_linkedPackage :
    linkedPackage.Grounded ∧
    ((resolve linkedPackage "k" ⟨"/p/s/a.ts"⟩).run { root := ⟨"/p"⟩ }).1 = .ok ⟨"/p/k/index.ts"⟩ ∧
    linkedPackage.LeadsToFile ⟨"/p/k/index.ts"⟩ ∧
    ∃ found, NearestSupply linkedPackage "k" ⟨"/p/s"⟩ found ∧
      ⟨"/p/k/index.ts"⟩ = Resolver.settle { root := ⟨"/p"⟩ } linkedPackage found := by
  have ht : linkedPackage.Grounded := Tree.grounded_of_entries (by decide)
  have hfacts : Resolver.finds { root := ⟨"/p"⟩ } linkedPackage "k" ⟨"/p/s/a.ts"⟩ =
        some ⟨"/p/k/index.ts"⟩ ∧
      ∀ target ∈ (Resolver.config? { root := ⟨"/p"⟩ } linkedPackage ⟨"/p/s"⟩).elim []
        (configTargets · "k"), fileOrDirectory? linkedPackage target = none := by
    decide +kernel
  have hok := run_resolve_eq_ok_iff.mpr hfacts.1
  obtain ⟨hfile, hnearest⟩ :=
    resolve_gives_files ht { root := ⟨"/p"⟩ } "k" ⟨"/p/s/a.ts"⟩ ⟨"/p/k/index.ts"⟩
  exact ⟨ht, hok, hfile hok, (hnearest ⟨"/p/s"⟩ (by decide) (by decide) hfacts.2).mp hok⟩

end Resolver

end Modules

end RouteAtlas
