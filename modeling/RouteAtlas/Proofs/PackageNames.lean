import RouteAtlas.Proofs.AbsolutePaths
import RouteAtlas.Proofs.AliasMatches
import RouteAtlas.Proofs.Lookups
import RouteAtlas.Proofs.NotedWalks

/-!
# Names of packages

A package is named in three ways: by the directory that holds its files, one name or a scope and a
name below `node_modules`; by its entry in the store of a package manager, which has a `+` for the
slash of a scope and a version behind an `@`; and by a specifier, which goes on with a path inside
the package. The names of a path are those of its parts, so for all three it is enough to look at
the names behind the last `node_modules`.
-/

open List Option

namespace RouteAtlas.Modules

open Files Text

variable {path file : Path} {s package : String}

/-! ## The names of a path -/

/-- A part between slashes that is the name of something. -/
def isNamed (part : String) : Bool := !(part = "" || part = "." || part = "..")

theorem filterMap_ofPart? {f : Path.Component → Option String}
    (hname : ∀ text, f (.name text) = some text) (hup : f .parent = none) (parts : List String) :
    (parts.filterMap Path.Component.ofPart?).filterMap f = parts.filter isNamed := by
  rw [filterMap_filterMap, ← filterMap_eq_filter]
  refine filterMap_congr fun part _ => ?_
  by_cases hblank : part = "" ∨ part = "."
  · rcases hblank with rfl | rfl <;> rfl
  · by_cases hdots : part = ".."
    · subst hdots
      exact hup
    · simp only [not_or] at hblank
      simp [Path.Component.ofPart?, isNamed, hblank, hdots, hname]

theorem pathNames_eq (path : Path) : pathNames path = (pieces '/' path.text).filter isNamed := by
  rw [pathNames, Path.components]
  split
  · exact filterMap_ofPart? (fun _ => rfl) rfl _
  · split <;> exact filterMap_ofPart? (fun _ => rfl) rfl _

theorem pathNames_intercalate (parts : List String) :
    pathNames ⟨"/".intercalate parts⟩ = parts.flatMap fun part => pathNames ⟨part⟩ := by
  induction parts with
  | nil => rfl
  | cons part parts ih =>
    cases parts with
    | nil => simp
    | cons next parts =>
      rw [String.intercalate_cons_cons, pathNames_eq, pieces_append_slash, filter_append,
        flatMap_cons, ← ih, pathNames_eq, pathNames_eq]

theorem afterLast?_append {a : String} {xs ys : List String} (h : a ∉ ys) :
    afterLast? a (xs ++ a :: ys) = some ys := by
  have hnone : ∀ {zs : List String}, a ∉ zs → afterLast? a zs = none := by
    intro zs hzs
    induction zs with
    | nil => rfl
    | cons z zs ih =>
      rw [mem_cons, not_or] at hzs
      rw [afterLast?, ih hzs.2]
      simp [Ne.symm hzs.1]
  induction xs with
  | nil => rw [nil_append, afterLast?, hnone h]; simp
  | cons x xs ih => rw [cons_append, afterLast?, ih]

theorem pathNames_of_isNamed (h : ∀ part ∈ pieces '/' s, isNamed part) :
    pathNames ⟨s⟩ = pieces '/' s := by
  rw [pathNames_eq, filter_eq_self.mpr h]

theorem isNamed_of_isName {name : String} (h : IsName name) : isNamed name := by
  simp [isNamed, h.1, h.2.1, h.2.2.1]

theorem pathNames_of_isName {name : String} (h : IsName name) : pathNames ⟨name⟩ = [name] := by
  have hpieces := pieces_of_no_slash h.2.2.2
  rw [pathNames_of_isNamed (by simpa [hpieces] using isNamed_of_isName h), hpieces]

theorem pathNames_modules : pathNames ⟨"node_modules"⟩ = ["node_modules"] :=
  pathNames_of_isName (by decide)

/-! ## Files of a package -/

/-- A package name and its parts: one name, or a scope, which starts with an `@`, and a name. -/
inductive Parted : String → List String → Prop
  | plain {name : String} (hname : IsName name) (hat : startsWith "@" name = false)
      (hstore : name ≠ ".pnpm") (hmodules : name ≠ "node_modules") : Parted name [name]
  | inScope {scope name : String} (hscope : IsName scope) (hat : startsWith "@" scope)
      (hname : IsName name) (hmodules : name ≠ "node_modules") :
      Parted (scope ++ "/" ++ name) [scope, name]

/-- The file stands in a directory with the name of the package among the dependencies, and in no
dependencies further down. -/
def FileOf (package : String) (file : Path) : Prop :=
  ∃ above below, pathNames file = above ++ "node_modules" :: (pieces '/' package ++ below) ∧
    "node_modules" ∉ below

namespace Parted

variable {parts : List String}

theorem pieces_eq (h : Parted package parts) : pieces '/' package = parts := by
  cases h with
  | plain hname => exact pieces_of_no_slash hname.2.2.2
  | inScope hscope _ hname =>
    rw [pieces_append_slash, pieces_of_no_slash hscope.2.2.2, pieces_of_no_slash hname.2.2.2]
    rfl

theorem pathNames_eq (h : Parted package parts) : pathNames ⟨package⟩ = pieces '/' package := by
  refine pathNames_of_isNamed ?_
  rw [h.pieces_eq]
  cases h with
  | plain hname => simpa using isNamed_of_isName hname
  | inScope hscope _ hname => simpa using ⟨isNamed_of_isName hscope, isNamed_of_isName hname⟩

/-- **The package of a file is the one in whose directory it stands.** -/
theorem packageOf?_eq (h : Parted package parts) (hfile : FileOf package file) :
    packageOf? file = some package := by
  obtain ⟨above, below, hnames, hbelow⟩ := hfile
  rw [h.pieces_eq] at hnames
  cases h with
  | plain _ hat hstore hmodules =>
    have hlast : "node_modules" ∉ [package] ++ below := by simp [hmodules.symm, hbelow]
    rw [packageOf?, hnames, afterLast?_append hlast]
    simp [hat]
  | @inScope scope name _ hat _ hmodules =>
    have hscope : ∀ special, startsWith "@" special = false → scope ≠ special := by
      rintro _ hspecial rfl
      exact Bool.false_ne_true (hspecial.symm.trans hat)
    have hstore := hscope ".pnpm" rfl
    have hlast : "node_modules" ∉ [scope, name] ++ below := by
      simp [(hscope "node_modules" rfl).symm, hmodules.symm, hbelow]
    rw [packageOf?, hnames, afterLast?_append hlast]
    simp [hat]

end Parted

/-! ## Entries of a store -/

/-- The name of a directory that means nothing else to a package manager. -/
def IsPart (part : String) : Prop :=
  IsName part ∧ part ≠ ".pnpm" ∧ part ≠ "node_modules" ∧ '@' ∉ part.toList
  deriving Decidable

/-- **A package name**: one part without a `+`, or a scope and a part. -/
inductive PackageName where
  | plain (name : String) (part : IsPart name) (plus : '+' ∉ name.toList)
  | inScope (scope name : String) (free : ∀ c ∈ ['@', '/', '+'], c ∉ scope.toList)
    (part : IsPart name)

namespace PackageName

def text : PackageName → String
  | plain name _ _ => name
  | inScope scope name _ _ => "@" ++ scope ++ "/" ++ name

/-- The name as it is written in a store, with a `+` for the slash behind the scope. -/
def encoded : PackageName → String
  | plain name _ _ => name
  | inScope scope name _ _ => "@" ++ scope ++ "+" ++ name

theorem parted (name : PackageName) : ∃ parts, Parted name.text parts := by
  cases name with
  | plain name part plus =>
    refine ⟨[name], .plain part.1 (Bool.eq_false_iff.mpr fun h => ?_) part.2.1 part.2.2.1⟩
    obtain ⟨rest, rfl⟩ := startsWith_iff.mp h
    exact part.2.2.2 (by simp)
  | inScope scope name free part =>
    have hne : ∀ special : String, '@' ∉ special.toList → "@" ++ scope ≠ special := by
      rintro _ h rfl
      exact h (by simp)
    refine ⟨["@" ++ scope, name],
      .inScope ⟨hne _ (by decide), hne _ (by decide), hne _ (by decide), ?_⟩
      (startsWith_iff.mpr ⟨scope, rfl⟩) part.1 part.2.2.1⟩
    simp [free '/' (by simp)]

theorem no_slash_encoded (name : PackageName) : '/' ∉ name.encoded.toList := by
  cases name with
  | plain name part plus => exact part.1.2.2.2
  | inScope scope name free part => simp [encoded, free '/' (by simp), part.1.2.2.2]

end PackageName

theorem nameInStore?_eq {entry : String} {scope name version : List Char}
    (hscope : scope = ['@'] ∨ scope = []) (hname : name ≠ []) (hat : '@' ∉ name)
    (hentry : entry.toList = scope ++ (name ++ '@' :: version)) :
    nameInStore? entry = some (replaceFirst '+' "/" (String.ofList (scope ++ name))) := by
  obtain ⟨c, cs, rfl⟩ := exists_cons_of_ne_nil hname
  rw [mem_cons, not_or] at hat
  have hall : ∀ d ∈ cs, (d != '@') := fun d hd => bne_iff_ne.mpr fun he => hat.2 (he ▸ hd)
  rcases hscope with rfl | rfl <;>
    simp [nameInStore?, hentry, Ne.symm hat.1, takeWhile_append_of_pos hall,
      dropWhile_append_of_pos hall]

theorem nameInStore?_encoded (name : PackageName) (version : String) :
    nameInStore? (name.encoded ++ "@" ++ version) = some name.text := by
  cases name with
  | plain name part plus =>
    obtain ⟨⟨hne, -⟩, -, -, hat⟩ := part
    have hentry : (name ++ "@" ++ version).toList =
        [] ++ (name.toList ++ '@' :: version.toList) := by
      simp
    refine (nameInStore?_eq (.inr rfl) (by simpa using hne) hat hentry).trans (congrArg some ?_)
    rw [nil_append, String.ofList_toList, replaceFirst, cutAt?_eq_none_iff.mpr plus]
    rfl
  | inScope scope name free part =>
    have hat : '@' ∉ scope.toList ++ '+' :: name.toList := by
      simp [free '@' (by simp), part.2.2.2]
    have hentry : ("@" ++ scope ++ "+" ++ name ++ "@" ++ version).toList =
        ['@'] ++ (scope.toList ++ '+' :: name.toList ++ '@' :: version.toList) := by simp
    have hcut : cutAt? '+' (String.ofList (['@'] ++ (scope.toList ++ '+' :: name.toList))) =
        some ("@" ++ scope, name) :=
      cutAt?_eq_some_iff.mpr ⟨by simp, by simp [free '+' (by simp)]⟩
    refine (nameInStore?_eq (.inl rfl) (by simp) hat hentry).trans (congrArg some ?_)
    rw [replaceFirst, hcut]
    rfl

/-- **A store gives back the names that it was written for**: from the path of an entry in it,
whatever follows the version's `@`, and from the path of the package in the dependencies of the
entry. -/
theorem packageOf?_unwinds_store (name : PackageName) (version root rest : String)
    (hversion : '/' ∉ version.toList) (hrest : "node_modules" ∉ pathNames ⟨rest⟩) :
    let entry := name.encoded ++ "@" ++ version
    packageOf? ⟨"/".intercalate [root, "node_modules", ".pnpm", entry, rest]⟩ = some name.text ∧
      packageOf? ⟨"/".intercalate
        [root, "node_modules", ".pnpm", entry, "node_modules", name.text, rest]⟩ =
          some name.text := by
  intro entry
  have hne : ∀ special : String, '@' ∉ special.toList → entry ≠ special := by
    rintro special h rfl
    exact h (by simp [entry])
  have hentry : IsName entry :=
    ⟨hne "" (by decide), hne "." (by decide), hne ".." (by decide),
      by simp [entry, name.no_slash_encoded, hversion]⟩
  have hnames : ∀ parts,
      pathNames ⟨"/".intercalate (root :: "node_modules" :: ".pnpm" :: entry :: parts)⟩ =
        pathNames ⟨root⟩ ++ "node_modules" :: ".pnpm" :: entry ::
          parts.flatMap (pathNames ⟨·⟩) := by
    intro parts
    rw [pathNames_intercalate]
    simp only [flatMap_cons, pathNames_modules, pathNames_of_isName (show IsName ".pnpm" by decide),
      pathNames_of_isName hentry, singleton_append]
  constructor
  · have hlast : "node_modules" ∉ ".pnpm" :: entry :: [rest].flatMap (pathNames ⟨·⟩) := by
      simp [(hne "node_modules" (by decide)).symm, hrest]
    rw [packageOf?, hnames, afterLast?_append hlast]
    exact nameInStore?_encoded name version
  · obtain ⟨parts, hparts⟩ := name.parted
    refine hparts.packageOf?_eq
      ⟨pathNames ⟨root⟩ ++ ["node_modules", ".pnpm", entry], pathNames ⟨rest⟩, ?_, hrest⟩
    rw [hnames]
    simp [pathNames_modules, hparts.pathNames_eq]

/-- A scope, a `+` in the name, and a version with the versions of peers behind it. -/
theorem packageOf?_unwinds_store_peers :
    let rest := "dist/index.js"
    "node_modules" ∉ pathNames ⟨rest⟩ ∧ packageOf? ⟨"/".intercalate
        ["/p", "node_modules", ".pnpm", "@foo+a+b@1.0.0_react@18.2.0", rest]⟩ = some "@foo/a+b" ∧
      packageOf? ⟨"/".intercalate ["/p", "node_modules", ".pnpm", "@foo+a+b@1.0.0_react@18.2.0",
        "node_modules", "@foo/a+b", rest]⟩ = some "@foo/a+b" := by
  intro rest
  have hrest : "node_modules" ∉ pathNames ⟨rest⟩ := by decide
  have h := packageOf?_unwinds_store (.inScope "foo" "a+b" (by simp) (by decide))
    "1.0.0_react@18.2.0" "/p" rest (by decide) hrest
  exact ⟨hrest, h⟩

/-! ## Specifiers -/

/-- **A specifier that names a package**: its segments are names, none of them is the directory of
dependencies, it does not start in the store, and behind a scope there is a name. -/
structure PackageSpecifier (s : String) : Prop where
  bare : isBare s
  named : ∀ part ∈ pieces '/' s, part ∉ ["", ".", "..", "node_modules"]
  outside : (pieces '/' s).head? ≠ some ".pnpm"
  complete : startsWith "@" s → 2 ≤ (pieces '/' s).length

theorem pieces_of_cut {pre post : String} (h : cutAt? '/' s = some (pre, post)) :
    s = pre ++ "/" ++ post ∧ pieces '/' s = pre :: pieces '/' post := by
  obtain ⟨hs, hpre⟩ := cutAt?_eq_some_iff.mp h
  have heq : s = pre ++ "/" ++ post := String.toList_inj.mp (by simp [hs])
  refine ⟨heq, ?_⟩
  rw [heq, pieces_append_slash, pieces_of_no_slash hpre]
  rfl

namespace PackageSpecifier

theorem isName (hs : PackageSpecifier s) (part : String) (h : part ∈ pieces '/' s) :
    IsName part ∧ part ≠ "node_modules" := by
  have hpart := hs.named part h
  simp only [mem_cons, not_mem_nil, or_false, not_or] at hpart
  exact ⟨⟨hpart.1, hpart.2.1, hpart.2.2.1, no_slash_of_mem_pieces h⟩, hpart.2.2.2⟩

/-- **A specifier is its package and what follows it.** -/
theorem split (hs : PackageSpecifier s) : ∃ parts below, Parted (splitBare s).1 parts ∧
    pieces '/' s = parts ++ below ∧
      s = (splitBare s).2.elim (splitBare s).1 ((splitBare s).1 ++ "/" ++ ·) := by
  have hname := hs.isName
  have houtside := hs.outside
  have hcomplete := hs.complete
  unfold splitBare
  split
  · rename_i hcut
    have hpieces := pieces_of_no_slash (cutAt?_eq_none_iff.mp hcut)
    rw [hpieces] at hname houtside hcomplete
    split
    · rename_i hat
      exact absurd (hcomplete hat) (by simp)
    · rename_i hat
      obtain ⟨hs, hmodules⟩ := hname s (by simp)
      exact ⟨[s], [], .plain hs (Bool.eq_false_iff.mpr hat) (by simpa using houtside) hmodules,
        hpieces, rfl⟩
  · rename_i first rest hcut
    obtain ⟨heq, hpieces⟩ := pieces_of_cut hcut
    rw [hpieces] at hname houtside
    obtain ⟨hfirst, hmodules⟩ := hname first (by simp)
    split
    · rename_i hat
      split
      · rename_i hcut
        have hrest := pieces_of_no_slash (cutAt?_eq_none_iff.mp hcut)
        rw [hrest] at hname hpieces
        obtain ⟨hrest, hmodules⟩ := hname rest (by simp)
        exact ⟨[first, rest], [], .inScope hfirst hat hrest hmodules, hpieces, heq⟩
      · rename_i second sub hcut
        obtain ⟨hrest, hsub⟩ := pieces_of_cut hcut
        rw [hsub] at hname hpieces
        obtain ⟨hsecond, hmodules⟩ := hname second (by simp)
        refine ⟨[first, second], pieces '/' sub, .inScope hfirst hat hsecond hmodules, hpieces, ?_⟩
        rw [heq, hrest]
        simp [String.append_assoc]
    · rename_i hat
      exact ⟨[first], pieces '/' rest, .plain hfirst (Bool.eq_false_iff.mpr hat)
        (by simpa using houtside) hmodules, hpieces, heq⟩

theorem fileOf (hs : PackageSpecifier s) (dir : String) :
    FileOf (splitBare s).1 ⟨"/".intercalate [dir, "node_modules", s]⟩ := by
  obtain ⟨parts, below, hparts, hpieces, -⟩ := hs.split
  have hnames : pathNames ⟨s⟩ = pieces '/' s :=
    pathNames_of_isNamed fun part hpart => isNamed_of_isName (hs.isName part hpart).1
  refine ⟨pathNames ⟨dir⟩, below, ?_, fun hmem => ?_⟩
  · rw [pathNames_intercalate, hparts.pieces_eq]
    simp [pathNames_modules, hnames, hpieces]
  · exact (hs.isName _ (hpieces ▸ mem_append_right parts hmem)).2 rfl

end PackageSpecifier

theorem FileOf.inNodeModules (h : FileOf package file) : file.inNodeModules := by
  obtain ⟨above, below, hnames, -⟩ := h
  have hmem : "node_modules" ∈ pathNames file := by simp [hnames]
  obtain ⟨c, hc, hname⟩ := mem_filterMap.mp hmem
  refine List.any_eq_true.mpr ⟨c, hc, ?_⟩
  cases c with
  | name text => exact beq_iff_eq.mpr (Option.some.inj hname)
  | root | current | parent => cases hname

open Expansion Inventory Source

/-- **A specifier and the path of a file agree on the package.** The package of a specifier and the
path inside it make up the specifier, and the place of the specifier in the dependencies of any
directory belongs to that package. So an import is reported with one package, whether it is resolved
or not, as long as a file that it is resolved to stands in the directory of the package. -/
theorem splitBare_names_package {s : String} (hs : PackageSpecifier s) :
    let package := (splitBare s).1
    s = (splitBare s).2.elim package (package ++ "/" ++ ·) ∧
    (∀ dir, packageOf? ⟨"/".intercalate [dir, "node_modules", s]⟩ = some package) ∧
    ∀ (σ : Type) (t : Tree) (root : Path) (nested : Nested σ) (m : Module) (b : Binding)
      (position : Position) (e : Expander σ), b.specifier = s →
      (∀ file, e.resolver.finds t s m.path = some file → FileOf package file) →
      ∃ entry, ((fromImport? t root nested m b position).run e).1 = some entry ∧
        entry.package = some package := by
  obtain ⟨parts, -, hparts, -, hjoin⟩ := hs.split
  refine ⟨hjoin, fun dir => hparts.packageOf?_eq (hs.fileOf dir), ?_⟩
  rintro σ t root nested m b position e rfl hfile
  unfold fromImport?
  rw [run_withResolver_bind]
  unfold Resolver.finds at hfile
  generalize (Resolver.resolve? t b.specifier m.path).run e.resolver = resolved at hfile ⊢
  obtain ⟨target, r⟩ := resolved
  cases target with
  | none =>
    refine ⟨{ name := b.localName, position, package := some (splitBare b.specifier).1 }, ?_, rfl⟩
    simp only [missedImport?, hs.bare]
    rfl
  | some target =>
    have htarget := hfile target rfl
    refine ⟨thirdPartyEntry root b.localName position target zeroRange, ?_,
      hparts.packageOf?_eq htarget⟩
    simp only [fromTarget?, htarget.inNodeModules, if_true]
    rfl

namespace Aside

/-- Two packages of a scope; the manifest of the first one names a file of the second one. -/
def tree : Tree where
  entries := [(["p"], .directory), (["p", "node_modules"], .directory),
    (["p", "node_modules", "@s"], .directory), (["p", "node_modules", "@s", "a"], .directory),
    (["p", "node_modules", "@s", "a", "package.json"],
      .file "\x7b\"main\":\"../b/i.js\"\x7d".toUTF8.toList),
    (["p", "node_modules", "@s", "a", "x.ts"], .file []),
    (["p", "node_modules", "@s", "b"], .directory),
    (["p", "node_modules", "@s", "b", "i.js"], .file [])]

def importing : Module := ⟨⟨"/p/m.ts"⟩, "", parse .typescript "", []⟩

def expander : Expander Unit := { resolver := { root := ⟨"/p"⟩ } }

def imported (specifier : String) : Binding := ⟨"n", "n", specifier, .named⟩

/-- The package with which the import of a name is reported. -/
def reported (t : Tree) (specifier : String) : Option (Option String) :=
  ((fromImport? t ⟨"/p"⟩ none importing (imported specifier) ⟨0, 0⟩).run expander).1.map (·.package)

theorem finds_eq :
    expander.resolver.finds tree "@s/a/x" importing.path = some ⟨"/p/node_modules/@s/a/x.ts"⟩ ∧
      expander.resolver.finds {} "@s/a/x" importing.path = none := by
  decide +kernel

end Aside

/-- A file of a package, in a tree where it is found and in one where it is missing. -/
theorem splitBare_names_package_scoped :
    PackageSpecifier "@s/a/x" ∧ splitBare "@s/a/x" = ("@s/a", some "x") ∧
      ∀ t ∈ [Aside.tree, {}], Aside.reported t "@s/a/x" = some (some "@s/a") := by
  have hs : PackageSpecifier "@s/a/x" := ⟨by decide, by decide, by decide, by decide⟩
  have hsplit : splitBare "@s/a/x" = ("@s/a", some "x") := by decide
  refine ⟨hs, hsplit, fun t ht => ?_⟩
  have hfile : ∀ file, Aside.expander.resolver.finds t "@s/a/x" Aside.importing.path = some file →
      FileOf (splitBare "@s/a/x").1 file := by
    intro file hfile
    rcases mem_cons.mp ht with rfl | ht
    · obtain rfl := Option.some.inj (Aside.finds_eq.1.symm.trans hfile)
      exact ⟨["p"], ["x.ts"], by decide, by decide⟩
    · rw [mem_singleton.mp ht, Aside.finds_eq.2] at hfile
      cases hfile
  obtain ⟨entry, hentry, hpackage⟩ := (splitBare_names_package hs).2.2 Unit t ⟨"/p"⟩ none
    Aside.importing (Aside.imported "@s/a/x") ⟨0, 0⟩ Aside.expander rfl hfile
  rw [Aside.reported, hentry, map_some, hpackage, hsplit]

/-- **A manifest can lead to a file of another package**, which the import is then reported with. -/
theorem package_of_manifest :
    PackageSpecifier "@s/a" ∧ Aside.reported Aside.tree "@s/a" = some (some "@s/b") ∧
      Aside.reported {} "@s/a" = some (some "@s/a") := by
  have hfacts : Aside.reported Aside.tree "@s/a" = some (some "@s/b") ∧
      Aside.reported {} "@s/a" = some (some "@s/a") := by decide +kernel
  exact ⟨⟨by decide, by decide, by decide, by decide⟩, hfacts⟩

end RouteAtlas.Modules
