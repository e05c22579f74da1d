import RouteAtlas.Project.Monitor
import RouteAtlas.Proofs.PlainTrees
import RouteAtlas.Proofs.Versions

/-!
# Tracked files and their contributions

The store keeps its files in path order, so it is a finite map from paths to files: setting a file
changes what is found under its path and nothing else, and two stores that hold the same texts hold
the same list of files, versions apart. The graph of a state mirrors the store: after each refresh
it holds the contributions of the tracked files, in the same order.
-/

open List Option

namespace RouteAtlas.Project

open Files Source Inventory Store Language
open Files.Tree (pathOf)

namespace Store

variable {f g : File} {files : List File} {path : Path}

/-! ## Files in path order -/

def Sorted (files : List File) : Prop := files.Pairwise fun f g => f.path.compare g.path = .lt

theorem same_of_compare_lt {p q : Path} (h : p.compare q = .lt) : p.same q = false := by
  rw [← Bool.not_eq_true, ← Path.compare_eq_iff_same, h]
  simp

theorem mem_putFile (hs : Sorted files) :
    g ∈ putFile f files ↔ g = f ∨ g ∈ files ∧ f.path.same g.path = false := by
  induction files with
  | nil => simp [putFile]
  | cons head files ih =>
    obtain ⟨hhead, hs⟩ := pairwise_cons.mp hs
    rw [putFile]
    split
    · rename_i hlt
      -- everything from here on lies behind the file that is set
      have hall : ∀ h ∈ head :: files, f.path.same h.path = false := by
        intro h hmem
        rcases mem_cons.mp hmem with rfl | hmem
        · exact same_of_compare_lt hlt
        · exact same_of_compare_lt (Std.TransCmp.lt_trans hlt (hhead h hmem))
      rw [mem_cons]
      exact or_congr_right ⟨fun hg => ⟨hg, hall g hg⟩, And.left⟩
    · rename_i heq
      have hsame := Path.compare_eq_iff_same.mp heq
      have hall : ∀ h ∈ files, f.path.same h.path = false := by
        intro h hmem
        refine same_of_compare_lt ?_
        rw [Std.TransCmp.congr_left heq]
        exact hhead h hmem
      rw [mem_cons, mem_cons]
      refine or_congr_right ⟨fun hg => ⟨.inr hg, hall g hg⟩, ?_⟩
      rintro ⟨rfl | hg, hother⟩
      · rw [hsame] at hother
        cases hother
      · exact hg
    · rename_i hgt
      have hother : f.path.same head.path = false := by
        rw [← Bool.not_eq_true, ← Path.compare_eq_iff_same, hgt]
        simp
      rw [mem_cons, mem_cons, ih hs]
      constructor
      · rintro (rfl | rfl | ⟨hg, hne⟩)
        · exact .inr ⟨.inl rfl, hother⟩
        · exact .inl rfl
        · exact .inr ⟨.inr hg, hne⟩
      · rintro (rfl | ⟨rfl | hg, hne⟩)
        · exact .inr (.inl rfl)
        · exact .inl rfl
        · exact .inr (.inr ⟨hg, hne⟩)

theorem sorted_putFile (hs : Sorted files) : Sorted (putFile f files) := by
  induction files with
  | nil => exact pairwise_singleton _ _
  | cons head files ih =>
    obtain ⟨hhead, hs'⟩ := pairwise_cons.mp hs
    rw [putFile]
    split
    · rename_i hlt
      refine pairwise_cons.mpr ⟨fun g hg => ?_, hs⟩
      rcases mem_cons.mp hg with rfl | hg
      · exact hlt
      · exact Std.TransCmp.lt_trans hlt (hhead g hg)
    · rename_i heq
      refine pairwise_cons.mpr ⟨fun g hg => ?_, hs'⟩
      rw [Std.TransCmp.congr_left heq]
      exact hhead g hg
    · rename_i hgt
      refine pairwise_cons.mpr ⟨fun g hg => ?_, ih hs'⟩
      rcases (mem_putFile hs').mp hg with rfl | ⟨hg, -⟩
      · exact Std.OrientedCmp.gt_iff_lt.mp hgt
      · exact hhead g hg

theorem find?_eq_some_iff (hs : Sorted files) :
    files.find? (·.path.same path) = some f ↔ f ∈ files ∧ f.path.same path := by
  constructor
  · intro h
    exact ⟨mem_of_find?_eq_some h, by simpa using find?_some h⟩
  · rintro ⟨hmem, hsame⟩
    induction files with
    | nil => exact absurd hmem not_mem_nil
    | cons head files ih =>
      obtain ⟨hhead, hs⟩ := pairwise_cons.mp hs
      rcases mem_cons.mp hmem with rfl | hmem
      · exact find?_cons_of_pos hsame
      rw [find?_cons_of_neg, ih hs hmem]
      intro hpath
      have : head.path.same f.path := by
        rw [Path.same, beq_iff_eq] at *
        rw [hpath, hsame]
      rw [same_of_compare_lt (hhead f hmem)] at this
      cases this

theorem get?_put_self {s : Store} (hs : Sorted s.files) (f : File) :
    (s.put f).get? f.path = some f := by
  have hself : f.path.same f.path := beq_self_eq_true _
  exact (find?_eq_some_iff (sorted_putFile hs)).mpr ⟨(mem_putFile hs).mpr (.inl rfl), hself⟩

/-! ## Sound stores -/

/-- The file was read from a clean path. -/
structure Made (root : Path) (f : File) : Prop where
  clean : ∃ place, IsPlace place ∧ f.path = pathOf place
  read : ∃ language, ofPath? f.path = some language ∧
    f = .ofText root f.path f.text language f.version

/-- A store in path order whose files were read from clean paths. -/
structure Sound (s : Store) : Prop where
  sorted : Sorted s.files
  made : ∀ f ∈ s.files, Made s.root f

def text? (s : Store) (path : Path) : Option String := (s.get? path).map (·.text)

variable {s : Store} {t : Tree} {f : File} {place q : Place}

theorem Sound.get?_eq_some_iff (hs : s.Sound) (hq : IsPlace q) :
    s.get? (pathOf q) = some f ↔ f ∈ s.files ∧ f.path = pathOf q := by
  rw [get?, find?_eq_some_iff hs.sorted]
  refine and_congr_right fun hmem => ⟨fun hsame => ?_, fun hpath => ?_⟩
  · obtain ⟨p, hp, hpath⟩ := (hs.made f hmem).clean
    rw [hpath, pathOf_same_iff hp hq] at hsame
    rw [hpath, hsame]
  · rw [hpath, pathOf_same_iff hq hq]

theorem Sound.text?_of_mem (hs : s.Sound) (hf : f ∈ s.files) :
    ∃ place, IsPlace place ∧ f.path = pathOf place ∧ s.text? (pathOf place) = some f.text := by
  obtain ⟨place, hp, hpath⟩ := (hs.made f hf).clean
  refine ⟨place, hp, hpath, ?_⟩
  rw [text?, (hs.get?_eq_some_iff hp).mpr ⟨hf, hpath⟩]
  rfl

theorem Sound.put (hs : s.Sound) (hf : Made s.root f) : (s.put f).Sound where
  sorted := sorted_putFile hs.sorted
  made g hg := by
    rcases (mem_putFile hs.sorted).mp hg with rfl | ⟨hg, -⟩
    · exact hf
    · exact hs.made g hg

theorem Sound.remove (hs : s.Sound) (path : Path) : (s.remove path).Sound where
  sorted := hs.sorted.filter _
  made g hg := hs.made g (mem_filter.mp hg).1

theorem get?_remove_self (s : Store) (path : Path) : (s.remove path).get? path = none := by
  rw [get?, find?_eq_none]
  intro f hf
  simpa using (mem_filter.mp hf).2

theorem remove_eq_self (h : s.get? path = none) : s.remove path = s := by
  have hfiles : s.files.filter (!·.path.same path) = s.files := by
    rw [filter_eq_self]
    intro f hf
    simpa using find?_eq_none.mp h f hf
  rw [remove, hfiles]

/-! ## Reading a file again -/

/-- What reading a path again can do to the store. -/
inductive Reread (s : Store) (t : Tree) (path : Path) : Store → Prop where
  | gone (hfile : t.isFile path = false) : Reread s t path (s.remove path)
  | kept (hfile : t.isFile path)
    (hnone : t.text? path = none ∨ ofPath? path = none) : Reread s t path s
  /-- The digest of the text is the one of the tracked text. -/
  | unchanged {text : String} {old : File} (htext : t.text? path = some text)
    (hold : s.get? path = some old) (hhash : old.hash = Digest.Blake3.ofText text) :
    Reread s t path s
  | updated {text : String} {language : Language} (version : Nat)
    (htext : t.text? path = some text) (hlanguage : ofPath? path = some language)
    (hnew : ∀ old, s.get? path = some old → old.hash ≠ Digest.Blake3.ofText text) :
    Reread s t path (s.put (.ofText s.root path text language version))

theorem reread_upserted (s : Store) (t : Tree) (path : Path) :
    Reread s t path (s.upserted t path) := by
  rw [upserted, upsert]
  cases hfile : t.isFile path with
  | false => exact .gone hfile
  | true =>
    cases htext : t.text? path with
    | none => exact .kept hfile (.inl htext)
    | some text =>
      simp only [upsertText]
      cases hlanguage : ofPath? path with
      | none => exact .kept hfile (.inr hlanguage)
      | some language =>
        cases hold : s.get? path with
        | none => exact .updated 1 htext hlanguage fun _ h => by rw [hold] at h; cases h
        | some old =>
          by_cases hhash : old.hash = Digest.Blake3.ofText text
          · simp only [hhash]
            exact .unchanged htext hold hhash
          · simp only [hhash]
            exact .updated (old.version + 1) htext hlanguage fun _ h =>
              some.inj (hold.symm.trans h) ▸ hhash

theorem sorted_upserted (hs : Sorted s.files) (t : Tree) (path : Path) :
    Sorted (s.upserted t path).files := by
  generalize hs' : s.upserted t path = s'
  have h := hs' ▸ reread_upserted s t path
  cases h with
  | gone => exact hs.filter _
  | kept => exact hs
  | unchanged => exact hs
  | updated => exact sorted_putFile hs

/-- Reading a file again leaves all other files alone. -/
theorem get?_upserted_of_not_same (hs : Sorted s.files) {q : Path} (hother : path.same q = false) :
    (s.upserted t path).get? q = s.get? q := by
  -- no file is under both paths
  have hboth : ∀ {f : File}, f.path.same q → path.same f.path = false := by
    intro f hf
    rw [Path.same, beq_eq_false_iff_ne] at *
    exact fun heq => hother (heq.trans (beq_iff_eq.mp hf))
  have hsorted := sorted_upserted hs t path
  generalize hs' : s.upserted t path = s' at hsorted
  have h := hs' ▸ reread_upserted s t path
  cases h with
  | gone =>
    refine ext fun f => ?_
    rw [get?, find?_eq_some_iff hsorted, get?, find?_eq_some_iff hs, remove, mem_filter]
    refine and_congr_left fun hf => and_iff_left ?_
    rw [Path.same_comm, hboth hf]
    rfl
  | kept => rfl
  | unchanged => rfl
  | updated =>
    refine ext fun f => ?_
    rw [get?, find?_eq_some_iff hsorted, get?, find?_eq_some_iff hs, put, mem_putFile hs]
    refine and_congr_left fun hf => ⟨?_, fun hmem => .inr ⟨hmem, hboth hf⟩⟩
    rintro (rfl | ⟨hmem, -⟩)
    · cases hf.symm.trans hother
    · exact hmem

theorem Sound.upserted (hs : s.Sound) (hp : IsPlace place) :
    (s.upserted t (pathOf place)).Sound := by
  generalize hs' : s.upserted t (pathOf place) = s'
  have h := hs' ▸ reread_upserted s t (pathOf place)
  cases h with
  | gone => exact hs.remove _
  | kept => exact hs
  | unchanged => exact hs
  | updated version _ hlanguage => exact hs.put ⟨⟨place, hp, rfl⟩, ⟨_, hlanguage, rfl⟩⟩

theorem root_upserted (s : Store) (t : Tree) (path : Path) : (s.upserted t path).root = s.root := by
  generalize hs' : s.upserted t path = s'
  have h := hs' ▸ reread_upserted s t path
  cases h <;> rfl

theorem mem_upserted (hs : Sorted s.files) (hf : f ∈ (s.upserted t path).files) :
    f ∈ s.files ∨ f.path = path ∧ t.text? path = some f.text ∧ (ofPath? path).isSome := by
  generalize hs' : s.upserted t path = s' at hf
  have h := hs' ▸ reread_upserted s t path
  cases h with
  | gone => exact .inl (mem_filter.mp hf).1
  | kept => exact .inl hf
  | unchanged => exact .inl hf
  | updated version htext hlanguage =>
    rcases (mem_putFile hs).mp hf with rfl | ⟨hf, -⟩
    · exact .inr ⟨rfl, htext, by rw [hlanguage]; rfl⟩
    · exact .inl hf

theorem Sound.text?_upserted_of_ne (hs : s.Sound) (hp : IsPlace place) (hq : IsPlace q)
    (hne : q ≠ place) :
    (s.upserted t (pathOf place)).text? (pathOf q) = s.text? (pathOf q) := by
  have hother : (pathOf place).same (pathOf q) = false := by
    rw [← Bool.not_eq_true, pathOf_same_iff hp hq]
    exact Ne.symm hne
  rw [text?, get?_upserted_of_not_same hs.sorted hother]
  rfl

theorem isFile_of_text? {text : String} (h : t.text? path = some text) : t.isFile path := by
  obtain ⟨bytes, hbytes, -⟩ := bind_eq_some_iff.mp h
  rw [Tree.isFile_eq_isSome, hbytes]
  rfl

theorem text?_eq_none (h : t.isFile path = false) : t.text? path = none := by
  rw [eq_none_iff_forall_ne_some]
  exact fun text htext => Bool.false_ne_true (h.symm.trans (isFile_of_text? htext))

/-- **Reading a source again** tracks its text as it is now, unless there is a file that cannot be
read. The digest has to tell the tracked text and the new one apart. -/
theorem text?_upserted_self (hs : Sorted s.files) {path : Path}
    (hsource : (ofPath? path).isSome)
    (hread : t.isFile path → (t.text? path).isSome)
    (hhash : ∀ old text, s.get? path = some old → t.text? path = some text →
      old.hash = Digest.Blake3.ofText text → old.text = text) :
    (s.upserted t path).text? path = t.text? path := by
  generalize hs' : s.upserted t path = s'
  have h := hs' ▸ reread_upserted s t path
  cases h with
  | gone hfile =>
    rw [text?, get?_remove_self, text?_eq_none hfile]
    rfl
  | kept hfile hnone =>
    rcases hnone with hnone | hnone
    · have := hread hfile
      rw [hnone] at this
      cases this
    · rw [hnone] at hsource
      cases hsource
  | unchanged htext hold heq =>
    rw [text?, hold, htext, map_some, hhash _ _ hold htext heq]
  | @updated text language version htext =>
    have hself := get?_put_self hs (.ofText s.root path text language version)
    rw [htext]
    exact congrArg (Option.map (·.text)) hself

theorem isSome_text?_upserted_self (hs : Sorted s.files) (hsource : (ofPath? path).isSome)
    (hread : (t.text? path).isSome) : ((s.upserted t path).text? path).isSome := by
  generalize hs' : s.upserted t path = s'
  have h := hs' ▸ reread_upserted s t path
  cases h with
  | gone hfile =>
    obtain ⟨text, htext⟩ := isSome_iff_exists.mp hread
    rw [isFile_of_text? htext] at hfile
    cases hfile
  | kept _ hnone => rcases hnone with hnone | hnone <;> simp [hnone] at hread hsource
  | unchanged _ hold => rw [text?, hold]; rfl
  | @updated text language version htext =>
    have hself := get?_put_self hs (.ofText s.root path text language version)
    exact congrArg (Option.isSome ∘ Option.map (·.text)) hself

/-- Reading a file fails if and only if it is there and cannot be read or is no source. What is
tracked does not matter. -/
theorem upsert_eq_error_iff : (∃ e, s.upsert t path = .error e) ↔
    t.isFile path ∧ (t.text? path = none ∨ ofPath? path = none) := by
  rw [upsert]
  cases t.isFile path with
  | false => simp
  | true =>
    cases t.text? path with
    | none => simp
    | some text =>
      simp only [upsertText]
      cases ofPath? path with
      | none => simp
      | some language =>
        cases s.get? path with
        | none => simp
        | some old => by_cases hhash : old.hash = Digest.Blake3.ofText text <;> simp [hhash]

theorem upserted_of_unread (hfile : t.isFile path)
    (hnone : t.text? path = none ∨ ofPath? path = none) : s.upserted t path = s := by
  obtain ⟨e, he⟩ := upsert_eq_error_iff.mpr ⟨hfile, hnone⟩
  rw [upserted, he]

/-! ## Stores with the same texts -/

theorem Made.unversioned_eq {root : Path} (hf : Made root f) (hg : Made root g)
    (hpath : f.path = g.path) (htext : f.text = g.text) : f.unversioned = g.unversioned := by
  obtain ⟨language, hlanguage, hread⟩ := hf.read
  obtain ⟨language', hlanguage', hread'⟩ := hg.read
  have hsame : language = language' :=
    some.inj (hlanguage.symm.trans (hpath ▸ hlanguage'))
  rw [hread, hread', hpath, htext, hsame]
  rfl

theorem Sound.mem_map_unversioned {s' : Store} (hs : s.Sound) (hs' : s'.Sound)
    (hroot : s'.root = s.root)
    (htext : ∀ place, IsPlace place → s.text? (pathOf place) = s'.text? (pathOf place))
    (hg : g ∈ s.files.map File.unversioned) : g ∈ s'.files.map File.unversioned := by
  obtain ⟨f, hf, rfl⟩ := List.mem_map.mp hg
  obtain ⟨place, hp, hpath, hfound⟩ := hs.text?_of_mem hf
  obtain ⟨f', hget, htext'⟩ := map_eq_some_iff.mp ((htext place hp).symm.trans hfound)
  obtain ⟨hf', hpath'⟩ := (hs'.get?_eq_some_iff hp).mp hget
  refine List.mem_map.mpr ⟨f', hf', ?_⟩
  exact (hroot ▸ hs'.made f' hf').unversioned_eq (hs.made f hf) (hpath'.trans hpath.symm) htext'

/-- **Two stores with the same texts** hold the same files in the same order, versions apart. -/
theorem Sound.unversioned_eq {s' : Store} (hs : s.Sound) (hs' : s'.Sound) (hroot : s'.root = s.root)
    (htext : ∀ place, IsPlace place → s.text? (pathOf place) = s'.text? (pathOf place)) :
    s.files.map File.unversioned = s'.files.map File.unversioned := by
  have hsorted : ∀ {files : List File}, Sorted files → Sorted (files.map File.unversioned) :=
    fun h => pairwise_map.mpr h
  have hnodup : ∀ {files : List File}, Sorted files → files.Nodup := fun h =>
    h.imp fun {f g} hlt heq => by
      have := same_of_compare_lt hlt
      rw [heq, Path.same, beq_self_eq_true] at this
      cases this
  refine List.Perm.eq_of_pairwise ?_ (hsorted hs.sorted) (hsorted hs'.sorted) ?_
  · intro f g _ _ hlt hgt
    cases hlt.symm.trans (Std.OrientedCmp.gt_iff_lt.mpr hgt)
  · rw [perm_ext_iff_of_nodup (hnodup (hsorted hs.sorted)) (hnodup (hsorted hs'.sorted))]
    intro g
    exact ⟨hs.mem_map_unversioned hs' hroot htext,
      hs'.mem_map_unversioned hs hroot.symm fun place hp => (htext place hp).symm⟩

end Store

/-! ## The graph mirrors the store -/

theorem putContribution_map (f : File) (files : List File) :
    Graph.putContribution (contributionOf f) (files.map contributionOf)
      = (putFile f files).map contributionOf := by
  induction files with
  | nil => rfl
  | cons head files ih =>
    have hfile : ∀ g : File, (contributionOf g).file = g.path := fun _ => rfl
    rw [map_cons, Graph.putContribution, putFile, hfile, hfile]
    cases f.path.compare head.path with
    | lt => rfl
    | eq => rfl
    | gt => exact congrArg _ ih

theorem Store.putFile_eq_concat {f : File} {files : List File}
    (h : ∀ g ∈ files, g.path.compare f.path = .lt) : putFile f files = files ++ [f] := by
  induction files with
  | nil => rfl
  | cons head files ih =>
    have hgt := Std.OrientedCmp.gt_iff_lt.mpr (h head mem_cons_self)
    rw [putFile, hgt]
    exact congrArg _ (ih fun g hg => h g (mem_cons_of_mem head hg))

namespace State

variable {s : State}

/-- The graph with the contributions of some files. -/
def graphWith (g : Graph) (files : List File) : Graph :=
  { g with contributions := files.map contributionOf }

def Mirrored (s : State) : Prop := s.graph = graphWith s.graph s.store.files

theorem replace_graphWith (g : Graph) (files : List File) (f : File) :
    (graphWith g files).replace (contributionOf f) = graphWith g (putFile f files) := by
  rw [Graph.replace, graphWith, putContribution_map]
  rfl

/-- The graph of files in path order holds their contributions in that order. -/
theorem graphOf_eq (root : Path) {files : List File} (hs : Store.Sorted files) :
    graphOf root files = graphWith { root } files := by
  -- the files taken so far stay in front of those to come
  have hfold : ∀ front rest : List File, Store.Sorted (front ++ rest) →
      rest.foldl (fun g file => g.replace (contributionOf file)) (graphWith { root } front)
        = graphWith { root } (front ++ rest) := by
    intro front rest
    induction rest generalizing front with
    | nil => intro _; rw [append_nil]; rfl
    | cons f rest ih =>
      intro hs
      have hlast := putFile_eq_concat fun g hg =>
        (pairwise_append.mp hs).2.2 g hg f mem_cons_self
      rw [foldl_cons, replace_graphWith, hlast]
      rw [append_cons] at hs
      rw [ih (front ++ [f]) hs, ← append_cons]
  exact hfold [] files hs

theorem readWatched_store {t : Tree} {motive : Store → Prop} {entries : List SourceEntry}
    (hread : ∀ e ∈ entries, ∀ s : Store, motive s → motive (s.upserted t e.path)) :
    ∀ {s : Store} {set : Watch.WatchSet}, motive s → motive (readWatched t s set entries).1 := by
  induction entries with
  | nil => exact fun h => h
  | cons e entries ih =>
    intro s set h
    obtain ⟨hfirst, hrest⟩ := forall_mem_cons.mp hread
    have hwatched : ∀ watched : Bool, motive (if watched then s.upserted t e.path else s)
      | true => hfirst s h
      | false => h
    exact ih hrest (hwatched _)

theorem root_load (t : Tree) (resolver : Modules.Resolver) (noIgnore : Bool) :
    (load t resolver noIgnore).root = resolver.root :=
  readWatched_store (motive := fun s => s.root = resolver.root)
    (fun e _ s h => (root_upserted s t e.path).trans h) rfl

theorem Mirrored.eq_self (hm : s.Mirrored) :
    s = { s with store := s.store, graph := graphWith s.graph s.store.files } := by
  have h : s.graph = graphWith s.graph s.store.files := hm
  rw [← h]

/-- The graph follows a file that is put into the store. -/
theorem Mirrored.replace_put (hm : s.Mirrored) (f : File) :
    s.graph.replace (contributionOf f) = graphWith s.graph (s.store.put f).files := by
  have h : s.graph = graphWith s.graph s.store.files := hm
  rw [h, replace_graphWith]
  rfl

theorem Mirrored.remove (hm : s.Mirrored) (path : Path) :
    s.graph.remove path = graphWith s.graph (s.store.remove path).files := by
  have h : s.graph = graphWith s.graph s.store.files := hm
  rw [h, Graph.remove, graphWith, List.filter_map]
  rfl

/-- The store is in path order and the graph mirrors it. -/
structure Paired (s : State) : Prop where
  sorted : Store.Sorted s.store.files
  mirrored : s.Mirrored

/-- **Refreshing a file** reads it again into the store and lets the graph follow. -/
theorem Paired.refreshFile_eq (h : s.Paired) (t : Tree) (path : Path) :
    (s.refreshFile t path).2 = { s with
        store := s.store.upserted t path
        graph := graphWith s.graph (s.store.upserted t path).files } := by
  have hm := h.mirrored
  have hget : ∀ (language : Language) (text : String) (version : Nat),
      (s.store.put (.ofText s.store.root path text language version)).get? path
        = some (.ofText s.store.root path text language version) :=
    fun language text version => Store.get?_put_self h.sorted _
  rw [refreshFile, Store.upserted, Store.upsert]
  cases hfile : t.isFile path with
  | false =>
    cases hold : s.store.get? path with
    | none =>
      simp only [Store.contains, hold, Store.remove_eq_self hold]
      exact hm.eq_self
    | some old =>
      simp [Store.contains, hold, hm.remove]
  | true =>
    cases htext : t.text? path with
    | none => exact hm.eq_self
    | some text =>
      simp only [Store.upsertText]
      cases hlanguage : ofPath? path with
      | none => exact hm.eq_self
      | some language =>
        cases hold : s.store.get? path with
        | none => simp [hget language text 1, hm.replace_put]
        | some old =>
          by_cases hhash : old.hash = Digest.Blake3.ofText text
          · simp only [hhash]
            exact hm.eq_self
          · simp [hhash, hget language text (old.version + 1), hm.replace_put]

/-- The store after a path was refreshed: its file is read again if it is watched or tracked. -/
def readAgain (s : State) (t : Tree) (path : Path) : Store :=
  if (s.set.contains t path).1 || s.store.contains path then s.store.upserted t path else s.store

theorem readAgain_store {t : Tree} {path : Path} {motive : Store → Prop}
    (hread : motive s.store → motive (s.store.upserted t path)) (h : motive s.store) :
    motive (s.readAgain t path) := by
  rw [readAgain]
  split
  · exact hread h
  · exact h

/-- **Refreshing a path** that is no configuration file changes the store, and the graph follows. -/
theorem Paired.refreshPath_eq (h : s.Paired) (t : Tree) (path : Path) :
    (s.refreshPath t path).2 = if Watch.isConfigFile path then s
      else { s with
        set := (s.set.contains t path).2
        store := s.readAgain t path
        graph := graphWith s.graph (s.readAgain t path).files } := by
  have hset : ∀ set, Paired { s with set } := fun _ => ⟨h.sorted, h.mirrored⟩
  rw [refreshPath, readAgain]
  split
  · rfl
  dsimp only
  split
  · exact (hset _).refreshFile_eq t path
  · exact (hset _).mirrored.eq_self

theorem Paired.refreshPath (h : s.Paired) (t : Tree) (path : Path) :
    (s.refreshPath t path).2.Paired := by
  rw [h.refreshPath_eq]
  split
  · exact h
  · exact ⟨readAgain_store (motive := fun store => Store.Sorted store.files)
      (fun hs => sorted_upserted hs t path) h.sorted, rfl⟩

theorem refreshEach_snd (s : State) (t : Tree) (paths : List Path) :
    (s.refreshEach t paths).2 = paths.foldl (fun s path => (s.refreshPath t path).2) s := by
  have hfold : ∀ (paths : List Path) (stats : RefreshStats) (s : State),
      (paths.foldl (fun out path =>
        (State.addStats out.1 (out.2.refreshPath t path).1, (out.2.refreshPath t path).2))
        (stats, s)).2
        = paths.foldl (fun s path => (s.refreshPath t path).2) s := by
    intro paths
    induction paths with
    | nil => exact fun _ _ => rfl
    | cons path paths ih => exact fun stats s => ih _ _
  exact hfold paths {} s

theorem refreshEach_induction {t : Tree} {motive : State → Prop} {paths : List Path}
    (hstep : ∀ path ∈ paths, ∀ s, motive s → motive (s.refreshPath t path).2) :
    ∀ {s : State}, motive s → motive (s.refreshEach t paths).2 := by
  simp only [refreshEach_snd]
  induction paths with
  | nil => exact fun h => h
  | cons path paths ih =>
    obtain ⟨hfirst, hrest⟩ := forall_mem_cons.mp hstep
    exact fun h => ih hrest (hfirst _ h)

end State

end RouteAtlas.Project
