import Mathlib.Data.List.Induction
import Mathlib.Data.List.Nodup
import RouteAtlas.Proofs.AbsolutePaths

/-!
# Plain file trees and their edits

A plain tree has no links, and every entry stands in a directory. In such a tree a clean path leads
to its place and nowhere else, so what a path leads to can be read off the entries. Writing,
deleting and renaming files keep a tree plain, keep its directories, and leave the files at all
other places as they are.
-/

open List Option

namespace RouteAtlas.Files

open Text Files.Tree

/-! ## Association lists -/

theorem lookup_filter_fst [BEq α] [LawfulBEq α] (p : α → Bool) (l : List (α × β)) (a : α) :
    (l.filter fun e => p e.1).lookup a = if p a then l.lookup a else none := by
  induction l with
  | nil => simp
  | cons e l ih =>
    obtain ⟨k, b⟩ := e
    by_cases hk : a == k
    · obtain rfl := eq_of_beq hk
      by_cases hp : p a <;> simp [hp, ih]
    · by_cases hp : p k <;> simp [hp, hk, ih, lookup_cons]

theorem mem_of_lookup [BEq α] [LawfulBEq α] {l : List (α × β)} {a : α} {b : β}
    (h : l.lookup a = some b) : (a, b) ∈ l := by
  obtain ⟨l₁, l₂, rfl, -⟩ := lookup_eq_some_iff.mp h
  exact mem_append_right l₁ mem_cons_self

namespace Tree

variable {place rest q : Place} {t u : Tree} {places : List Place}

/-! ## Plain trees -/

/-- Every entry of the tree stands under names. -/
def Named (t : Tree) : Prop := ∀ x ∈ t.entries, IsPlace x.1

/-- Every entry stands under a name in a directory; it may be a link. -/
structure Grounded (t : Tree) : Prop where
  named : t.Named
  inDirectory : ∀ place name, (t.entry? (place ++ [name])).isSome → t.isDirAt place

/-- A tree without links in which each place has one entry, made of names, in a directory. -/
structure Plain (t : Tree) : Prop extends t.Grounded where
  unique : (t.entries.map Prod.fst).Nodup
  linkless : ∀ place target, t.entry? place ≠ some (.link target)

theorem entry?_nil (t : Tree) : t.entry? [] = some .directory := rfl

theorem entry?_of_ne (t : Tree) (hne : place ≠ []) : t.entry? place = t.entries.lookup place := by
  rw [ entry?, if_neg (by simpa using hne)]

theorem mem_of_entry?_eq {e : Entry} (hne : place ≠ []) (h : t.entry? place = some e) :
    (place, e) ∈ t.entries := by
  rw [entry?_of_ne _ hne] at h
  exact mem_of_lookup h

theorem isDirAt_iff : t.isDirAt place ↔ t.entry? place = some .directory := by
  rw [isDirAt, beq_iff_eq]

theorem ne_nil_of_isDirAt (h : t.isDirAt place = false) : place ≠ [] := by
  rintro rfl
  cases h

/-- What stands below a place makes it a directory. -/
theorem Grounded.isDirAt_of_below (ht : t.Grounded) (hne : rest ≠ [])
    (h : (t.entry? (place ++ rest)).isSome) : t.isDirAt place := by
  induction rest using List.reverseRecOn with
  | nil => exact absurd rfl hne
  | append_singleton rest name ih =>
    rw [← append_assoc] at h
    have hdir := ht.inDirectory _ name h
    by_cases hrest : rest = []
    · rwa [hrest, append_nil] at hdir
    · exact ih hrest (by rw [isDirAt_iff.mp hdir]; rfl)

theorem Named.isPlace (ht : t.Named) {e : Entry} (h : t.entry? place = some e) : IsPlace place := by
  by_cases hne : place = []
  · exact hne ▸ isPlace_nil
  · exact ht _ (mem_of_entry?_eq hne h)

/-- An entry stands under a name in a directory and is no link. -/
def Stands (t : Tree) (x : Place × Entry) : Prop :=
  IsPlace x.1 ∧ t.isDirAt x.1.dropLast ∧ !x.2 matches .link _
  deriving Decidable

theorem plain_of_stands (hunique : (t.entries.map Prod.fst).Nodup)
    (hstands : ∀ x ∈ t.entries, t.Stands x) : t.Plain := by
  refine ⟨⟨fun x hx => (hstands x hx).1, fun place name hsome => ?_⟩, hunique,
    fun place target he => ?_⟩
  · obtain ⟨e, he⟩ := Option.isSome_iff_exists.mp hsome
    have hstand := hstands _ (mem_of_entry?_eq (by simp) he)
    simpa using hstand.2.1
  · by_cases hne : place = []
    · rw [hne] at he
      cases he
    · exact nomatch (hstands _ (mem_of_entry?_eq hne he)).2.2

/-! ## Following clean paths -/

theorem Plain.followFrom_eq (ht : t.Plain) (links : Nat) (place : Place) {parts : Place}
    (hp : IsPlace parts) :
    t.followFrom links place parts =
      if parts = [] ∨ (t.entry? (place ++ parts)).isSome then some (place ++ parts) else none := by
  obtain ⟨onLink, hfollow⟩ := t.exists_followBy links
  rw [hfollow]
  induction parts generalizing place with
  | nil => simp [followBy]
  | cons name rest ih =>
    have hname := hp name mem_cons_self
    have hrest : IsPlace rest := fun n hn => hp n (mem_cons_of_mem name hn)
    have happ : place ++ name :: rest = place ++ [name] ++ rest := by simp
    by_cases hsome : (t.entry? (place ++ name :: rest)).isSome
    · -- something is there, so the way to it goes through directories
      have hdir := ht.isDirAt_of_below (cons_ne_nil name rest) hsome
      have hnext : ∃ e, t.entry? (place ++ [name]) = some e := by
        rw [happ] at hsome
        by_cases hr : rest = []
        · rw [hr, append_nil] at hsome
          exact isSome_iff_exists.mp hsome
        · exact ⟨_, isDirAt_iff.mp (ht.isDirAt_of_below hr hsome)⟩
      obtain ⟨e, he⟩ := hnext
      have hlink := ht.linkless (place ++ [name])
      rw [followBy, hdir, he]
      cases e with
      | link target => exact absurd he (hlink target)
      | directory | file =>
        simp only [hname.1, hname.2.1, hname.2.2.1]
        rw [ih (place ++ [name]) hrest]
        simp [hsome]
    · rw [if_neg (by simp [hsome]), followBy]
      split
      · rfl
      simp only [hname.1, hname.2.1, hname.2.2.1, Bool.false_eq_true, if_false,
        decide_false, Bool.or_self]
      split
      · rfl
      · exact absurd (by assumption) (ht.linkless _ _)
      rename_i e _ he
      rw [ih (place ++ [name]) hrest, if_neg]
      rintro (hr | hr)
      · rw [hr, he] at hsome
        simp at hsome
      · rw [← happ] at hr
        exact hsome hr

theorem Plain.real?_pathOf (ht : t.Plain) (hp : IsPlace place) :
    t.real? (pathOf place) = if (t.entry? place).isSome then some place else none := by
  have htext : (pathOf place).text ≠ "" := by simp [pathOf]
  -- the empty piece in front of the first slash stays at the root
  have hstep : ∀ parts, t.followFrom mostLinks [] ("" :: parts) = t.followFrom mostLinks [] parts :=
    fun parts => rfl
  rw [real?, if_neg htext, isAbsolute_pathOf, if_pos rfl, pieces_pathOf hp, hstep]
  split
  · subst place
    rfl
  · rename_i hne
    rw [ht.followFrom_eq _ [] hp, nil_append]
    simp only [hne, false_or]

/-- **What a clean path leads to** in a plain tree is what stands at its place. -/
theorem Plain.at?_pathOf (ht : t.Plain) (hp : IsPlace place) :
    t.at? (pathOf place) = t.entry? place := by
  rw [at?, ht.real?_pathOf hp]
  cases h : t.entry? place <;> simp [h]

def fileAt? (t : Tree) (place : Place) : Option (List UInt8) :=
  match t.entry? place with
  | some (.file bytes) => some bytes
  | _ => none

theorem fileAt?_eq_some_iff {bytes : List UInt8} :
    t.fileAt? place = some bytes ↔ t.entry? place = some (.file bytes) := by
  unfold fileAt?
  split <;> simp_all

theorem mem_entries_of_fileAt? {bytes : List UInt8} (h : t.fileAt? place = some bytes) :
    (place, .file bytes) ∈ t.entries := by
  have hentry := fileAt?_eq_some_iff.mp h
  refine mem_of_entry?_eq ?_ hentry
  rintro rfl
  cases hentry

theorem Plain.bytes?_pathOf (ht : t.Plain) (hp : IsPlace place) :
    t.bytes? (pathOf place) = t.fileAt? place := by
  rw [bytes?, ht.at?_pathOf hp]
  rfl

def texts (t : Tree) : List String :=
  t.entries.filterMap fun x =>
    match x.2 with
    | .file bytes => utf8? ⟨bytes.toArray⟩
    | _ => none

theorem mem_texts {path : Path} {text : String} (h : t.text? path = some text) :
    text ∈ t.texts := by
  obtain ⟨bytes, hbytes, htext⟩ := bind_eq_some_iff.mp h
  rw [bytes?] at hbytes
  split at hbytes
  · rename_i content hat
    obtain rfl := some.inj hbytes
    obtain ⟨place, -, hentry⟩ := bind_eq_some_iff.mp hat
    have hmem := mem_entries_of_fileAt? (fileAt?_eq_some_iff.mpr hentry)
    exact mem_filterMap.mpr ⟨_, hmem, htext⟩
  · cases hbytes

theorem isFile_eq_isSome (t : Tree) (path : Path) : t.isFile path = (t.bytes? path).isSome := by
  rw [isFile, bytes?]
  split <;> rfl

/-! ## Putting a file -/

/-- A file may stand at a place: no directory is there, and no file on the way. -/
structure CanHold (t : Tree) (place : Place) : Prop where
  isPlace : IsPlace place
  notDir : t.isDirAt place = false
  around : ∀ front rest, place = front ++ rest → rest ≠ [] →
    t.entry? front = none ∨ t.isDirAt front

theorem CanHold.ne_nil (h : t.CanHold place) : place ≠ [] := ne_nil_of_isDirAt h.notDir

theorem canHold_of_take (hp : IsPlace place) (hdir : t.isDirAt place = false)
    (haround : ∀ n < place.length,
      t.entry? (place.take n) = none ∨ t.isDirAt (place.take n)) : t.CanHold place := by
  refine ⟨hp, hdir, ?_⟩
  rintro front rest rfl hrest
  have hlen : front.length < (front ++ rest).length := by
    rw [length_append]
    have := length_pos_iff.mpr hrest
    omega
  simpa using haround front.length hlen

/-- The directories that are made on the way to a place. -/
def newDirs (t : Tree) (place : Place) : List Place :=
  ((List.range place.length).map place.take).filter fun p => (t.entry? p).isNone

theorem mem_newDirs :
    q ∈ t.newDirs place ↔ (∃ rest, place = q ++ rest ∧ rest ≠ []) ∧ t.entry? q = none := by
  rw [newDirs, mem_filter, List.mem_map, isNone_iff_eq_none]
  refine and_congr_left fun _ => ⟨?_, ?_⟩
  · rintro ⟨n, hn, rfl⟩
    refine ⟨place.drop n, (take_append_drop n place).symm, ?_⟩
    simpa using hn
  · rintro ⟨rest, rfl, hrest⟩
    refine ⟨q.length, ?_, take_left⟩
    rw [mem_range, length_append]
    have := length_pos_iff.mpr hrest
    omega

theorem not_mem_newDirs_self (t : Tree) (place : Place) : place ∉ t.newDirs place := fun h => by
  obtain ⟨⟨rest, hrest, hne⟩, -⟩ := mem_newDirs.mp h
  exact hne (append_cancel_left (hrest.symm.trans (append_nil place).symm))

theorem lookup_map_directory (dirs : List Place) (q : Place) :
    (dirs.map (·, Entry.directory)).lookup q = if q ∈ dirs then some .directory else none := by
  induction dirs with
  | nil => rfl
  | cons d dirs ih =>
    rw [map_cons, lookup_cons, ih]
    by_cases h : q = d
    · simp [h]
    · simp [h, beq_false_of_ne h]

theorem entry?_putAt (hne : place ≠ []) (e : Entry) (q : Place) :
    entry? (t.putAt place e) q = if q = place then some e
      else if q ∈ t.newDirs place then some .directory else t.entry? q := by
  by_cases hq : q = []
  · have hnew : q ∉ t.newDirs place := by
      rw [mem_newDirs, hq]
      rintro ⟨-, h⟩
      cases h
    rw [if_neg (by rw [hq]; exact hne.symm), if_neg hnew, hq, entry?_nil, entry?_nil]
  · have hentries : (t.putAt place e).entries =
        (t.entries.filter fun x => x.1 ≠ place) ++ (t.newDirs place).map (·, Entry.directory) ++
          [(place, e)] := rfl
    rw [entry?_of_ne _ hq, entry?_of_ne _ hq, hentries, lookup_append, lookup_append,
      lookup_filter_fst (fun p => decide (p ≠ place)), lookup_map_directory]
    by_cases hplace : q = place
    · simp [hplace, not_mem_newDirs_self]
    · by_cases hnew : q ∈ t.newDirs place
      · have hnone : t.entries.lookup q = none := by
          rw [← entry?_of_ne _ hq]
          exact (mem_newDirs.mp hnew).2
        simp [hplace, hnew, hnone]
      · simp [hplace, hnew, lookup_cons, beq_false_of_ne hplace]

theorem entry?_isSome_of_mem (h : place ∈ t.entries.map Prod.fst) : (t.entry? place).isSome := by
  by_cases hne : place = []
  · rw [hne]
    rfl
  obtain ⟨e, he, rfl⟩ := mem_map.mp h
  rw [entry?_of_ne _ hne, isSome_iff_ne_none]
  intro hnone
  simpa using lookup_eq_none_iff.mp hnone e he

theorem nodup_newDirs (t : Tree) (place : Place) : (t.newDirs place).Nodup := by
  refine List.Nodup.filter _ (List.Nodup.map_on ?_ nodup_range)
  intro i hi j hj hij
  rw [mem_range] at hi hj
  have := congrArg List.length hij
  rw [length_take, length_take] at this
  omega

theorem isDirAt_putAt (h : t.CanHold place) (bytes : List UInt8) (hq : t.isDirAt q) :
    (t.putAt place (.file bytes)).isDirAt q := by
  have hplace : q ≠ place := by
    rintro rfl
    rw [h.notDir] at hq
    cases hq
  rw [isDirAt_iff, entry?_putAt h.ne_nil, if_neg hplace]
  split
  · rfl
  · exact isDirAt_iff.mp hq

theorem isDirAt_putAt_around (h : t.CanHold place) (bytes : List UInt8) {front : Place}
    (hplace : place = front ++ rest) (hrest : rest ≠ []) :
    (t.putAt place (.file bytes)).isDirAt front := by
  rcases h.around front rest hplace hrest with hnone | hdir
  · have hne : front ≠ place := fun he =>
      hrest (append_cancel_left (hplace.symm.trans (he ▸ (append_nil place).symm)))
    rw [isDirAt_iff, entry?_putAt h.ne_nil, if_neg hne,
      if_pos (mem_newDirs.mpr ⟨⟨rest, hplace, hrest⟩, hnone⟩)]
  · exact isDirAt_putAt h bytes hdir

theorem Plain.putAt (ht : t.Plain) (h : t.CanHold place) (bytes : List UInt8) :
    (t.putAt place (.file bytes)).Plain := by
  have hkeys : (t.putAt place (.file bytes)).entries.map Prod.fst =
      (t.entries.filter fun x => x.1 ≠ place).map Prod.fst ++ t.newDirs place ++ [place] := by
    simp [Tree.putAt, newDirs, Function.comp_def]
  have hkept : ∀ q, q ∈ (t.entries.filter fun x => x.1 ≠ place).map Prod.fst →
      q ∈ t.entries.map Prod.fst ∧ q ≠ place := by
    intro q hq
    obtain ⟨x, hx, rfl⟩ := mem_map.mp hq
    rw [mem_filter, decide_eq_true_iff] at hx
    exact ⟨mem_map_of_mem hx.1, hx.2⟩
  refine ⟨⟨?named, ?inDirectory⟩, ?unique, ?linkless⟩
  case unique =>
    rw [hkeys, nodup_append, nodup_append]
    refine ⟨⟨ht.unique.sublist (filter_sublist.map _), t.nodup_newDirs place, ?_⟩,
      nodup_singleton place, ?_⟩
    · rintro a ha b hb rfl
      have hsome := entry?_isSome_of_mem (hkept a ha).1
      rw [(mem_newDirs.mp hb).2] at hsome
      cases hsome
    · intro a ha b hb hab
      rw [mem_singleton] at hb
      rcases mem_append.mp ha with ha | ha
      · exact (hkept a ha).2 (hab.trans hb)
      · exact t.not_mem_newDirs_self place (hab.trans hb ▸ ha)
  case named =>
    intro x hx
    rcases mem_append.mp hx with hx | hx
    · rcases mem_append.mp hx with hx | hx
      · exact ht.named x (mem_of_mem_filter hx)
      · obtain ⟨q, hq, rfl⟩ := mem_map.mp hx
        obtain ⟨⟨rest, hrest, -⟩, -⟩ := mem_newDirs.mp hq
        exact (hrest ▸ h.isPlace).of_append.1
    · exact mem_singleton.mp hx ▸ h.isPlace
  case inDirectory =>
    intro front name hsome
    rw [entry?_putAt h.ne_nil] at hsome
    split at hsome
    · rename_i hplace
      exact isDirAt_putAt_around h bytes hplace.symm (cons_ne_nil name [])
    split at hsome
    · rename_i hdirs
      obtain ⟨⟨rest, hrest, -⟩, -⟩ := mem_newDirs.mp hdirs
      rw [append_assoc] at hrest
      exact isDirAt_putAt_around h bytes hrest (by simp)
    · exact isDirAt_putAt h bytes (ht.inDirectory front name hsome)
  case linkless =>
    intro q target
    rw [entry?_putAt h.ne_nil]
    split
    · simp
    · split
      · simp
      · exact ht.linkless q target

theorem fileAt?_putAt (h : t.CanHold place) (bytes : List UInt8) (q : Place) :
    (t.putAt place (.file bytes)).fileAt? q = if q = place then some bytes else t.fileAt? q := by
  rw [fileAt?, entry?_putAt h.ne_nil]
  by_cases hplace : q = place
  · rw [if_pos hplace, if_pos hplace]
  rw [if_neg hplace, if_neg hplace]
  by_cases hnew : q ∈ t.newDirs place
  · rw [if_pos hnew, fileAt?, (mem_newDirs.mp hnew).2]
  · rw [if_neg hnew]; rfl

/-! ## Removing a file -/

/-- Where no directory stands, only the place itself is cleared. -/
theorem Plain.entry?_removeAt (ht : t.Plain) (hdir : t.isDirAt place = false) (q : Place) :
    entry? (t.removeAt place) q = if q = place then none else t.entry? q := by
  by_cases hq : q = []
  · rw [if_neg (hq ▸ (ne_nil_of_isDirAt hdir).symm), hq, entry?_nil, entry?_nil]
  have hentries : (t.removeAt place).entries =
      t.entries.filter fun x => (stripList? place x.1).isNone := rfl
  rw [entry?_of_ne _ hq, hentries, lookup_filter_fst (fun p => (stripList? place p).isNone),
    ← entry?_of_ne _ hq]
  by_cases hplace : q = place
  · have : stripList? place q = some [] := by
      rw [stripList?_eq_some_iff, hplace, append_nil]
    rw [this, if_pos hplace]
    rfl
  · rw [if_neg hplace]
    cases hstrip : stripList? place q with
    | none => rfl
    | some rest =>
      -- something below the place would make it a directory
      rw [stripList?_eq_some_iff] at hstrip
      have hrest : rest ≠ [] := fun he => hplace (by rw [hstrip, he, append_nil])
      cases hentry : t.entry? q with
      | none => rfl
      | some e =>
        have := ht.isDirAt_of_below hrest (by rw [← hstrip, hentry]; rfl)
        rw [hdir] at this
        cases this

theorem Plain.removeAt (ht : t.Plain) (hdir : t.isDirAt place = false) :
    (t.removeAt place).Plain := by
  refine ⟨⟨fun x hx => ht.named x (mem_of_mem_filter hx), ?_⟩,
    ht.unique.sublist (filter_sublist.map _), ?_⟩
  · intro front name hsome
    rw [ht.entry?_removeAt hdir] at hsome
    split at hsome
    · cases hsome
    have hfront := ht.inDirectory front name hsome
    have hne : front ≠ place := by
      rintro rfl
      rw [hdir] at hfront
      cases hfront
    rw [isDirAt_iff, ht.entry?_removeAt hdir, if_neg hne]
    exact isDirAt_iff.mp hfront
  · intro q target
    rw [ht.entry?_removeAt hdir]
    split
    · simp
    · exact ht.linkless q target

theorem Plain.isDirAt_removeAt (ht : t.Plain) (hdir : t.isDirAt place = false) (q : Place) :
    (t.removeAt place).isDirAt q = t.isDirAt q := by
  rw [isDirAt, ht.entry?_removeAt hdir]
  by_cases hplace : q = place
  · rw [if_pos hplace, hplace, hdir]; rfl
  · rw [if_neg hplace]; rfl

theorem CanHold.removeAt (ht : t.Plain) {target : Place} (hdir : t.isDirAt place = false)
    (h : t.CanHold target) : (t.removeAt place).CanHold target := by
  refine ⟨h.isPlace, by rw [ht.isDirAt_removeAt hdir, h.notDir], fun front rest htarget hrest => ?_⟩
  rw [ht.isDirAt_removeAt hdir, ht.entry?_removeAt hdir]
  refine (h.around front rest htarget hrest).imp_left fun hnone => ?_
  rw [hnone, ite_self]

theorem isDirAt_of_fileAt? (h : (t.fileAt? place).isSome) : t.isDirAt place = false := by
  obtain ⟨bytes, hbytes⟩ := isSome_iff_exists.mp h
  rw [isDirAt, fileAt?_eq_some_iff.mp hbytes]
  rfl

/-! ## Changes of files -/

/-- One tree became another by changes of the files at some places. -/
structure Changed (t u : Tree) (places : List Place) : Prop where
  plain : u.Plain
  files : ∀ q, q ∉ places → u.fileAt? q = t.fileAt? q
  directories : ∀ q, t.isDirAt q → u.isDirAt q
  working : u.working = t.working

theorem Changed.bytes?_eq (h : t.Changed u places) (ht : t.Plain) (hq : IsPlace q)
    (hout : q ∉ places) : u.bytes? (pathOf q) = t.bytes? (pathOf q) := by
  rw [h.plain.bytes?_pathOf hq, ht.bytes?_pathOf hq, h.files q hout]

theorem Changed.text?_eq (h : t.Changed u places) (ht : t.Plain) (hq : IsPlace q)
    (hout : q ∉ places) : u.text? (pathOf q) = t.text? (pathOf q) := by
  rw [text?, h.bytes?_eq ht hq hout]
  rfl

theorem Changed.trans {v : Tree} {ps qs : List Place} (h : t.Changed u ps) (h' : u.Changed v qs) :
    t.Changed v (ps ++ qs) where
  plain := h'.plain
  files q hq := by
    rw [mem_append, not_or] at hq
    rw [h'.files q hq.2, h.files q hq.1]
  directories q hq := h'.directories q (h.directories q hq)
  working := h'.working.trans h.working

theorem Changed.mono {ps qs : List Place} (h : t.Changed u ps) (hsub : ps ⊆ qs) : t.Changed u qs :=
  ⟨h.plain, fun q hq => h.files q fun hp => hq (hsub hp), h.directories, h.working⟩

theorem Plain.changed_putAt (ht : t.Plain) (h : t.CanHold place) (bytes : List UInt8) :
    t.Changed (t.putAt place (.file bytes)) [place] where
  plain := ht.putAt h bytes
  files q hq := by rw [fileAt?_putAt h, if_neg fun he => hq (mem_singleton.mpr he)]
  directories _ hq := isDirAt_putAt h bytes hq
  working := rfl

theorem Plain.changed_removeAt (ht : t.Plain) (hdir : t.isDirAt place = false) :
    t.Changed (t.removeAt place) [place] where
  plain := ht.removeAt hdir
  files q hq := by
    rw [fileAt?, ht.entry?_removeAt hdir, if_neg fun he => hq (mem_singleton.mpr he)]
    rfl
  directories _ hq := by rwa [ht.isDirAt_removeAt hdir]
  working := rfl

/-- A way that ends in a directory goes through directories. -/
theorem isDirAt_of_followBy {onLink : Place → List String → Option Place} {parts : List String}
    (h : t.followBy onLink place parts = some q) (hq : t.isDirAt q) : t.isDirAt place := by
  cases parts with
  | nil => rwa [some.inj h]
  | cons part parts =>
    rw [followBy] at h
    split at h
    · cases h
    · rename_i hplace
      simpa using hplace

theorem Changed.followFrom (ht : t.Plain) (hc : t.Changed u places) {links : Nat}
    {parts : List String} (h : t.followFrom links place parts = some q) (hq : t.isDirAt q) :
    u.followFrom links place parts = some q := by
  obtain ⟨onLink, hfollow⟩ := t.exists_followBy links
  obtain ⟨onLink', hfollow'⟩ := u.exists_followBy links
  rw [hfollow] at h
  rw [hfollow']
  induction parts generalizing place with
  | nil => exact h
  | cons part parts ih =>
    have hplace := isDirAt_of_followBy h hq
    rw [followBy, hplace] at h
    rw [followBy, hc.directories _ hplace]
    by_cases hdot : (decide (part = "") || decide (part = "."))
    · rw [if_pos hdot] at h ⊢
      exact ih h
    rw [if_neg hdot] at h ⊢
    by_cases hup : part = ".."
    · rw [if_pos hup] at h ⊢
      exact ih h
    rw [if_neg hup] at h ⊢
    cases hentry : t.entry? (place ++ [part]) with
    | none => rw [hentry] at h; cases h
    | some e =>
      have hnext : t.followBy onLink (place ++ [part]) parts = some q := by
        rw [hentry] at h
        cases e with
        | link target => exact absurd hentry (ht.linkless _ target)
        | directory | file => exact h
      -- what stands here leads to a directory, so it is one and stays one
      have hdir := hc.directories _ (isDirAt_of_followBy hnext hq)
      rw [isDirAt_iff.mp hdir]
      exact ih hnext

theorem Changed.real? (ht : t.Plain) (hc : t.Changed u places) {path : Path}
    (h : t.real? path = some q) (hq : t.isDirAt q) : u.real? path = some q := by
  rw [Tree.real?] at h ⊢
  split at h
  · cases h
  · rw [if_neg ‹_›, hc.working]
    exact hc.followFrom ht h hq

end Tree

/-! ## Edits -/

/-- A change of the files of a tree. -/
inductive Edit where
  | write (place : Place) (bytes : List UInt8)
  | delete (place : Place)
  | rename (place target : Place)

namespace Edit

/-- The tree after an edit, which names files by their clean paths. -/
def apply (t : Tree) : Edit → Tree
  | write place bytes => t.write (pathOf place) bytes
  | delete place => t.delete (pathOf place)
  | rename place target => t.rename (pathOf place) (pathOf target)

def touched : Edit → List Place
  | write place _ => [place]
  | delete place => [place]
  | rename place target => [place, target]

/-- An edit can be made: there is a file to delete or to rename, and room for the one that is put.
-/
def Possible (t : Tree) : Edit → Prop
  | write place _ => t.CanHold place
  | delete place => (t.fileAt? place).isSome
  | rename place target => (t.fileAt? place).isSome ∧ t.CanHold target

variable {t : Tree} {place target : Place} {bytes : List UInt8}

theorem stripList?_of_file (ht : t.Plain) (hfile : t.fileAt? place = some bytes)
    {q : Place} (hq : q ∈ t.entries.map Prod.fst) (hne : q ≠ place) :
    stripList? place q = none := by
  rw [eq_none_iff_forall_ne_some]
  intro rest hrest
  rw [stripList?_eq_some_iff] at hrest
  have hnil : rest ≠ [] := fun he => hne (by rw [hrest, he, append_nil])
  have hsome := entry?_isSome_of_mem hq
  have hdir := ht.isDirAt_of_below hnil (hrest ▸ hsome)
  rw [isDirAt_of_fileAt? (hfile ▸ rfl)] at hdir
  cases hdir

/-- Of a file that is renamed only its own entry is moved. -/
theorem moved_eq (ht : t.Plain) (hfile : t.fileAt? place = some bytes) :
    (t.entries.filterMap fun (p, e) => (stripList? place p).map (target ++ ·, e))
      = [(target, .file bytes)] := by
  obtain ⟨l₁, l₂, hl⟩ := append_of_mem (mem_entries_of_fileAt? hfile)
  have hunique := ht.unique
  rw [hl, map_append, map_cons, nodup_middle, nodup_cons, ← map_append] at hunique
  have hothers : ∀ p e, (p, e) ∈ l₁ ++ l₂ → stripList? place p = none := by
    intro p e he
    have hp : p ∈ (l₁ ++ l₂).map Prod.fst := mem_map_of_mem he
    refine stripList?_of_file ht hfile ?_ fun heq => hunique.1 (heq ▸ hp)
    rw [hl, map_append, map_cons, mem_append, mem_cons]
    rw [map_append, mem_append] at hp
    exact hp.imp_right .inr
  have hself : stripList? place place = some [] := by
    rw [stripList?_eq_some_iff, append_nil]
  have hnone : ∀ l : List (Place × Entry), l ⊆ l₁ ++ l₂ →
      (l.filterMap fun (p, e) => (stripList? place p).map (target ++ ·, e)) = [] := by
    intro l h
    rw [filterMap_eq_nil_iff]
    rintro ⟨p, e⟩ he
    simp [hothers p e (h he)]
  rw [hl, filterMap_append, hnone l₁ (subset_append_left l₁ l₂),
    filterMap_cons_some (b := (target, .file bytes)) (by simp [hself]),
    hnone l₂ (subset_append_right l₁ l₂), nil_append]

/-- **An edit changes nothing but the files that it touches**, and keeps the tree plain. -/
theorem changed (ht : t.Plain) {e : Edit} (h : e.Possible t) : t.Changed (e.apply t) e.touched := by
  cases e with
  | write place bytes =>
    have hput : t.write (Tree.pathOf place) bytes = t.putAt place (.file bytes) := by
      rw [Tree.write, ht.real?_pathOf h.isPlace, Path.placeOf_pathOf t h.isPlace]
      split <;> rfl
    rw [apply, hput]
    exact ht.changed_putAt h bytes
  | delete place =>
    obtain ⟨bytes, hfile⟩ := isSome_iff_exists.mp h
    have hp := ht.named.isPlace (Tree.fileAt?_eq_some_iff.mp hfile)
    rw [apply, Tree.delete, Path.placeOf_pathOf t hp]
    exact ht.changed_removeAt (Tree.isDirAt_of_fileAt? h)
  | rename place target =>
    obtain ⟨hsome, hold⟩ := h
    obtain ⟨bytes, hfile⟩ := isSome_iff_exists.mp hsome
    have hdir := isDirAt_of_fileAt? hsome
    have hold' := hold.removeAt ht hdir
    have ht' := ht.removeAt hdir
    have hp := ht.named.isPlace (Tree.fileAt?_eq_some_iff.mp hfile)
    rw [apply, Tree.rename, Path.placeOf_pathOf t hp, Path.placeOf_pathOf t hold.isPlace,
      moved_eq ht hfile]
    -- the file is taken away, what its target held is taken away, and the file is put there
    refine (((ht.changed_removeAt hdir).trans (ht'.changed_removeAt hold'.notDir)).trans
      ((ht'.removeAt hold'.notDir).changed_putAt (hold'.removeAt ht' hold'.notDir) bytes)).mono ?_
    simp [touched]

end Edit

end RouteAtlas.Files
