import RouteAtlas.Proofs.Following

/-!
# Incremental analysis

A monitor that is told of changes gives the inventory that a new monitor would give. The files of a
project are written, deleted and renamed, paths are refreshed in any order and grouping, and
resources are added by hand; as long as every path that was touched is refreshed after its last
change, the inventory of the old monitor is the one of a monitor that is set up on the final tree
and given the same resources. A touched file must be readable in the end: one that is replaced by a
file that is no text keeps its old contribution.
-/

open List Option

namespace RouteAtlas.Project

open Files Source Inventory Modules Watch Tree
open Files.Tree (pathOf)

/-! ## Events -/

/-- A resource that is added to a monitor. -/
inductive Addition where
  | custom (method path handlerText : String)
  | imported (method path : String)

def Monitor.add (m : Monitor) : Addition → Monitor
  | .custom method path handlerText => m.addCustom method path handlerText
  | .imported method path => m.addImported method path

/-- What can happen to a project and its monitor: a change of files, a refresh of places by their
clean paths, and a further resource. -/
inductive Event where
  | edit (e : Edit)
  | refresh (places : List Place)
  | add (a : Addition)

/-- A file tree and a monitor of a project in it. -/
structure World where
  tree : Tree
  monitor : Monitor

variable {events : List Event} {place target : Place} {x : World} {u : Tree}

namespace Event

def apply (x : World) : Event → World
  | edit e => { x with tree := e.apply x.tree }
  | refresh places =>
    { x with monitor := (x.monitor.refreshPaths x.tree (places.map pathOf)).2 }
  | add a => { x with monitor := x.monitor.add a }

def touched : Event → List Place
  | edit e => e.touched
  | refresh _ | add _ => []

def Possible (t : Tree) : Event → Prop
  | edit e => e.Possible t
  | refresh places => ∀ place ∈ places, IsPlace place
  | add _ => True

def addition? : Event → Option Addition
  | edit _ | refresh _ => none
  | add a => some a

end Event

def World.run (x : World) (events : List Event) : World := events.foldl Event.apply x

def additions (events : List Event) : List Addition := events.filterMap Event.addition?

def touchedBy (events : List Event) : List Place := events.flatMap Event.touched

/-- A text that some file has in the course of the events. -/
def World.Shows (x : World) (events : List Event) (text : String) : Prop :=
  ∃ before path, before <+: events ∧ (x.run before).tree.text? path = some text

/-- **A course of events** that keeps a monitor informed. The tree has no links and never has ignore
files, what the root configuration includes stays the same, and the digest tells the texts apart.
Each touched place is refreshed after its last change. -/
structure Course (x : World) (events : List Event) : Prop where
  plain : x.tree.Plain
  possible : ∀ before e, before ++ [e] <+: events → e.Possible (x.run before).tree
  ruleless : ∀ before, before <+: events → (x.run before).tree.Ruleless
  steady : ∀ before, before <+: events →
    includedBy? (x.run before).tree x.monitor.root = includedBy? x.tree x.monitor.root
  toldApart : ToldApart (x.Shows events)
  refreshed : ∀ before e after, events = before ++ e :: after → ∀ place ∈ e.touched,
    ∃ places, .refresh places ∈ after ∧ place ∈ places

/-! ## Pending places -/

/-- A place that is not refreshed after an event that touches it. -/
def Pending (events : List Event) (place : Place) : Prop :=
  ∃ before e after, events = before ++ e :: after ∧ place ∈ e.touched ∧
    ∀ places, Event.refresh places ∈ after → place ∉ places

theorem Pending.touched (h : Pending events place) : place ∈ touchedBy events := by
  obtain ⟨before, e, after, rfl, hplace, -⟩ := h
  exact mem_flatMap.mpr ⟨e, by simp, hplace⟩

theorem pending_of_touched {e : Event} (h : place ∈ e.touched) : Pending (events ++ [e]) place :=
  ⟨events, e, [], rfl, h, fun _ hmem => absurd hmem not_mem_nil⟩

theorem Pending.concat {e : Event} (h : Pending events place)
    (he : ∀ places, e = .refresh places → place ∉ places) : Pending (events ++ [e]) place := by
  obtain ⟨before, e', after, rfl, hplace, hafter⟩ := h
  refine ⟨before, e', after ++ [e], by simp, hplace, fun places hmem => ?_⟩
  rcases mem_append.mp hmem with hmem | hmem
  · exact hafter places hmem
  · exact he places (mem_singleton.mp hmem).symm

theorem Course.not_pending (h : Course x events) (place : Place) : ¬ Pending events place := by
  rintro ⟨before, e, after, hevents, hplace, hafter⟩
  obtain ⟨places, hmem, hin⟩ := h.refreshed before e after hevents place hplace
  exact hafter places hmem hin

/-! ## Additions -/

/-- The further resource that an addition gives the graph. -/
def Addition.extra : Addition → Extra
  | .custom method path handlerText =>
    ⟨(Http.Method.parse? method).getD (Text.upperAscii method), Http.Pattern.join "" path, .custom,
      { text := handlerText, kind := .other }⟩
  | .imported method path =>
    ⟨(Http.Method.parse? method).getD (Text.upperAscii method), Http.Pattern.join "" path,
      .imported, { text := "", kind := .other }⟩

section Run

variable {w : WatchSet} {seen : String → Prop} {extras : List Extra} {t : Tree}
variable {m : Monitor} {root : Path}
  {touched pending : Place → Prop}

theorem Follows.add (h : Follows w seen extras t touched pending m.state) (a : Addition) :
    Follows w seen (extras ++ [a.extra]) t touched pending (m.add a).state := by
  have horder : (m.add a).state.InOrder w.root := by
    have hpaired : (m.add a).state.Paired :=
      h.paired.of_eq (by cases a <;> rfl) (by cases a <;> rfl)
    refine { hpaired with sound := ?_, storeRoot := ?_, graphRoot := ?_, resolverRoot := ?_ } <;>
      cases a
    exacts [h.sound, h.sound, h.storeRoot, h.storeRoot, h.graphRoot, h.graphRoot, h.resolverRoot,
      h.resolverRoot]
  have hextras := congrArg (· ++ [a.extra]) h.extras_eq
  cases a <;> exact { h with toInOrder := horder, extras_eq := hextras }

theorem Follows.addAll (as : List Addition) :
    ∀ {extras : List Extra} {m : Monitor}, Follows w seen extras t touched pending m.state →
      Follows w seen (extras ++ as.map Addition.extra) t touched pending
        (as.foldl Monitor.add m).state := by
  induction as with
  | nil => exact fun h => by simpa using h
  | cons a as ih =>
    intro extras m h
    rw [map_cons, append_cons]
    exact ih (h.add a)

theorem Follows.mono {touched' pending' : Place → Prop} {s : State}
    (h : Follows w seen extras t touched pending s) (ht : ∀ q, touched q → touched' q)
    (hp : ∀ q, pending q → pending' q) : Follows w seen extras t touched' pending' s :=
  { h with
    current := fun q hq hnot =>
      (h.current q hq fun hpend => hnot (hp q hpend)).imp_right fun hleft =>
        ⟨ht q hleft.1, hleft.2⟩ }

/-! ## Runs -/

/-- A clean path is absolute, so it is refreshed as it is. -/
theorem refreshPaths_state (t : Tree) (places : List Place) :
    (m.refreshPaths t (places.map pathOf)).2.state = (m.state.refresh t (places.map pathOf)).2 := by
  have hjoin : ∀ path ∈ places.map pathOf, m.root.join path.text = path := by
    intro path hpath
    obtain ⟨place, -, rfl⟩ := List.mem_map.mp hpath
    have habs : ((pathOf place).text.toList.head? == some '/') := isAbsolute_pathOf place
    rw [Path.join, habs]
    rfl
  rw [Monitor.refreshPaths, map_congr_left hjoin, List.map_id']

theorem run_concat (events : List Event) (e : Event) :
    x.run (events ++ [e]) = e.apply (x.run events) := by
  rw [World.run, foldl_append]
  rfl

/-- The root stays a directory. -/
structure Rooted (root : Path) (place : Place) (t : Tree) : Prop where
  plain : t.Plain
  real : t.real? root = some place
  isDir : t.isDirAt place

theorem Rooted.edit {place : Place} (h : Rooted root place t) {u : Tree} {places : List Place}
    (hc : t.Changed u places) : Rooted root place u :=
  ⟨hc.plain, hc.real? h.plain h.real h.isDir, hc.directories _ h.isDir⟩

/-- **One event**: a state that follows the tree goes on following it, with the places that the
event touches pending and those that it refreshes settled. -/
theorem Follows.step {x : World} {events : List Event} {e : Event}
    (h : Follows w seen extras x.tree (· ∈ touchedBy events) (Pending events) x.monitor.state)
    (ht : Watchable w seen x.tree) (hseen : ToldApart seen) (hpossible : e.Possible x.tree) :
    Follows w seen (extras ++ e.addition?.toList.map Addition.extra) (e.apply x).tree
      (· ∈ touchedBy (events ++ [e])) (Pending (events ++ [e])) (e.apply x).monitor.state := by
  have htouched : ∀ q, q ∈ touchedBy events ∨ q ∈ e.touched ↔ q ∈ touchedBy (events ++ [e]) := by
    simp [touchedBy]
  cases e with
  | edit e =>
    rw [Event.addition?, toList_none, map_nil, append_nil]
    refine (h.edit ht.plain (Edit.changed ht.plain hpossible)).mono (fun q => (htouched q).mp) ?_
    rintro q (hq | hq)
    · exact hq.concat fun _ he => by cases he
    · exact pending_of_touched hq
  | refresh places =>
    rw [Event.addition?, toList_none, map_nil, append_nil]
    have hs := h.refresh ht hseen (fun q hq => hq.touched) hpossible
    rw [← refreshPaths_state] at hs
    refine hs.mono (fun q hq => (htouched q).mp (.inl hq)) fun q hq => hq.1.concat fun ps he => ?_
    cases he
    exact hq.2
  | add a =>
    refine (h.add a).mono (fun q hq => (htouched q).mp (.inl hq)) fun q hq => ?_
    exact hq.concat fun _ he => by cases he

/-- **A whole course**: after each of its beginnings the state follows the tree. -/
theorem Course.follows {x : World} {events : List Event} (h : Course x events) {place : Place}
    (hp : IsPlace place) (hroot : Rooted root place x.tree)
    (hstate : x.monitor.state = .load x.tree { root := pathOf place } false)
    {before : List Event} (hbefore : before <+: events) :
    Rooted root place (x.run before).tree ∧
    Watchable (.ofRoot x.tree (pathOf place) false) (x.Shows events) (x.run before).tree ∧
      Follows (.ofRoot x.tree (pathOf place) false) (x.Shows events)
        ((additions before).map Addition.extra) (x.run before).tree (· ∈ touchedBy before)
        (Pending before) (x.run before).monitor.state := by
  have hmonitor : x.monitor.root = pathOf place := by
    rw [Monitor.root, hstate, State.root_load]
  have hwatchable : ∀ before, before <+: events → (x.run before).tree.Plain →
      Watchable (.ofRoot x.tree (pathOf place) false) (x.Shows events) (x.run before).tree := by
    intro before hbefore hplain
    refine ⟨hplain, h.ruleless before hbefore, ?_, fun path text htext =>
      ⟨before, path, hbefore, htext⟩⟩
    have hsteady := h.steady before hbefore
    rw [hmonitor] at hsteady
    have hexclude : ∀ u : Tree, u.Plain → u.Ruleless → Ignore.Rules.ofFile u (pathOf place)
        ((pathOf place).join ".git/info/exclude") = ⟨pathOf place, []⟩ :=
      fun u hu hr => hr.ofFile_eq hu _ (by decide)
    simp [WatchSet.ofRoot, hsteady, hexclude _ hplain (h.ruleless before hbefore),
      hexclude _ h.plain (h.ruleless [] nil_prefix)]
  induction before using List.reverseRecOn with
  | nil =>
    have hw := hwatchable [] hbefore h.plain
    refine ⟨hroot, hw, ?_⟩
    have hload := follows_load hw hp rfl hroot.isDir
    rw [show (x.run []).monitor.state = _ from hstate]
    exact hload.mono (fun _ => False.elim) fun _ => False.elim
  | append_singleton before e ih =>
    obtain ⟨hrooted, hw, hfollows⟩ := ih ((prefix_append before [e]).trans hbefore)
    have hpossible := h.possible before e hbefore
    have hrooted' : Rooted root place (x.run (before ++ [e])).tree := by
      rw [run_concat]
      cases e with
      | edit e => exact hrooted.edit (Edit.changed hrooted.plain hpossible)
      | refresh places => exact hrooted
      | add a => exact hrooted
    refine ⟨hrooted', hwatchable _ hbefore hrooted'.plain, ?_⟩
    have hstep := hfollows.step hw h.toldApart hpossible
    rw [run_concat, additions, filterMap_append, map_append]
    cases e <;> exact hstep

theorem setUp_eq_ok_iff {t : Tree} {noIgnore : Bool} :
    Monitor.setUp t root noIgnore = .ok m ↔ ∃ place, t.real? root = some place ∧ t.isDirAt place ∧
        m = { state := .load t { root := pathOf place } noIgnore } := by
  have hsettled : ∀ place, t.real? root = some place → t.settled root = pathOf place := by
    intro place hreal
    rw [settled, canonical?, hreal]
    rfl
  rw [Monitor.setUp]
  constructor
  · intro h
    split at h
    · cases h
    split at h
    · cases h
    rename_i hdir
    rw [Bool.not_eq_true, Bool.not_eq_false', isDir, beq_iff_eq] at hdir
    obtain ⟨place, hreal, hentry⟩ := bind_eq_some_iff.mp hdir
    rw [hsettled place hreal] at h
    exact ⟨place, hreal, isDirAt_iff.mpr hentry, (Except.ok.inj h).symm⟩
  · rintro ⟨place, hreal, hdir, rfl⟩
    have hat : t.at? root = some .directory := by
      rw [at?, hreal]
      exact isDirAt_iff.mp hdir
    rw [Tree.holds, isDir, hat, hsettled place hreal]
    rfl

theorem setUp_eq_ok {t : Tree} (ht : t.Plain) :
    Monitor.setUp t root false = .ok m ↔ ∃ place, IsPlace place ∧ Rooted root place t ∧
        m = { state := .load t { root := pathOf place } false } := by
  rw [setUp_eq_ok_iff]
  refine exists_congr fun place => ⟨?_, ?_⟩
  · rintro ⟨hreal, hdir, hm⟩
    exact ⟨ht.named.isPlace (isDirAt_iff.mp hdir), ⟨ht, hreal, hdir⟩, hm⟩
  · rintro ⟨-, hroot, hm⟩
    exact ⟨hroot.real, hroot.isDir, hm⟩

end Run

/-! ## A file that replaces another -/

/-- One file takes the place of another, and both places are refreshed. -/
def replacement (place target : Place) : List Event :=
  [.edit (.rename place target), .refresh [target, place]]

theorem course_replacement (hu : (Edit.rename place target).apply x.tree = u)
    (hplain : x.tree.Plain) (hpossible : (Edit.rename place target).Possible x.tree)
    (hruleless : x.tree.Ruleless) (hruleless' : u.Ruleless)
    (hsteady : includedBy? u x.monitor.root = includedBy? x.tree x.monitor.root)
    (htold : ToldApart (· ∈ x.tree.texts ++ u.texts)) : Course x (replacement place target) := by
  have hbefore : ∀ before, before <+: replacement place target →
      (x.run before).tree = x.tree ∨ (x.run before).tree = u := by
    intro before h
    simp only [replacement, prefix_cons_iff, prefix_nil] at h
    rcases h with rfl | ⟨_, rfl, rfl | ⟨_, rfl, rfl⟩⟩
    · exact .inl rfl
    · exact .inr hu
    · exact .inr hu
  have hplace : IsPlace place := by
    obtain ⟨bytes, hfile⟩ := isSome_iff_exists.mp hpossible.1
    exact hplain.named.isPlace (fileAt?_eq_some_iff.mp hfile)
  constructor
  case plain => exact hplain
  case possible =>
    rintro before e ⟨after, h⟩
    rcases before with _ | ⟨_, _ | ⟨_, before⟩⟩
    · cases h
      exact hpossible
    · cases h
      intro q hq
      rcases mem_cons.mp hq with rfl | hq
      · exact hpossible.2.isPlace
      · exact mem_singleton.mp hq ▸ hplace
    · simp [replacement] at h
  case ruleless =>
    intro before h
    rcases hbefore before h with h | h <;> rw [h]
    · exact hruleless
    · exact hruleless'
  case steady =>
    intro before h
    rcases hbefore before h with h | h <;> rw [h]
    exact hsteady
  case toldApart =>
    have hshown : ∀ text, x.Shows (replacement place target) text →
        text ∈ x.tree.texts ++ u.texts := by
      rintro text ⟨before, path, h, htext⟩
      have hmem := mem_texts htext
      rcases hbefore before h with h | h <;> rw [h] at hmem
      · exact mem_append_left _ hmem
      · exact mem_append_right _ hmem
    exact fun a b ha hb => htold a b (hshown a ha) (hshown b hb)
  case refreshed =>
    intro before e after h q hq
    rcases before with _ | ⟨_, _ | ⟨_, before⟩⟩
    · cases h
      simpa [Event.touched, Edit.touched, or_comm] using hq
    · cases h
      exact absurd hq not_mem_nil
    · simp [replacement] at h

/-! ### Two files of a project, one of them no text -/

namespace Replaced

variable {u : Tree}

def text : String :=
  "import \x7b Hono \x7d from \"hono\";\nexport const app = new Hono();\napp.get(\"/x\", h);\n"

def source : Place := ["p", "src", "a.ts"]

def broken : Place := ["p", "src", "b.ts"]

def treeOf (files : List (Place × Files.Entry)) : Tree :=
  { entries := (["p"], .directory) :: (["p", "src"], .directory) :: files }

def tree : Tree := treeOf [(source, .file text.toUTF8.toList), (broken, .file [0xff])]

def overwritten : Tree := treeOf [(source, .file [0xff])]

/-- The project after the source has moved over the other file. -/
def moved : Tree := treeOf [(broken, .file text.toUTF8.toList)]

def monitor : Monitor := { state := .load tree { root := pathOf ["p"] } false }

theorem tree_plain : tree.Plain := plain_of_stands (by decide) (by decide)

theorem rooted_tree : Rooted ⟨"/p"⟩ ["p"] tree := ⟨tree_plain, by decide, by decide⟩

theorem setUp_tree : Monitor.setUp tree ⟨"/p"⟩ false = .ok monitor :=
  (setUp_eq_ok tree_plain).mpr ⟨["p"], by decide, rooted_tree, rfl⟩

theorem rename_broken : (Edit.rename broken source).apply tree = overwritten := by decide

theorem replaced_facts :
    (Edit.rename source broken).apply tree = moved ∧
    (∀ u ∈ [tree, overwritten, moved], (includedBy? u (pathOf ["p"])).isNone) ∧
    ∀ u ∈ [tree, overwritten, moved], ∀ content ∈ u.texts, content = text := by
  decide +kernel

theorem rename_source : (Edit.rename source broken).apply tree = moved := replaced_facts.1

theorem course {place target : Place} (hu : (Edit.rename place target).apply tree = u)
    (hpossible : (Edit.rename place target).Possible tree) (hruleless : u.Ruleless)
    (hmem : u ∈ [tree, overwritten, moved]) :
    Course ⟨tree, monitor⟩ (replacement place target) := by
  obtain ⟨-, hincluded, htexts⟩ := replaced_facts
  have hroot : monitor.root = pathOf ["p"] := State.root_load _ _ _
  have htree : tree ∈ [tree, overwritten, moved] := mem_cons_self
  refine course_replacement hu tree_plain hpossible (by decide) hruleless ?_ ?_
  · rw [hroot, isNone_iff_eq_none.mp (hincluded u hmem),
      isNone_iff_eq_none.mp (hincluded tree htree)]
  · have hone : ∀ content ∈ tree.texts ++ u.texts, content = text := fun content hcontent =>
      (mem_append.mp hcontent).elim (htexts tree htree content) (htexts u hmem content)
    exact fun a b ha hb _ => (hone a ha).trans (hone b hb).symm

theorem course_broken : Course ⟨tree, monitor⟩ (replacement broken source) :=
  course rename_broken ⟨by decide, canHold_of_take (by decide) (by decide) (by decide)⟩ (by decide)
    (by simp)

theorem course_source : Course ⟨tree, monitor⟩ (replacement source broken) :=
  course rename_source ⟨by decide, canHold_of_take (by decide) (by decide) (by decide)⟩ (by decide)
    (by simp)

end Replaced

/-! ## The inventory -/

/-- **Incremental analysis equals analysis from scratch.** After a course of events in which every
touched place ends without a file or with one that can be read, a new monitor can be set up, and
with the same resources added it gives the inventory of the old one. -/
theorem findRoutes_eq_fresh {t : Tree} {root : Path} {m : Monitor} {events : List Event}
    (hm : Monitor.setUp t root false = .ok m) (h : Course ⟨t, m⟩ events)
    (hread : ∀ place ∈ touchedBy events,
      ¬ Unreadable (World.run ⟨t, m⟩ events).tree (Tree.pathOf place)) :
    ∃ fresh, Monitor.setUp (World.run ⟨t, m⟩ events).tree root false = .ok fresh ∧
      ((World.run ⟨t, m⟩ events).monitor.findRoutes (World.run ⟨t, m⟩ events).tree).1 =
        (((additions events).foldl Monitor.add fresh).findRoutes
          (World.run ⟨t, m⟩ events).tree).1 := by
  obtain ⟨place, hp, hroot, hstate⟩ := (setUp_eq_ok h.plain).mp hm
  obtain ⟨hrooted, hw, hfollows⟩ :=
    h.follows hp hroot (congrArg Monitor.state hstate) (prefix_refl events)
  refine ⟨_, (setUp_eq_ok hrooted.plain).mpr ⟨place, hp, hrooted, rfl⟩, ?_⟩
  -- a new monitor follows the final tree as well, and nothing is pending for either
  have hload := follows_load hw hp rfl hrooted.isDir
  have hfresh := Follows.addAll (additions events)
    (show Follows _ _ _ _ _ _ (Monitor.mk (.load _ _ _) none false none).state from hload)
  rw [nil_append] at hfresh
  exact (hfollows.mono (fun _ hq => hq) fun q hq => h.not_pending q hq).analyze_eq hfresh
    hread (fun _ hq => hq.elim) _

open Replaced in
/-- A source that moves over a file that is no text. -/
theorem findRoutes_eq_fresh_moved :
    Monitor.setUp tree ⟨"/p"⟩ false = .ok monitor ∧
    Course ⟨tree, monitor⟩ (replacement source broken) ∧
    (World.run ⟨tree, monitor⟩ (replacement source broken)).tree = moved ∧
    (∀ place ∈ touchedBy (replacement source broken), ¬ Unreadable moved (Tree.pathOf place)) ∧
    ∃ fresh, Monitor.setUp moved ⟨"/p"⟩ false = .ok fresh ∧
      ((World.run ⟨tree, monitor⟩ (replacement source broken)).monitor.findRoutes moved).1 =
        (fresh.findRoutes moved).1 := by
  have htree : (World.run ⟨tree, monitor⟩ (replacement source broken)).tree = moved :=
    rename_source
  have hread : ∀ place ∈ touchedBy (replacement source broken),
      ¬ Unreadable moved (pathOf place) := by
    decide +kernel
  refine ⟨setUp_tree, course_source, htree, hread, ?_⟩
  have h := findRoutes_eq_fresh setUp_tree course_source (htree ▸ hread)
  rw [htree] at h
  exact h

open Replaced in
/-- **A source that is replaced by a file that is no text** stays in the inventory, although both
places are refreshed and a new monitor finds nothing. -/
theorem findRoutes_keeps_replaced :
    Monitor.setUp tree ⟨"/p"⟩ false = .ok monitor ∧
    Course ⟨tree, monitor⟩ (replacement broken source) ∧
    (World.run ⟨tree, monitor⟩ (replacement broken source)).tree = overwritten ∧
    (((World.run ⟨tree, monitor⟩ (replacement broken source)).monitor.findRoutes
      overwritten).1.resources.map fun r => (r.method, r.path)) = [("GET", "/x")] ∧
    ∃ fresh, Monitor.setUp overwritten ⟨"/p"⟩ false = .ok fresh ∧
      (fresh.findRoutes overwritten).1.resources = [] := by
  have hplain : overwritten.Plain := Tree.plain_of_stands (by decide) (by decide)
  have hrooted : Rooted ⟨"/p"⟩ ["p"] overwritten := ⟨hplain, by decide, by decide⟩
  exact ⟨setUp_tree, course_broken, rename_broken, by decide +kernel, _,
    (setUp_eq_ok hplain).mpr ⟨["p"], by decide, hrooted, rfl⟩, by decide +kernel⟩

end RouteAtlas.Project
