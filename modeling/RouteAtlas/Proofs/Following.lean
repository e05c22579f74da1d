import RouteAtlas.Proofs.RefreshedFiles

/-!
# States that follow a tree

A state follows a tree if it tracks, under every path, the text that should be tracked there: the
text of the file if the path is a source that is watched, and nothing otherwise. Edits of the tree
leave some places pending, and refreshing a place settles it. A state that was just loaded follows
its tree with nothing pending, so a state that follows the tree at all places is the one that
loading would give, versions apart.
-/

open List Option

namespace RouteAtlas.Project

open Files Source Inventory Modules Watch State
open Files.Tree (pathOf)

variable {place : Place} {extras : List Extra} {touched : Place → Prop} {s : State}

def wanted? (w : WatchSet) (t : Tree) (path : Path) : Option String :=
  if w.tracks path then t.text? path else none

def Unreadable (t : Tree) (path : Path) : Prop := t.isFile path ∧ t.text? path = none
  deriving Decidable

/-- A plain tree without ignore files whose configuration gives the watched paths `w` and whose
texts are among those that are `seen`. -/
structure Watchable (w : WatchSet) (seen : String → Prop) (t : Tree) : Prop where
  plain : t.Plain
  ruleless : t.Ruleless
  config : WatchSet.ofRoot t w.root false = w
  texts : ∀ path text, t.text? path = some text → seen text

/-- The state tracks what it should of the tree, except at places that are pending; a file that was
touched may be left as it was if it cannot be read. -/
structure Follows (w : WatchSet) (seen : String → Prop) (extras : List Extra) (t : Tree)
    (touched pending : Place → Prop) (s : State) : Prop extends s.InOrder w.root where
  extras_eq : s.graph.extras = extras
  set : w.HasRead s.set
  resolver : s.resolver = { root := w.root }
  tracked : ∀ q, IsPlace q → ∀ text, s.store.text? (pathOf q) = some text →
    w.tracks (pathOf q) ∧ seen text
  current : ∀ place, IsPlace place → ¬ pending place →
    s.store.text? (pathOf place) = wanted? w t (pathOf place) ∨
      touched place ∧ Unreadable t (pathOf place)

theorem wanted?_eq_some_iff {w : WatchSet} {t : Tree} {path : Path} {text : String} :
    wanted? w t path = some text ↔ w.tracks path ∧ t.text? path = some text := by
  rw [wanted?]
  split <;> simp [*]

namespace Follows

variable {w : WatchSet} {seen : String → Prop} {extras : List Extra} {t : Tree}
variable {places : List Place}
  {touched pending : Place → Prop} {s : State} {place : Place}
variable (h : Follows w seen extras t touched pending s)
include h

/-! ## Refreshing places -/

/-- **A place settles to what should be tracked there**, unless its file cannot be read. -/
theorem settled?_eq (ht : Watchable w seen t) (hp : IsPlace place) :
    s.settled? t (pathOf place) = wanted? w t (pathOf place) ∨
      Unreadable t (pathOf place) ∧ s.settled? t (pathOf place) = s.store.text? (pathOf place) := by
  have hwatches := h.set.watches ht.plain ht.ruleless (pathOf place)
  unfold settled?
  cases hfile : t.isFile (pathOf place) with
  | false =>
    rw [wanted?, Store.text?_eq_none hfile]
    exact .inl (ite_self _).symm
  | true =>
    cases htext : t.text? (pathOf place) with
    | none => exact .inr ⟨⟨hfile, htext⟩, rfl⟩
    | some text =>
      left
      rw [wanted?, ← hwatches, htext, Store.contains_eq]
      cases hold : s.store.text? (pathOf place) with
      | some old =>
        -- what is tracked is watched
        rw [(h.tracked place hp old hold).1, Bool.and_eq_true] at hwatches
        obtain ⟨language, hlanguage⟩ := isSome_iff_exists.mp hwatches.2
        rw [hwatches.1, hlanguage]
        rfl
      | none =>
        cases Language.ofPath? (pathOf place) <;> cases (s.set.contains t (pathOf place)).1 <;> rfl

theorem hasRead_refresh (ht : Watchable w seen t) (paths : List Path) :
    w.HasRead (s.refresh t paths).2.set := by
  obtain ⟨-, hroot, hset⟩ := @refreshEach_induction t
    (fun s => s.Paired ∧ s.store.root = w.root ∧ w.HasRead s.set) paths
    (fun path _ s hs => ⟨hs.1.refreshPath t path, by
      rw [hs.1.refreshPath_eq]
      split
      · exact hs.2
      · exact ⟨readAgain_store (motive := (·.root = w.root))
          (Store.root_upserted _ t path).trans hs.2.1,
          hs.2.2.trans (hs.2.2.1.contains ht.plain ht.ruleless (eq_false_of_ne_true ‹_›)).2⟩⟩)
    s ⟨h.paired, h.storeRoot, h.set⟩
  rw [refresh]
  split
  rename_i stats s' heq
  rw [heq] at hroot hset
  split
  · have hw : w.Unruled := ht.config ▸ WatchSet.unruled_ofRoot ht.plain ht.ruleless w.root
    have hanew : WatchSet.ofRoot t s'.root s'.set.noIgnore = w := by
      rw [root, hroot, hset.1.heeds, ht.config]
    exact hanew ▸ hw.hasRead
  · exact hset

/-- **A refresh settles the places that it reads again.** If a configuration file is among them the
watched paths are worked out anew, which gives the same ones. -/
theorem refresh (ht : Watchable w seen t) (hseen : ToldApart seen)
    (hpend : ∀ q, pending q → touched q) (hps : ∀ p ∈ places, IsPlace p) :
    Follows w seen extras t touched (fun q => pending q ∧ q ∉ places)
      (s.refresh t (places.map pathOf)).2 := by
  have hd : State.Discerns seen s t := by
    refine ⟨hseen, fun f hf => ?_, fun q _ _ text htext => ht.texts _ _ htext⟩
    obtain ⟨q, hq, -, htext⟩ := h.sound.text?_of_mem hf
    exact (h.tracked q hq f.text htext).2
  have htext := fun q (hq : IsPlace q) => text?_refresh hd h.toInOrder hps hq
  refine { h.toInOrder.refresh t hps with
    extras_eq := ?_, set := h.hasRead_refresh ht _, resolver := ?_, tracked := ?_, current := ?_ }
  · rw [(refresh_store_graph s t _).2, (h.paired.refreshEach_keeps t _).2, h.extras_eq]
  · rw [h.paired.resolver_refresh, h.resolver]
    exact ite_self _
  · intro q hq text hnew
    rw [htext q hq] at hnew
    split at hnew
    · rcases h.settled?_eq ht hq with heq | ⟨-, heq⟩ <;> rw [heq] at hnew
      · obtain ⟨htracks, htext⟩ := wanted?_eq_some_iff.mp hnew
        exact ⟨htracks, ht.texts _ _ htext⟩
      · exact h.tracked q hq text hnew
    · exact h.tracked q hq text hnew
  · intro q hq hpending
    rw [htext q hq]
    by_cases hin : q ∈ places
    · rw [if_pos hin]
      rcases h.settled?_eq ht hq with heq | ⟨hunread, heq⟩
      · exact .inl heq
      rw [heq]
      by_cases hwas : pending q
      · exact .inr ⟨hpend q hwas, hunread⟩
      · exact h.current q hq hwas
    · rw [if_neg hin]
      exact h.current q hq fun hwas => hpending ⟨hwas, hin⟩

/-! ## Edits and additions -/

theorem edit (ht : t.Plain) {u : Tree} (hc : t.Changed u places) :
    Follows w seen extras u (fun q => touched q ∨ q ∈ places)
      (fun q => pending q ∨ q ∈ places) s := by
  refine { h with current := fun q hq hpending => ?_ }
  rw [not_or] at hpending
  rw [wanted?, Unreadable, hc.text?_eq ht hq hpending.2, Tree.isFile_eq_isSome,
    hc.bytes?_eq ht hq hpending.2, ← Tree.isFile_eq_isSome]
  exact (h.current q hq hpending.1).imp_right fun hleft => ⟨.inl hleft.1, hleft.2⟩

end Follows

/-! ## Loading a project -/

variable {w : WatchSet} {seen : String → Prop} {t : Tree}

theorem isSome_text?_upserted {s : Store} {q : Place} (hs : s.Sound) (hp : IsPlace place)
    (hq : IsPlace q) (hsource : (Language.ofPath? (pathOf q)).isSome)
    (hread : (t.text? (pathOf q)).isSome)
    (h : q ≠ place → (s.text? (pathOf q)).isSome) :
    ((s.upserted t (pathOf place)).text? (pathOf q)).isSome := by
  by_cases hne : q = place
  · subst hne
    exact Store.isSome_text?_upserted_self hs.sorted hsource hread
  · rw [hs.text?_upserted_of_ne hp hq hne]
    exact h hne

/-- **Loading reads the sources that are tracked**, and nothing else. -/
theorem readWatched_follows (ht : Watchable w seen t) {entries : List SourceEntry}
    (hentries : ∀ e ∈ entries, (Language.ofPath? e.path).isSome ∧
      ∃ q, IsPlace q ∧ e.path = pathOf q) :
    ∀ {s : Store} {set : WatchSet}, s.Sound → w.HasRead set → (∀ f ∈ s.files, w.tracks f.path) →
      w.HasRead (readWatched t s set entries).2 ∧
        (∀ f ∈ (readWatched t s set entries).1.files, w.tracks f.path) ∧
        ∀ e ∈ entries, w.tracks e.path → (t.text? e.path).isSome →
          ((readWatched t s set entries).1.text? e.path).isSome := by
  induction entries with
  | nil => exact fun _ hset hfiles => ⟨hset, hfiles, fun _ he => absurd he not_mem_nil⟩
  | cons e entries ih =>
    intro s set hs hset hfiles
    obtain ⟨⟨hsource, place, hp, hpath⟩, hrest⟩ := forall_mem_cons.mp hentries
    have hwatched : (set.contains t e.path).1 = w.tracks e.path := by
      rw [← hset.watches ht.plain ht.ruleless, hsource, Bool.and_true]
    have hconfig := isConfigFile_eq_false hsource
    have hread := hset.trans (hset.1.contains ht.plain ht.ruleless hconfig).2
    have hsound : (s.upserted t e.path).Sound := hpath ▸ hs.upserted hp
    have hstep : readWatched t s set (e :: entries) =
        readWatched t (if w.tracks e.path then s.upserted t e.path else s)
          (set.contains t e.path).2 entries := by
      rw [← hwatched]
      rfl
    rw [hstep]
    split
    · rename_i htracks
      obtain ⟨hset', hfiles', hall⟩ := ih hrest hsound hread fun f hf =>
        (Store.mem_upserted hs.sorted hf).elim (hfiles f) fun hnew => hnew.1 ▸ htracks
      refine ⟨hset', hfiles', forall_mem_cons.mpr ⟨fun _ htext => ?_, hall⟩⟩
      -- once read, the file stays while the others are read
      refine (readWatched_store (motive := fun s => s.Sound ∧ (s.text? e.path).isSome)
        (fun e' he' s hs => ?_) ⟨hsound, ?_⟩).2
      · obtain ⟨-, q, hq, hpath'⟩ := hrest e' he'
        rw [hpath] at hsource htext hs ⊢
        rw [hpath']
        exact ⟨hs.1.upserted hq, isSome_text?_upserted hs.1 hq hp hsource htext fun _ => hs.2⟩
      · rw [hpath] at hsource htext ⊢
        exact isSome_text?_upserted hs hp hp hsource htext (absurd rfl)
    · rename_i htracks
      obtain ⟨hset', hfiles', hall⟩ := ih hrest hs hread hfiles
      exact ⟨hset', hfiles', forall_mem_cons.mpr ⟨fun h => absurd h htracks, hall⟩⟩

theorem mem_catalog_of_wanted? {place q : Place} (hp : IsPlace place)
    (hroot : w.root = pathOf place) (hq : IsPlace q) {text : String}
    (h : wanted? w t (pathOf q) = some text) {entries : List SourceEntry}
    (hall : ∀ rest, IsPlace rest → (t.bytes? (pathOf (place ++ rest))).isSome →
      (Language.ofPath? (pathOf (place ++ rest))).isSome →
      rest.any skippedDirs.contains = false →
      ∃ e ∈ entries, e.path = pathOf (place ++ rest)) :
    ∃ e ∈ entries, e.path = pathOf q := by
  obtain ⟨htracks, htext⟩ := wanted?_eq_some_iff.mp h
  have hsource := WatchSet.isSome_of_tracks htracks
  rw [WatchSet.tracks, hroot] at htracks
  split at htracks
  · cases htracks
  rename_i rel hbelow
  obtain ⟨rest, rfl, rfl⟩ := below?_pathOf hp hq hbelow
  rw [Bool.and_eq_true, Bool.and_eq_true, List.map_map, Bool.not_eq_true'] at htracks
  obtain ⟨bytes, hbytes, -⟩ := bind_eq_some_iff.mp htext
  have hnames : rest.map (Path.Component.text ∘ Path.Component.name) = rest := List.map_id rest
  rw [hnames] at htracks
  exact hall rest hq.of_append.2 (by rw [hbytes]; rfl) hsource htracks.1.1

/-- **A state that was just loaded follows its tree.** -/
theorem follows_load (ht : Watchable w seen t) (hp : IsPlace place)
    (hroot : w.root = pathOf place) (hdir : t.isDirAt place) :
    Follows w seen [] t (fun _ => False) (fun _ => False)
      (load t { root := w.root } false) := by
  obtain ⟨entries, hcatalog, hentries, hall⟩ := catalog_eq ht.plain ht.ruleless hp hdir
  have hw : w.Unruled := ht.config ▸ WatchSet.unruled_ofRoot ht.plain ht.ruleless w.root
  have horder : (load t { root := w.root } false).InOrder (pathOf place) :=
    inOrder_load ht.plain.named hp hroot false
  have hfrom : (load t { root := w.root } false).store.ReadFrom t :=
    readFrom_load ht.plain.named hp hroot false
  have hload : load t { root := w.root } false =
      { store := (readWatched t { root := w.root } w entries).1
        set := (readWatched t { root := w.root } w entries).2
        resolver := { root := w.root }
        graph := graphOf w.root (readWatched t { root := w.root } w entries).1.files } := by
    rw [load, ht.config, hroot, hcatalog]
    rfl
  obtain ⟨hset, hfiles, hall'⟩ := readWatched_follows ht hentries (s := { root := w.root })
    ⟨List.Pairwise.nil, fun _ h => absurd h not_mem_nil⟩ hw.hasRead
    fun _ h => absurd h not_mem_nil
  rw [← hroot] at horder
  rw [hload] at horder hfrom ⊢
  have htracked : ∀ q, IsPlace q → ∀ text,
      (readWatched t { root := w.root } w entries).1.text? (pathOf q) = some text →
        wanted? w t (pathOf q) = some text := by
    intro q hq text htext
    obtain ⟨f, hf, -⟩ := map_eq_some_iff.mp htext
    obtain ⟨hmem, hpath⟩ := (hfrom.sound.get?_eq_some_iff hq).mp hf
    exact wanted?_eq_some_iff.mpr ⟨hpath ▸ hfiles f hmem, hfrom.text?_eq hq htext⟩
  refine { horder with
    extras_eq := congrArg Graph.extras (graphOf_eq w.root hfrom.sound.sorted), set := hset
    resolver := rfl, tracked := fun q hq text htext => ?_, current := fun q hq _ => .inl ?_ }
  · obtain ⟨htracks, htext⟩ := wanted?_eq_some_iff.mp (htracked q hq text htext)
    exact ⟨htracks, ht.texts _ _ htext⟩
  · cases hwanted : wanted? w t (pathOf q) with
    | none =>
      rw [eq_none_iff_forall_ne_some]
      exact fun text htext => by cases hwanted.symm.trans (htracked q hq text htext)
    | some text =>
      obtain ⟨htracks, htext⟩ := wanted?_eq_some_iff.mp hwanted
      obtain ⟨e, he, hpath⟩ := mem_catalog_of_wanted? hp hroot hq hwanted hall
      have hsome := hall' e he (hpath ▸ htracks) (by rw [hpath, htext]; rfl)
      obtain ⟨text', htext'⟩ := isSome_iff_exists.mp (hpath ▸ hsome)
      exact htext'.trans ((htracked q hq text' htext').symm.trans hwanted)

/-! ## States that follow the same tree -/

theorem Follows.analyze_fst {pending : Place → Prop} (h : Follows w seen extras t touched pending s)
    (u : Tree) :
    (s.analyze u).1 = (((graphWith { root := w.root, extras } s.tracked).analyze
        (Resolver.resolve? u)).run { root := w.root }).1 := by
  rw [analyze, ← h.extras_eq, ← unversioned_graph h.toInOrder, Graph.analyze_unversioned,
    h.resolver]
  rfl

theorem Follows.text?_eq (h : Follows w seen extras t touched (fun _ => False) s)
    (hp : IsPlace place) (hread : touched place → ¬ Unreadable t (pathOf place)) :
    s.store.text? (pathOf place) = wanted? w t (pathOf place) :=
  (h.current place hp not_false).resolve_right fun hleft => hread hleft.1 hleft.2

/-- **Two states that follow one tree everywhere** give the same inventory, wherever modules are
looked for. -/
theorem Follows.analyze_eq {touched' : Place → Prop} {s' : State}
    (h : Follows w seen extras t touched (fun _ => False) s)
    (h' : Follows w seen extras t touched' (fun _ => False) s')
    (hread : ∀ place, touched place → ¬ Unreadable t (pathOf place))
    (hread' : ∀ place, touched' place → ¬ Unreadable t (pathOf place)) (u : Tree) :
    (s.analyze u).1 = (s'.analyze u).1 := by
  have hfiles : s.tracked = s'.tracked :=
    (tracked_eq_iff h.toInOrder h'.toInOrder).mpr fun place hp => by
      rw [h.text?_eq hp (hread place), h'.text?_eq hp (hread' place)]
  rw [h.analyze_fst, h'.analyze_fst, hfiles]

end RouteAtlas.Project
