import Mathlib.Data.List.Forall2
import RouteAtlas.Modules.Resolver
import RouteAtlas.Proofs.ConfigChains
import RouteAtlas.Proofs.DirectoriesAbove

/-!
# Spellings of a directory

Two texts may name one directory, as `a/b` and `a/./b` do. What is written behind them leads to the
same place in every file tree, so whatever is looked up from the directory is the same, and the
paths that are given out differ in their spelling only.

Results:
* `Files.Tree.real?_respelled`: the same text behind two spellings of a directory is one place.
* `Modules.Resolver.lookUp_same`: a directory has one configuration, however it is spelled.
* `Modules.Resolver.bareFile?_same`: configurations that differ in their spelling lead to the same
  files.
-/

open List

namespace RouteAtlas

open Files

/-! ## Results that differ in their spelling -/

section Related

variable {α β γ δ : Type} {R : α → β → Prop} {S : γ → δ → Prop} {xs : List α} {ys : List β}

theorem rel_head? (h : Forall₂ R xs ys) : Option.Rel R xs.head? ys.head? := by
  cases h with
  | nil => exact .none
  | cons h _ => exact .some h

theorem rel_find? {f : α → Bool} {g : β → Bool} (h : Forall₂ R xs ys)
    (hfg : ∀ x y, R x y → f x = g y) : Option.Rel R (xs.find? f) (ys.find? g) := by
  rw [← head?_filter, ← head?_filter]
  exact rel_head? (rel_filter (fun x y hxy => Bool.eq_iff_iff.mp (hfg x y hxy)) h)

theorem rel_findSome? {f : α → Option γ} {g : β → Option δ} (h : Forall₂ R xs ys)
    (hfg : ∀ x y, R x y → Option.Rel S (f x) (g y)) :
    Option.Rel S (xs.findSome? f) (ys.findSome? g) := by
  rw [← head?_filterMap, ← head?_filterMap]
  exact rel_head? (rel_filterMap (fun x y => hfg x y) h)

theorem rel_orElse {a c : Option γ} {b d : Option δ} (h : Option.Rel S a b)
    (h' : Option.Rel S c d) : Option.Rel S (a <|> c) (b <|> d) := by
  cases h with
  | none => exact h'
  | some hrel => exact .some hrel

theorem rel_bind {a : Option α} {b : Option β} {f : α → Option γ} {g : β → Option δ}
    (h : Option.Rel R a b) (hfg : ∀ x y, R x y → Option.Rel S (f x) (g y)) :
    Option.Rel S (a.bind f) (b.bind g) := by
  cases h with
  | none => exact .none
  | some h => exact hfg _ _ h

theorem rel_getD {a : Option α} {b : Option β} {x : α} {y : β} (h : Option.Rel R a b)
    (hxy : R x y) : R (a.getD x) (b.getD y) := by
  cases h with
  | none => exact hxy
  | some h => exact h

theorem rel_self {R : α → α → Prop} (hR : ∀ x, R x x) : ∀ a : Option α, Option.Rel R a a
  | none => .none
  | some x => .some (hR x)

theorem exists_of_rel_some {x : α} {b : Option β} (h : Option.Rel R (some x) b) :
    ∃ y, b = some y ∧ R x y := by
  cases h with
  | some h => exact ⟨_, rfl, h⟩

end Related

namespace Path

variable {p q : Path}

/-! ## The same text behind two spellings -/

theorem components_of_same (h : p.same q) : p.components = q.components := eq_of_beq h

theorem same_of_components (h : p.components = q.components) : p.same q := beq_iff_eq.mpr h

theorem clean_of_same (h : p.same q) : p.clean = q.clean := by
  rw [clean, clean, components_of_same h]

theorem isAbsolute_iff_components : p.isAbsolute ↔ p.components.head? = some .root := by
  refine ⟨fun h => by rw [components_of_isAbsolute h]; rfl, fun h => ?_⟩
  obtain ⟨cs, hcs⟩ := head?_eq_some_iff.mp h
  exact (isAbsolute_of_components hcs).1

/-- The steps are the components without the root or the dot in front. -/
theorem steps_eq_filter (p : Path) :
    p.steps = p.components.filter fun c => c != .root && c != .current := by
  have hsteps : p.steps.filter (fun c => c != .root && c != .current) = p.steps := by
    refine filter_eq_self.mpr fun c hc => ?_
    have hstep := isStep_of_mem_steps hc
    cases c with
    | root | current => cases hstep
    | parent | name => rfl
  rw [components_eq, filter_append, hsteps, lead]
  split
  · rfl
  · split <;> rfl

theorem text_eq_empty_iff : p.text = "" ↔ p.components = [] := by
  refine ⟨fun h => by rw [components, isAbsolute, h]; rfl, fun h => ?_⟩
  rw [components_eq, append_eq_nil_iff] at h
  by_contra hne
  obtain ⟨c, cs, hcs⟩ := exists_cons_of_ne_nil (l := p.text.toList) (by simpa using hne)
  by_cases hc : c = '/'
  · have habs : p.isAbsolute := by simp [isAbsolute, hcs, hc]
    simp [lead, habs] at h
  · -- the first part has a character, so it is a step or the dot in front
    have hfirst : ∃ w parts, Text.pieces '/' p.text = String.ofList (c :: w) :: parts := by
      rw [Text.pieces, hcs, Text.piecesBy, if_neg (by simpa using hc)]
      split <;> exact ⟨_, _, rfl⟩
    obtain ⟨w, parts, hparts⟩ := hfirst
    have hnone := filterMap_eq_nil_iff.mp h.2 _ (hparts ▸ mem_cons_self)
    rcases Component.ofPart?_eq_none_iff.mp hnone with hblank | hdot
    · simp at hblank
    · have hlead := h.1
      rw [lead, hparts, hdot] at hlead
      split at hlead <;> cases hlead

/-- The same text behind two spellings of one directory. -/
inductive Respelled : Path → Path → Prop
  | refl (p : Path) : Respelled p p
  | behind {a b : String} (h : same ⟨a ++ "/"⟩ ⟨b ++ "/"⟩) (rel : String) :
    Respelled ⟨a ++ "/" ++ rel⟩ ⟨b ++ "/" ++ rel⟩

theorem exists_join_eq (hp : p.text ≠ "") {rel : String} (hrel : rel.toList.head? ≠ some '/') :
    ∃ a, p.join rel = ⟨a ++ "/" ++ rel⟩ ∧ components ⟨a ++ "/"⟩ = p.components := by
  rw [join, if_neg (by simp [hp, hrel])]
  split
  · rename_i hlast
    obtain ⟨front, hfront⟩ := getLast?_eq_some_iff.mp (eq_of_beq hlast)
    have htext : p.text = String.ofList front ++ "/" := String.toList_inj.mp (by simp [hfront])
    exact ⟨String.ofList front, by rw [htext], by rw [← htext]⟩
  · exact ⟨p.text, rfl, components_slash hp⟩

theorem respelled_join (h : p.same q) (rel : String) : (p.join rel).Respelled (q.join rel) := by
  by_cases hrel : rel.toList.head? = some '/'
  · simp only [join, hrel, beq_self_eq_true, Bool.true_or, if_true]
    exact .refl _
  by_cases hp : p.text = ""
  · have hq : q.text = "" := by rwa [text_eq_empty_iff, ← components_of_same h, ← text_eq_empty_iff]
    rw [join, join, hp, hq]
    exact .refl _
  · have hq : q.text ≠ "" := by
      rwa [Ne, text_eq_empty_iff, ← components_of_same h, ← text_eq_empty_iff]
    obtain ⟨a, ha, hacomps⟩ := exists_join_eq hp hrel
    obtain ⟨b, hb, hbcomps⟩ := exists_join_eq hq hrel
    rw [ha, hb]
    exact .behind (same_of_components (by rw [hacomps, hbcomps, components_of_same h])) rel

/-- The paths above two spellings of a path are spellings of one path. -/
theorem parent?_of_same (h : p.same q) :
    Option.Rel (fun a b => a.same b = true) p.parent? q.parent? := by
  have hsome : p.parent?.isSome = q.parent?.isSome := by
    unfold parent?
    rw [components_of_same h]
    split <;> rfl
  cases hp : p.parent? <;> cases hq : q.parent? <;> rw [hp, hq] at hsome
  · exact .none
  · cases hsome
  · cases hsome
  · obtain ⟨last, ha⟩ := components_parent? hp
    obtain ⟨last', hb⟩ := components_parent? hq
    rw [components_of_same h, hb] at ha
    exact .some (same_of_components (append_inj' ha rfl).1.symm)

theorem up?_of_same : ∀ (n : Nat) {p q : Path}, p.same q →
    Option.Rel (fun a b => a.same b = true) (p.up? n) (q.up? n)
  | 0, _, _, h => .some h
  | n + 1, _, _, h => rel_bind (parent?_of_same h) fun _ _ => up?_of_same n

namespace Respelled

theorem same (h : p.Respelled q) : p.same q := by
  cases h with
  | refl => exact beq_self_eq_true _
  | behind h rel =>
    refine same_of_components ?_
    rw [components_slash_append, components_slash_append, components_of_same h]

theorem append (h : p.Respelled q) (tail : String) :
    Respelled ⟨p.text ++ tail⟩ ⟨q.text ++ tail⟩ := by
  cases h with
  | refl => exact .refl _
  | behind h rel =>
    have hassoc (s : String) : s ++ "/" ++ rel ++ tail = s ++ "/" ++ (rel ++ tail) :=
      String.append_assoc
    simp only [hassoc]
    exact .behind h _

theorem addExtension (h : p.Respelled q) (ext : String) :
    (p.addExtension ext).Respelled (q.addExtension ext) := by
  have hcomponents := components_of_same h.same
  have hname : p.fileName? = q.fileName? := by rw [fileName?, fileName?, hcomponents]
  unfold Path.addExtension
  rw [hname]
  split
  · exact h
  · rename_i name hq
    have hlast : q.components.getLast? = some (.name name) := by
      unfold fileName? at hq
      split at hq
      · rename_i hlast
        rw [hlast, Option.some.inj hq]
      · cases hq
    obtain ⟨front, hp, -, hfront, hpcomps⟩ := exists_trimmed_eq (hcomponents ▸ hlast) (by simp)
    obtain ⟨front', hq, -, hfront', hqcomps⟩ := exists_trimmed_eq hlast (by simp)
    have hsame : components ⟨front⟩ = components ⟨front'⟩ := by
      rw [hpcomps, hqcomps] at hcomponents
      exact (append_inj' hcomponents rfl).1
    have htext : (Path.mk (front ++ name)).Respelled ⟨front' ++ name⟩ := by
      rcases hfront with rfl | ⟨a, rfl⟩ <;> rcases hfront' with rfl | ⟨b, rfl⟩
      · exact .refl _
      · exact absurd (text_eq_empty_iff.mpr (hsame.symm.trans rfl)) (by simp)
      · exact absurd (text_eq_empty_iff.mpr (hsame.trans rfl)) (by simp)
      · exact .behind (same_of_components hsame) name
    rw [trimmed] at hp hq
    simp only [hp, hq, reverse_reverse, String.ofList_toList, Component.text]
    exact (htext.append ".").append ext

theorem extensions (h : p.Respelled q) (exts : List String) :
    Forall₂ Respelled (exts.map fun ext => ⟨p.text ++ "." ++ ext⟩)
      (exts.map fun ext => ⟨q.text ++ "." ++ ext⟩) := by
  rw [forall₂_map_left_iff, forall₂_map_right_iff, forall₂_same]
  exact fun ext _ => (h.append ".").append ext

end Respelled

end Path

/-! ## Look-ups -/

namespace Files.Tree

variable {t : Tree} {p q : Path} {part : String} {rest : List String}

/-- A part that stays where it is does nothing in front of others. -/
theorem followBy_idle {onLink : Place → List String → Option Place}
    (hpart : Path.Component.ofPart? part = none) (hrest : rest ≠ [])
    (honLink : ∀ place ws, onLink place (ws ++ part :: rest) = onLink place (ws ++ rest))
    (ws : List String) (place : Place) :
    t.followBy onLink place (ws ++ part :: rest) = t.followBy onLink place (ws ++ rest) := by
  induction ws generalizing place with
  | nil =>
    obtain ⟨next, others, rfl⟩ := exists_cons_of_ne_nil hrest
    have hidle : (decide (part = "") || decide (part = ".")) = true := by
      simpa using Path.Component.ofPart?_eq_none_iff.mp hpart
    rw [nil_append, nil_append, followBy, if_pos hidle]
    cases hdir : t.isDirAt place with
    | true => rfl
    | false => rw [followBy, hdir]; rfl
  | cons w ws ih =>
    rw [cons_append, cons_append, followBy, followBy]
    simp only [ih, ← append_assoc, honLink]

theorem followFrom_idle (hpart : Path.Component.ofPart? part = none) (hrest : rest ≠ [])
    (links : Nat) : ∀ place ws, t.followFrom links place (ws ++ part :: rest) =
      t.followFrom links place (ws ++ rest) := by
  induction links with
  | zero => exact fun place ws => followBy_idle hpart hrest (fun _ _ => rfl) ws place
  | succ links ih => exact fun place ws => followBy_idle hpart hrest ih ws place

/-- **Only the parts that lead somewhere matter** in front of others. -/
theorem followFrom_filter (hrest : rest ≠ []) (links : Nat) (place : Place) (parts : List String) :
    ∀ ws, t.followFrom links place (ws ++ (parts ++ rest)) = t.followFrom links place
      (ws ++ (parts.filter (fun part => (Path.Component.ofPart? part).isSome) ++ rest)) := by
  induction parts with
  | nil => exact fun _ => rfl
  | cons part parts ih =>
    intro ws
    cases hpart : Path.Component.ofPart? part with
    | none =>
      rw [filter_cons_of_neg (by simp [hpart]), cons_append,
        followFrom_idle hpart (append_ne_nil_of_right_ne_nil _ hrest)]
      exact ih ws
    | some c =>
      rw [filter_cons_of_pos (by simp [hpart])]
      simpa using ih (ws ++ [part])

/-- The parts that lead somewhere are the texts of the steps. -/
theorem filter_pieces (p : Path) :
    (Text.pieces '/' p.text).filter (fun part => (Path.Component.ofPart? part).isSome) =
      p.steps.map Path.Component.text := by
  rw [Path.steps, map_filterMap, ← filterMap_eq_filter]
  refine filterMap_congr fun part _ => ?_
  cases h : Path.Component.ofPart? part with
  | none => simp [Option.guard, h]
  | some c => simp [Option.guard, h, Path.Component.text_of_ofPart? h]

/-- **The same text behind two spellings of a directory leads to one place.** -/
theorem real?_respelled (h : p.Respelled q) : t.real? p = t.real? q := by
  have habs : p.isAbsolute = q.isAbsolute := by
    rw [Bool.eq_iff_iff, Path.isAbsolute_iff_components, Path.isAbsolute_iff_components,
      Path.components_of_same h.same]
  cases h with
  | refl => rfl
  | @behind a b h rel =>
    have hne : ∀ s : String, s ++ "/" ++ rel ≠ "" := by simp
    have hslash : ∀ s : String, Path.steps ⟨s ++ "/"⟩ = Path.steps ⟨s⟩ := fun s => by
      simpa [Path.steps_of_no_slash, Path.Component.ofPart?] using Path.steps_slash s ""
    have hsteps : Path.steps ⟨a⟩ = Path.steps ⟨b⟩ := by
      rw [← hslash a, ← hslash b, Path.steps_eq_filter, Path.steps_eq_filter,
        Path.components_of_same h]
    have hrest : Text.pieces '/' rel ≠ [] := by simp [Text.pieces, Text.piecesBy_ne_nil]
    rw [real?, real?, if_neg (hne a), if_neg (hne b), habs, Text.pieces_append_slash,
      Text.pieces_append_slash]
    have ha := followFrom_filter (t := t) hrest mostLinks
      (if (Path.mk (b ++ "/" ++ rel)).isAbsolute then [] else t.working) (Text.pieces '/' a) []
    have hb := followFrom_filter (t := t) hrest mostLinks
      (if (Path.mk (b ++ "/" ++ rel)).isAbsolute then [] else t.working) (Text.pieces '/' b) []
    rw [nil_append, nil_append] at ha hb
    rw [ha, hb, filter_pieces ⟨a⟩, filter_pieces ⟨b⟩, hsteps]

theorem at?_respelled (h : p.Respelled q) : t.at? p = t.at? q := by
  rw [at?, at?, real?_respelled h]

theorem isFile_respelled (h : p.Respelled q) : t.isFile p = t.isFile q := by
  rw [isFile, isFile, at?_respelled h]

theorem text?_respelled (h : p.Respelled q) : t.text? p = t.text? q := by
  rw [text?, text?, bytes?, bytes?, at?_respelled h]

end Files.Tree

namespace Modules

open RouteAtlas.Path Tree

variable {t : Tree} {p q dir dir' : Path}

theorem stripList?_append_slash {ls : List Char} (hls : '/' ∉ ls) (cs ds : List Char) :
    Text.stripList? ls (cs ++ '/' :: ds) = (Text.stripList? ls cs).map (· ++ '/' :: ds) := by
  induction ls generalizing cs with
  | nil => cases cs <;> rfl
  | cons l ls ih =>
    obtain ⟨hl, hls⟩ := not_or.mp (mt mem_cons.mpr hls)
    cases cs with
    | nil => simp [Text.stripList?, Ne.symm hl]
    | cons c cs =>
      rw [cons_append, Text.stripList?, Text.stripList?]
      split
      · exact ih hls cs
      · rfl

/-- What stands in front of an ending is the same text behind both spellings. -/
theorem stripEnd?_respelled (h : p.Respelled q) {tail : String} (htail : '/' ∉ tail.toList) :
    Option.Rel (fun s s' => Respelled ⟨s⟩ ⟨s'⟩) (Text.stripEnd? tail p.text)
      (Text.stripEnd? tail q.text) := by
  cases h with
  | refl p => exact rel_self (fun _ => .refl _) _
  | behind h rel =>
    have hstrip (s : String) : Text.stripEnd? tail (s ++ "/" ++ rel) =
        (Text.stripEnd? tail rel).map (s ++ "/" ++ ·) := by
      have htail : '/' ∉ tail.toList.reverse := by simpa using htail
      have hrev : (s ++ "/" ++ rel).toList.reverse =
          rel.toList.reverse ++ '/' :: s.toList.reverse := by simp
      rw [Text.stripEnd?, hrev, stripList?_append_slash htail, Text.stripEnd?, Option.map_map,
        Option.map_map]
      refine congrArg (Option.map · _) (funext fun cs => String.toList_inj.mp ?_)
      simp
    rw [hstrip, hstrip]
    cases Text.stripEnd? tail rel with
    | none => exact .none
    | some s => exact .some (.behind h s)

theorem respelled_fileForms (h : p.Respelled q) :
    Forall₂ Respelled (fileForms p) (fileForms q) := by
  have hself : Forall₂ Respelled [p] [q] := .cons h .nil
  have hlanguage : Source.Language.ofPath? p = Source.Language.ofPath? q := by
    rw [Source.Language.ofPath?, Source.Language.ofPath?, fileName?, fileName?,
      components_of_same h.same]
  have hends : ∀ s ∈ sourceExtensions, '/' ∉ s.1.toList := by decide
  refine rel_append (rel_append (rel_append ?_ ?_) ?_) hself
  · rw [hlanguage]
    split
    · exact hself
    · exact .nil
  · refine rel_flatMap (R := fun s s' => s = s' ∧ s ∈ sourceExtensions)
      (forall₂_same.mpr fun s hs => ⟨rfl, hs⟩) ?_
    rintro s _ ⟨rfl, hs⟩
    have hstem := stripEnd?_respelled h (hends s hs)
    simp only
    generalize Text.stripEnd? s.1 p.text = stem at hstem
    generalize Text.stripEnd? s.1 q.text = stem' at hstem
    cases hstem with
    | none => exact .nil
    | some hstem => exact hstem.extensions s.2
  · exact h.extensions implicitExtensions

/-! ## Files -/

theorem fileAt?_respelled (h : p.Respelled q) : Option.Rel Respelled (fileAt? t p) (fileAt? t q) :=
  rel_find? (respelled_fileForms h) fun _ _ => isFile_respelled

theorem indexOf?_same (h : dir.same dir') :
    Option.Rel Respelled (indexOf? t dir) (indexOf? t dir') := by
  refine rel_find? ?_ fun _ _ => isFile_respelled
  rw [forall₂_map_left_iff, forall₂_map_right_iff, forall₂_same]
  exact fun ext _ => respelled_join h _

theorem packageMain?_same (h : dir.same dir') : packageMain? t dir = packageMain? t dir' := by
  have hclean (entry : String) : (dir.join entry).clean = (dir'.join entry).clean :=
    clean_of_same (respelled_join h entry).same
  unfold packageMain?
  simp only [Tree.text?_respelled (respelled_join h "package.json"), hclean]

/-- **Two spellings of a path stand for the same file.** -/
theorem fileOrDirectory?_respelled (h : p.Respelled q) :
    Option.Rel Respelled (fileOrDirectory? t p) (fileOrDirectory? t q) := by
  refine rel_orElse (fileAt?_respelled h) ?_
  rw [fileOfDirectory?, fileOfDirectory?, Tree.isDir, Tree.isDir, Tree.at?_respelled h,
    packageMain?_same h.same]
  split
  · exact rel_orElse (rel_self .refl _) (indexOf?_same h.same)
  · exact .none

/-! ## Configurations -/

theorem nearestConfig?_of_same {start start' stop path : Path} (h : start.same start')
    (hfound : nearestConfig? t start stop = some path) :
    ∃ path', nearestConfig? t start' stop = some path' ∧ path.Respelled path' := by
  obtain ⟨n, dir, hup, hbelow, rfl, hfile, hnone⟩ := nearestConfig?_eq_some_iff.mp hfound
  obtain ⟨dir', hup', hdir⟩ := exists_of_rel_some (hup ▸ up?_of_same n h)
  have hjoin := respelled_join hdir configName
  refine ⟨_, nearestConfig?_eq_some_iff.mpr ⟨n, dir', hup', ?_, rfl, isFile_respelled hjoin ▸ hfile,
    fun m hm nearer hnearer => ?_⟩, hjoin⟩
  · rw [isBelow_iff, isBelow_iff] at hbelow ⊢
    rwa [← components_of_same h, ← components_of_same hdir]
  · obtain ⟨other, hother, hsame⟩ :=
      exists_of_rel_some (hnearer ▸ up?_of_same m (same_comm.trans h))
    rw [isFile_respelled (respelled_join hsame configName)]
    exact hnone m hm other hother

theorem nearestConfig?_same {start start' : Path} (h : start.same start') (stop : Path) :
    Option.Rel Respelled (nearestConfig? t start stop) (nearestConfig? t start' stop) := by
  cases hfound : nearestConfig? t start stop with
  | some path =>
    obtain ⟨path', hpath', hrel⟩ := nearestConfig?_of_same h hfound
    rw [hpath']
    exact .some hrel
  | none =>
    cases hfound' : nearestConfig? t start' stop with
    | none => exact .none
    | some path' =>
      obtain ⟨path, hpath, -⟩ := nearestConfig?_of_same (same_comm.trans h) hfound'
      cases hfound.symm.trans hpath

namespace Config

/-- Two configurations with the same settings, up to the spelling of their paths. -/
structure Same (c d : Config) : Prop where
  path : c.path.same d.path
  baseUrl : c.baseUrl = d.baseUrl
  aliases : c.aliases = d.aliases
  aliasBase : c.aliasBase.same d.aliasBase
  includes : c.includes = d.includes

theorem dirOf_same (h : p.same q) : (dirOf p).same (dirOf q) :=
  rel_getD (R := fun a b : Path => a.same b = true) (parent?_of_same h) (beq_self_eq_true _)

theorem Same.override {base base' : Config} {l m : Layer} (h : Same base base')
    (hpath : l.path.same m.path) (hwritten : l.written = m.written) :
    Same (base.override l.path l.written) (base'.override m.path m.written) := by
  have hdir : l.dir.same m.dir := dirOf_same hpath
  have hurl : l.baseUrl? = m.baseUrl? := by
    unfold Layer.baseUrl?
    rw [hwritten]
    refine congrArg (Option.map · _) (funext fun url => ?_)
    exact clean_of_same (respelled_join hdir url).same
  have haliases : l.aliases? = m.aliases? := by rw [Layer.aliases?, hwritten, Layer.aliases?]
  have hincludes : l.includes? = m.includes? := by rw [Layer.includes?, hwritten, Layer.includes?]
  constructor
  · rwa [override_path, override_path]
  · rw [override_baseUrl, override_baseUrl, hurl, h.baseUrl]
  · rw [override_aliases, override_aliases, haliases, h.aliases]
  · rw [override_aliasBase, override_aliasBase, hurl, haliases, h.baseUrl]
    cases m.baseUrl? with
    | some url => exact beq_self_eq_true _
    | none =>
      rw [Option.getD_none, Option.getD_none]
      split
      · exact hdir
      · exact h.aliasBase
  · rw [override_includes, override_includes, hincludes, h.includes]

theorem parentPath_same (h : dir.same dir') (name : String) :
    (parentPath dir name).Respelled (parentPath dir' name) := by
  have hjoin := respelled_join h name
  have hext : (dir.join name).extension? = (dir'.join name).extension? := by
    rw [extension?, extension?, fileName?, fileName?, components_of_same hjoin.same]
  unfold parentPath
  split
  · simp only [hext]
    split
    · exact hjoin.addExtension "json"
    · exact hjoin
  · exact respelled_join (respelled_join h _).same name

theorem readWritten_respelled (h : p.Respelled q) :
    (readWritten t p).toOption = (readWritten t q).toOption := by
  rw [readWritten, readWritten, text?_respelled h]
  split
  · rfl
  · split <;> rfl

theorem unset_same (h : p.same q) : Same (unset p) (unset q) := ⟨h, rfl, rfl, dirOf_same h, rfl⟩

/-- A file that is read and put over a base gives the same, up to spelling, as long as the bases do.
-/
theorem rel_override (h : p.Respelled q) {base base' : WrittenConfig → Config}
    (hbase : ∀ written, Same (base written) (base' written)) : Option.Rel Same
      ((readWritten t p).map fun written => (base written).override p written).toOption
      ((readWritten t q).map fun written => (base' written).override q written).toOption := by
  have hread := readWritten_respelled (t := t) h
  cases hp : readWritten t p <;> cases hq : readWritten t q <;> rw [hp, hq] at hread <;> cases hread
  · exact .none
  · exact .some ((hbase _).override (l := ⟨p, _⟩) (m := ⟨q, _⟩) h.same rfl)

theorem loadUpTo_respelled : ∀ (links : Nat) {p q : Path}, p.Respelled q →
    Option.Rel Same (loadUpTo t links p).toOption (loadUpTo t links q).toOption
  | 0, _, _, h => rel_override h fun _ => unset_same h.same
  | links + 1, p, q, h => by
    refine rel_override h fun written => ?_
    split
    · exact rel_getD (loadUpTo_respelled links (parentPath_same (dirOf_same h.same) _))
        (unset_same h.same)
    · exact unset_same h.same

end Config

namespace Resolver

/-- **A directory has one configuration**, however it is spelled. -/
theorem lookUp_same (r : Resolver) (h : dir.same dir') :
    Option.Rel Config.Same (r.lookUp t dir) (r.lookUp t dir') :=
  rel_bind (nearestConfig?_same h r.root) fun _ _ => Config.loadUpTo_respelled _

/-- **Configurations that differ in their spelling lead to the same files.** -/
theorem bareFile?_same {config config' : Option Config} (h : Option.Rel Config.Same config config')
    (specifier : String) (dir : Path) : Option.Rel Respelled
      (bareFile? t config specifier dir) (bareFile? t config' specifier dir) := by
  refine rel_orElse (rel_findSome? ?_ fun _ _ => fileOrDirectory?_respelled) ?_
  · cases h with
    | none => exact .nil
    | @some c d h =>
      refine rel_append ?_ ?_
      · rw [Config.aliasTargets, Config.aliasTargets, aliasCandidates, aliasCandidates, h.aliases]
        split
        · exact .nil
        · rw [forall₂_map_left_iff, forall₂_map_right_iff, forall₂_same]
          exact fun target _ => respelled_join h.aliasBase _
      · rw [Config.baseTarget?, Config.baseTarget?, h.baseUrl]
        exact forall₂_same.mpr fun p _ => .refl p
  · exact rel_self .refl _

theorem settle_respelled (r : Resolver) (h : p.Respelled q) :
    (r.settle t p).same (r.settle t q) := by
  have hinside : p.inNodeModules = q.inNodeModules := by
    rw [inNodeModules, inNodeModules, hasName, hasName, components_of_same h.same]
  rw [settle, settle, hinside, canonical?, canonical?, real?_respelled h]
  split
  · exact h.same
  · split
    · split
      · exact beq_self_eq_true _
      · exact h.same
    · exact h.same

end Resolver

end Modules

end RouteAtlas
