import Mathlib.Data.List.Forall2
import Mathlib.Data.List.Induction
import Mathlib.Data.List.TakeDrop
import Mathlib.Data.List.TakeWhile
import RouteAtlas.Modules.Alias
import RouteAtlas.Proofs.LinePlaces

/-!
# The alias that a specifier uses

A pattern without a star matches itself. A pattern with a star matches what begins with the text
before its first star and ends with the text behind it, and the two may not overlap. Of the aliases
that match, a specifier uses the first one without a star, or else the first one with the longest
text before its star. What the star stands for is put into the targets.
-/

open List Option

namespace RouteAtlas

open Text

/-! ## Cuts of a text -/

namespace Text

variable {s lead tail rest pre post : String}

theorem cutAt?_eq_none_iff {c : Char} : cutAt? c s = none ↔ c ∉ s.toList := by
  rw [cutAt?, span_eq_takeWhile_dropWhile]
  cases hdrop : s.toList.dropWhile (· != c) with
  | nil =>
    have hall := dropWhile_eq_nil_iff.mp hdrop
    refine iff_of_true rfl fun hmem => ?_
    simpa using hall c hmem
  | cons d ds =>
    have hhead := head?_dropWhile_not (· != c) s.toList
    rw [hdrop] at hhead
    obtain rfl : d = c := by simpa using hhead
    refine iff_of_false (by simp) fun hnot => hnot ?_
    exact (dropWhile_sublist _).subset (hdrop ▸ mem_cons_self)

theorem cutAt?_eq_some_iff {c : Char} : cutAt? c s = some (pre, post) ↔
    s.toList = pre.toList ++ c :: post.toList ∧ c ∉ pre.toList := by
  rw [cutAt?, span_eq_takeWhile_dropWhile]
  constructor
  · intro h
    split at h
    · rename_i front d back hcut
      obtain ⟨rfl, hback⟩ := Prod.mk.inj hcut
      obtain ⟨rfl, rfl⟩ := Prod.mk.inj (some.inj h)
      have hhead := head?_dropWhile_not (· != c) s.toList
      rw [hback] at hhead
      obtain rfl : d = c := by simpa using hhead
      rw [String.toList_ofList, String.toList_ofList, ← hback, takeWhile_append_dropWhile]
      refine ⟨rfl, fun hmem => ?_⟩
      simpa using List.all_eq_true.mp all_takeWhile d hmem
    · cases h
  · rintro ⟨hs, hpre⟩
    have hall : ∀ d ∈ pre.toList, (d != c) := fun d hd =>
      bne_iff_ne.mpr fun he => hpre (he ▸ hd)
    rw [hs, takeWhile_append_of_pos hall, dropWhile_append_of_pos hall]
    simp

theorem stripStart?_eq_some_iff : stripStart? lead s = some rest ↔ s = lead ++ rest := by
  rw [stripStart?, map_eq_some_iff, ← String.toList_inj, String.toList_append]
  constructor
  · rintro ⟨cs, hcs, rfl⟩
    rw [String.toList_ofList, stripList?_eq_some_iff.mp hcs]
  · intro h
    exact ⟨rest.toList, stripList?_eq_some_iff.mpr h, String.ofList_toList⟩

theorem stripEnd?_eq_some_iff : stripEnd? tail s = some rest ↔ s = rest ++ tail := by
  rw [stripEnd?, map_eq_some_iff, ← String.toList_inj, String.toList_append]
  constructor
  · rintro ⟨cs, hcs, rfl⟩
    have hs := congrArg List.reverse (stripList?_eq_some_iff.mp hcs)
    simpa using hs
  · intro h
    refine ⟨rest.toList.reverse, stripList?_eq_some_iff.mpr ?_, by simp⟩
    rw [h, reverse_append]

theorem startsWith_iff : startsWith lead s ↔ ∃ rest, s = lead ++ rest := by
  simp [startsWith, isSome_iff_exists, stripStart?_eq_some_iff]

theorem endsWith_iff : endsWith tail s ↔ ∃ rest, s = rest ++ tail := by
  simp [endsWith, isSome_iff_exists, stripEnd?_eq_some_iff]

theorem slice_between (a b c : String) :
    slice (a ++ b ++ c) a.utf8ByteSize (a.utf8ByteSize + b.utf8ByteSize) = b := by
  rw [slice, Nat.add_sub_cancel_left, ← byteLength_toList, ← byteLength_toList,
    String.toList_append, String.toList_append, append_assoc, dropBytes_byteLength,
    takeBytes_byteLength, String.ofList_toList]

/-- **A text begins with one part and ends with another, and they do not overlap**, if it is long
enough for both. -/
theorem exists_between (hbytes : lead.utf8ByteSize + tail.utf8ByteSize ≤ s.utf8ByteSize)
    (hlead : startsWith lead s) (htail : endsWith tail s) : ∃ mid, s = lead ++ mid ++ tail := by
  obtain ⟨back, hback⟩ := startsWith_iff.mp hlead
  obtain ⟨front, hfront⟩ := endsWith_iff.mp htail
  have hsplit : lead.toList ++ back.toList = front.toList ++ tail.toList := by
    rw [← String.toList_append, ← String.toList_append, ← hback, ← hfront]
  rcases append_eq_append_iff.mp hsplit with ⟨mid, hmid, -⟩ | ⟨shared, hshared, htail⟩
  · refine ⟨String.ofList mid, ?_⟩
    rw [hfront, ← String.toList_inj]
    simp [hmid]
  · -- An overlap would count twice, so there is none.
    have hbytes' : byteLength shared = 0 := by
      rw [hfront, String.utf8ByteSize_append, ← byteLength_toList, ← byteLength_toList,
        ← byteLength_toList, hshared, byteLength_append] at hbytes
      omega
    obtain rfl : shared = [] := by
      cases shared with
      | nil => rfl
      | cons c cs =>
        have := c.utf8Size_pos
        rw [byteLength] at hbytes'
        omega
    refine ⟨"", ?_⟩
    rw [hfront, ← String.toList_inj]
    simpa using hshared.symm

end Text

namespace Modules

/-! ## What a pattern matches -/

namespace Alias

variable {a b : Alias} {specifier captured pre post : String}

def IsPlain (a : Alias) : Prop := '*' ∉ a.pattern.toList

/-- The texts before and behind the first star of the pattern. -/
structure StarAt (a : Alias) (pre post : String) : Prop where
  pattern : a.pattern = pre ++ "*" ++ post
  first : '*' ∉ pre.toList

/-- **The pattern matches a specifier**, and its star stands for a text; without a star there is
none to stand for. -/
inductive Matches (a : Alias) (specifier : String) : String → Prop
  | plain (hplain : a.IsPlain) (hs : a.pattern = specifier) : Matches a specifier ""
  | star {pre captured post : String} (hstar : a.StarAt pre post)
      (hs : specifier = pre ++ captured ++ post) : Matches a specifier captured

theorem isPlain_iff : a.IsPlain ↔ cutAt? '*' a.pattern = none :=
  cutAt?_eq_none_iff.symm

theorem starAt_iff : a.StarAt pre post ↔ cutAt? '*' a.pattern = some (pre, post) := by
  rw [cutAt?_eq_some_iff]
  constructor
  · intro h
    refine ⟨?_, h.first⟩
    rw [h.pattern]
    simp
  · rintro ⟨hpattern, hfirst⟩
    exact ⟨String.toList_inj.mp (by simp [hpattern]), hfirst⟩

theorem StarAt.not_isPlain (h : a.StarAt pre post) : ¬ a.IsPlain := by
  rw [isPlain_iff, starAt_iff.mp h]
  exact some_ne_none _

/-- **What a pattern captures** is what its star stands for. -/
theorem captures?_eq_some_iff :
    a.captures? specifier = some captured ↔ a.Matches specifier captured := by
  rw [captures?]
  constructor
  · intro h
    split at h
    · rename_i hcut
      split at h
      · rename_i hs
        cases h
        exact .plain (isPlain_iff.mpr hcut) hs
      · cases h
    · rename_i pre post hcut
      obtain ⟨rest, hrest, h⟩ := bind_eq_some_iff.mp h
      refine .star (starAt_iff.mpr hcut) ?_
      rw [stripStart?_eq_some_iff.mp hrest, stripEnd?_eq_some_iff.mp h, String.append_assoc]
  · rintro (⟨hplain, hs⟩ | ⟨hstar, hs⟩)
    · rw [isPlain_iff.mp hplain]
      exact if_pos hs
    · rw [starAt_iff.mp hstar]
      refine bind_eq_some_iff.mpr ⟨_, stripStart?_eq_some_iff.mpr ?_, stripEnd?_eq_some_iff.mpr rfl⟩
      rw [hs, String.append_assoc]

theorem captures?_eq_none_iff :
    a.captures? specifier = none ↔ ∀ captured, ¬ a.Matches specifier captured := by
  simp [eq_none_iff_forall_ne_some, captures?_eq_some_iff]

theorem Matches.unique {captured' : String} (h : a.Matches specifier captured)
    (h' : a.Matches specifier captured') : captured = captured' := by
  rw [← captures?_eq_some_iff] at h h'
  exact some.inj (h.symm.trans h')

/-! ## The offsets of what is captured -/

/-- A text stands between two offsets, neither of which is inside a character. -/
structure Between (specifier : String) (start stop : Nat) (captured : String) : Prop where
  start_le : start ≤ stop
  start_valid : String.Pos.Raw.IsValid specifier ⟨start⟩
  stop_valid : String.Pos.Raw.IsValid specifier ⟨stop⟩
  slice : slice specifier start stop = captured

theorem between_of_append (pre captured post : String) :
    Between (pre ++ captured ++ post) pre.utf8ByteSize (pre.utf8ByteSize + captured.utf8ByteSize)
      captured where
  start_le := Nat.le_add_right _ _
  start_valid := String.Pos.Raw.isValid_iff_exists_append.mpr
    ⟨pre, captured ++ post, String.append_assoc .., rfl⟩
  stop_valid := String.Pos.Raw.isValid_iff_exists_append.mpr
    ⟨pre ++ captured, post, rfl, by rw [String.rawEndPos, String.utf8ByteSize_append]⟩
  slice := slice_between pre captured post

/-- **Matching is a test of bytes**: the specifier is long enough for both texts around the star,
begins with the first and ends with the second. -/
theorem matches_iff_bytes (hstar : a.StarAt pre post) :
    (∃ captured, a.Matches specifier captured) ↔
      pre.utf8ByteSize + post.utf8ByteSize ≤ specifier.utf8ByteSize ∧
        startsWith pre specifier ∧ endsWith post specifier := by
  constructor
  · rintro ⟨captured, ⟨hplain, -⟩ | ⟨hstar', hs⟩⟩
    · exact absurd hplain hstar.not_isPlain
    · cases (starAt_iff.mp hstar).symm.trans (starAt_iff.mp hstar')
      refine ⟨?_, startsWith_iff.mpr ⟨captured ++ post, ?_⟩, endsWith_iff.mpr ⟨_, hs⟩⟩
      · rw [hs, String.utf8ByteSize_append, String.utf8ByteSize_append]
        omega
      · rw [hs, String.append_assoc]
  · rintro ⟨hbytes, hlead, htail⟩
    obtain ⟨captured, hs⟩ := exists_between hbytes hlead htail
    exact ⟨captured, .star hstar hs⟩

theorem Matches.between (h : a.Matches specifier captured) (hstar : a.StarAt pre post) :
    post.utf8ByteSize ≤ specifier.utf8ByteSize ∧
      Between specifier pre.utf8ByteSize (specifier.utf8ByteSize - post.utf8ByteSize) captured := by
  rcases h with ⟨hplain, -⟩ | ⟨hstar', rfl⟩
  · exact absurd hplain hstar.not_isPlain
  · cases (starAt_iff.mp hstar).symm.trans (starAt_iff.mp hstar')
    rw [String.utf8ByteSize_append, String.utf8ByteSize_append, Nat.add_sub_cancel]
    exact ⟨Nat.le_add_left _ _, between_of_append pre captured post⟩

/-! ## Which alias is better -/

/-- **One alias is better than another**: it has no star and the other one has, or there is more
before its star. -/
inductive Beats (a b : Alias) : Prop
  | plain {pre post : String} (ha : a.IsPlain) (hb : b.StarAt pre post)
  | star {pre post pre' post' : String} (ha : a.StarAt pre post) (hb : b.StarAt pre' post')
      (h : pre'.utf8ByteSize < pre.utf8ByteSize)

theorem better_iff : a.better b ↔ a.Beats b := by
  unfold better starAt?
  constructor
  · intro h
    cases ha : cutAt? '*' a.pattern with
    | none =>
      cases hb : cutAt? '*' b.pattern with
      | none => simp [hb] at h
      | some cut => exact .plain (isPlain_iff.mpr ha) (starAt_iff.mpr hb)
    | some cut =>
      cases hb : cutAt? '*' b.pattern with
      | none => simp [hb] at h
      | some cut' => exact .star (starAt_iff.mpr ha) (starAt_iff.mpr hb) (by simpa [ha, hb] using h)
  · rintro (⟨ha, hb⟩ | ⟨ha, hb, h⟩)
    · rw [isPlain_iff.mp ha, starAt_iff.mp hb]
      rfl
    · rw [starAt_iff.mp ha, starAt_iff.mp hb]
      exact decide_eq_true h

theorem Beats.asymm (h : a.Beats b) : ¬ b.Beats a := by
  rw [← better_iff] at h ⊢
  unfold better at h ⊢
  cases ha : a.starAt? <;> cases hb : b.starAt? <;> simp [ha, hb] at h ⊢
  omega

/-- What is better than one alias is better than every other one that is not. -/
theorem Beats.of_not {c : Alias} (h : a.Beats b) (hc : ¬ c.Beats b) : a.Beats c := by
  rw [← better_iff] at h hc ⊢
  unfold better at h hc ⊢
  cases ha : a.starAt? <;> cases hb : b.starAt? <;> cases hc' : c.starAt? <;>
    simp [ha, hb, hc'] at h hc ⊢
  omega

def Fits (a : Alias) (specifier : String) : Prop := ∃ captured, a.Matches specifier captured

end Alias

/-! ## The alias that is used -/

variable {aliases : List Alias} {specifier captured captured' : String} {a b : Alias}

/-- **The alias that a specifier uses**, and what its star stands for: it matches, it is better than
those in front of it that match, and none of those behind it is better. -/
structure Uses (aliases : List Alias) (specifier : String) (a : Alias) (captured : String) :
    Prop where
  fits : a.Matches specifier captured
  first : ∃ front rest, aliases = front ++ a :: rest ∧
    (∀ b ∈ front, b.Fits specifier → a.Beats b) ∧ ∀ b ∈ rest, b.Fits specifier → ¬ b.Beats a

namespace Uses

theorem mem (h : Uses aliases specifier a captured) : a ∈ aliases := by
  obtain ⟨front, rest, rfl, -⟩ := h.first
  exact mem_append_right _ mem_cons_self

theorem not_beats (h : Uses aliases specifier a captured) (hb : b ∈ aliases)
    (hfits : b.Fits specifier) : ¬ b.Beats a := by
  obtain ⟨front, rest, rfl, hfront, hrest⟩ := h.first
  rcases mem_append.mp hb with hb | hb
  · exact (hfront b hb hfits).asymm
  · rcases mem_cons.mp hb with rfl | hb
    · exact fun hself => hself.asymm hself
    · exact hrest b hb hfits

/-- Another alias does not win over one that matches no worse. -/
theorem concat (h : Uses aliases specifier a captured) (hb : b.Fits specifier → ¬ b.Beats a) :
    Uses (aliases ++ [b]) specifier a captured := by
  obtain ⟨front, rest, rfl, hfront, hrest⟩ := h.first
  refine ⟨h.fits, front, rest ++ [b], by simp, hfront, fun c hc hfits => ?_⟩
  rcases mem_append.mp hc with hc | hc
  · exact hrest c hc hfits
  · obtain rfl := mem_singleton.mp hc
    exact hb hfits

theorem unique (ha : Uses aliases specifier a captured) (hb : Uses aliases specifier b captured') :
    a = b ∧ captured = captured' := by
  suffices heq : a = b by
    subst heq
    exact ⟨rfl, ha.fits.unique hb.fits⟩
  obtain ⟨front, rest, hsplit, hfront, -⟩ := ha.first
  obtain ⟨front', rest', hsplit', hfront', -⟩ := hb.first
  rcases append_eq_append_iff.mp (hsplit.symm.trans hsplit') with
    ⟨mid, hmid, htail⟩ | ⟨mid, hmid, htail⟩
  · cases mid with
    | nil => exact (List.cons.inj htail).1
    | cons c mid =>
      obtain ⟨rfl, -⟩ := List.cons.inj htail
      exact absurd (hfront' a (by simp [hmid]) ⟨_, ha.fits⟩) (ha.not_beats hb.mem ⟨_, hb.fits⟩)
  · cases mid with
    | nil => exact (List.cons.inj htail).1.symm
    | cons c mid =>
      obtain ⟨rfl, -⟩ := List.cons.inj htail
      exact absurd (hfront b (by simp [hmid]) ⟨_, hb.fits⟩) (hb.not_beats ha.mem ⟨_, ha.fits⟩)

end Uses

/-- **The best alias is the one that is used**, with what it captures; there is none if none
matches. -/
theorem bestAlias?_spec (aliases : List Alias) (specifier : String) :
    (bestAlias? aliases specifier).elim (∀ a ∈ aliases, ¬ a.Fits specifier) fun best =>
      Uses aliases specifier best.1 best.2 := by
  induction aliases using List.reverseRecOn with
  | nil => exact fun _ h => absurd h not_mem_nil
  | append_singleton aliases b ih =>
    have hnone : ∀ c ∈ ([] : List Alias), c.Fits specifier → ¬ c.Beats b := forall_mem_nil _
    rw [bestAlias?, foldl_append, foldl_cons, ← bestAlias?]
    cases hb : b.captures? specifier with
    | none =>
      have hnot : ¬ b.Fits specifier := not_exists.mpr (Alias.captures?_eq_none_iff.mp hb)
      cases hbest : bestAlias? aliases specifier with
      | none =>
        rw [hbest] at ih
        exact forall_mem_append.mpr ⟨ih, forall_mem_singleton.mpr hnot⟩
      | some best =>
        rw [hbest] at ih
        exact ih.concat fun hfits => absurd hfits hnot
    | some captured =>
      have hmatches := Alias.captures?_eq_some_iff.mp hb
      cases hbest : bestAlias? aliases specifier with
      | none =>
        rw [hbest] at ih
        exact ⟨hmatches, aliases, [], rfl, fun c hc hfits => absurd hfits (ih c hc), hnone⟩
      | some best =>
        obtain ⟨best, found⟩ := best
        rw [hbest] at ih
        dsimp only
        by_cases hbetter : b.better best
        · rw [if_pos hbetter]
          refine ⟨hmatches, aliases, [], rfl, fun c hc hfits => ?_, hnone⟩
          exact (Alias.better_iff.mp hbetter).of_not (ih.not_beats hc hfits)
        · rw [if_neg hbetter]
          exact ih.concat fun _ => mt Alias.better_iff.mpr hbetter

theorem bestAlias?_eq_none_iff :
    bestAlias? aliases specifier = none ↔ ∀ a ∈ aliases, ¬ a.Fits specifier := by
  have hspec := bestAlias?_spec aliases specifier
  cases hbest : bestAlias? aliases specifier with
  | none =>
    rw [hbest] at hspec
    exact iff_of_true rfl hspec
  | some best =>
    rw [hbest] at hspec
    exact iff_of_false (some_ne_none _) fun h => h best.1 hspec.mem ⟨_, hspec.fits⟩

theorem bestAlias?_eq_some_iff :
    bestAlias? aliases specifier = some (a, captured) ↔ Uses aliases specifier a captured := by
  have hspec := bestAlias?_spec aliases specifier
  constructor
  · intro h
    rwa [h] at hspec
  · intro h
    cases hbest : bestAlias? aliases specifier with
    | none => exact absurd ⟨captured, h.fits⟩ (bestAlias?_eq_none_iff.mp hbest a h.mem)
    | some best =>
      rw [hbest] at hspec
      obtain ⟨rfl, rfl⟩ := h.unique hspec
      rfl

/-! ## The paths that an alias gives -/

/-- A text is put in the place of the first star of a target; a target without a star stays. -/
inductive Fills (captured : String) : String → String → Prop
  | plain {target : String} (h : '*' ∉ target.toList) : Fills captured target target
  | star {pre post : String} (h : '*' ∉ pre.toList) :
      Fills captured (pre ++ "*" ++ post) (pre ++ captured ++ post)

theorem fills_replaceFirst (captured target : String) :
    Fills captured target (replaceFirst '*' captured target) := by
  rw [replaceFirst]
  cases hcut : cutAt? '*' target with
  | none => exact .plain (cutAt?_eq_none_iff.mp hcut)
  | some cut =>
    obtain ⟨htarget, hpre⟩ := cutAt?_eq_some_iff.mp hcut
    obtain rfl : target = cut.1 ++ "*" ++ cut.2 := String.toList_inj.mp (by simp [htarget])
    exact .star hpre

theorem aliasCandidates_of_uses (base : Path) (h : Uses aliases specifier a captured) :
    aliasCandidates aliases base specifier =
      a.targets.map fun target => base.join (replaceFirst '*' captured target) := by
  rw [aliasCandidates, bestAlias?_eq_some_iff.mpr h]

/-- **The paths that a specifier stands for by the aliases.** There are none exactly if no pattern
matches or the alias that is used has no targets. If a pattern matches, some alias is used, and what
its star stands for is put into each of its targets, in their order, below the base directory.

Whether a pattern matches is seen by its bytes, and what its star stands for lies in the specifier
between two offsets that are no place inside a character. -/
theorem aliasCandidates_by_used_alias (aliases : List Alias) (base : Path) (specifier : String) :
    (aliasCandidates aliases base specifier = [] ↔ (∀ a ∈ aliases, ¬ a.Fits specifier) ∨
        ∃ a captured, Uses aliases specifier a captured ∧ a.targets = []) ∧
    ((∃ a ∈ aliases, a.Fits specifier) → ∃ a captured, Uses aliases specifier a captured) ∧
    (∀ a captured, Uses aliases specifier a captured →
      List.Forall₂ (fun target path => ∃ filled, Fills captured target filled ∧
        path = base.join filled) a.targets (aliasCandidates aliases base specifier)) ∧
    ∀ a ∈ aliases, ∀ pre post, a.StarAt pre post →
      (a.Fits specifier ↔ pre.utf8ByteSize + post.utf8ByteSize ≤ specifier.utf8ByteSize ∧
        Text.startsWith pre specifier = true ∧ Text.endsWith post specifier = true) ∧
      ∀ captured, a.Matches specifier captured → post.utf8ByteSize ≤ specifier.utf8ByteSize ∧
        Alias.Between specifier pre.utf8ByteSize (specifier.utf8ByteSize - post.utf8ByteSize)
          captured := by
  have hused : (∃ a ∈ aliases, a.Fits specifier) →
      ∃ a captured, Uses aliases specifier a captured := by
    rintro ⟨a, ha, hfits⟩
    cases hbest : bestAlias? aliases specifier with
    | none => exact absurd hfits (bestAlias?_eq_none_iff.mp hbest a ha)
    | some best => exact ⟨best.1, best.2, bestAlias?_eq_some_iff.mp hbest⟩
  refine ⟨⟨fun hnil => ?_, ?_⟩, hused, fun a captured h => ?_, fun a _ pre post hstar => ?_⟩
  · by_cases hfits : ∃ a ∈ aliases, a.Fits specifier
    · obtain ⟨a, captured, h⟩ := hused hfits
      rw [aliasCandidates_of_uses base h, map_eq_nil_iff] at hnil
      exact .inr ⟨a, captured, h, hnil⟩
    · exact .inl fun a ha h => hfits ⟨a, ha, h⟩
  · rintro (hnone | ⟨a, captured, h, hnil⟩)
    · rw [aliasCandidates, bestAlias?_eq_none_iff.mpr hnone]
    · rw [aliasCandidates_of_uses base h, hnil, map_nil]
  · rw [aliasCandidates_of_uses base h, forall₂_map_right_iff, forall₂_same]
    exact fun target _ => ⟨_, fills_replaceFirst captured target, rfl⟩
  · exact ⟨Alias.matches_iff_bytes hstar, fun captured h => h.between hstar⟩

/-- Of two patterns that match, the one with more bytes before its star is used; a third one begins
and ends with a specifier that is too short for both. -/
theorem aliasCandidates_by_used_alias_overlapping :
    let used : Alias := ⟨"éa*", ["src/*", "lib/*.ts"]⟩
    let short : Alias := ⟨"é*é", ["y/*"]⟩
    let aliases : List Alias := [⟨"é*", ["x/*"]⟩, short, used]
    Uses aliases "éaé" used "é" ∧
      List.Forall₂ (fun target path => ∃ filled, Fills "é" target filled ∧
        path = Path.join ⟨"/p"⟩ filled) used.targets [⟨"/p/src/é"⟩, ⟨"/p/lib/é.ts"⟩] ∧
      Alias.Between "éaé" 3 5 "é" ∧ short.Fits "éaé" ∧ (Text.startsWith "é" "é" = true) ∧
      (Text.endsWith "é" "é" = true) ∧ ¬ short.Fits "é" := by
  intro used short aliases
  have hused : Uses aliases "éaé" used "é" :=
    bestAlias?_eq_some_iff.mp (by decide)
  have hstar : used.StarAt "éa" "" := Alias.starAt_iff.mpr (by decide)
  have hshort : short.StarAt "é" "é" := Alias.starAt_iff.mpr (by decide)
  obtain ⟨-, -, hpaths, hcut⟩ := aliasCandidates_by_used_alias aliases ⟨"/p"⟩ "éaé"
  obtain ⟨-, -, -, hoverlap⟩ := aliasCandidates_by_used_alias aliases ⟨"/p"⟩ "é"
  have hpaths := hpaths used "é" hused
  rw [show aliasCandidates aliases ⟨"/p"⟩ "éaé" =
    [⟨"/p/src/é"⟩, ⟨"/p/lib/é.ts"⟩] by decide] at hpaths
  refine ⟨hused, hpaths, ?_, ?_, by decide, by decide, ?_⟩
  · exact ((hcut used (by simp [aliases]) _ _ hstar).2 "é" hused.fits).2
  · exact (hcut short (by simp [aliases]) _ _ hshort).1.mpr (by decide)
  · exact fun hfits => absurd ((hoverlap short (by simp [aliases]) _ _ hshort).1.mp hfits).1
      (by decide)

/-- **A pattern that matches need not give a path**: its alias may have no targets. -/
theorem aliasCandidates_without_targets :
    Alias.Fits ⟨"a", []⟩ "a" ∧ aliasCandidates [⟨"a", []⟩] ⟨"/p"⟩ "a" = [] :=
  ⟨⟨"", .plain (Alias.isPlain_iff.mpr (by decide)) rfl⟩, by decide⟩

end Modules

end RouteAtlas
