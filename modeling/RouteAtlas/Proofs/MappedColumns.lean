import RouteAtlas.Proofs.LinePlaces
import RouteAtlas.Proofs.PlacedSources

/-!
# Columns of functions behind a source map

A source map counts columns in UTF-16 code units. The search for the function at such a column takes
it for bytes, and the text from there on takes it for characters. All three agree on a line whose
characters before the function are single bytes. Behind a character of more bytes the function is
never found, and behind a character of two code units the text starts too late.
-/

open List

namespace RouteAtlas

open Text

namespace Text

theorem Passes.next_le {cs rest rest' : List Char} {c : Char} {a b : Nat}
    (h : Passes cs 0 (c :: rest) a) (h' : Passes cs 0 rest' b) (hab : a < b) :
    a + c.utf8Size ≤ b := by
  obtain ⟨front, rfl, rfl⟩ := h
  obtain ⟨front', hsplit, rfl⟩ := h'
  rcases append_eq_append_iff.mp hsplit with ⟨more, rfl, hrest⟩ | ⟨more, rfl, -⟩
  · cases more with
    | nil => simp at hab
    | cons d more =>
      obtain ⟨rfl, -⟩ := List.cons.inj hrest
      rw [byteLength_append, byteLength]
      omega
  · rw [byteLength_append] at hab
    omega

/-- A part in front of a text reaches into its first line as far as its own first line does. -/
theorem isPrefix_lineBehind {cs ds : List Char} (h : cs <+: ds) :
    dropReturn (cs.takeWhile (· != '\n')) <+: lineBehind ds := by
  have hline : cs.takeWhile (· != '\n') <+: ds.takeWhile (· != '\n') := by
    obtain ⟨more, rfl⟩ := h
    rw [takeWhile_append]
    split
    · exact (List.takeWhile_prefix _).trans (prefix_append _ _)
    · exact prefix_rfl
  rw [lineBehind]
  split
  · obtain ⟨more, hmore⟩ := hline
    rw [← hmore]
    by_cases hnil : more = []
    · exact ⟨[], by rw [hnil, append_nil, append_nil]⟩
    · rw [dropReturn_append _ hnil]
      exact (isPrefix_dropReturn _).trans (prefix_append _ _)
  · exact (isPrefix_dropReturn _).trans hline

end Text

namespace Source

namespace Node

/-- The characters in front of a node on its line. -/
def before (n : Node) (text : String) : List Char :=
  lineBefore (takeBytes n.start text.toList)

def toLineEnd (n : Node) (text : String) : List Char :=
  lineBehind (dropBytes n.start text.toList)

/-- The first line of a node, without its ending. -/
def firstLine (n : Node) (text : String) : List Char :=
  dropReturn ((n.source text).toList.takeWhile (· != '\n'))

variable {n : Node} {text : String}

theorem Begins.lines_around (h : n.Begins text.toList) : ∃ front behind,
    Text.lineChars text = front ++ (n.before text ++ n.toLineEnd text) :: behind ∧
      front.length = (n.position text).line := by
  obtain ⟨c, rest, hpasses, hc, -⟩ := h
  have hsplit := hpasses.eq_append
  have hne : (c :: rest).takeWhile (· != '\n') ≠ [] := by
    rw [takeWhile_cons_of_pos (by simpa using hc)]
    exact cons_ne_nil _ _
  have hdrop : Text.dropBytes n.start text.toList = c :: rest := hpasses.dropBytes
  obtain ⟨front, behind, hlines, hlength⟩ :=
    Text.lines_around (Text.takeBytes n.start text.toList) (c :: rest) hne
  rw [← hsplit] at hlines
  refine ⟨front, behind, ?_, ?_⟩
  · rw [toLineEnd, hdrop]
    exact hlines
  · rw [hlength, position, positionAt_eq]

theorem character_position (n : Node) (text : String) :
    (n.position text).character = byteLength (n.before text) := by
  rw [position, positionAt_eq]
  rfl

theorem isPrefix_firstLine (n : Node) (text : String) : n.firstLine text <+: n.toLineEnd text := by
  refine isPrefix_lineBehind ?_
  rw [source, slice, String.toList_ofList]
  exact isPrefix_takeBytes _ _

end Node

end Source

namespace Finder

open Source

/-! ## Functions at a position -/

variable {source : String}

theorem isBefore_positionAt {c : Char} {rest : List Char} {a b : Nat}
    (h : Text.Passes source.toList 0 (c :: rest) a) (hb : a + c.utf8Size ≤ b) :
    isBefore (positionAt source a) (positionAt source b) := by
  obtain ⟨front, hsplit, hfront⟩ := h
  rw [Nat.zero_add] at hfront
  obtain ⟨more, rfl⟩ := Nat.exists_eq_add_of_le (Nat.le_trans (Nat.le_add_right _ _) hb)
  have hmore : takeBytes more (c :: rest) ≠ [] := by
    rw [takeBytes, if_pos (by omega)]
    exact cons_ne_nil _ _
  rw [positionAt, positionAt, advance_eq_foldl, advance_eq_foldl, hsplit, ← hfront,
    takeBytes_byteLength, takeBytes_append, foldl_append]
  exact isBefore_foldl_behind _ hmore

theorem isBefore_self (p : Position) : isBefore p p = false := by
  rw [Bool.eq_false_iff, Ne, isBefore_iff]
  omega

theorem holds_position {n : Node} (h : n.Begins source.toList) :
    holds source (n.position source) n := by
  obtain ⟨c, rest, hpasses, -, hstop⟩ := h
  exact holds_iff.mpr ⟨isBefore_self _, isBefore_positionAt hpasses hstop⟩

theorem headed_of_isFunction {n : Node} (h : n.Formed source.toList)
    (hfunction : n.kindIs Kind.isFunction) : n.Headed source.toList :=
  h.1 (Node.hasHead_of_isFunction hfunction)

/-- **No two functions start at one position.** -/
theorem eq_of_position_eq {outer n : Node} (houter : outer.Headed source.toList)
    (hn : n ∈ outer.nodes) (hheaded : n.Headed source.toList) (hfunction : n.kindIs Kind.isFunction)
    (hposition : outer.position source = n.position source) : outer = n := by
  rw [Node.nodes_eq, ← Node.nodesOfAll_eq, mem_cons] at hn
  rcases hn with rfl | hn
  · rfl
  -- The outer function has its first character in front of the inner one.
  obtain ⟨⟨c, rest, hpasses, -, -⟩, hinside⟩ := houter
  obtain ⟨⟨_, _, hpasses', -, -⟩, -⟩ := hheaded
  have hbefore := isBefore_positionAt hpasses
    (hpasses.next_le hpasses' (hinside n hn (Node.hasHead_of_isFunction hfunction)))
  rw [Node.position, Node.position] at hposition
  rw [hposition, isBefore_self] at hbefore
  cases hbefore

section Tree

variable {root n : Node} (hplaced : root.Placed)

include hplaced

/-- **A function is found at the position of its start**, in any placed tree of formed nodes. -/
theorem functionAround?_position (hformed : ∀ m ∈ root.nodes, m.Formed source.toList)
    (hn : n ∈ root.nodes) (hfunction : n.kindIs Kind.isFunction) :
    functionAround? source (n.position source) root = some n := by
  have hheaded := headed_of_isFunction (hformed n hn) hfunction
  have hmem : n ∈ around source (n.position source) root :=
    mem_around.mpr ⟨hn, hfunction, holds_position hheaded.1⟩
  rw [functionAround?_eq_pick hplaced]
  cases hpick : pick source (n.position source) (around source (n.position source) root) with
  | none =>
    rw [pick_eq_none.mp hpick] at hmem
    exact nomatch hmem
  | some found =>
    -- What is found starts here and has the function in it, so it is the function.
    obtain ⟨hposition, hin⟩ := pick_of_starts (around_chain hplaced) hpick hmem rfl
    obtain ⟨hfound, hkind, -⟩ := mem_around.mp (mem_of_pick hpick)
    exact congrArg some (eq_of_position_eq (headed_of_isFunction (hformed _ hfound) hkind) hin
      hheaded hfunction hposition)

/-- A function that is found holds the place, so on its own line it starts no later. -/
theorem character_le_of_functionAround? {p : Position} (h : functionAround? source p root = some n)
    (hline : p.line = (n.position source).line) :
    (n.position source).character ≤ p.character := by
  rw [functionAround?_eq_pick hplaced] at h
  have hholds := (holds_iff.mp (mem_around.mp (mem_of_pick h)).2.2).1
  rw [Bool.eq_false_iff, Ne, isBefore_iff] at hholds
  exact Nat.le_of_not_lt fun hlt => hholds (.inr ⟨hline, hlt⟩)

end Tree

/-! ## The place that a source map gives -/

def MappedFunction.tree (m : MappedFunction) : Node :=
  parse ((Language.ofPath? m.source).getD .typescript) m.content

/-- The place is the start of a node, with its column in UTF-16 code units. -/
def MappedFunction.PointsAt (m : MappedFunction) (n : Node) : Prop :=
  m.line = (n.position m.content).line ∧
    m.column = utf16Column m.content m.line (n.position m.content).character
  deriving Decidable

section Place

variable {m : MappedFunction} {n : Node}

theorem MappedFunction.PointsAt.column_eq (h : m.PointsAt n) (hbegins : n.Begins m.content.toList) :
    m.column = unitLength16 (n.before m.content) := by
  obtain ⟨front, behind, hlines, hlength⟩ := hbegins.lines_around
  have hrow : (lineChars m.content)[m.line]? =
      some (n.before m.content ++ n.toLineEnd m.content) := by
    rw [hlines, h.1, ← hlength, getElem?_append_right (Nat.le_refl _), Nat.sub_self]
    rfl
  rw [h.2, utf16Column, hrow, n.character_position]
  exact congrArg unitLength16 (takeBytes_byteLength _ _)

/-- **The function is found** exactly if the characters before it on its line are single bytes. -/
theorem function?_eq_iff (hn : n ∈ m.tree.nodes) (hfunction : n.kindIs Kind.isFunction)
    (h : m.PointsAt n) :
    m.function? = some (.ofNode m.source m.content n) ↔
      ∀ c ∈ n.before m.content, c.utf8Size = 1 := by
  have hformed : ∀ m' ∈ m.tree.nodes, m'.Formed m.content.toList :=
    fun _ hm => formed_parse _ _ hm
  have hcolumn := h.column_eq (headed_of_isFunction (hformed n hn) hfunction).1
  rw [← unitLength16_eq_byteLength_iff, ← hcolumn, ← n.character_position]
  refine ⟨fun hfound => Nat.le_antisymm ?_ ?_, fun heq => ?_⟩
  · rw [hcolumn, n.character_position]
    exact unitLength16_le_byteLength _
  · obtain ⟨found, haround, heq⟩ := Option.map_eq_some_iff.mp hfound
    have hstart : found.position m.content = n.position m.content :=
      congrArg (positionAt m.content ∘ FoundFunction.start) heq
    rw [← hstart]
    exact character_le_of_functionAround? (placed_parse _ _) haround (hstart ▸ h.1)
  · have hpoint : n.position m.content = ⟨m.line, m.column⟩ := by rw [h.1, heq]
    refine Option.map_eq_some_iff.mpr ⟨n, ?_, rfl⟩
    rw [← hpoint]
    exact functionAround?_position (placed_parse _ _) hformed hn hfunction

def MappedFunction.rowAt (m : MappedFunction) (i : Nat) (line : String) : Option String :=
  if i < m.line || m.endLine < i then none
  else if i = m.line then some (String.ofList (line.toList.drop m.column))
  else some line

/-- The text starts with the line of the place, from the column on. -/
theorem text_eq {front behind : List (List Char)} {row : List Char}
    (hlines : lineChars m.content = front ++ row :: behind) (hlength : front.length = m.line)
    (hend : m.line ≤ m.endLine) :
    ∃ more, m.text = "\n".intercalate (String.ofList (row.drop m.column) :: more) := by
  have htext : m.text = "\n".intercalate (((lines m.content).mapIdx m.rowAt).filterMap id) :=
    rfl
  have hfront : ((front.map String.ofList).mapIdx m.rowAt).filterMap id = [] := by
    refine filterMap_eq_nil_iff.mpr fun x hx => ?_
    obtain ⟨i, hi, rfl⟩ := mem_mapIdx.mp hx
    rw [length_map, hlength] at hi
    rw [id, MappedFunction.rowAt, if_pos (by simp [hi])]
  have hrow : m.rowAt m.line (String.ofList row) = some (String.ofList (row.drop m.column)) := by
    rw [MappedFunction.rowAt, if_neg (by simpa using hend), if_pos rfl, String.toList_ofList]
  rw [htext, lines, hlines, map_append, map_cons, mapIdx_append,
    filterMap_append, hfront, mapIdx_cons, Nat.zero_add, length_map, hlength, hrow]
  exact ⟨_, rfl⟩

theorem takeWhile_intercalate {x : String} (h : '\n' ∉ x.toList) (more : List String) :
    ("\n".intercalate (x :: more)).toList.takeWhile (· != '\n') = x.toList := by
  cases more with
  | nil =>
    have hone : "\n".intercalate [x] = x := rfl
    have hline := takeWhile_of_not_mem h []
    rwa [hone, ← append_nil x.toList]
  | cons y more =>
    rw [String.intercalate_cons_cons, String.toList_append, String.toList_append, append_assoc,
      takeWhile_of_not_mem h]
    exact append_nil _

/-- **The first line of the text** is the line from the function on, less one character for each
character of two code units before it. -/
theorem text_firstLine (hbegins : n.Begins m.content.toList) (h : m.PointsAt n)
    (hend : m.line ≤ m.endLine) :
    m.text.toList.takeWhile (· != '\n') =
      (n.toLineEnd m.content).drop ((n.before m.content).countP (units16 · == 2)) := by
  obtain ⟨front, behind, hlines, hlength⟩ := hbegins.lines_around
  obtain ⟨more, hmore⟩ := text_eq hlines (hlength.trans h.1.symm) hend
  have hdrop : (n.before m.content ++ n.toLineEnd m.content).drop m.column =
      (n.toLineEnd m.content).drop ((n.before m.content).countP (units16 · == 2)) := by
    rw [h.column_eq hbegins, unitLength16_eq_length_add, ← drop_drop, drop_left]
  have hline : '\n' ∉ (n.toLineEnd m.content).drop ((n.before m.content).countP (units16 · == 2)) :=
    fun hmem => not_mem_lineBehind _ (mem_of_mem_drop hmem)
  rw [hmore, hdrop, takeWhile_intercalate (by rwa [String.toList_ofList]), String.toList_ofList]

end Place

/-- **The start of a function behind a source map.** At the UTF-16 column of its start a function is
found exactly if the characters before it on its line are single bytes. The text from there on
starts with the function's first line if those characters are single code units; in general it lacks
one character of the line for each of them that has two. -/
theorem mapped_start_iff (m : MappedFunction) (n : Node) (hn : n ∈ m.tree.nodes)
    (hfunction : n.kindIs Kind.isFunction) (h : m.PointsAt n) (hend : m.line ≤ m.endLine) :
    (m.function? = some (.ofNode m.source m.content n) ↔ ∀ c ∈ n.before m.content, c.utf8Size = 1) ∧
    ((∀ c ∈ n.before m.content, Text.units16 c = 1) → n.firstLine m.content <+: m.text.toList) ∧
    m.text.toList.takeWhile (· != '\n') =
      (n.toLineEnd m.content).drop ((n.before m.content).countP (Text.units16 · == 2)) := by
  have hbegins := (headed_of_isFunction (formed_parse _ _ hn) hfunction).1
  have hline := text_firstLine hbegins h hend
  refine ⟨function?_eq_iff hn hfunction h, fun hnarrow => ?_, hline⟩
  have hcount : (n.before m.content).countP (Text.units16 · == 2) = 0 :=
    countP_eq_zero.mpr fun c hc => by simp [hnarrow c hc]
  rw [hcount, drop_zero] at hline
  exact (hline ▸ n.isPrefix_firstLine m.content).trans (List.takeWhile_prefix _)

namespace Columns

/-- A function in another one, behind characters of one byte each on its line. -/
def narrow : MappedFunction := ⟨⟨"a.ts"⟩, 1, 5, 1, "é\ne=x=>y=>'é'"⟩

/-- A function in another one, behind a character of two bytes. -/
def accented : MappedFunction := ⟨⟨"a.ts"⟩, 0, 5, 0, "é=x=>y=>y"⟩

/-- A function behind a character of four bytes and two code units. -/
def wide : MappedFunction := ⟨⟨"a.ts"⟩, 0, 6, 0, "/*😀*/x=>y"⟩

end Columns

/-- The inner function is found, and the text starts with it. -/
theorem mapped_start_iff_narrow : ∃ n ∈ Columns.narrow.tree.nodes,
    n.kindIs Kind.isFunction ∧ Columns.narrow.PointsAt n ∧ n.start = 8 ∧ Columns.narrow.function? =
        some (.ofNode Columns.narrow.source Columns.narrow.content n) ∧
      n.firstLine Columns.narrow.content <+: Columns.narrow.text.toList := by
  have hnode : ∃ n ∈ Columns.narrow.tree.nodes, n.kindIs Kind.isFunction ∧
      Columns.narrow.PointsAt n ∧ n.start = 8 ∧
      (n.before Columns.narrow.content).all
        (fun c => c.utf8Size == 1 && Text.units16 c == 1) = true := by
    decide +kernel
  obtain ⟨n, hn, hfunction, hpoints, hstart, hbefore⟩ := hnode
  have hsingle : ∀ c ∈ n.before Columns.narrow.content, c.utf8Size = 1 ∧ Text.units16 c = 1 := by
    simpa using hbefore
  obtain ⟨hfound, htext, -⟩ :=
    mapped_start_iff Columns.narrow n hn hfunction hpoints (by decide)
  exact ⟨n, hn, hfunction, hpoints, hstart, hfound.mpr fun c hc => (hsingle c hc).1,
    htext fun c hc => (hsingle c hc).2⟩

/-- Behind a character of two bytes the outer function is found in place of the inner one. Behind
one of two code units no function is found, and the text lacks its first character. -/
theorem function_missed_behind_wide_characters :
    (∃ n ∈ Columns.accented.tree.nodes, n.kindIs Kind.isFunction ∧
      Columns.accented.PointsAt n ∧ n.start = 6 ∧
      Columns.accented.function?.map FoundFunction.start = some 3) ∧
    ∃ n ∈ Columns.wide.tree.nodes, n.kindIs Kind.isFunction ∧ Columns.wide.PointsAt n ∧
      n.source Columns.wide.content = "x=>y" ∧
      Columns.wide.function?.map FoundFunction.start = none ∧ Columns.wide.text = "=>y" := by
  decide +kernel

end Finder

end RouteAtlas
