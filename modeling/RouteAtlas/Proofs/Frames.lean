import Mathlib.Data.List.TakeDrop
import RouteAtlas.Proofs.JsonRoundTrip
import RouteAtlas.Proofs.JsoncTexts
import RouteAtlas.Rpc.Frame

/-!
# Streams of frames

A stream is a list of frames. A frame is a header and a body of any bytes. The header has a line
that gives the length of the body, further lines around it, and an empty line; lines without a
length, empty ones among them, may also stand in front of a header. `Framed` is such a frame.
-/

open List

namespace RouteAtlas.Rpc.Frame

open Text Json

variable {c : Char} {p : Char → Bool} {size : Nat}

/-! ## The bytes of a text -/

theorem toList_loop (bytes : ByteArray) (i : Nat) (read : List UInt8) :
    ByteArray.toList.loop bytes i read = read.reverse ++ bytes.data.toList.drop i := by
  -- by induction on the number of bytes that are left
  induction hleft : bytes.size - i generalizing i read with
  | zero =>
    have hlast : bytes.data.toList.length ≤ i := by
      simp only [Array.length_toList, ByteArray.size_data]
      omega
    rw [ByteArray.toList.loop.eq_def, if_neg (by omega), drop_eq_nil_of_le hlast, append_nil]
  | succ left ih =>
    have hi : i < bytes.size := by omega
    have hdata : i < bytes.data.toList.length := by
      simpa [Array.length_toList] using hi
    rw [ByteArray.toList.loop.eq_def, ih _ _ (by omega), drop_eq_getElem_cons hdata]
    simp [ByteArray.get!, hi]

variable (text : String)

theorem bytesOf_eq : bytesOf text = text.toList.flatMap String.utf8EncodeChar := by
  have htoList : ∀ bytes : ByteArray, bytes.toList = bytes.data.toList := fun bytes =>
    toList_loop bytes 0 []
  rw [bytesOf, htoList, String.toUTF8_eq_toByteArray, ← String.utf8Encode_toList,
    List.utf8Encode, toList_data_toByteArray]

theorem bytesOf_append (a b : String) : bytesOf (a ++ b) = bytesOf a ++ bytesOf b := by
  simp [bytesOf_eq]

theorem utf8?_bytesOf : utf8? (bytesOf text).toByteArray = some text := by
  have hbytes : (bytesOf text).toByteArray = text.toByteArray := by
    rw [bytesOf_eq, ← List.utf8Encode, String.utf8Encode_toList]
  unfold utf8? String.fromUTF8?
  rw [hbytes, dif_pos text.isValidUTF8]
  rfl

theorem utf8EncodeChar_cases (c : Char) :
    c.toNat < 0x80 ∧ (String.utf8EncodeChar c).map UInt8.toNat = [c.toNat] ∨
      0x80 ≤ c.toNat ∧ String.utf8EncodeChar c ≠ [] ∧
        ∀ b ∈ String.utf8EncodeChar c, 0x80 ≤ b.toNat := by
  have hvalid : c.toNat < 0xd800 ∨ 0xdfff < c.toNat ∧ c.toNat < 0x110000 := c.valid
  have hval : c.val.toNat = c.toNat := rfl
  have hlarge : ∀ n, 0x80 ≤ n → n < 256 → 0x80 ≤ (UInt8.ofNat n).toNat := by
    intro n hlow hhigh
    rwa [UInt8.toNat_ofNat_of_lt' hhigh]
  rw [String.utf8EncodeChar.eq_def]
  simp only [hval]
  split
  · have hsmall : c.toNat < 256 := by omega
    exact .inl ⟨by omega, congrArg ([·]) (UInt8.toNat_ofNat_of_lt' hsmall)⟩
  refine .inr ?_
  repeat' split
  all_goals
    refine ⟨by omega, cons_ne_nil _ _, ?_⟩
    simp only [forall_mem_cons, not_mem_nil, false_implies, implies_true, and_true]
    and_intros <;> exact hlarge _ (by omega) (by omega)

theorem lineFeed_of_mem (h : 10 ∈ String.utf8EncodeChar c) : c = '\n' := by
  rcases utf8EncodeChar_cases c with ⟨-, hbytes⟩ | ⟨-, -, hlarge⟩
  · have hten : (10 : UInt8).toNat ∈ [c.toNat] := hbytes ▸ mem_map_of_mem h
    exact Char.toNat_inj.mp (mem_singleton.mp hten).symm
  · exact absurd (hlarge 10 h) (by decide)

/-! ## White space around a text -/

theorem trimBy_concat (hc : p c) (cs : List Char) : trimBy p (cs ++ [c]) = trimBy p cs := by
  have hdrop : (cs ++ [c]).dropWhile p = cs.dropWhile p ++ [c] ∨
      (cs ++ [c]).dropWhile p = [] ∧ cs.dropWhile p = [] := by
    rw [dropWhile_append]
    cases hrest : cs.dropWhile p with
    | nil => exact .inr ⟨by simp [hc], rfl⟩
    | cons d rest => exact .inl (by simp)
  unfold trimBy
  rcases hdrop with hdrop | ⟨hdrop, hnil⟩
  · rw [hdrop, reverse_append, reverse_singleton, singleton_append, dropWhile_cons_of_pos hc]
  · rw [hdrop, hnil]

theorem trim_lineEnd : trim (text ++ "\n") = trim text := by
  have htext : (text ++ "\n").toList = text.toList ++ ['\n'] := by simp
  rw [trim, htext, trimBy_concat (by decide), ← trim]

/-! ## Lines -/

/-- A line, without its line feed. -/
structure Line where
  text : String
  oneLine : '\n' ∉ text.toList

namespace Line

def bytes (line : Line) : List UInt8 := bytesOf (line.text ++ "\n")

def isBlank (line : Line) : Bool := trim line.text == ""

def givesLength (line : Line) : Bool :=
  (cutAt? ':' (trim line.text)).any fun field =>
    lowerAscii (trim field.1) == "content-length"

end Line

variable {line : Line} {last : List Line}

theorem bytesOf_lineFeed : bytesOf "\n" = [10] := by
  rw [bytesOf_eq]
  rfl

theorem splitLine_line (rest : List UInt8) :
    splitLine (line.bytes ++ rest) = (line.bytes, rest) := by
  have hsplit : ∀ bytes : List UInt8, 10 ∉ bytes →
      splitLine (bytes ++ [10] ++ rest) = (bytes ++ [10], rest) := by
    intro bytes hbytes
    induction bytes with
    | nil => rfl
    | cons b bytes ih =>
      obtain ⟨hb, hbytes⟩ := not_or.mp (mt mem_cons.mpr hbytes)
      rw [cons_append, cons_append, splitLine, if_neg (by simpa using Ne.symm hb), ih hbytes]
  rw [Line.bytes, bytesOf_append, bytesOf_lineFeed]
  refine hsplit _ ?_
  rw [bytesOf_eq, mem_flatMap]
  rintro ⟨c, hc, hbyte⟩
  exact line.oneLine (lineFeed_of_mem hbyte ▸ hc)

theorem headerStep_blank (h : line.isBlank) (size : Nat) :
    headerStep (some size) line.bytes = .body size := by
  simp only [Line.isBlank, beq_iff_eq] at h
  simp [headerStep, Line.bytes, utf8?_bytesOf, trim_lineEnd, h]

/-- A line without a length changes nothing, except for a blank one behind a length. -/
theorem headerStep_other (h : line.givesLength = false) {length? : Option Nat}
    (hblank : line.isBlank → length? = none) : headerStep length? line.bytes = .more length? := by
  simp only [headerStep, Line.bytes, utf8?_bytesOf, trim_lineEnd]
  by_cases htrim : trim line.text = ""
  · rw [if_pos htrim, hblank (by simpa [Line.isBlank] using htrim)]
  have hnone : lengthLine (trim line.text) = .ok none := by
    unfold Line.givesLength at h
    unfold lengthLine
    split
    · rfl
    · rename_i name value hcut
      rw [hcut] at h
      rw [if_neg (by simpa using h)]
  rw [if_neg htrim, hnone]

/-! ## The line with the length -/

theorem lowerAscii_eq : lowerAscii text = String.ofList (text.toList.map Char.toLower) := by
  apply String.toList_inj.mp
  rw [lowerAscii, String.toList_map, String.toList_ofList]

theorem isBlank_of_mem_toDigits (h : c ∈ Nat.toDigits 10 size) : isBlank c = false :=
  Modules.Jsonc.isBlank_of_isWordChar
    (by simp [Modules.Jsonc.isWordChar, Char.isAlphanum, isDigit_of_mem_toDigits h])

def lengthHeader (size : Nat) : Line where
  text := "Content-Length: " ++ toString size ++ "\r"
  oneLine := by
    have hdigits : '\n' ∉ Nat.toDigits 10 size := by
      intro h
      cases isDigit_of_mem_toDigits h
    simp [hdigits]

theorem lengthHeader_text :
    (lengthHeader size).text = "Content-Length: " ++ toString size ++ "\r" := rfl

theorem trim_lengthHeader :
    trim (lengthHeader size).text = "Content-Length: " ++ toString size := by
  have htext : (lengthHeader size).text.toList
      = "Content-Length: ".toList ++ Nat.toDigits 10 size ++ ['\r'] := by
    simp [lengthHeader_text]
  have hself : trimBy isBlank ("Content-Length: ".toList ++ Nat.toDigits 10 size)
      = "Content-Length: ".toList ++ Nat.toDigits 10 size := by
    refine trimBy_eq_self ?_ ?_
    · intro c hc
      obtain rfl : 'C' = c := Option.some.inj hc
      decide
    · intro c hc
      obtain ⟨d, hd⟩ := Option.ne_none_iff_exists'.mp
        (mt getLast?_eq_none_iff.mp (Nat.toDigits_ne_nil (b := 10) (n := size)))
      rw [getLast?_append, hd] at hc
      exact isBlank_of_mem_toDigits (mem_of_getLast? (hd.trans hc))
  rw [trim, htext, trimBy_concat (by decide), hself, String.ofList_append,
    String.ofList_toList, ← Nat.toString_eq_ofList_toDigits]

theorem cutAt?_lengthHeader :
    cutAt? ':' ("Content-Length: " ++ toString size)
      = some ("Content-Length", " " ++ toString size) := by
  have hvalue : String.ofList (' ' :: Nat.toDigits 10 size) = " " ++ toString size := by
    apply String.toList_inj.mp
    simp
  unfold cutAt?
  simp [hvalue]

theorem lengthOf?_written (hsize : size < 0x10000000000000000) :
    lengthOf? (trim (" " ++ toString size)) = some size := by
  have htrim : (trim (" " ++ toString size)).toList = Nat.toDigits 10 size := by
    have htext : (" " ++ toString size).toList = ' ' :: Nat.toDigits 10 size := by simp
    rw [trim, String.toList_ofList, htext, trimBy, dropWhile_cons_of_pos (by decide), ← trimBy,
      trimBy_eq_self (fun c hc => isBlank_of_mem_toDigits (mem_of_head? hc))
        fun c hc => isBlank_of_mem_toDigits (mem_of_getLast? hc)]
  obtain ⟨d, ds, hds, hd⟩ := exists_digit size
  have hplus : d ≠ '+' := by
    rintro rfl
    cases hd
  have hall : (Nat.toDigits 10 size).all Char.isDigit :=
    all_eq_true.mpr fun _ => isDigit_of_mem_toDigits
  have hsign : ((d :: ds).head? == some '+') = false := by simpa using hplus
  have hvalue := digitsValue_toDigits size
  rw [hds] at htrim hall hvalue
  simp only [lengthOf?, htrim, hsign, Bool.false_eq_true, if_false, hall, isEmpty_cons,
    Bool.not_true, Bool.or_self, hvalue, if_pos hsize]

theorem headerStep_length (hsize : size < 0x10000000000000000) (length? : Option Nat) :
    headerStep length? (lengthHeader size).bytes = .more (some size) := by
  have hname : lowerAscii (trim "Content-Length") = "content-length" := by
    rw [lowerAscii_eq]
    decide
  have hline : lengthLine ("Content-Length: " ++ toString size) = .ok (some size) := by
    simp only [lengthLine, cutAt?_lengthHeader, hname, if_true, lengthOf?_written hsize]
  have hne : "Content-Length: " ++ toString size ≠ "" := by simp
  simp only [headerStep, Line.bytes, utf8?_bytesOf, trim_lineEnd, trim_lengthHeader, if_neg hne,
    hline]

/-! ## Frames -/

/-- A frame with the lines around its length. -/
structure Framed where
  /-- Lines in front of the length; blank ones may be among them. -/
  leading : List Line
  /-- Lines between the length and the end of the header. -/
  following : List Line
  body : List UInt8
  leading_other : ∀ line ∈ leading, line.givesLength = false := by simp
  following_other : ∀ line ∈ following, line.givesLength = false ∧ line.isBlank = false := by simp
  short : body.length < 0x10000000000000000

def linesBytes (lines : List Line) : List UInt8 := lines.flatMap Line.bytes

variable (frame : Framed)

def Framed.bytes : List UInt8 :=
  linesBytes frame.leading ++ bytesOf ("Content-Length: " ++ toString frame.body.length ++ "\r\n")
    ++ linesBytes frame.following ++ bytesOf "\r\n" ++ frame.body

/-- What reading a frame gives, with the bytes behind it. -/
def bodyRead (body rest : List UInt8) : FrameRead :=
  match readBytes? body.toByteArray with
  | some value => .value value rest
  | none => .malformed rest

/-- What a body is for the reader: a value, or not JSON. -/
def bodyItem (body : List UInt8) : Item :=
  match readBytes? body.toByteArray with
  | some value => .value value
  | none => .malformed

theorem splitLine_ne_nil (rest : List UInt8) : (splitLine (line.bytes ++ rest)).1 ≠ [] := by
  rw [splitLine_line, Line.bytes, bytesOf_append, bytesOf_lineFeed]
  exact concat_ne_nil _ _

theorem readFrom_more {length? next? : Option Nat} (h : headerStep length? line.bytes = .more next?)
    (rest : List UInt8) : readFrom length? (line.bytes ++ rest) = readFrom next? rest := by
  rw [readFrom, dif_neg (splitLine_ne_nil rest), splitLine_line, h]

/-- Lines without a length are passed over; blank ones only as long as no length is known. -/
theorem readFrom_lines {length? : Option Nat} {lines : List Line}
    (h : ∀ line ∈ lines, line.givesLength = false ∧ (line.isBlank → length? = none))
    (rest : List UInt8) : readFrom length? (linesBytes lines ++ rest) = readFrom length? rest := by
  induction lines with
  | nil => rfl
  | cons line lines ih =>
    obtain ⟨⟨hother, hblank⟩, hlines⟩ := forall_mem_cons.mp h
    rw [linesBytes, flatMap_cons, append_assoc, readFrom_more (headerStep_other hother hblank)]
    exact ih hlines

def headerEnd : Line := ⟨"\r", by decide⟩

theorem Framed.bytes_eq :
    frame.bytes = linesBytes frame.leading ++ ((lengthHeader frame.body.length).bytes
      ++ (linesBytes frame.following ++ (headerEnd.bytes ++ frame.body))) := by
  have hline : "Content-Length: " ++ toString frame.body.length ++ "\r\n"
      = (lengthHeader frame.body.length).text ++ "\n" := by
    rw [lengthHeader_text]
    apply String.toList_inj.mp
    simp
  have hend : headerEnd.bytes = bytesOf "\r\n" := rfl
  rw [Framed.bytes, hline, hend, ← Line.bytes]
  simp [append_assoc]

theorem read_framed (rest : List UInt8) :
    read (frame.bytes ++ rest) = bodyRead frame.body rest := by
  have hleading : ∀ line ∈ frame.leading,
      line.givesLength = false ∧ (line.isBlank → (none : Option Nat) = none) :=
    fun line hline => ⟨frame.leading_other line hline, fun _ => rfl⟩
  have hfollowing : ∀ line ∈ frame.following,
      line.givesLength = false ∧ (line.isBlank → some frame.body.length = none) := by
    intro line hline
    obtain ⟨hother, hblank⟩ := frame.following_other line hline
    exact ⟨hother, fun h => absurd h (by simp [hblank])⟩
  have hend : headerEnd.isBlank := by decide
  rw [read, Framed.bytes_eq]
  simp only [append_assoc]
  rw [readFrom_lines hleading, readFrom_more (headerStep_length frame.short none),
    readFrom_lines hfollowing, readFrom, dif_neg (splitLine_ne_nil _), splitLine_line,
    headerStep_blank hend]
  cases hbody : readBytes? frame.body.toByteArray <;> simp [readBody, bodyRead, hbody]

/-! ## Streams -/

def streamBytes (frames : List Framed) : List UInt8 := frames.flatMap Framed.bytes

theorem readItems_stream (h : ∀ line ∈ last, line.givesLength = false) (frames : List Framed)
    {fuel : Nat} (hfuel : frames.length < fuel) :
    readItems fuel (streamBytes frames ++ linesBytes last)
      = frames.map (fun frame => bodyItem frame.body) ++ [.finished] := by
  induction frames generalizing fuel with
  | nil =>
    obtain ⟨fuel, rfl⟩ := Nat.exists_eq_add_one.mpr hfuel
    have hlines : readFrom none (linesBytes last ++ []) = readFrom none [] :=
      readFrom_lines (fun line hline => ⟨h line hline, fun _ => rfl⟩) []
    rw [append_nil] at hlines
    rw [streamBytes, flatMap_nil, nil_append, readItems, read, hlines, readFrom]
    rfl
  | cons frame frames ih =>
    obtain ⟨fuel, rfl⟩ := Nat.exists_eq_add_one.mpr (Nat.zero_lt_of_lt hfuel)
    rw [streamBytes, flatMap_cons, append_assoc, readItems, read_framed, bodyRead,
      map_cons, bodyItem, cons_append, ← ih (by simpa using hfuel)]
    cases readBytes? frame.body.toByteArray <;> rfl

theorem length_le_streamBytes (frames : List Framed) :
    frames.length ≤ (streamBytes frames).length := by
  induction frames with
  | nil => exact Nat.le_refl 0
  | cons frame frames ih =>
    have : 0 < (bytesOf "\r\n").length := by
      rw [bytesOf_eq]
      decide
    simp only [streamBytes, flatMap_cons, Framed.bytes, length_append, length_cons] at ih ⊢
    omega

theorem readAll_stream (h : ∀ line ∈ last, line.givesLength = false) (frames : List Framed) :
    readAll (streamBytes frames ++ linesBytes last)
      = frames.map (fun frame => bodyItem frame.body) ++ [.finished] := by
  have := length_le_streamBytes frames
  refine readItems_stream h frames ?_
  rw [length_append]
  omega

/-! ## Messages -/

def Framed.ofBody (body : List UInt8) (short : body.length < 0x10000000000000000) : Framed where
  leading := []
  following := []
  body := body
  short := short

theorem readBytes?_bytesOf : readBytes? (bytesOf text).toByteArray = read? text := by
  rw [readBytes?, utf8?_bytesOf, Option.bind_some]

theorem exists_frames {values : List Json}
    (h : ∀ value ∈ values, (bytesOf value.compact).length < 0x10000000000000000) :
    ∃ frames : List Framed, streamBytes frames = values.flatMap write ∧
      frames.map Framed.body = values.map fun value => bytesOf value.compact := by
  induction values with
  | nil => exact ⟨[], rfl, rfl⟩
  | cons value values ih =>
    obtain ⟨hvalue, hvalues⟩ := forall_mem_cons.mp h
    obtain ⟨frames, hbytes, hbodies⟩ := ih hvalues
    refine ⟨Framed.ofBody _ hvalue :: frames, ?_, ?_⟩
    · have hends : bytesOf "\r\n\r\n" = bytesOf "\r\n" ++ bytesOf "\r\n" :=
        bytesOf_append "\r\n" "\r\n"
      rw [streamBytes, flatMap_cons, ← streamBytes, hbytes]
      simp [Framed.bytes, Framed.ofBody, linesBytes, write, wrap, hends, bytesOf_append]
    · rw [map_cons, hbodies]
      rfl

theorem readAll_written {values : List Json}
    (hshort : ∀ value ∈ values, (bytesOf value.compact).length < 0x10000000000000000)
    (hread : ∀ value ∈ values, readWritten? value.compact = some value) :
    readAll (values.flatMap write)
      = values.map (fun value => .value value.normal) ++ [.finished] := by
  obtain ⟨frames, hbytes, hbodies⟩ := exists_frames hshort
  have hstream : readAll (streamBytes frames ++ linesBytes []) = _ :=
    readAll_stream (by simp) frames
  have hitems : frames.map (fun frame => bodyItem frame.body)
      = values.map fun value => .value value.normal := by
    rw [← Function.comp_def bodyItem, ← map_map, hbodies, map_map]
    refine map_congr_left fun value hvalue => ?_
    rw [Function.comp_apply, bodyItem, readBytes?_bytesOf, read?, hread value hvalue]
    rfl
  rwa [hitems, linesBytes, flatMap_nil, append_nil, hbytes] at hstream

/-- **Reading a stream gives what each body is, in order, and then the end, whatever the bodies and
the further lines are; so messages come back as they were written.** The last part says which
values are read back from their text. -/
theorem readAll_framed :
    (∀ (frames : List Framed) (last : List Line), (∀ line ∈ last, line.givesLength = false) →
      readAll (streamBytes frames ++ linesBytes last)
        = frames.map (fun frame => bodyItem frame.body) ++ [.finished]) ∧
    (∀ values : List Json,
      (∀ value ∈ values, (bytesOf value.compact).length < 0x10000000000000000) →
      (∀ value ∈ values, Json.readWritten? value.compact = some value) →
      readAll (values.flatMap write)
        = values.map (fun value => .value value.normal) ++ [.finished]) ∧
    (∀ value : Json, value.fits 128 = true → Json.readWritten? value.compact = some value) := by
  refine ⟨fun frames last hlast => readAll_stream hlast frames, ?_, ?_⟩
  · exact fun values hshort hread => readAll_written hshort hread
  · exact fun value hfits => Json.readWritten?_compact hfits

/-- A frame behind a blank line and a line that is no field; its body looks like a header. -/
def misleading : Framed where
  leading := [⟨" \r", by decide⟩, ⟨"début", by decide⟩]
  following := [⟨"Content-Type: text/plain\r", by decide⟩]
  body := bytesOf "Content-Length: 2\r\n\r\n[]"
  leading_other := by decide
  following_other := by
    simp only [Line.givesLength, lowerAscii_eq]
    decide
  short := by
    rw [bytesOf_eq]
    decide

def listing : Framed := .ofBody (bytesOf "[null]") (by rw [bytesOf_eq]; decide)

theorem readAll_framed_misleading :
    readAll (streamBytes [misleading, listing] ++ linesBytes [headerEnd])
      = [.malformed, .value (.array [.null]), .finished] ∧
    Json.fits 128 (.array [.integer (-7), .string "é\n"]) = true ∧
    readAll ([Json.array [.integer (-7), .string "é\n"], .null].flatMap write)
      = [.value (.array [.integer (-7), .string "é\n"]), .value .null, .finished] := by
  have hmalformed : bodyItem misleading.body = .malformed := by
    rw [misleading, bodyItem, readBytes?_bytesOf]
    rfl
  have hvalue : bodyItem listing.body = .value (.array [.null]) := by
    rw [listing, Framed.ofBody, bodyItem, readBytes?_bytesOf]
    rfl
  have hfits : Json.fits 128 (.array [.integer (-7), .string "é\n"]) = true := by decide
  refine ⟨?_, hfits, ?_⟩
  · rw [readAll_framed.1 _ _ (by decide), map_cons, map_cons, hmalformed, hvalue]
    rfl
  · refine readAll_framed.2.1 _ ?_ ?_
    · simp only [bytesOf_eq]
      decide
    · intro value hmem
      refine readAll_framed.2.2 value ?_
      simp only [mem_cons, not_mem_nil, or_false] at hmem
      rcases hmem with rfl | rfl
      · exact hfits
      · rfl

end RouteAtlas.Rpc.Frame
