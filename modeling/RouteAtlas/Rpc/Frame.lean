import RouteAtlas.Json.Reader
import RouteAtlas.Json.Writer
import RouteAtlas.Text.Blank

/-!
# Message frames

A frame is a header, an empty line and a body. The header's `Content-Length` line gives the number
of bytes of the body, which is one JSON value. A body that is not JSON costs only its own frame:
the reader knows where it ends and goes on behind it.
-/

namespace RouteAtlas.Rpc

/-- Why a stream of frames cannot be read any further. -/
inductive FrameError where
  /-- The header gives a length that is no number; the text is the length as given. -/
  | badLength (given : String)
  /-- The stream ends inside a body, or a header line is no text. -/
  | broken
  deriving DecidableEq, Repr

/-- What reading one frame gives, with the bytes behind it. -/
inductive FrameRead where
  | value (body : Json) (rest : List UInt8)
  | malformed (rest : List UInt8)
  /-- The stream is unusable. -/
  | failed (error : FrameError)
  /-- The stream ended where a header could start or go on. -/
  | finished

namespace Frame

def bytesOf (text : String) : List UInt8 := text.toUTF8.toList

def wrap (body : List UInt8) : List UInt8 :=
  bytesOf ("Content-Length: " ++ toString body.length ++ "\r\n\r\n") ++ body

def write (value : Json) : List UInt8 := wrap (bytesOf value.compact)

/-- The bytes up to and with the first line feed, and the rest. -/
def splitLine : List UInt8 → List UInt8 × List UInt8
  | [] => ([], [])
  | b :: bs =>
    if b == 10 then ([b], bs)
    else
      let (line, rest) := splitLine bs
      (b :: line, rest)

/-- What follows a line is no longer than the bytes with the line. -/
theorem splitLine_length (bs : List UInt8) :
    (splitLine bs).1.length + (splitLine bs).2.length = bs.length := by
  induction bs with
  | nil => rfl
  | cons b bs ih =>
    unfold splitLine
    split <;> simp_all <;> omega

/-- A line is empty only at the end of the stream. -/
theorem splitLine_rest_lt {bs : List UInt8} (h : (splitLine bs).1 ≠ []) :
    (splitLine bs).2.length < bs.length := by
  have := splitLine_length bs
  have := List.length_pos_iff.2 h
  omega

/-- A length is a number in decimal digits, perhaps with a plus sign, that fits in 64 bits. -/
def lengthOf? (text : String) : Option Nat :=
  let cs := text.toList
  let ds := if cs.head? == some '+' then cs.tail else cs
  if ds.isEmpty || !ds.all Char.isDigit then none
  else
    let n := Json.digitsValue ds
    if n < 0x10000000000000000 then some n else none

def lengthLine (line : String) : Except FrameError (Option Nat) :=
  match Text.cutAt? ':' line with
  | none => .ok none
  | some (name, value) =>
    if Text.lowerAscii (Text.trim name) = "content-length" then
      match lengthOf? (Text.trim value) with
      | some n => .ok (some n)
      | none => .error (.badLength value)
    else .ok none

def readBody (size : Nat) (bytes : List UInt8) : FrameRead :=
  let body := bytes.take size
  if body.length < size then .failed .broken
  else
    let rest := bytes.drop size
    match Json.readBytes? body.toByteArray with
    | some value => .value value rest
    | none => .malformed rest

/-- What a line of a header comes to. -/
inductive HeaderStep where
  /-- The header is complete; the body has this many bytes. -/
  | body (size : Nat)
  /-- The header goes on, with the last length given so far. -/
  | more (length? : Option Nat)
  | failed (error : FrameError)

/-- The meaning of a header line; an empty line ends the header only if a length was given. -/
def headerStep (length? : Option Nat) (bytes : List UInt8) : HeaderStep :=
  match Text.utf8? bytes.toByteArray with
  | none => .failed .broken
  | some line =>
    if Text.trim line = "" then
      match length? with
      | some size => .body size
      | none => .more none
    else
      match lengthLine (Text.trim line) with
      | .error e => .failed e
      | .ok (some size) => .more (some size)
      | .ok none => .more length?

/-- Reads header lines, the last length given so far in hand, and then the body. -/
def readFrom (length? : Option Nat) (bytes : List UInt8) : FrameRead :=
  if _h : (splitLine bytes).1 = [] then .finished
  else
    match headerStep length? (splitLine bytes).1 with
    | .body size => readBody size (splitLine bytes).2
    | .failed e => .failed e
    | .more length? => readFrom length? (splitLine bytes).2
termination_by bytes.length
decreasing_by exact splitLine_rest_lt _h

/-- Reads one frame of a stream that may go on behind the given bytes; `none` if it is not known yet
what they hold. -/
def readOpenFrom? (length? : Option Nat) (bytes : List UInt8) : Option FrameRead :=
  if _h : (splitLine bytes).1.getLast? = some 10 then
    match headerStep length? (splitLine bytes).1 with
    | .body size =>
      let rest := (splitLine bytes).2
      if rest.length < size then none else some (readBody size rest)
    | .failed e => some (.failed e)
    | .more length? => readOpenFrom? length? (splitLine bytes).2
  else none
termination_by bytes.length
decreasing_by exact splitLine_rest_lt (fun e => by simp [e] at _h)

variable (bytes : List UInt8)

def readOpen? : Option FrameRead := readOpenFrom? none bytes

/-- The length that the header of the first frame gives, once the header is whole. -/
def bodySizeFrom? (length? : Option Nat) (bytes : List UInt8) : Option Nat :=
  if _h : (splitLine bytes).1.getLast? = some 10 then
    match headerStep length? (splitLine bytes).1 with
    | .body size => some size
    | .failed _ => none
    | .more length? => bodySizeFrom? length? (splitLine bytes).2
  else none
termination_by bytes.length
decreasing_by exact splitLine_rest_lt (fun e => by simp [e] at _h)

/-- The room for a body is taken before it is read, and there is never room for more bytes. -/
def largestBody : Nat := 0x7fffffffffffffff

def read : FrameRead := readFrom none bytes

/-- One result of reading a stream to its end. -/
inductive Item where
  | value (body : Json)
  | malformed
  /-- Why reading stopped early. -/
  | failed (error : FrameError)
  | finished

/-- Everything the stream holds: values and malformed bodies, then the end or a failure. Each frame
takes at least one byte, so `fuel` above the number of bytes is enough. -/
def readItems : (fuel : Nat) → List UInt8 → List Item
  | 0, _ => []
  | fuel + 1, bytes =>
    match read bytes with
    | .value body rest => .value body :: readItems fuel rest
    | .malformed rest => .malformed :: readItems fuel rest
    | .failed e => [.failed e]
    | .finished => [.finished]

def readAll : List Item := readItems (bytes.length + 1) bytes

end Frame

end RouteAtlas.Rpc
