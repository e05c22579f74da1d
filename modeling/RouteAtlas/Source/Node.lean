import RouteAtlas.Source.Kind
import RouteAtlas.Source.Position
import RouteAtlas.Text.Blank
import RouteAtlas.Text.Bytes

/-!
# Syntax trees

A node has a label, a range of byte offsets and children in source order. Named nodes carry a kind;
all other nodes are tokens such as keywords and brackets. Positions are not stored: a line and a
column follow from the offset and the text.
-/

namespace RouteAtlas.Source

/-- What a node shows: its kind, or the token it is. -/
inductive Label where
  | named (kind : Kind)
  | token (text : String)
  deriving DecidableEq, Repr

/-- A node of a syntax tree: its label, its part in its parent, the bytes it covers, its children.
-/
inductive Node where
  | mk (label : Label) (role : Option Role) (start stop : Nat) (children : List Node)
  deriving Repr

namespace Node

def label : Node → Label
  | mk label _ _ _ _ => label

def role : Node → Option Role
  | mk _ role _ _ _ => role

def start : Node → Nat
  | mk _ _ start _ _ => start

def stop : Node → Nat
  | mk _ _ _ stop _ => stop

def children : Node → List Node
  | mk _ _ _ _ children => children

variable (n : Node)

def kind? : Option Kind :=
  match n.label with
  | .named kind => some kind
  | .token _ => none

def is (kind : Kind) : Bool := n.kind? == some kind

def isOneOf (kinds : List Kind) : Bool := kinds.any n.is

def isNamed : Bool := n.kind?.isSome

def kindName : String :=
  match n.label with
  | .named kind => kind.name
  | .token text => text

def named : List Node := n.children.filter isNamed

def child? (role : Role) : Option Node := n.children.find? (·.role == some role)

def hasToken (text : String) : Bool := n.children.any (·.label == .token text)

def withRole (role : Role) : Node → Node
  | mk label _ start stop children => mk label (some role) start stop children

def token (text : String) (start stop : Nat) : Node := mk (.token text) none start stop []

def leaf (kind : Kind) (start stop : Nat) : Node := mk (.named kind) none start stop []

/-- A named node over its children, of which there is at least one. -/
def spanning (kind : Kind) (children : List Node) : Node :=
  mk (.named kind) none ((children.head?.map start).getD 0) ((children.getLast?.map stop).getD 0)
    children

/-- The text of the node as it stands. -/
def source (text : String) : String := Text.slice text n.start n.stop

/-- The text of the node without white space at its ends. -/
def text (source : String) : String := Text.trim (n.source source)

end Node

/-- The line and the byte column of an offset, reading on from a given position. -/
def advance (p : Position) : (bytes : Nat) → List Char → Position
  | _, [] => p
  | bytes, c :: cs =>
    if bytes < c.utf8Size then p
    else if c == '\n' then advance ⟨p.line + 1, 0⟩ (bytes - 1) cs
    else advance ⟨p.line, p.character + c.utf8Size⟩ (bytes - c.utf8Size) cs

/-- The line and the byte column of an offset in a text, both counted from zero. -/
def positionAt (text : String) (offset : Nat) : Position := advance ⟨0, 0⟩ offset text.toList

def Node.position (n : Node) (text : String) : Position := positionAt text n.start

def Node.range (n : Node) (text : String) : Range :=
  ⟨positionAt text n.start, positionAt text n.stop⟩

/-- A range with lines and columns counted from one. -/
structure Span where
  startLine : Nat
  startColumn : Nat
  endLine : Nat
  endColumn : Nat
  deriving DecidableEq, Repr

def Span.members (s : Span) : List (String × Json) :=
  [("startLine", .ofNat s.startLine), ("startColumn", .ofNat s.startColumn),
    ("endLine", .ofNat s.endLine), ("endColumn", .ofNat s.endColumn)]

def Span.toJson (s : Span) : Json := .object s.members

def Node.span (n : Node) (text : String) : Span :=
  let r := n.range text
  ⟨r.start.line + 1, r.start.character + 1, r.stop.line + 1, r.stop.character + 1⟩

end RouteAtlas.Source
