import RouteAtlas.Source.Shape

/-!
# Call chains

A chain is a value with calls of its members behind it, each on the result of the one before. It has
a root, the calls in source order, and an outermost call.
-/

namespace RouteAtlas.Inventory

open Source

variable (n : Node)

def isAccess : Bool := n.isOneOf [.memberExpression, .subscriptExpression]

/-- A wrapper between the links of a chain. -/
def isWrapper : Bool :=
  n.isOneOf [.parenthesizedExpression, .nonNullExpression, .awaitExpression]

/-- The object whose member a call calls. -/
def receiver? (call : Node) : Option Node := do
  let target ← call.target?
  guard (isAccess target)
  target.child? .object

/-- One step towards the start of a chain of calls. -/
def linkStep? : Option Node :=
  if n.is .callExpression then receiver? n
  else if isWrapper n then n.named.head?
  else none

/-- One step towards the root of a chain, also through members that are not called. -/
def rootStep? : Option Node :=
  if isAccess n then n.child? .object else linkStep? n

def chainRoot : Node := n.follow rootStep?

/-- The calls from a node inwards, at most `fuel` steps. -/
def callsInward : (fuel : Nat) → Node → List Node
  | 0, _ => []
  | fuel + 1, n =>
    match n.is .callExpression, n.target? with
    | true, some target =>
      if isAccess target then
        n :: ((target.child? .object).map (callsInward fuel)).getD []
      else []
    | true, none => []
    | false, _ => ((linkStep? n).map (callsInward fuel)).getD []

def chainCalls : List Node := (callsInward n.size n).reverse

/-- The call is not the object of another call in its chain. -/
def isOutermostCall (s : Site) : Bool :=
  match s.above with
  | parent :: grand :: _ =>
    !(isAccess parent && s.node.role == some .object && grand.is .callExpression &&
      (parent.role == some .function || parent.role == some .constructor))
  | _ => true

end RouteAtlas.Inventory
