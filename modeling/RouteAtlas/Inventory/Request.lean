import RouteAtlas.Http.Method
import RouteAtlas.Http.Pattern
import RouteAtlas.Inventory.Resource

/-!
# Requests

Which resources a request runs, in the order in which they were registered.
-/

namespace RouteAtlas.Inventory

def pathOfTarget (target : String) : String :=
  String.ofList (target.toList.takeWhile fun c => c ≠ '?' ∧ c ≠ '#')

def Resource.answers (r : Resource) (method path : String) : Bool :=
  Http.Method.answers r.method method && Http.Pattern.accepts r.path path

/-- The resources that a request runs, in the order of registration. -/
def runBy (resources : List Resource) (method target : String) : List Resource :=
  let method := Text.upperAscii (Text.trim method)
  (resources.filter (·.answers method (pathOfTarget target))).mergeSort fun a b => a.order ≤ b.order

end RouteAtlas.Inventory
