import RouteAtlas.Text.Blank
import RouteAtlas.Text.Split

/-!
# Request methods

A method is written in upper case; `ALL` stands for every method. A registration may spell a
method in any case, with quotes around it, or as one of the wildcard spellings.
-/

namespace RouteAtlas.Http.Method

def all : String := "ALL"

/-- The router calls that register a route for one method. -/
def verbNames : List String := ["get", "post", "put", "delete", "patch", "options"]

/-- The methods a registration can name. -/
def known : List String := ["GET", "POST", "PUT", "PATCH", "DELETE", "OPTIONS", "HEAD"]

def isVerbName (name : String) : Bool := verbNames.contains name

/-- The method that a text names: white space, then quotes, are dropped from its ends. -/
def parse? (raw : String) : Option String :=
  let bare := Text.trimBy (fun c => c == '"' || c == '\'') (Text.trim raw).toList
  let upper := Text.upperAscii (String.ofList bare)
  if bare.isEmpty then none
  else if ["ALL", "ANY", "*"].contains upper then some all
  else if known.contains upper then some upper
  else none

/-- A resource registered for one method answers a request with another one: every resource for
all methods does, and a `HEAD` request also runs what is registered for `GET`. -/
def answers (registered requested : String) : Bool :=
  registered == all || registered == requested || (requested == "HEAD" && registered == "GET")

end RouteAtlas.Http.Method
