import RouteAtlas.Inventory.Extract
import RouteAtlas.Inventory.Network
import RouteAtlas.Inventory.Request

/-!
# Route graphs

The contributions of all files, and resources that come from elsewhere. An analysis links every
mount to its router, through imports and re-exports, and walks the network. How an import finds its
file is a parameter, which may also remember what it looked up.
-/

namespace RouteAtlas.Inventory

/-- A resource that comes from elsewhere than the sources. -/
structure Extra where
  method : String
  path : String
  origin : Origin
  handler : Handler
  deriving DecidableEq, Repr

/-- The contributions of the files of a project, in path order, and further resources. -/
structure Graph where
  root : Path
  contributions : List Contribution := []
  extras : List Extra := []

namespace Graph

variable (g : Graph)

def contribution? (file : Path) : Option Contribution :=
  g.contributions.find? (·.file.same file)

def putContribution (c : Contribution) : List Contribution → List Contribution
  | [] => [c]
  | d :: ds =>
    match c.file.compare d.file with
    | .lt => c :: d :: ds
    | .eq => c :: ds
    | .gt => d :: putContribution c ds

def replace (c : Contribution) : Graph :=
  { g with contributions := putContribution c g.contributions }

def remove (file : Path) : Graph :=
  { g with contributions := g.contributions.filter (!·.file.same file) }

def addExtra (method path : String) (origin : Origin) (handlerText : String) : Graph :=
  let method := (Http.Method.parse? method).getD (Text.upperAscii method)
  { g with extras := g.extras ++
      [⟨method, Http.Pattern.join "" path, origin, { text := handlerText, kind := .other }⟩] }

def addCustom (method path handlerText : String) : Graph :=
  g.addExtra method path .custom handlerText

def addImported (method path : String) : Graph := g.addExtra method path .imported ""

/-! ## Linking -/

section Linking

variable {m : Type → Type} [Monad m]

/-- How often exports may be followed from module to module. -/
def exportHops : Nat := 9

variable (g : Graph) (resolve : String → Path → m (Option Path))

def hasRouter (key : RouterKey) : Bool :=
  g.contributions.any fun c => c.routers.any (·.key.same key)

/-- What a file passes on under a name: the name in the module that it comes from. -/
def passedOn? (name : String) (b : Binding) : Option MountTarget :=
  (b.forwards? name).map (.imported b.specifier)

/-- The router that a file gives out under a name, if `link` follows its targets. -/
def exported? (link : MountTarget → Path → m (Option RouterKey)) (file : Path)
    (name : String) : m (Option RouterKey) :=
  match g.contribution? file with
  | none => pure none
  | some c =>
    match c.exports.lookup name with
    | some target => link target file
    | none => (c.bindings.filterMap (passedOn? name)).findSomeM? fun target => link target file

/-- The router that a target stands for in a file; names are followed through at most `hops`
modules. -/
def link? (g : Graph) (resolve : String → Path → m (Option Path)) :
    (hops : Nat) → MountTarget → Path → m (Option RouterKey)
  | 0, _, _ => pure none
  | _ + 1, .router key, _ => pure (if g.hasRouter key then some key else none)
  | hops + 1, .imported specifier name, from_ => do
    match ← resolve specifier from_ with
    | none => return none
    | some file => g.exported? (link? g resolve hops) file name

def linkEntry (file : Path) :
    Entry → m LinkedEntry
  | .resource draft => pure (.resource draft)
  | .mount mount => do return .mount mount (← g.link? resolve exportHops mount.target file)

/-- The routers of the files by their keys, each with its file; of several with one key the last
one counts. -/
def keyedRouters : List (Contribution × Router) :=
  (g.contributions.flatMap fun c => c.routers.map (c, ·)).foldr
    (fun a later => if later.any (·.2.key.same a.2.key) then later else a :: later) []

def linkRouter (c : Contribution)
    (t : Router) : m LinkedRouter := do
  return ⟨t.key, c.relPath, t.fromFactory, ← t.entries.mapM (g.linkEntry resolve c.file)⟩

def network : m Network :=
  g.keyedRouters.mapM fun (c, t) => g.linkRouter resolve c t

end Linking

/-! ## Analysis -/

def extraResource (e : Extra) (index order : Nat) : Resource :=
  let source := match e.origin with
    | .custom => "custom"
    | _ => "imported"
  ⟨ResourceKind.route.tag ++ ":" ++ source ++ "#" ++ toString index, e.method, e.path, .route,
    e.origin, e.handler, order⟩

/-- The resources with the further ones behind them, each unless it is there already. -/
def withExtras : (order index : Nat) → List Resource → List Extra → List Resource
  | _, _, resources, [] => resources
  | order, index, resources, e :: es =>
    let r := extraResource e index order
    if resources.any (·.sameIdentity r) then withExtras order (index + 1) resources es
    else withExtras (order + 1) (index + 1) (resources ++ [r]) es

/-- The number behind all numbers of the resources. -/
def nextOrder (resources : List Resource) : Nat :=
  (resources.map (·.order + 1)).foldl max 0

def analysisOf (net : Network) : Analysis :=
  let walk := walkAll net
  let discovered := firstOfEach Resource.identity [] walk.resources
  let resources := withExtras (nextOrder discovered) 0 discovered g.extras
  { resources
    errors := g.contributions.flatMap (·.errors) ++ walk.errors
    warnings := walk.warnings ++ ambiguousOrders resources }

def analyze {m : Type → Type} [Monad m] (resolve : String → Path → m (Option Path)) :
    m Analysis := do
  return g.analysisOf (← g.network resolve)

end Graph

/-- The resources of one file, with the mounts between its own routers. -/
def resourcesOf (file : Source.File) (bindings : List Binding) : List Resource :=
  let graph : Graph := { root := (file.path.parent?).getD ⟨"/"⟩ }
  (Id.run ((graph.replace (contributionWith file bindings)).analyze fun _ _ => none)).resources

end RouteAtlas.Inventory
