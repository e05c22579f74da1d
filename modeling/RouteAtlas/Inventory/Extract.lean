import RouteAtlas.Inventory.Registration

/-!
# The contribution of a file

A file is read in passes: constants, constructions, functions that make routers, further names,
registrations, exports. Each pass looks only at what the ones before it found.
-/

namespace RouteAtlas.Inventory

open Source

variable (x : Findings) (r : Reading)

/-- What a name stands for at an offset: a router, a function that makes one, or a name of another
module. -/
def Findings.named? (name : String) (offset : Nat) : Option MountTarget :=
  match x.lookup? name offset with
  | some handle => x.targetOf? handle.router
  | none =>
    match x.factories.lookup name with
    | some handle => x.targetOf? handle.router
    | none => (findBinding? r.bindings name).map fun b => .imported b.specifier b.imported

def Findings.valueTarget? (n : Node) : Option MountTarget :=
  if n.is .identifier then x.named? r (r.textOf n) n.start
  else (x.owner? (chainRoot n).start).bind x.targetOf?

/-- The findings with the names that an exported declaration gives out. -/
def Findings.withDeclaration (isDefault : Bool) (n : Node) : Findings :=
  if n.isOneOf [.lexicalDeclaration, .variableDeclaration] then
    n.named.foldl (fun x declarator =>
      match declarator.child? .name with
      | some name => x.giveOut (r.textOf name) (x.named? r (r.textOf name) declarator.stop)
      | none => x) x
  else if n.kindIs Kind.isFunctionDeclaration then
    match n.child? .name with
    | some name =>
      let target := x.named? r (r.textOf name) n.stop
      let y := if isDefault then x.giveOut "default" target else x
      y.giveOut (r.textOf name) target
    | none => x
  else x

/-- The findings with the names that a list of names gives out. -/
def Findings.withClause (offset : Nat) (clause : Node) : Findings :=
  clause.named.foldl (fun x item =>
    match item.child? .name with
    | some name =>
      let own := r.textOf name
      let given := ((item.child? .alias).map r.textOf).getD own
      x.giveOut given (x.named? r own offset)
    | none => x) x

def Findings.withExport (n : Node) : Findings :=
  let isDefault := n.hasToken "default" || n.hasToken "="
  if (n.child? .source).isSome then x
  else match n.child? .declaration with
    | some declaration => x.withDeclaration r isDefault declaration
    | none =>
      match n.child? .value with
      | some value => x.giveOut "default" (x.valueTarget? r value.unwrapped)
      | none =>
        if isDefault then
          x.giveOut "default" ((n.named.find? (!·.is .comment)).bind fun v =>
            x.valueTarget? r v.unwrapped)
        else (n.named.filter (·.is .exportClause)).foldl (·.withClause r n.start ·) x

/-- The findings with what a statement such as `module.exports = app` gives out. -/
def Findings.withAssignment (n : Node) : Findings :=
  match n.named.head? with
  | none => x
  | some expr =>
    match expr.is .assignmentExpression, expr.child? .left, expr.child? .right with
    | true, some left, some right =>
      if r.textOf left == "module.exports" then
        x.giveOut "default" (x.valueTarget? r right.unwrapped)
      else x
    | _, _, _ => x

def Findings.withExports : Findings :=
  r.file.tree.named.foldl (fun x n =>
    if n.is .exportStatement then x.withExport r n
    else if n.is .expressionStatement then x.withAssignment r n
    else x) x

/-- What a file contributes, with the given names from other modules. -/
def contributionWith (file : File) (bindings : List Binding) : Contribution :=
  let r := Reading.ofFile file bindings
  let x := (r.routers.withRegistrations r).withExports r
  ⟨file.path, file.relPath, file.version, x.routers, x.exports, bindings, x.errors⟩

def contributionOf (file : File) : Contribution :=
  contributionWith file (bindingsOf file.text file.tree)

end RouteAtlas.Inventory
