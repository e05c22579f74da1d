import RouteAtlas.Rpc.Session

/-!
# Sessions by project

At most one session serves a project root. A session that can no longer be used is ended and
replaced when the project is asked for again.
-/

namespace RouteAtlas.Rpc

open Files

/-- How language servers are started. -/
structure Launcher (σ : Type) where
  command : String
  /-- The peer that the command starts, or why it cannot be run. -/
  peer : Except String (Peer σ)
  /-- How long a request waits, in milliseconds. -/
  timeout : Nat
  processId : Nat := 0

/-- The sessions that were started, by number, and which one serves a root. -/
structure Registry (σ : Type) where
  launcher : Launcher σ
  sessions : List (Session σ) := []
  serving : List (Path × Nat) := []

namespace Registry

variable {σ : Type}

variable (r : Registry σ)

def session? (number : Nat) : Option (Session σ) :=
  r.sessions.find? (·.number = number)

variable (root : Path)

def serving? : Option (Session σ) :=
  (r.serving.find? (·.1.same root)).bind fun (_, number) => r.session? number

def size : Nat := r.serving.length

def update (s : Session σ) : Registry σ :=
  { r with sessions := r.sessions.map fun old => if old.number = s.number then s else old }

def release : Registry σ :=
  { r with serving := r.serving.filter fun (served, _) => !served.same root }

def add (s : Session σ) : Nat × Registry σ :=
  let number := r.sessions.length
  let r := r.release root
  (number, { r with
    sessions := r.sessions ++ [{ s with number }]
    serving := r.serving ++ [(root, number)] })

def launch : Except SessionError (Session σ) :=
  match r.launcher.peer with
  | .error reason => .error (.startFailed (r.launcher.command ++ ": " ++ reason))
  | .ok peer =>
    let s : Session σ :=
      { root, connection := { peer }, timeout := r.launcher.timeout,
        processId := r.launcher.processId }
    match s.handshake with
    | (.ok _, s) => .ok s
    | (.error e, _) => .error (.startFailed e.message)

def replace : Except SessionError Nat × Registry σ :=
  match r.launch root with
  | .error e => (.error e, r)
  | .ok s =>
    let (number, r) := r.add root s
    (.ok number, r)

/-- The session for a project; one that cannot be used any longer is replaced. -/
def start (t : Tree) (root : Path) : Except SessionError Nat × Registry σ :=
  let root := t.settled root
  match r.serving? root with
  | none => r.replace root
  | some s =>
    if s.isAlive then (.ok s.number, r) else ((r.release root).update s.dispose).replace root

/-- A session that is connected already serves its root from now on; the one before is ended. -/
def insert (t : Tree) (s : Session σ) : Nat × Registry σ :=
  let root := t.settled s.root
  let r := match r.serving? root with
    | some old => r.update old.dispose
    | none => r
  r.add root s

def disposeAll : Registry σ :=
  let r := r.serving.foldl (fun r (_, number) =>
    match r.session? number with
    | some s => r.update s.dispose
    | none => r) r
  { r with serving := [] }

end Registry

end RouteAtlas.Rpc
