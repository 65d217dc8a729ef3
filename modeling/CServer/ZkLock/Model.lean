import CServer.Foundation.Runs
import Mathlib.Data.List.Perm.Basic
import Mathlib.Logic.Function.Basic

/-!
# The lock with ZooKeeper nodes

Clients that run main.c of chap4.3, and the server. A client sends requests, which the server serves
in order, and it gets the replies and the events of its watches in order; a callback runs for each
of them. The nodes below `/lock/res1` are named by their sequence numbers. An action that is not
possible leaves the state as it is.
-/
namespace CServer.ZkLock

/-- A path: the empty one, or the node of `/lock/res1` with this number. -/
abbrev Path := Option ℕ

inductive Request where
  | create
  | getChildren
  | exists (path : Path)
  | delete (path : Path)
  deriving DecidableEq

/-- What a client gets: the results of its requests, and calls of its watcher. -/
inductive Message where
  | created (value : ℕ)
  | children (strings : List ℕ)
  | stat (found : Bool)
  | deleted (found : Bool)
  | event (path : Path)
  deriving DecidableEq

/-- A client with `zmt`, what it has sent, what it has not yet received, and its watches. -/
structure Session where
  started : Bool
  closed : Bool
  quit : Bool
  seqMe : ℕ
  seqWatch : ℕ
  watch : Path
  requests : List Request
  inbox : List Message
  watches : List ℕ

/-- The variables of the scan in `zk_get_children_lock_res1`; `seqWatch` is a part of `zmt`. -/
structure Scan where
  n : ℕ
  seqWatch : ℕ
  valueSelf : Path
  valueOther : Path

/-- A turn of the loop over the names. -/
def scanName (seqMe : ℕ) (s : Scan) (v : ℕ) : Scan :=
  if v < seqMe then
    if s.n = 0 then { s with seqWatch := v, valueOther := some v, n := s.n + 1 }
    else if s.n > 0 ∧ v > s.seqWatch then
      { s with seqWatch := v, valueOther := some v, n := s.n + 1 }
    else s
  else if v = seqMe then { s with valueSelf := some v }
  else s

/-- The loop of `zk_get_children_lock_res1`. -/
def scan (seqMe seqWatch : ℕ) (strings : List ℕ) : Scan :=
  strings.foldl (scanName seqMe) ⟨0, seqWatch, none, none⟩

/-- What a callback does: it changes its client, and takes the lock, which means that it deletes a
node. -/
structure Effect where
  session : Session
  take : Option Path

def Session.send (c : Session) (r : Request) : Session := { c with requests := c.requests ++ [r] }

/-- `zk_get_children_lock_res1`. -/
def zkGetChildrenLockRes1 (c : Session) (strings : List ℕ) : Effect :=
  let s := scan c.seqMe c.seqWatch strings
  let c := { c with seqWatch := s.seqWatch }
  if s.n = 0 then ⟨c.send (.delete s.valueSelf), some s.valueSelf⟩
  else
    let c := { c with watch := s.valueOther }
    ⟨c.send (.exists s.valueOther), none⟩

/-- `zk_create_lock_res1_es`. -/
def zkCreateLockRes1Es (c : Session) (value : ℕ) : Effect :=
  let c := { c with seqMe := value }
  if value > 0 then ⟨c.send .getChildren, none⟩
  else ⟨c.send (.delete (some value)), some (some value)⟩

/-- `zk_watcher_disconnect`. -/
def zkWatcherDisconnect (c : Session) (path : Path) : Effect :=
  if c.watch = none then ⟨c, none⟩
  else if c.watch = path then ⟨c.send .getChildren, none⟩
  else ⟨c, none⟩

/-- The callback for a message. `zk_watch_children` prints only. -/
def callback (c : Session) : Message → Effect
  | .created value => zkCreateLockRes1Es c value
  | .children strings => zkGetChildrenLockRes1 c strings
  | .stat _ => ⟨c, none⟩
  | .deleted _ => ⟨{ c with quit := true }, none⟩
  | .event path => zkWatcherDisconnect c path

/-- A take of the lock, with the nodes there were and the clients that own them. -/
structure Take (Client : Type) where
  client : Client
  path : Path
  live : List (ℕ × Client)

/-- All clients, the nodes with their owners, the number of the next node, and the takes so far. -/
structure State (Client : Type) where
  sessions : Client → Session
  live : List (ℕ × Client)
  next : ℕ
  takes : List (Take Client)

variable {Client : Type} [DecidableEq Client]

def start : State Client := ⟨fun _ => ⟨false, false, false, 0, 0, none, [], [], []⟩, [], 0, []⟩

inductive Action (Client : Type) where
  | main (i : Client)
  | serve (i : Client) (strings : List ℕ)
  | receive (i : Client)
  | reconnect (i : Client)
  | close (i : Client)

def State.set (σ : State Client) (i : Client) (c : Session) : State Client :=
  { σ with sessions := Function.update σ.sessions i c }

/-- The watches of the paths fire, once. -/
def Session.fire (c : Session) (paths : List ℕ) : Session :=
  { c with
    inbox := c.inbox ++ (c.watches.filter (· ∈ paths)).map fun path => .event (some path)
    watches := c.watches.filter (· ∉ paths) }

def State.fire (σ : State Client) (paths : List ℕ) : State Client :=
  { σ with sessions := fun i => (σ.sessions i).fire paths }

def State.reply (σ : State Client) (i : Client) (m : Message) : State Client :=
  σ.set i { σ.sessions i with inbox := (σ.sessions i).inbox ++ [m] }

/-- The server does what a request of the client says. The children come in any order. -/
def serve (σ : State Client) (i : Client) (strings : List ℕ) : Request → State Client
  | .create =>
    ({ σ with live := σ.live ++ [(σ.next, i)], next := σ.next + 1 }.fire [σ.next]).reply i
      (.created σ.next)
  | .getChildren => σ.reply i (.children strings)
  | .exists path =>
    let c := σ.sessions i
    let watches := match path with
      | none => c.watches
      | some p => if p ∈ c.watches then c.watches else p :: c.watches
    (σ.set i { c with watches := watches }).reply i (.stat (σ.live.any fun node => some node.1 = path))
  | .delete path =>
    let gone := (σ.live.filter fun node => some node.1 = path).map Prod.fst
    ({ σ with live := σ.live.filter fun node => ¬some node.1 = path }.fire gone).reply i
      (.deleted (gone ≠ []))

/-- One action. `main` creates the node, and at the end closes the session; then the server deletes
the nodes of the client. -/
def step (σ : State Client) : Action Client → State Client
  | .main i =>
    let c := σ.sessions i
    if c.started then σ else σ.set i ({ c with started := true }.send .create)
  | .serve i strings =>
    let c := σ.sessions i
    match c.requests with
    | [] => σ
    | r :: rest =>
      match r with
      | .getChildren =>
        if strings.Perm (σ.live.map Prod.fst) then
          serve (σ.set i { c with requests := rest }) i strings .getChildren
        else σ
      | r => serve (σ.set i { c with requests := rest }) i strings r
  | .receive i =>
    let c := σ.sessions i
    match c.inbox with
    | [] => σ
    | m :: rest =>
      let effect := callback { c with inbox := rest } m
      match effect.take with
      | none => σ.set i effect.session
      | some path =>
        { σ.set i effect.session with takes := σ.takes ++ [⟨i, path, σ.live⟩] }
  | .reconnect i =>
    let c := σ.sessions i
    if c.started ∧ ¬c.closed then σ.reply i (.event none) else σ
  | .close i =>
    let c := σ.sessions i
    if c.quit ∧ ¬c.closed then
      let gone := (σ.live.filter fun node => node.2 = i).map Prod.fst
      ({ σ with live := σ.live.filter fun node => ¬node.2 = i }.set i
        { c with closed := true, requests := [], inbox := [], watches := [] }).fire gone
    else σ

theorem step_main (σ : State Client) (i : Client) : step σ (.main i) =
    if (σ.sessions i).started then σ
    else σ.set i ({ σ.sessions i with started := true }.send .create) := rfl

theorem step_serve (σ : State Client) (i : Client) (strings : List ℕ) :
    step σ (.serve i strings) =
      match (σ.sessions i).requests with
      | [] => σ
      | r :: rest =>
        match r with
        | .getChildren =>
          if strings.Perm (σ.live.map Prod.fst) then
            serve (σ.set i { σ.sessions i with requests := rest }) i strings .getChildren
          else σ
        | r => serve (σ.set i { σ.sessions i with requests := rest }) i strings r := rfl

theorem step_receive (σ : State Client) (i : Client) : step σ (.receive i) =
    match (σ.sessions i).inbox with
    | [] => σ
    | m :: rest =>
      let effect := callback { σ.sessions i with inbox := rest } m
      match effect.take with
      | none => σ.set i effect.session
      | some path =>
        { σ.set i effect.session with takes := σ.takes ++ [⟨i, path, σ.live⟩] } := rfl

theorem step_reconnect (σ : State Client) (i : Client) : step σ (.reconnect i) =
    if (σ.sessions i).started ∧ ¬(σ.sessions i).closed then σ.reply i (.event none) else σ := rfl

theorem step_close (σ : State Client) (i : Client) : step σ (.close i) =
    if (σ.sessions i).quit ∧ ¬(σ.sessions i).closed then
      let gone := (σ.live.filter fun node => node.2 = i).map Prod.fst
      ({ σ with live := σ.live.filter fun node => ¬node.2 = i }.set i
        { σ.sessions i with closed := true, requests := [], inbox := [], watches := [] }).fire gone
    else σ := rfl

/-- The state after some actions. -/
def run (actions : List (Action Client)) : State Client := Runs.finalState step start actions

end CServer.ZkLock
