import Groupcache.Topology.Calls

/-!
# A cluster (`groupcache_inner.rs`, `http.rs`)

The nodes, by the address they answer on, and what is in progress on them:
calls of `get` and `remove`, made by the application or by a peer's request,
and FLIGHTS, the futures that the single-flight group runs for the calls that
share them. A call or a flight is at a phase, named after what it does next.
A request is the call it makes at the peer, which may never come to run; a
response is what that call returned, as the handler answers with it.

Values carry, for the record only, the number of the load that produced them,
cache entries the flight that wrote them, and a flight the load and the
request it has made. No step looks at these.
-/

namespace Groupcache

/-- What `rmp_serde` makes of the values (`ValueBounds`). -/
class ValueBounds (Value : Type) where
  toVec : Value → Except String (List UInt8)
  fromRead : List UInt8 → Except String Value

/-- A value, and the load that produced it. -/
structure Loaded (Value : Type) where
  value : Value
  load : Nat
  deriving DecidableEq

/-- A cache entry, and the flight that wrote it. -/
structure Entry (Value : Type) where
  loaded : Loaded Value
  flight : Nat

abbrev GetResult (Value : Type) := Except InternalGroupcacheError (Loaded Value)

abbrev RemoveResult := Except InternalGroupcacheError Unit

/-- The response of the `get` RPC, and the load of the value it carries. -/
structure GetResponse where
  value : Option (List UInt8)
  load : Nat

/-- The counters of `metrics.rs`. -/
structure Metrics where
  getTotal : Nat := 0
  getServerRequestsTotal : Nat := 0
  localCacheHitTotal : Nat := 0
  localLoadTotal : Nat := 0
  localLoadErrors : Nat := 0
  remoteLoadTotal : Nat := 0
  remoteLoadErrors : Nat := 0

section Handlers

variable [Platform] {Value : Type} [ValueBounds Value]

/-- The RPC handler `get`, from the result of the method on. -/
def respondGet : GetResult Value → Except Status GetResponse
  | .ok loaded =>
      match ValueBounds.toVec loaded.value with
      | .ok bytes => .ok { value := some bytes, load := loaded.load }
      | .error e => .error (.internal e)
  | .error e => .error (.internal (e.display Platform.debug))

/-- The RPC handler `remove`, from the result of the method on. -/
def respondRemove : RemoveResult → Except Status Unit
  | .ok _ => .ok ()
  | .error e => .error (.internal (e.display Platform.debug))

/-- `load_remotely`, from the response on; `none` when it panics. -/
def loadRemotely : Except Status GetResponse → Option (GetResult Value)
  | .error status => some (.error (.transport status))
  | .ok response =>
      match response.value with
      | none => none
      | some bytes =>
          match ValueBounds.fromRead bytes with
          | .ok value => some (.ok { value, load := response.load })
          | .error e => some (.error (.rmp e))

/-- `remove_remotely`, from the response on. -/
def removeRemotely : Except Status Unit → RemoveResult
  | .error status => .error (.transport status)
  | .ok _ => .ok ()

/-- A groupcache server never answers without a value. -/
theorem loadRemotely_respondGet_ne_none (result : GetResult Value) :
    loadRemotely (respondGet result) ≠ (none : Option (GetResult Value)) := by
  cases result with
  | error e => simp [respondGet, loadRemotely]
  | ok sent =>
      cases hb : ValueBounds.toVec sent.value with
      | error e => simp [respondGet, hb, loadRemotely]
      | ok bytes =>
          simp only [respondGet, hb, loadRemotely]
          split <;> simp

end Handlers

/-! ## What is in progress -/

/-- Where a call of `get_internal` is. -/
inductive GetPhase (Value : Type) where
  /-- A request that the handler has not taken up. -/
  | requested
  | called
  | mainLookup
  | hotLookup
  | hit (loaded : Loaded Value)
  | routing
  /-- It enters the single-flight group with the peer it has looked up. -/
  | deduping (peer : GroupcachePeerWithClient)
  | waiting (flight : Nat)
  | returned (result : GetResult Value)
  | panicked (message : String)

structure GetCall (Value : Type) where
  node : GroupcachePeer
  key : String
  /-- The flight whose request this is; none for the application's calls. -/
  origin : Option Nat
  /-- The flight it waits or has waited for. -/
  flight : Option Nat
  phase : GetPhase Value

/-- The value the call has returned. -/
def GetCall.value? {Value : Type} (g : GetCall Value) : Option (Loaded Value) :=
  match g.phase with
  | .returned (.ok loaded) => some loaded
  | _ => none

theorem GetCall.value?_eq_some {Value : Type} {g : GetCall Value} {loaded : Loaded Value} :
    g.value? = some loaded ↔ g.phase = .returned (.ok loaded) := by
  rw [GetCall.value?]
  split
  · rename_i found hp
    rw [hp, Option.some.injEq, GetPhase.returned.injEq, Except.ok.injEq]
  · rename_i hne
    exact ⟨nofun, fun hp => (hne loaded hp).elim⟩

/-- Where a run of `get_deduped` is. -/
inductive FlightPhase (Value : Type) where
  | opened
  | loading (load : Nat)
  | insertMain (loaded : Loaded Value)
  | awaiting (get : Nat)
  /-- It falls back to loading the value itself. -/
  | remoteFailed
  | insertHot (loaded : Loaded Value)
  /-- It is done and still registered in the group. -/
  | ending (result : GetResult Value)
  | ended (result : GetResult Value)
  | panicked (message : String)

structure Flight (Value : Type) where
  node : GroupcachePeer
  key : String
  /-- What the call that opened it had looked up. -/
  peer : GroupcachePeerWithClient
  request : Option Nat
  load : Option Nat
  phase : FlightPhase Value

/-- A call of `ValueLoader::load`. -/
structure LoadCall (Value : Type) where
  node : GroupcachePeer
  key : String
  flight : Nat
  result : Option (Except String Value)

/-- Where a call of `remove_internal` is. -/
inductive RemovePhase where
  | requested
  | called
  | routing
  | clearMain
  | awaiting (remove : Nat)
  | returned (result : RemoveResult)
  | panicked (message : String)

structure RemoveCall where
  node : GroupcachePeer
  key : String
  /-- The call whose request this is; none for the application's calls. -/
  origin : Option Nat
  /-- How many loads had been started when it was invoked. -/
  began : Nat
  phase : RemovePhase

/-- The call has returned Ok. -/
def RemoveCall.isOk (r : RemoveCall) : Bool :=
  match r.phase with
  | .returned (.ok ()) => true
  | _ => false

theorem RemoveCall.isOk_iff {r : RemoveCall} :
    r.isOk = true ↔ r.phase = .returned (.ok ()) := by
  rw [RemoveCall.isOk]
  split
  · rename_i hp
    exact iff_of_true rfl hp
  · rename_i hne
    exact ⟨nofun, fun hp => (hne hp).elim⟩

section Phases

variable {Value : Type}

instance (p : GetPhase Value) : Decidable (∃ result, p = .returned result) :=
  match p with
  | .returned result => isTrue ⟨result, rfl⟩
  | .requested | .called | .mainLookup | .hotLookup | .hit _ | .routing | .deduping _
  | .waiting _ | .panicked _ => isFalse nofun

instance (p : RemovePhase) : Decidable (∃ result, p = .returned result) :=
  match p with
  | .returned result => isTrue ⟨result, rfl⟩
  | .requested | .called | .routing | .clearMain | .awaiting _ | .panicked _ => isFalse nofun

instance (p : FlightPhase Value) : Decidable (∃ result, p = .ended result) :=
  match p with
  | .ended result => isTrue ⟨result, rfl⟩
  | .opened | .loading _ | .insertMain _ | .awaiting _ | .remoteFailed | .insertHot _ | .ending _
  | .panicked _ => isFalse nofun

instance (p : GetPhase Value) : Decidable (p = .requested) :=
  match p with
  | .requested => isTrue rfl
  | .called | .mainLookup | .hotLookup | .hit _ | .routing | .deduping _ | .waiting _
  | .returned _ | .panicked _ => isFalse nofun

instance (p : RemovePhase) : Decidable (p = .requested) :=
  match p with
  | .requested => isTrue rfl
  | .called | .routing | .clearMain | .awaiting _ | .returned _ | .panicked _ => isFalse nofun

instance (p : FlightPhase Value) (i : Nat) : Decidable (p = .awaiting i) :=
  match p with
  | .awaiting j => decidable_of_iff (j = i) (by rw [FlightPhase.awaiting.injEq])
  | .opened | .loading _ | .insertMain _ | .remoteFailed | .insertHot _ | .ending _ | .ended _
  | .panicked _ => isFalse nofun

instance (p : RemovePhase) (i : Nat) : Decidable (p = .awaiting i) :=
  match p with
  | .awaiting j => decidable_of_iff (j = i) (by rw [RemovePhase.awaiting.injEq])
  | .requested | .called | .routing | .clearMain | .returned _ | .panicked _ => isFalse nofun

end Phases

/-! ## The state -/

variable [Platform] {Value : Type}

/-- `GroupcacheInner`. The group has the flight that runs for a key. -/
structure GroupcacheInner (Value : Type) where
  topology : Topology
  singleFlightGroup : String → Option Nat
  mainCache : String → Option (Entry Value)
  hotCache : String → Option (Entry Value)

structure Cluster (Value : Type) where
  node : GroupcachePeer → GroupcacheInner Value
  metrics : GroupcachePeer → Metrics
  gets : List (GetCall Value)
  flights : List (Flight Value)
  removes : List RemoveCall
  loads : List (LoadCall Value)

/-- Nothing cached and nothing in progress; the nodes' tables are given. -/
def Cluster.start (routing : GroupcachePeer → RoutingState) : Cluster Value where
  node n :=
    { topology := { routing := routing n, calls := [] }
      singleFlightGroup := fun _ => none
      mainCache := fun _ => none
      hotCache := fun _ => none }
  metrics _ := {}
  gets := []
  flights := []
  removes := []
  loads := []

inductive Action (Value : Type) where
  /-- The application calls `get`. -/
  | get (node : GroupcachePeer) (key : String)
  /-- The application calls `remove`. -/
  | remove (node : GroupcachePeer) (key : String)
  | runGet (i : Nat)
  | runFlight (f : Nat)
  | runRemove (i : Nat)
  /-- The loader returns to the flight. -/
  | load (f : Nat) (result : Except String Value)
  /-- The flight's request fails. -/
  | failGet (f : Nat) (status : Status)
  | failRemove (i : Nat) (status : Status)
  | evictMain (node : GroupcachePeer) (key : String)
  | evictHot (node : GroupcachePeer) (key : String)
  | topology (node : GroupcachePeer) (action : TopologyAction)

namespace Cluster

variable (c : Cluster Value)

/-- Call `i` of `get`, on node `n`, has returned the value. -/
def Returned (i : Nat) (n : GroupcachePeer) (loaded : Loaded Value) : Prop :=
  ∃ g ∈ c.gets[i]?, g.node = n ∧ g.value? = some loaded

instance [DecidableEq Value] (i : Nat) (n : GroupcachePeer) (loaded : Loaded Value) :
    Decidable (c.Returned i n loaded) :=
  inferInstanceAs (Decidable (∃ g ∈ c.gets[i]?, g.node = n ∧ g.value? = some loaded))

/-! ## Updates -/

def setNode (n : GroupcachePeer) (x : GroupcacheInner Value) : Cluster Value :=
  { c with node := Function.update c.node n x }

def setMainCache (n : GroupcachePeer) (key : String) (e : Option (Entry Value)) : Cluster Value :=
  c.setNode n { c.node n with mainCache := Function.update (c.node n).mainCache key e }

def setHotCache (n : GroupcachePeer) (key : String) (e : Option (Entry Value)) : Cluster Value :=
  c.setNode n { c.node n with hotCache := Function.update (c.node n).hotCache key e }

def setFlightOf (n : GroupcachePeer) (key : String) (f : Option Nat) : Cluster Value :=
  c.setNode n
    { c.node n with singleFlightGroup := Function.update (c.node n).singleFlightGroup key f }

def setGet (i : Nat) (call : GetCall Value) : Cluster Value :=
  { c with gets := c.gets.set i call }

def setFlight (f : Nat) (flight : Flight Value) : Cluster Value :=
  { c with flights := c.flights.set f flight }

def setRemove (i : Nat) (call : RemoveCall) : Cluster Value :=
  { c with removes := c.removes.set i call }

/-- `counter!(..).increment(1)` on a node. -/
def count (n : GroupcachePeer) (increment : Metrics → Metrics) : Cluster Value :=
  { c with metrics := Function.update c.metrics n (increment (c.metrics n)) }

def setTopology (n : GroupcachePeer) (topology : Topology) : Cluster Value :=
  c.setNode n { c.node n with topology }

section Fields

variable {c} {n m : GroupcachePeer} {key k : String} {e : Option (Entry Value)} {f : Option Nat}
  {topology : Topology}

theorem node_setNode {x : GroupcacheInner Value} :
    (c.setNode n x).node m = if m = n then x else c.node m :=
  Function.update_apply ..

@[simp] theorem mainCache_setMainCache :
    ((c.setMainCache n key e).node m).mainCache k
      = if m = n ∧ k = key then e else (c.node m).mainCache k := by
  rw [setMainCache, node_setNode]
  by_cases hm : m = n <;> by_cases hk : k = key <;> simp [hm, hk]

@[simp] theorem hotCache_setMainCache :
    ((c.setMainCache n key e).node m).hotCache = (c.node m).hotCache := by
  rw [setMainCache, node_setNode]
  split <;> simp_all

@[simp] theorem singleFlightGroup_setMainCache :
    ((c.setMainCache n key e).node m).singleFlightGroup = (c.node m).singleFlightGroup := by
  rw [setMainCache, node_setNode]
  split <;> simp_all

@[simp] theorem topology_setMainCache :
    ((c.setMainCache n key e).node m).topology = (c.node m).topology := by
  rw [setMainCache, node_setNode]
  split <;> simp_all

@[simp] theorem hotCache_setHotCache :
    ((c.setHotCache n key e).node m).hotCache k
      = if m = n ∧ k = key then e else (c.node m).hotCache k := by
  rw [setHotCache, node_setNode]
  by_cases hm : m = n <;> by_cases hk : k = key <;> simp [hm, hk]

@[simp] theorem mainCache_setHotCache :
    ((c.setHotCache n key e).node m).mainCache = (c.node m).mainCache := by
  rw [setHotCache, node_setNode]
  split <;> simp_all

@[simp] theorem singleFlightGroup_setHotCache :
    ((c.setHotCache n key e).node m).singleFlightGroup = (c.node m).singleFlightGroup := by
  rw [setHotCache, node_setNode]
  split <;> simp_all

@[simp] theorem topology_setHotCache :
    ((c.setHotCache n key e).node m).topology = (c.node m).topology := by
  rw [setHotCache, node_setNode]
  split <;> simp_all

@[simp] theorem singleFlightGroup_setFlightOf :
    ((c.setFlightOf n key f).node m).singleFlightGroup k
      = if m = n ∧ k = key then f else (c.node m).singleFlightGroup k := by
  rw [setFlightOf, node_setNode]
  by_cases hm : m = n <;> by_cases hk : k = key <;> simp [hm, hk]

@[simp] theorem mainCache_setFlightOf :
    ((c.setFlightOf n key f).node m).mainCache = (c.node m).mainCache := by
  rw [setFlightOf, node_setNode]
  split <;> simp_all

@[simp] theorem hotCache_setFlightOf :
    ((c.setFlightOf n key f).node m).hotCache = (c.node m).hotCache := by
  rw [setFlightOf, node_setNode]
  split <;> simp_all

@[simp] theorem topology_setFlightOf :
    ((c.setFlightOf n key f).node m).topology = (c.node m).topology := by
  rw [setFlightOf, node_setNode]
  split <;> simp_all

@[simp] theorem mainCache_setTopology :
    ((c.setTopology n topology).node m).mainCache = (c.node m).mainCache := by
  rw [setTopology, node_setNode]
  split <;> simp_all

@[simp] theorem hotCache_setTopology :
    ((c.setTopology n topology).node m).hotCache = (c.node m).hotCache := by
  rw [setTopology, node_setNode]
  split <;> simp_all

@[simp] theorem singleFlightGroup_setTopology :
    ((c.setTopology n topology).node m).singleFlightGroup = (c.node m).singleFlightGroup := by
  rw [setTopology, node_setNode]
  split <;> simp_all

@[simp] theorem topology_setTopology :
    ((c.setTopology n topology).node m).topology
      = if m = n then topology else (c.node m).topology := by
  rw [setTopology, node_setNode]
  split <;> rfl

end Fields

end Cluster

end Groupcache
