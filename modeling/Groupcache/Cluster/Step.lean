import Groupcache.Cluster.State
import Groupcache.Lib.Table

/-!
# The steps of a cluster

`Cluster.step` runs one piece of one call or flight, up to the next point
where another can come in: a cache, the routing lock, the single-flight
group, the loader or the network. `Move` says the same as a relation, by what
a step changes: one call, one flight, or a call or flight together with a
cache, the group, the loads or a request. Invariants are proved over `Move`
(`Cluster.step_move`).
-/

namespace Groupcache

variable [Platform] {Value : Type} [ValueBounds Value]

/-- What `get_deduped` makes of the loader's result: the owner has the value
to insert, and a node that falls back has not. -/
def Flight.afterLoad (flight : Flight Value) (load : Nat) :
    Except String Value → FlightPhase Value
  | .ok value =>
      if flight.peer.peer = flight.node then .insertMain { value, load }
      else .ending (.ok { value, load })
  | .error e => .ending (.error (.localLoader e))

namespace Cluster

variable (c : Cluster Value)

/-! ## `get_internal` -/

/-- `get_deduped_instrumented`: the call joins the flight that runs for its
key, or opens one for the peer it has looked up. -/
def getDeduped (i : Nat) (call : GetCall Value) (peer : GroupcachePeerWithClient) :
    Cluster Value :=
  match (c.node call.node).singleFlightGroup call.key with
  | some f => c.setGet i { call with flight := some f, phase := .waiting f }
  | none =>
      -- the calls that join go by this peer, whatever they have looked up
      let flight : Flight Value :=
        { node := call.node, key := call.key, peer, request := none, load := none
          phase := .opened }
      let f := c.flights.length
      { (c.setFlightOf call.node call.key (some f)).setGet i
          { call with flight := some f, phase := .waiting f } with
        flights := c.flights ++ [flight] }

def runGet (i : Nat) (call : GetCall Value) : Option (Cluster Value) :=
  let node := c.node call.node
  match call.phase with
  | .requested =>
      some ((c.count call.node fun m =>
        { m with getServerRequestsTotal := m.getServerRequestsTotal + 1 }).setGet i
          { call with phase := .called })
  | .called =>
      some ((c.count call.node fun m => { m with getTotal := m.getTotal + 1 }).setGet i
        { call with phase := .mainLookup })
  | .mainLookup =>
      -- not asking yet who owns the key
      match node.mainCache call.key with
      | some entry => some (c.setGet i { call with phase := .hit entry.loaded })
      | none => some (c.setGet i { call with phase := .hotLookup })
  | .hotLookup =>
      match node.hotCache call.key with
      | some entry => some (c.setGet i { call with phase := .hit entry.loaded })
      | none => some (c.setGet i { call with phase := .routing })
  | .hit loaded =>
      some ((c.count call.node fun m =>
        { m with localCacheHitTotal := m.localCacheHitTotal + 1 }).setGet i
          { call with phase := .returned (.ok loaded) })
  | .routing =>
      match node.topology.routing.lookupPeer call.key with
      | .ok peer => some (c.setGet i { call with phase := .deduping peer })
      | .error (.error message) =>
          some (c.setGet i { call with phase := .returned (.error (.anyhow message)) })
      | .error (.panic message) => some (c.setGet i { call with phase := .panicked message })
  | .deduping peer => some (c.getDeduped i call peer)
  | .waiting f =>
      match c.flights[f]? with
      | none => none
      | some flight =>
          match flight.phase with
          | .ended result =>
              -- an error reaches every caller wrapped, the one that ran the flight included
              some (c.setGet i { call with phase := .returned (result.mapError .deduped) })
          | _ => none
  | .returned _ => none
  | .panicked _ => none

/-! ## `get_deduped` -/

/-- `load_locally_instrumented`, up to the call of the loader. -/
def startLoad (f : Nat) (flight : Flight Value) : Cluster Value :=
  let load := c.loads.length
  { (c.count flight.node fun m => { m with localLoadTotal := m.localLoadTotal + 1 }).setFlight f
      { flight with load := some load, phase := .loading load } with
    loads := c.loads ++ [{ node := flight.node, key := flight.key, flight := f, result := none }] }

/-- `load_remotely_instrumented`, up to the request. -/
def sendGet (f : Nat) (flight : Flight Value) (client : GroupcachePeerClient) : Cluster Value :=
  let request := c.gets.length
  { (c.count flight.node fun m => { m with remoteLoadTotal := m.remoteLoadTotal + 1 }).setFlight f
      { flight with request := some request, phase := .awaiting request } with
    gets := c.gets ++ [{ node := client.peer, key := flight.key, origin := some f, flight := none
                         phase := .requested }] }

/-- The rest of `load_remotely_instrumented`, and what `get_deduped` makes of
its result. -/
def receiveGet (f : Nat) (flight : Flight Value) (response : Except Status GetResponse) :
    Cluster Value :=
  match loadRemotely response with
  | some (.ok loaded) => c.setFlight f { flight with phase := .insertHot loaded }
  | some (.error _) =>
      (c.count flight.node fun m =>
        { m with remoteLoadErrors := m.remoteLoadErrors + 1 }).setFlight f
          { flight with phase := .remoteFailed }
  | none =>
      c.setFlight f
        { flight with phase := .panicked "called `Option::unwrap()` on a `None` value" }

def runFlight (f : Nat) (flight : Flight Value) : Option (Cluster Value) :=
  match flight.phase with
  | .opened =>
      match flight.peer.dispatch flight.node with
      | .ok .here => some (c.startLoad f flight)
      | .ok (.over client) => some (c.sendGet f flight client)
      | .error e => some (c.setFlight f { flight with phase := .ending (.error e) })
  -- until the loader returns (`Action.load`)
  | .loading _ => none
  | .insertMain loaded =>
      some ((c.setMainCache flight.node flight.key (some { loaded, flight := f })).setFlight f
        { flight with phase := .ending (.ok loaded) })
  | .awaiting request =>
      match c.gets[request]? with
      | none => none
      | some call =>
          match call.phase with
          | .returned result => some (c.receiveGet f flight (respondGet result))
          | _ => none
  -- whatever the failure was; what it loads is not cached
  | .remoteFailed => some (c.startLoad f flight)
  | .insertHot loaded =>
      some ((c.setHotCache flight.node flight.key (some { loaded, flight := f })).setFlight f
        { flight with phase := .ending (.ok loaded) })
  | .ending result =>
      some ((c.setFlightOf flight.node flight.key none).setFlight f
        { flight with phase := .ended result })
  | .ended _ => none
  | .panicked _ => none

/-- The rest of `load_locally_instrumented`. -/
def finishLoad (f : Nat) (flight : Flight Value) (load : Nat) (result : Except String Value) :
    Cluster Value :=
  let c := { c with loads := c.loads.modify load fun l => { l with result := some result } }
  let flight' := { flight with phase := flight.afterLoad load result }
  match result with
  | .ok _ => c.setFlight f flight'
  | .error _ =>
      (c.count flight.node fun m =>
        { m with localLoadErrors := m.localLoadErrors + 1 }).setFlight f flight'

/-! ## `remove_internal` -/

def sendRemove (i : Nat) (call : RemoveCall) (client : GroupcachePeerClient) : Cluster Value :=
  let request := c.removes.length
  { c with
    removes := c.removes.set i { call with phase := .awaiting request } ++
      [{ node := client.peer, key := call.key, origin := some i, began := c.loads.length
         phase := .requested }] }

def runRemove (i : Nat) (call : RemoveCall) : Option (Cluster Value) :=
  match call.phase with
  -- the handler takes the request up: this is when it is invoked here
  | .requested => some (c.setRemove i { call with began := c.loads.length, phase := .called })
  | .called =>
      -- before the owner is known, and whether it can be reached
      some ((c.setHotCache call.node call.key none).setRemove i { call with phase := .routing })
  | .routing =>
      match (c.node call.node).topology.routing.lookupPeer call.key with
      | .ok peer =>
          match peer.dispatch call.node with
          | .ok .here => some (c.setRemove i { call with phase := .clearMain })
          | .ok (.over client) => some (c.sendRemove i call client)
          | .error e => some (c.setRemove i { call with phase := .returned (.error e) })
      | .error (.error message) =>
          some (c.setRemove i { call with phase := .returned (.error (.anyhow message)) })
      | .error (.panic message) => some (c.setRemove i { call with phase := .panicked message })
  | .clearMain =>
      some ((c.setMainCache call.node call.key none).setRemove i
        { call with phase := .returned (.ok ()) })
  | .awaiting request =>
      match c.removes[request]? with
      | none => none
      | some callee =>
          match callee.phase with
          | .returned result =>
              some (c.setRemove i
                { call with phase := .returned (removeRemotely (respondRemove result)) })
          | _ => none
  | .returned _ => none
  | .panicked _ => none

/-! ## The step -/

def step : Action Value → Option (Cluster Value)
  | .get node key =>
      some { c with gets := c.gets ++ [{ node, key, origin := none, flight := none
                                         phase := .called }] }
  | .remove node key =>
      some { c with removes := c.removes ++ [{ node, key, origin := none
                                               began := c.loads.length, phase := .called }] }
  | .runGet i => c.gets[i]?.bind (c.runGet i)
  | .runFlight f => c.flights[f]?.bind (c.runFlight f)
  | .runRemove i => c.removes[i]?.bind (c.runRemove i)
  | .load f result =>
      match c.flights[f]? with
      | none => none
      | some flight =>
          match flight.phase with
          | .loading load => some (c.finishLoad f flight load result)
          | _ => none
  | .failGet f status =>
      match c.flights[f]? with
      | none => none
      | some flight =>
          match flight.phase with
          | .awaiting _ => some (c.receiveGet f flight (.error status))
          | _ => none
  | .failRemove i status =>
      match c.removes[i]? with
      | none => none
      | some call =>
          match call.phase with
          | .awaiting _ =>
              some (c.setRemove i { call with phase := .returned (removeRemotely (.error status)) })
          | _ => none
  | .evictMain node key => some (c.setMainCache node key none)
  | .evictHot node key => some (c.setHotCache node key none)
  | .topology node action =>
      ((c.node node).topology.step action).map (c.setTopology node)

variable {c}

/-- The step of a call that looks up its peer. -/
theorem step_routing {i : Nat} {call : GetCall Value} {peer : GroupcachePeerWithClient}
    (hcall : c.gets[i]? = some call) (hp : call.phase = .routing)
    (hl : (c.node call.node).topology.routing.lookupPeer call.key = .ok peer) :
    c.step (.runGet i) = some (c.setGet i { call with phase := .deduping peer }) := by
  simp only [step, hcall, Option.bind_some, runGet, hp, hl]

/-- The step of a `remove` that finds its own node to be the owner. -/
theorem step_owned {i : Nat} {call : RemoveCall} {peer : GroupcachePeerWithClient}
    (hcall : c.removes[i]? = some call) (hp : call.phase = .routing)
    (hl : (c.node call.node).topology.routing.lookupPeer call.key = .ok peer)
    (hown : peer.peer = call.node) :
    c.step (.runRemove i) = some (c.setRemove i { call with phase := .clearMain }) := by
  simp only [step, hcall, Option.bind_some, runRemove, hp, hl, GroupcachePeerWithClient.dispatch,
    if_pos hown]

/-- The step of a `remove` that finds another node to be the owner. -/
theorem step_sendRemove {i : Nat} {call : RemoveCall} {peer : GroupcachePeerWithClient}
    {client : GroupcachePeerClient} (hcall : c.removes[i]? = some call)
    (hp : call.phase = .routing)
    (hl : (c.node call.node).topology.routing.lookupPeer call.key = .ok peer)
    (hne : peer.peer ≠ call.node) (hc : peer.client = some client) :
    c.step (.runRemove i) = some (c.sendRemove i call client) := by
  simp only [step, hcall, Option.bind_some, runRemove, hp, hl, GroupcachePeerWithClient.dispatch,
    if_neg hne, hc]

end Cluster

/-! ## The step, by what it changes -/

/-- The pieces of a call of `get` that change nothing but the call, and a
counter. -/
inductive GetStep (c : Cluster Value) (call : GetCall Value) : GetCall Value → Prop where
  | received : call.phase = .requested → GetStep c call { call with phase := .called }
  | counted : call.phase = .called → GetStep c call { call with phase := .mainLookup }
  | mainHit {entry : Entry Value} : call.phase = .mainLookup →
      (c.node call.node).mainCache call.key = some entry →
      GetStep c call { call with phase := .hit entry.loaded }
  | mainMiss : call.phase = .mainLookup → (c.node call.node).mainCache call.key = none →
      GetStep c call { call with phase := .hotLookup }
  | hotHit {entry : Entry Value} : call.phase = .hotLookup →
      (c.node call.node).hotCache call.key = some entry →
      GetStep c call { call with phase := .hit entry.loaded }
  | hotMiss : call.phase = .hotLookup → (c.node call.node).hotCache call.key = none →
      GetStep c call { call with phase := .routing }
  | hit {loaded : Loaded Value} : call.phase = .hit loaded →
      GetStep c call { call with phase := .returned (.ok loaded) }
  | routed {peer : GroupcachePeerWithClient} : call.phase = .routing →
      (c.node call.node).topology.routing.lookupPeer call.key = .ok peer →
      GetStep c call { call with phase := .deduping peer }
  | unrouted {message : String} : call.phase = .routing →
      (c.node call.node).topology.routing.lookupPeer call.key = .error (.error message) →
      GetStep c call { call with phase := .returned (.error (.anyhow message)) }
  | panicked {message : String} : call.phase = .routing →
      (c.node call.node).topology.routing.lookupPeer call.key = .error (.panic message) →
      GetStep c call { call with phase := .panicked message }
  | joined {peer : GroupcachePeerWithClient} {f : Nat} : call.phase = .deduping peer →
      (c.node call.node).singleFlightGroup call.key = some f →
      GetStep c call { call with flight := some f, phase := .waiting f }
  | shared {f : Nat} {flight : Flight Value} {result : GetResult Value} :
      call.phase = .waiting f → c.flights[f]? = some flight → flight.phase = .ended result →
      GetStep c call { call with phase := .returned (result.mapError .deduped) }

/-- The pieces of a flight that change nothing but the flight, and a counter. -/
inductive FlightStep (c : Cluster Value) (flight : Flight Value) : Flight Value → Prop where
  | unreachable {e : InternalGroupcacheError} : flight.phase = .opened →
      flight.peer.dispatch flight.node = .error e →
      FlightStep c flight { flight with phase := .ending (.error e) }
  | answered {request : Nat} {call : GetCall Value} {result : GetResult Value}
      {loaded : Loaded Value} : flight.phase = .awaiting request →
      c.gets[request]? = some call → call.phase = .returned result →
      loadRemotely (respondGet result) = some (.ok loaded) →
      FlightStep c flight { flight with phase := .insertHot loaded }
  | refused {request : Nat} {call : GetCall Value} {result : GetResult Value}
      {e : InternalGroupcacheError} : flight.phase = .awaiting request →
      c.gets[request]? = some call → call.phase = .returned result →
      loadRemotely (respondGet result) = (some (.error e) : Option (GetResult Value)) →
      FlightStep c flight { flight with phase := .remoteFailed }

/-- The pieces of a call of `remove` that change nothing but the call. -/
inductive RemoveStep (c : Cluster Value) (call : RemoveCall) : RemoveCall → Prop where
  | received : call.phase = .requested →
      RemoveStep c call { call with began := c.loads.length, phase := .called }
  | owned {peer : GroupcachePeerWithClient} : call.phase = .routing →
      (c.node call.node).topology.routing.lookupPeer call.key = .ok peer →
      peer.dispatch call.node = .ok .here →
      RemoveStep c call { call with phase := .clearMain }
  | unrouted {e : InternalGroupcacheError} : call.phase = .routing →
      RemoveStep c call { call with phase := .returned (.error e) }
  | panicked {message : String} : call.phase = .routing →
      RemoveStep c call { call with phase := .panicked message }
  | answered {request : Nat} {callee : RemoveCall} {result : RemoveResult} :
      call.phase = .awaiting request → c.removes[request]? = some callee →
      callee.phase = .returned result →
      RemoveStep c call { call with phase := .returned (removeRemotely (respondRemove result)) }

/-- `Cluster.step`, by what it changes. -/
inductive Move (c : Cluster Value) : Action Value → Cluster Value → Prop where
  | get (node : GroupcachePeer) (key : String) :
      Move c (.get node key) { c with
        gets := c.gets ++ [{ node, key, origin := none, flight := none, phase := .called }] }
  | getStep {i : Nat} {call call' : GetCall Value} (metrics : GroupcachePeer → Metrics) :
      c.gets[i]? = some call → GetStep c call call' →
      Move c (.runGet i) { c with metrics, gets := c.gets.set i call' }
  | openFlight {i : Nat} {call : GetCall Value} {peer : GroupcachePeerWithClient} :
      c.gets[i]? = some call → call.phase = .deduping peer →
      (c.node call.node).singleFlightGroup call.key = none →
      Move c (.runGet i) { c.setFlightOf call.node call.key (some c.flights.length) with
        gets := c.gets.set i
          { call with flight := some c.flights.length, phase := .waiting c.flights.length }
        flights := c.flights ++ [{ node := call.node, key := call.key, peer, request := none
                                   load := none, phase := .opened }] }
  | flightStep {f : Nat} {flight flight' : Flight Value} (metrics : GroupcachePeer → Metrics) :
      c.flights[f]? = some flight → FlightStep c flight flight' →
      Move c (.runFlight f) { c with metrics, flights := c.flights.set f flight' }
  | unwrapped {f request : Nat} {flight : Flight Value} {call : GetCall Value}
      {result : GetResult Value} (message : String) : c.flights[f]? = some flight →
      flight.phase = .awaiting request → c.gets[request]? = some call →
      call.phase = .returned result →
      loadRemotely (respondGet result) = (none : Option (GetResult Value)) →
      Move c (.runFlight f) (c.setFlight f { flight with phase := .panicked message })
  | lost {f request : Nat} {flight : Flight Value} (metrics : GroupcachePeer → Metrics)
      (status : Status) : c.flights[f]? = some flight → flight.phase = .awaiting request →
      Move c (.failGet f status) { c with
        metrics, flights := c.flights.set f { flight with phase := .remoteFailed } }
  | startLoad {f : Nat} {flight : Flight Value} (metrics : GroupcachePeer → Metrics) :
      c.flights[f]? = some flight →
      (flight.phase = .opened ∧ flight.peer.peer = flight.node) ∨ flight.phase = .remoteFailed →
      Move c (.runFlight f) { c with
        metrics
        flights := c.flights.set f
          { flight with load := some c.loads.length, phase := .loading c.loads.length }
        loads := c.loads ++ [{ node := flight.node, key := flight.key, flight := f
                               result := none }] }
  | sendGet {f : Nat} {flight : Flight Value} {client : GroupcachePeerClient}
      (metrics : GroupcachePeer → Metrics) :
      c.flights[f]? = some flight → flight.phase = .opened → flight.peer.peer ≠ flight.node →
      flight.peer.client = some client →
      Move c (.runFlight f) { c with
        metrics
        flights := c.flights.set f
          { flight with request := some c.gets.length, phase := .awaiting c.gets.length }
        gets := c.gets ++ [{ node := client.peer, key := flight.key, origin := some f
                             flight := none, phase := .requested }] }
  | finishLoad {f load : Nat} {flight : Flight Value} (metrics : GroupcachePeer → Metrics)
      (result : Except String Value) :
      c.flights[f]? = some flight → flight.phase = .loading load →
      Move c (.load f result) { c with
        metrics
        loads := c.loads.modify load fun l => { l with result := some result }
        flights := c.flights.set f { flight with phase := flight.afterLoad load result } }
  | insertMain {f : Nat} {flight : Flight Value} {loaded : Loaded Value} :
      c.flights[f]? = some flight → flight.phase = .insertMain loaded →
      Move c (.runFlight f)
        ((c.setMainCache flight.node flight.key (some { loaded, flight := f })).setFlight f
          { flight with phase := .ending (.ok loaded) })
  | insertHot {f : Nat} {flight : Flight Value} {loaded : Loaded Value} :
      c.flights[f]? = some flight → flight.phase = .insertHot loaded →
      Move c (.runFlight f)
        ((c.setHotCache flight.node flight.key (some { loaded, flight := f })).setFlight f
          { flight with phase := .ending (.ok loaded) })
  | endFlight {f : Nat} {flight : Flight Value} {result : GetResult Value} :
      c.flights[f]? = some flight → flight.phase = .ending result →
      Move c (.runFlight f) ((c.setFlightOf flight.node flight.key none).setFlight f
        { flight with phase := .ended result })
  | remove (node : GroupcachePeer) (key : String) :
      Move c (.remove node key) { c with
        removes := c.removes ++ [{ node, key, origin := none, began := c.loads.length
                                   phase := .called }] }
  | removeStep {i : Nat} {call call' : RemoveCall} :
      c.removes[i]? = some call → RemoveStep c call call' →
      Move c (.runRemove i) (c.setRemove i call')
  | lostRemove {i request : Nat} {call : RemoveCall} (status : Status) :
      c.removes[i]? = some call → call.phase = .awaiting request →
      Move c (.failRemove i status)
        (c.setRemove i { call with phase := .returned (removeRemotely (.error status)) })
  | clearHot {i : Nat} {call : RemoveCall} : c.removes[i]? = some call → call.phase = .called →
      Move c (.runRemove i)
        ((c.setHotCache call.node call.key none).setRemove i { call with phase := .routing })
  | clearMain {i : Nat} {call : RemoveCall} :
      c.removes[i]? = some call → call.phase = .clearMain →
      Move c (.runRemove i) ((c.setMainCache call.node call.key none).setRemove i
        { call with phase := .returned (.ok ()) })
  | sendRemove {i : Nat} {call : RemoveCall} {peer : GroupcachePeerWithClient}
      {client : GroupcachePeerClient} : c.removes[i]? = some call → call.phase = .routing →
      (c.node call.node).topology.routing.lookupPeer call.key = .ok peer →
      peer.peer ≠ call.node → peer.client = some client →
      Move c (.runRemove i) (c.sendRemove i call client)
  | evictMain (node : GroupcachePeer) (key : String) :
      Move c (.evictMain node key) (c.setMainCache node key none)
  | evictHot (node : GroupcachePeer) (key : String) :
      Move c (.evictHot node key) (c.setHotCache node key none)
  | topology (node : GroupcachePeer) {action : TopologyAction} {topology : Topology} :
      (c.node node).topology.step action = some topology →
      Move c (.topology node action) (c.setTopology node topology)

omit [ValueBounds Value] in
/-- A call stays on its node and with its key. -/
theorem GetStep.same {c : Cluster Value} {call call' : GetCall Value} (h : GetStep c call call') :
    call'.node = call.node ∧ call'.key = call.key := by
  cases h <;> exact ⟨rfl, rfl⟩

omit [Platform] in
theorem dispatch_here {peer : GroupcachePeerWithClient} {me : GroupcachePeer}
    (h : peer.dispatch me = .ok .here) : peer.peer = me := by
  by_contra hne
  simp only [GroupcachePeerWithClient.dispatch, if_neg hne] at h
  split at h <;> cases h

omit [Platform] in
theorem dispatch_over {peer : GroupcachePeerWithClient} {me : GroupcachePeer}
    {client : GroupcachePeerClient} (h : peer.dispatch me = .ok (.over client)) :
    peer.peer ≠ me ∧ peer.client = some client := by
  by_cases hme : peer.peer = me
  · simp [GroupcachePeerWithClient.dispatch, hme] at h
  · simp only [GroupcachePeerWithClient.dispatch, if_neg hme] at h
    split at h <;> cases h
    exact ⟨hme, by assumption⟩

namespace Cluster

variable {c c' : Cluster Value} {a : Action Value}

theorem runGet_move {i : Nat} {call : GetCall Value} (hcall : c.gets[i]? = some call)
    (h : c.runGet i call = some c') : Move c (.runGet i) c' := by
  have keep : ∀ call', GetStep c call call' → Move c (.runGet i) (c.setGet i call') :=
    fun _ hs => .getStep c.metrics hcall hs
  unfold runGet at h
  cases hp : call.phase with
  | requested => simp only [hp] at h; cases h; exact .getStep _ hcall (.received hp)
  | called => simp only [hp] at h; cases h; exact .getStep _ hcall (.counted hp)
  | mainLookup =>
      simp only [hp] at h
      split at h <;> cases h
      · exact keep _ (.mainHit hp ‹_›)
      · exact keep _ (.mainMiss hp ‹_›)
  | hotLookup =>
      simp only [hp] at h
      split at h <;> cases h
      · exact keep _ (.hotHit hp ‹_›)
      · exact keep _ (.hotMiss hp ‹_›)
  | hit loaded => simp only [hp] at h; cases h; exact .getStep _ hcall (.hit hp)
  | routing =>
      simp only [hp] at h
      split at h <;> cases h
      · exact keep _ (.routed hp ‹_›)
      · exact keep _ (.unrouted hp ‹_›)
      · exact keep _ (.panicked hp ‹_›)
  | deduping peer =>
      simp only [hp, getDeduped] at h
      split at h <;> cases h
      · exact keep _ (.joined hp ‹_›)
      · exact .openFlight hcall hp ‹_›
  | waiting f =>
      simp only [hp] at h
      split at h
      · cases h
      · split at h <;> cases h
        exact keep _ (.shared hp ‹_› ‹_›)
  | returned result => simp only [hp] at h; cases h
  | panicked message => simp only [hp] at h; cases h

theorem runFlight_move {f : Nat} {flight : Flight Value} (hf : c.flights[f]? = some flight)
    (h : c.runFlight f flight = some c') : Move c (.runFlight f) c' := by
  unfold runFlight at h
  cases hp : flight.phase with
  | opened =>
      simp only [hp] at h
      split at h <;> cases h
      · exact .startLoad _ hf (.inl ⟨hp, dispatch_here ‹_›⟩)
      · obtain ⟨hne, hclient⟩ := dispatch_over ‹_›
        exact .sendGet _ hf hp hne hclient
      · exact .flightStep c.metrics hf (.unreachable hp ‹_›)
  | loading load => simp only [hp] at h; cases h
  | insertMain loaded => simp only [hp] at h; cases h; exact .insertMain hf hp
  | awaiting request =>
      simp only [hp] at h
      split at h
      · cases h
      · split at h
        · cases h
          unfold receiveGet
          split
          · exact .flightStep c.metrics hf (.answered hp ‹_› ‹_› ‹_›)
          · exact .flightStep _ hf (.refused hp ‹_› ‹_› ‹_›)
          · exact .unwrapped _ hf hp ‹_› ‹_› ‹_›
        · cases h
  | remoteFailed => simp only [hp] at h; cases h; exact .startLoad _ hf (.inr hp)
  | insertHot loaded => simp only [hp] at h; cases h; exact .insertHot hf hp
  | ending result => simp only [hp] at h; cases h; exact .endFlight hf hp
  | ended result => simp only [hp] at h; cases h
  | panicked message => simp only [hp] at h; cases h

theorem runRemove_move {i : Nat} {call : RemoveCall} (hcall : c.removes[i]? = some call)
    (h : c.runRemove i call = some c') : Move c (.runRemove i) c' := by
  unfold runRemove at h
  cases hp : call.phase with
  | requested => simp only [hp] at h; cases h; exact .removeStep hcall (.received hp)
  | called => simp only [hp] at h; cases h; exact .clearHot hcall hp
  | routing =>
      simp only [hp] at h
      split at h
      · split at h <;> cases h
        · exact .removeStep hcall (.owned hp ‹_› ‹_›)
        · obtain ⟨hne, hclient⟩ := dispatch_over ‹_›
          exact .sendRemove hcall hp ‹_› hne hclient
        · exact .removeStep hcall (.unrouted hp)
      · cases h; exact .removeStep hcall (.unrouted hp)
      · cases h; exact .removeStep hcall (.panicked hp)
  | clearMain => simp only [hp] at h; cases h; exact .clearMain hcall hp
  | awaiting request =>
      simp only [hp] at h
      split at h
      · cases h
      · split at h <;> cases h
        exact .removeStep hcall (.answered hp ‹_› ‹_›)
  | returned result => simp only [hp] at h; cases h
  | panicked message => simp only [hp] at h; cases h

/-- **A step is a move.** -/
theorem step_move (h : c.step a = some c') : Move c a c' := by
  cases a with
  | get node key => cases h; exact .get node key
  | remove node key => cases h; exact .remove node key
  | runGet i =>
      obtain ⟨call, hcall, h⟩ := Option.bind_eq_some_iff.mp h
      exact runGet_move hcall h
  | runFlight f =>
      obtain ⟨flight, hf, h⟩ := Option.bind_eq_some_iff.mp h
      exact runFlight_move hf h
  | runRemove i =>
      obtain ⟨call, hcall, h⟩ := Option.bind_eq_some_iff.mp h
      exact runRemove_move hcall h
  | load f result =>
      simp only [step] at h
      split at h
      · cases h
      · split at h <;> cases h
        rename_i flight hf _ load hp
        cases result with
        | ok value => exact .finishLoad c.metrics _ hf hp
        | error e => exact .finishLoad _ _ hf hp
  | failGet f status =>
      simp only [step] at h
      split at h
      · cases h
      · split at h <;> cases h
        exact .lost _ status ‹_› ‹_›
  | failRemove i status =>
      simp only [step] at h
      split at h
      · cases h
      · split at h <;> cases h
        exact .lostRemove status ‹_› ‹_›
  | evictMain node key => cases h; exact .evictMain node key
  | evictHot node key => cases h; exact .evictHot node key
  | topology node action =>
      obtain ⟨topology, htop, h⟩ := Option.map_eq_some_iff.mp h
      cases h
      exact .topology node htop

end Cluster

/-! ## What a step can do to one table, call or flight -/

/-- What a call of `remove` has become. -/
structure RemoveCall.Becomes (r r' : RemoveCall) : Prop where
  node : r'.node = r.node
  key : r'.key = r.key
  returned : ∀ result, r.phase = .returned result → r' = r

omit [Platform] in
theorem RemoveCall.Becomes.refl (r : RemoveCall) : r.Becomes r := ⟨rfl, rfl, fun _ _ => rfl⟩

/-- How a flight goes on. It never panics, as no server answers without a
value. -/
inductive FlightNext (c c' : Cluster Value) (f : Nat) (fl : Flight Value) :
    Action Value → Flight Value → Prop where
  | alone {fl' : Flight Value} : FlightStep c fl fl' → FlightNext c c' f fl (.runFlight f) fl'
  | lost {request : Nat} (status : Status) : fl.phase = .awaiting request →
      FlightNext c c' f fl (.failGet f status) { fl with phase := .remoteFailed }
  | startLoad : (fl.phase = .opened ∧ fl.peer.peer = fl.node) ∨ fl.phase = .remoteFailed →
      FlightNext c c' f fl (.runFlight f)
        { fl with load := some c.loads.length, phase := .loading c.loads.length }
  | sendGet {client : GroupcachePeerClient} : fl.phase = .opened → fl.peer.peer ≠ fl.node →
      fl.peer.client = some client → FlightNext c c' f fl (.runFlight f)
        { fl with request := some c.gets.length, phase := .awaiting c.gets.length }
  | finishLoad {load : Nat} (result : Except String Value) : fl.phase = .loading load →
      FlightNext c c' f fl (.load f result) { fl with phase := fl.afterLoad load result }
  | insertMain {loaded : Loaded Value} : fl.phase = .insertMain loaded →
      (c'.node fl.node).mainCache fl.key = some { loaded, flight := f } →
      FlightNext c c' f fl (.runFlight f) { fl with phase := .ending (.ok loaded) }
  | insertHot {loaded : Loaded Value} : fl.phase = .insertHot loaded →
      FlightNext c c' f fl (.runFlight f) { fl with phase := .ending (.ok loaded) }
  | endFlight {result : GetResult Value} : fl.phase = .ending result →
      FlightNext c c' f fl (.runFlight f) { fl with phase := .ended result }

theorem FlightNext.same {c c' : Cluster Value} {a : Action Value} {f : Nat}
    {fl fl' : Flight Value} (h : FlightNext c c' f fl a fl') :
    fl'.node = fl.node ∧ fl'.key = fl.key ∧ fl'.peer = fl.peer := by
  cases h with
  | alone hs => cases hs <;> exact ⟨rfl, rfl, rfl⟩
  | _ => exact ⟨rfl, rfl, rfl⟩

theorem FlightNext.not_opened {c c' : Cluster Value} {a : Action Value} {f : Nat}
    {fl fl' : Flight Value} (h : FlightNext c c' f fl a fl') : fl'.phase ≠ .opened := by
  cases h with
  | alone hs => cases hs <;> nofun
  | finishLoad result =>
      cases result with
      | error e => nofun
      | ok value =>
          simp only [Flight.afterLoad]
          split <;> exact nofun
  | _ => nofun

namespace Move

variable {c c' : Cluster Value} {a : Action Value}

/-- A node's table changes by its own topology calls alone. -/
theorem topology_cases (m : Move c a c') (n : GroupcachePeer) :
    (c'.node n).topology = (c.node n).topology ∨
      ∃ action, a = .topology n action ∧
        (c.node n).topology.step action = some (c'.node n).topology := by
  cases m with
  | @topology node action t hs =>
      by_cases hn : n = node
      · subst hn
        exact .inr ⟨action, rfl, by rw [Cluster.topology_setTopology, if_pos rfl, hs]⟩
      · exact .inl (by rw [Cluster.topology_setTopology, if_neg hn])
  | openFlight => exact .inl Cluster.topology_setFlightOf
  | endFlight => exact .inl Cluster.topology_setFlightOf
  | insertMain => exact .inl Cluster.topology_setMainCache
  | clearMain => exact .inl Cluster.topology_setMainCache
  | evictMain => exact .inl Cluster.topology_setMainCache
  | insertHot => exact .inl Cluster.topology_setHotCache
  | clearHot => exact .inl Cluster.topology_setHotCache
  | evictHot => exact .inl Cluster.topology_setHotCache
  | _ => exact .inl rfl

/-- An entry of a main cache stays as it is, or a flight inserts it, or it is
evicted, or a call of `remove` clears it. -/
theorem main_cases (m : Move c a c') (n : GroupcachePeer) (key : String) :
    (c'.node n).mainCache key = (c.node n).mainCache key ∨
    (∃ (f : Nat) (fl : Flight Value) (loaded : Loaded Value), a = .runFlight f ∧
      c.flights[f]? = some fl ∧ fl.phase = .insertMain loaded ∧ fl.node = n ∧ fl.key = key ∧
      (c'.node n).mainCache key = some { loaded, flight := f }) ∨
    (c'.node n).mainCache key = none ∧ (a = .evictMain n key ∨
      ∃ (i : Nat) (r : RemoveCall), a = .runRemove i ∧ c.removes[i]? = some r ∧
        r.phase = .clearMain ∧ r.node = n ∧ r.key = key) := by
  cases m with
  | @insertMain f fl loaded hf hp =>
      by_cases hnk : n = fl.node ∧ key = fl.key
      · refine .inr (.inl ⟨f, fl, loaded, rfl, hf, hp, hnk.1.symm, hnk.2.symm, ?_⟩)
        show ((c.setMainCache fl.node fl.key _).node n).mainCache key = _
        rw [Cluster.mainCache_setMainCache, if_pos hnk]
      · refine .inl ?_
        show ((c.setMainCache fl.node fl.key _).node n).mainCache key = _
        rw [Cluster.mainCache_setMainCache, if_neg hnk]
  | @clearMain i r hr hp =>
      by_cases hnk : n = r.node ∧ key = r.key
      · refine .inr (.inr ⟨?_, .inr ⟨i, r, rfl, hr, hp, hnk.1.symm, hnk.2.symm⟩⟩)
        show ((c.setMainCache r.node r.key none).node n).mainCache key = none
        rw [Cluster.mainCache_setMainCache, if_pos hnk]
      · refine .inl ?_
        show ((c.setMainCache r.node r.key none).node n).mainCache key = _
        rw [Cluster.mainCache_setMainCache, if_neg hnk]
  | evictMain node k =>
      by_cases hnk : n = node ∧ key = k
      · obtain ⟨rfl, rfl⟩ := hnk
        exact .inr (.inr ⟨by rw [Cluster.mainCache_setMainCache, if_pos ⟨rfl, rfl⟩], .inl rfl⟩)
      · exact .inl (by rw [Cluster.mainCache_setMainCache, if_neg hnk])
  | openFlight => exact .inl (congrFun Cluster.mainCache_setFlightOf key)
  | endFlight => exact .inl (congrFun Cluster.mainCache_setFlightOf key)
  | insertHot => exact .inl (congrFun Cluster.mainCache_setHotCache key)
  | clearHot => exact .inl (congrFun Cluster.mainCache_setHotCache key)
  | evictHot => exact .inl (congrFun Cluster.mainCache_setHotCache key)
  | topology => exact .inl (congrFun Cluster.mainCache_setTopology key)
  | _ => exact .inl rfl

/-- An entry of a hot cache stays as it is or goes, or a flight inserts it. -/
theorem hot_cases (m : Move c a c') (n : GroupcachePeer) (key : String) :
    (c'.node n).hotCache key = (c.node n).hotCache key ∨ (c'.node n).hotCache key = none ∨
    ∃ (f : Nat) (fl : Flight Value) (loaded : Loaded Value), a = .runFlight f ∧
      c.flights[f]? = some fl ∧ fl.phase = .insertHot loaded ∧ fl.node = n ∧ fl.key = key ∧
      (c'.node n).hotCache key = some { loaded, flight := f } ∧
      c'.flights[f]? = some { fl with phase := .ending (.ok loaded) } := by
  have hclear : ∀ n' k', ((c.setHotCache n' k' none).node n).hotCache key
      = (c.node n).hotCache key ∨ ((c.setHotCache n' k' none).node n).hotCache key = none := by
    intro n' k'
    rw [Cluster.hotCache_setHotCache]
    split
    · exact .inr rfl
    · exact .inl rfl
  cases m with
  | @insertHot f fl loaded hf hp =>
      by_cases hnk : n = fl.node ∧ key = fl.key
      · refine .inr (.inr
          ⟨f, fl, loaded, rfl, hf, hp, hnk.1.symm, hnk.2.symm, ?_, Table.set_self hf⟩)
        show ((c.setHotCache fl.node fl.key _).node n).hotCache key = _
        rw [Cluster.hotCache_setHotCache, if_pos hnk]
      · refine .inl ?_
        show ((c.setHotCache fl.node fl.key _).node n).hotCache key = _
        rw [Cluster.hotCache_setHotCache, if_neg hnk]
  | clearHot => exact (hclear _ _).imp_right .inl
  | evictHot => exact (hclear _ _).imp_right .inl
  | openFlight => exact .inl (congrFun Cluster.hotCache_setFlightOf key)
  | endFlight => exact .inl (congrFun Cluster.hotCache_setFlightOf key)
  | insertMain => exact .inl (congrFun Cluster.hotCache_setMainCache key)
  | clearMain => exact .inl (congrFun Cluster.hotCache_setMainCache key)
  | evictMain => exact .inl (congrFun Cluster.hotCache_setMainCache key)
  | topology => exact .inl (congrFun Cluster.hotCache_setTopology key)
  | _ => exact .inl rfl

/-- The group's flight for a key is the one it had, or a call has just opened
it for the peer it had looked up. -/
theorem group_cases (m : Move c a c') {n : GroupcachePeer} {key : String} {f : Nat}
    (h : (c'.node n).singleFlightGroup key = some f) :
    (c.node n).singleFlightGroup key = some f ∨
      ∃ (i : Nat) (call : GetCall Value) (peer : GroupcachePeerWithClient),
        c.gets[i]? = some call ∧ call.phase = .deduping peer ∧ call.node = n ∧ call.key = key ∧
        c'.flights[f]? = some { node := n, key, peer, request := none, load := none
                                phase := .opened } := by
  cases m with
  | openFlight hcall hp =>
      replace h : ((c.setFlightOf _ _ _).node n).singleFlightGroup key = some f := h
      rw [Cluster.singleFlightGroup_setFlightOf] at h
      split at h
      · rename_i hnk
        obtain ⟨rfl, rfl⟩ := hnk
        cases h
        exact .inr ⟨_, _, _, hcall, hp, rfl, rfl, List.getElem?_concat_length⟩
      · exact .inl h
  | endFlight =>
      replace h : ((c.setFlightOf _ _ none).node n).singleFlightGroup key = some f := h
      rw [Cluster.singleFlightGroup_setFlightOf] at h
      split at h
      · cases h
      · exact .inl h
  | insertMain => exact .inl (congrFun Cluster.singleFlightGroup_setMainCache key ▸ h)
  | clearMain => exact .inl (congrFun Cluster.singleFlightGroup_setMainCache key ▸ h)
  | evictMain => exact .inl (congrFun Cluster.singleFlightGroup_setMainCache key ▸ h)
  | insertHot => exact .inl (congrFun Cluster.singleFlightGroup_setHotCache key ▸ h)
  | clearHot => exact .inl (congrFun Cluster.singleFlightGroup_setHotCache key ▸ h)
  | evictHot => exact .inl (congrFun Cluster.singleFlightGroup_setHotCache key ▸ h)
  | topology => exact .inl (congrFun Cluster.singleFlightGroup_setTopology key ▸ h)
  | _ => exact .inl h

/-- A call about to enter the group was there before, or has just looked up
its peer. -/
theorem deduping_cases (m : Move c a c') {i : Nat} {g : GetCall Value}
    {peer : GroupcachePeerWithClient} (hg : c'.gets[i]? = some g)
    (hp : g.phase = .deduping peer) :
    c.gets[i]? = some g ∨ (c.node g.node).topology.routing.lookupPeer g.key = .ok peer := by
  cases m with
  | get node key =>
      rcases Table.append_cases hg with hg | ⟨_, rfl⟩
      · exact .inl hg
      · cases hp
  | getStep metrics hcall hs =>
      rcases Table.set_cases hg with ⟨rfl, rfl⟩ | ⟨_, hg⟩
      · cases hs <;> cases hp
        exact .inr (by assumption)
      · exact .inl hg
  | openFlight hcall =>
      rcases Table.set_cases hg with ⟨_, rfl⟩ | ⟨_, hg⟩
      · cases hp
      · exact .inl hg
  | sendGet metrics hf =>
      rcases Table.append_cases hg with hg | ⟨_, rfl⟩
      · exact .inl hg
      · cases hp
  | _ => exact .inl hg

/-- A flight stays as it is, or a call opens it with the peer it had looked
up, or it goes on. -/
theorem flight_becomes (m : Move c a c') {f : Nat} {fl' : Flight Value}
    (hf : c'.flights[f]? = some fl') :
    c.flights[f]? = some fl' ∨
    (∃ (i : Nat) (call : GetCall Value), a = .runGet i ∧ c.gets[i]? = some call ∧
      call.phase = .deduping fl'.peer ∧
      (c.node call.node).singleFlightGroup call.key = none ∧ f = c.flights.length ∧
      fl' = { node := call.node, key := call.key, peer := fl'.peer, request := none
              load := none, phase := .opened }) ∨
    ∃ fl, c.flights[f]? = some fl ∧ FlightNext c c' f fl a fl' := by
  cases m with
  | openFlight hcall hp hnone =>
      rcases Table.append_cases hf with hf | ⟨rfl, rfl⟩
      · exact .inl hf
      · exact .inr (.inl ⟨_, _, rfl, hcall, hp, hnone, rfl, rfl⟩)
  | flightStep metrics hx hs =>
      rcases Table.set_cases hf with ⟨rfl, rfl⟩ | ⟨_, hf⟩
      · exact .inr (.inr ⟨_, hx, .alone hs⟩)
      · exact .inl hf
  | unwrapped message hx hp hcall hret hresp =>
      exact absurd hresp (loadRemotely_respondGet_ne_none _)
  | lost metrics status hx hp =>
      rcases Table.set_cases hf with ⟨rfl, rfl⟩ | ⟨_, hf⟩
      · exact .inr (.inr ⟨_, hx, .lost status hp⟩)
      · exact .inl hf
  | startLoad metrics hx hp =>
      rcases Table.set_cases hf with ⟨rfl, rfl⟩ | ⟨_, hf⟩
      · exact .inr (.inr ⟨_, hx, .startLoad hp⟩)
      · exact .inl hf
  | sendGet metrics hx hp hne hc =>
      rcases Table.set_cases hf with ⟨rfl, rfl⟩ | ⟨_, hf⟩
      · exact .inr (.inr ⟨_, hx, .sendGet hp hne hc⟩)
      · exact .inl hf
  | finishLoad metrics result hx hp =>
      rcases Table.set_cases hf with ⟨rfl, rfl⟩ | ⟨_, hf⟩
      · exact .inr (.inr ⟨_, hx, .finishLoad result hp⟩)
      · exact .inl hf
  | @insertMain j x loaded hx hp =>
      rcases Table.set_cases hf with ⟨rfl, rfl⟩ | ⟨_, hf⟩
      · refine .inr (.inr ⟨x, hx, .insertMain hp ?_⟩)
        show ((c.setMainCache x.node x.key _).node x.node).mainCache x.key = _
        rw [Cluster.mainCache_setMainCache, if_pos ⟨rfl, rfl⟩]
      · exact .inl hf
  | insertHot hx hp =>
      rcases Table.set_cases hf with ⟨rfl, rfl⟩ | ⟨_, hf⟩
      · exact .inr (.inr ⟨_, hx, .insertHot hp⟩)
      · exact .inl hf
  | endFlight hx hp =>
      rcases Table.set_cases hf with ⟨rfl, rfl⟩ | ⟨_, hf⟩
      · exact .inr (.inr ⟨_, hx, .endFlight hp⟩)
      · exact .inl hf
  | _ => exact .inl hf

/-- A flight was there before, for the same key and peer, or a call has just
opened it with the peer it had looked up. -/
theorem flight_cases (m : Move c a c') {f : Nat} {fl : Flight Value}
    (hf : c'.flights[f]? = some fl) :
    (∃ old, c.flights[f]? = some old ∧ fl.node = old.node ∧ fl.key = old.key ∧
      fl.peer = old.peer) ∨
    ∃ (i : Nat) (call : GetCall Value), c.gets[i]? = some call ∧
      call.phase = .deduping fl.peer ∧ fl.node = call.node ∧ fl.key = call.key := by
  rcases m.flight_becomes hf with hsame | ⟨i, call, _, hcall, hp, _, _, hnew⟩ | ⟨old, hold, hnext⟩
  · exact .inl ⟨fl, hsame, rfl, rfl, rfl⟩
  · rw [hnew]
    exact .inr ⟨i, call, hcall, hp, rfl, rfl⟩
  · exact .inl ⟨old, hold, hnext.same⟩

/-- A call of `get` was there before, or the application has just made it, or
a flight has with its request. -/
theorem get_cases (m : Move c a c') {i : Nat} {g : GetCall Value} (hg : c'.gets[i]? = some g) :
    (∃ old, c.gets[i]? = some old ∧ g.node = old.node ∧ g.key = old.key) ∨
      a = .get g.node g.key ∨
      ∃ (f : Nat) (fl : Flight Value) (client : GroupcachePeerClient),
        c.flights[f]? = some fl ∧ fl.peer.peer ≠ fl.node ∧ fl.peer.client = some client ∧
          g.node = client.peer ∧ g.key = fl.key := by
  cases m with
  | get node key =>
      rcases Table.append_cases hg with hg | ⟨_, rfl⟩
      · exact .inl ⟨g, hg, rfl, rfl⟩
      · exact .inr (.inl rfl)
  | getStep metrics hcall hs =>
      rcases Table.set_cases hg with ⟨rfl, rfl⟩ | ⟨_, hg⟩
      · exact .inl ⟨_, hcall, hs.same⟩
      · exact .inl ⟨g, hg, rfl, rfl⟩
  | openFlight hcall =>
      rcases Table.set_cases hg with ⟨rfl, rfl⟩ | ⟨_, hg⟩
      · exact .inl ⟨_, hcall, rfl, rfl⟩
      · exact .inl ⟨g, hg, rfl, rfl⟩
  | sendGet metrics hf hp hne hc =>
      rcases Table.append_cases hg with hg | ⟨_, rfl⟩
      · exact .inl ⟨g, hg, rfl, rfl⟩
      · exact .inr (.inr ⟨_, _, _, hf, hne, hc, rfl, rfl⟩)
  | _ => exact .inl ⟨g, hg, rfl, rfl⟩

/-- A load was there before, or a flight starts it: on the owner at once, on
another node after its request has failed. -/
theorem loads_cases (m : Move c a c') {l : Nat} {load : LoadCall Value}
    (hl : c'.loads[l]? = some load) :
    (∃ old, c.loads[l]? = some old ∧ load.key = old.key) ∨
    l = c.loads.length ∧ ∃ (f : Nat) (fl : Flight Value), c.flights[f]? = some fl ∧
      load.key = fl.key ∧
      (fl.phase = .opened ∧ fl.peer.peer = fl.node ∨ fl.phase = .remoteFailed) := by
  cases m with
  | startLoad metrics hf hp =>
      rcases Table.append_cases hl with hl | ⟨rfl, rfl⟩
      · exact .inl ⟨load, hl, rfl⟩
      · exact .inr ⟨rfl, _, _, hf, rfl, hp⟩
  | finishLoad metrics result hf hp =>
      rcases Table.modify_cases hl with ⟨rfl, old, hold, rfl⟩ | ⟨_, hl⟩
      · exact .inl ⟨old, hold, rfl⟩
      · exact .inl ⟨load, hl, rfl⟩
  | _ => exact .inl ⟨load, hl, rfl⟩

/-- A call of `get` stays as it is, or begins, or goes on alone or by opening
a flight. -/
theorem get_becomes (m : Move c a c') {i : Nat} {g : GetCall Value}
    (hg : c'.gets[i]? = some g) :
    c.gets[i]? = some g ∨ (g.phase = .requested ∨ g.phase = .called) ∨
    ∃ old, c.gets[i]? = some old ∧ (GetStep c old g ∨ ∃ peer, a = .runGet i ∧
      old.phase = .deduping peer ∧ (c.node old.node).singleFlightGroup old.key = none ∧
      g = { old with flight := some c.flights.length, phase := .waiting c.flights.length } ∧
      c'.flights = c.flights ++ [{ node := old.node, key := old.key, peer, request := none
                                   load := none, phase := .opened }]) := by
  cases m with
  | get node key =>
      rcases Table.append_cases hg with hg | ⟨_, rfl⟩
      · exact .inl hg
      · exact .inr (.inl (.inr rfl))
  | getStep metrics hcall hs =>
      rcases Table.set_cases hg with ⟨rfl, rfl⟩ | ⟨_, hg⟩
      · exact .inr (.inr ⟨_, hcall, .inl hs⟩)
      · exact .inl hg
  | openFlight hcall hp hnone =>
      rcases Table.set_cases hg with ⟨rfl, rfl⟩ | ⟨_, hg⟩
      · exact .inr (.inr ⟨_, hcall, .inr ⟨_, rfl, hp, hnone, rfl, rfl⟩⟩)
      · exact .inl hg
  | sendGet metrics hf hp hne hc =>
      rcases Table.append_cases hg with hg | ⟨_, rfl⟩
      · exact .inl hg
      · exact .inr (.inl (.inl rfl))
  | _ => exact .inl hg

/-- A call of `remove` was there before, or the application has just made it,
or another call has with the request for the peer it has looked up. -/
theorem remove_cases (m : Move c a c') {i : Nat} {r : RemoveCall}
    (hr : c'.removes[i]? = some r) :
    (∃ old, c.removes[i]? = some old ∧ r.node = old.node ∧ r.key = old.key ∧
      r.origin = old.origin) ∨
      (a = .remove r.node r.key ∧ r.origin = none) ∨
      ∃ (j : Nat) (caller : RemoveCall) (peer : GroupcachePeerWithClient)
        (client : GroupcachePeerClient), c.removes[j]? = some caller ∧
          (c.node caller.node).topology.routing.lookupPeer caller.key = .ok peer ∧
          peer.peer ≠ caller.node ∧ peer.client = some client ∧ r.origin = some j ∧
          r.node = client.peer ∧ r.key = caller.key := by
  have hset : ∀ {j : Nat} {x x' : RemoveCall}, c.removes[j]? = some x →
      (c.removes.set j x')[i]? = some r → x'.node = x.node → x'.key = x.key →
      x'.origin = x.origin → ∃ old, c.removes[i]? = some old ∧ r.node = old.node ∧
        r.key = old.key ∧ r.origin = old.origin := by
    intro j x x' hx hr hn hk ho
    rcases Table.set_cases hr with ⟨rfl, rfl⟩ | ⟨_, hr⟩
    · exact ⟨x, hx, hn, hk, ho⟩
    · exact ⟨r, hr, rfl, rfl, rfl⟩
  cases m with
  | remove node key =>
      rcases Table.append_cases hr with hr | ⟨_, rfl⟩
      · exact .inl ⟨r, hr, rfl, rfl, rfl⟩
      · exact .inr (.inl ⟨rfl, rfl⟩)
  | removeStep hcall hs => exact .inl (hset hcall hr (by cases hs <;> rfl)
      (by cases hs <;> rfl) (by cases hs <;> rfl))
  | lostRemove status hcall => exact .inl (hset hcall hr rfl rfl rfl)
  | clearHot hcall => exact .inl (hset hcall hr rfl rfl rfl)
  | clearMain hcall => exact .inl (hset hcall hr rfl rfl rfl)
  | sendRemove hcall hp hl hne hc =>
      rcases Table.append_cases hr with hr | ⟨_, rfl⟩
      · exact .inl (hset hcall hr rfl rfl rfl)
      · exact .inr (.inr ⟨_, _, _, _, hcall, hl, hne, hc, rfl, rfl, rfl⟩)
  | _ => exact .inl ⟨r, hr, rfl, rfl, rfl⟩

/-- A call of `remove` stays as it is, or begins, or goes on to another phase:
to a request for a peer other than its node, or to Ok by the answer to one or
by clearing the main cache. -/
theorem remove_becomes (m : Move c a c') {i : Nat} {r : RemoveCall}
    (hr : c'.removes[i]? = some r) :
    c.removes[i]? = some r ∨
    (r.began = c.loads.length ∧ (r.phase = .requested ∨ r.phase = .called)) ∨
    ∃ old, c.removes[i]? = some old ∧ r.node = old.node ∧ r.key = old.key ∧
      r.began = old.began ∧
      (∀ request, r.phase = .awaiting request → ∃ peer,
        (c.node old.node).topology.routing.lookupPeer old.key = .ok peer ∧
          peer.peer ≠ old.node) ∧
      (r.phase = .returned (.ok ()) → (∃ request, old.phase = .awaiting request) ∨
        old.phase = .clearMain ∧ a = .runRemove i ∧
          c' = (c.setMainCache old.node old.key none).setRemove i r) := by
  cases m with
  | remove node key =>
      rcases Table.append_cases hr with hr | ⟨_, rfl⟩
      · exact .inl hr
      · exact .inr (.inl ⟨rfl, .inr rfl⟩)
  | removeStep hcall hs =>
      rcases Table.set_cases hr with ⟨rfl, rfl⟩ | ⟨_, hr⟩
      · cases hs with
        | received hp => exact .inr (.inl ⟨rfl, .inr rfl⟩)
        | answered hp =>
            exact .inr (.inr ⟨_, hcall, rfl, rfl, rfl, nofun, fun _ => .inl ⟨_, hp⟩⟩)
        | _ => exact .inr (.inr ⟨_, hcall, rfl, rfl, rfl, nofun, nofun⟩)
      · exact .inl hr
  | lostRemove status hcall hp =>
      rcases Table.set_cases hr with ⟨rfl, rfl⟩ | ⟨_, hr⟩
      · exact .inr (.inr ⟨_, hcall, rfl, rfl, rfl, nofun, fun _ => .inl ⟨_, hp⟩⟩)
      · exact .inl hr
  | clearHot hcall hp =>
      rcases Table.set_cases hr with ⟨rfl, rfl⟩ | ⟨_, hr⟩
      · exact .inr (.inr ⟨_, hcall, rfl, rfl, rfl, nofun, nofun⟩)
      · exact .inl hr
  | clearMain hcall hp =>
      rcases Table.set_cases hr with ⟨rfl, rfl⟩ | ⟨_, hr⟩
      · exact .inr (.inr ⟨_, hcall, rfl, rfl, rfl, nofun, fun _ => .inr ⟨hp, rfl, rfl⟩⟩)
      · exact .inl hr
  | sendRemove hcall hp hl hne hc =>
      rcases Table.append_cases hr with hr | ⟨_, rfl⟩
      · rcases Table.set_cases hr with ⟨rfl, rfl⟩ | ⟨_, hr⟩
        · exact .inr (.inr ⟨_, hcall, rfl, rfl, rfl, fun _ _ => ⟨_, hl, hne⟩, nofun⟩)
        · exact .inl hr
      · exact .inr (.inl ⟨rfl, .inl rfl⟩)
  | _ => exact .inl hr

/-- Calls of `remove` stay where they are, and what they have returned. -/
theorem removes_grow (m : Move c a c') : Table.Grows RemoveCall.Becomes c.removes c'.removes := by
  cases m with
  | remove node key => exact .append RemoveCall.Becomes.refl _ _
  | removeStep hcall hs =>
      refine .set RemoveCall.Becomes.refl hcall ?_
      cases hs <;> constructor <;> simp_all
  | lostRemove status hcall hp =>
      exact .set RemoveCall.Becomes.refl hcall ⟨rfl, rfl, by simp [hp]⟩
  | clearHot hcall hp => exact .set RemoveCall.Becomes.refl hcall ⟨rfl, rfl, by simp [hp]⟩
  | clearMain hcall hp => exact .set RemoveCall.Becomes.refl hcall ⟨rfl, rfl, by simp [hp]⟩
  | @sendRemove i call peer client hcall hp =>
      have hset : call.Becomes { call with phase := .awaiting c.removes.length } :=
        ⟨rfl, rfl, by simp [hp]⟩
      exact .append_right (.set RemoveCall.Becomes.refl hcall hset) _
  | _ => exact .refl RemoveCall.Becomes.refl _

end Move

end Groupcache
