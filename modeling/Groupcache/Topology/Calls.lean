import Groupcache.Routing

/-!
# Topology calls (`groupcache_inner.rs`: `add_peer`, `set_peers`, `remove_peer`)

First the functions as the source has them, for a call that runs with no
other: they take the routing state and what the connection attempts come to,
and return the state afterwards with the call's result.

Then the same calls SPLIT where the source lets another call in: a call
reads the table under the read lock, connects without any lock, and writes
under the write lock. `Topology` is a node's table with the calls in
progress, `Topology.step` one of these pieces of one of them.
-/

namespace Groupcache

variable [Platform]

/-! ## Connecting -/

/-- What an attempt to connect to a peer comes to. -/
inductive ConnectOutcome where
  | connected (channel : Nat)
  | failed (error : String)
  | panicked
  deriving DecidableEq

/-- The `Ok` of `connect_static`. -/
abbrev Connection := GroupcachePeer × GroupcachePeerClient

abbrev ConnectResult := Except InternalGroupcacheError Connection

/-- `connect_static`; `none` when it panics. -/
def connectStatic (peer : GroupcachePeer) : ConnectOutcome → Option ConnectResult
  | .connected channel => some (.ok (peer, { socket := peer.socket, channel }))
  | .failed error => some (.error (.connection error))
  | .panicked => none

/-- `connect_to_new_peers`, over the new peers in the order in which their
tasks finish (`join_next`). The first task that panicked ends it. -/
def connectToNewPeers (attempt : GroupcachePeer → ConnectOutcome) :
    List GroupcachePeer → Except InternalGroupcacheError (List ConnectResult)
  | [] => .ok []
  | peer :: rest =>
      match connectStatic peer (attempt peer) with
      | none => .error (.anyhow "unexpected JoinError when awaiting peer connection")
      | some result =>
          match connectToNewPeers attempt rest with
          | .error e => .error e
          | .ok results => .ok (result :: results)

/-! ## Writing -/

namespace RoutingState

/-- The first loop of `update_routing_table`. -/
def addConnections (s : RoutingState) :
    List ConnectResult → RoutingState × List InternalGroupcacheError
  | [] => (s, [])
  | .ok (peer, client) :: rest => (s.addPeer peer client).addConnections rest
  | .error e :: rest =>
      let (s', errors) := s.addConnections rest
      (s', e :: errors)

def updateRoutingTable (s : RoutingState) (connectionResults : List ConnectResult)
    (peersToRemove : List GroupcachePeer) : RoutingState × List InternalGroupcacheError :=
  let (s', connectionErrors) := s.addConnections connectionResults
  (peersToRemove.foldl removePeer s', connectionErrors)

end RoutingState

/-! ## Calls that run alone -/

/-- What a call returns; `none` when it panicked. -/
abbrev CallResult := Option (Except InternalGroupcacheError Unit)

def addPeer (s : RoutingState) (peer : GroupcachePeer) (attempt : ConnectOutcome) :
    RoutingState × CallResult :=
  if s.containsPeer peer then (s, some (.ok ()))
  else
    match connectStatic peer attempt with
    | none => (s, none)
    | some (.error e) => (s, some (.error e))
    | some (.ok (_, client)) => (s.addPeer peer client, some (.ok ()))

/-- The end of `set_peers`, from the outcome of the connections on. -/
def finishSetPeers (s : RoutingState) (results : List ConnectResult)
    (removal : List GroupcachePeer) : RoutingState × CallResult :=
  let (s', connErrors) := s.updateRoutingTable results removal
  (s', some (if connErrors.isEmpty then .ok () else .error (.connectionErrors connErrors)))

/-- `set_peers`: `order` is the order in which the attempts finish, `removal`
that in which the peers to remove are iterated. -/
def setPeers (s : RoutingState) (attempt : GroupcachePeer → ConnectOutcome)
    (order removal : List GroupcachePeer) : RoutingState × CallResult :=
  match connectToNewPeers attempt order with
  | .error e => (s, some (.error e))
  | .ok results =>
      if removal.isEmpty && results.isEmpty then (s, some (.ok ()))
      else finishSetPeers s results removal

def removePeer (s : RoutingState) (peer : GroupcachePeer) : RoutingState × CallResult :=
  if s.containsPeer peer then (s.removePeer peer, some (.ok ()))
  else (s, some (.ok ()))

/-- The calls that change the topology. -/
inductive TopologyOp where
  | addPeer (peer : GroupcachePeer)
  | setPeers (updatedPeers : Finset GroupcachePeer)
  | removePeer (peer : GroupcachePeer)
  deriving DecidableEq

/-- `l` lists a set, each element once. -/
def Enumerates {α : Type} [DecidableEq α] (l : List α) (A : Finset α) : Prop :=
  l.Nodup ∧ l.toFinset = A

instance {α : Type} [DecidableEq α] (l : List α) (A : Finset α) : Decidable (Enumerates l A) :=
  inferInstanceAs (Decidable (_ ∧ _))

namespace TopologyOp

/-- The peers an operation names. -/
def peers : TopologyOp → Set GroupcachePeer
  | .addPeer peer => {peer}
  | .setPeers updatedPeers => updatedPeers
  | .removePeer peer => {peer}

instance (op : TopologyOp) (U : Set GroupcachePeer) [DecidablePred (· ∈ U)] :
    Decidable (op.peers ⊆ U) :=
  match op with
  | .addPeer peer => decidable_of_iff (peer ∈ U) Set.singleton_subset_iff.symm
  | .setPeers updatedPeers => inferInstanceAs (Decidable (∀ p ∈ updatedPeers, p ∈ U))
  | .removePeer peer => decidable_of_iff (peer ∈ U) Set.singleton_subset_iff.symm

/-- `order` and `removal` are iteration orders of the two differences that
`set_peers` computes from the known peers. -/
def Schedule (known : Finset GroupcachePeer) (order removal : List GroupcachePeer) :
    TopologyOp → Prop
  | .setPeers updatedPeers =>
      Enumerates order (updatedPeers \ known) ∧ Enumerates removal (known \ updatedPeers)
  | _ => True

/-- A call that runs alone. -/
def complete (s : RoutingState) (attempt : GroupcachePeer → ConnectOutcome)
    (order removal : List GroupcachePeer) : TopologyOp → RoutingState × CallResult
  | .addPeer peer => Groupcache.addPeer s peer (attempt peer)
  | .setPeers _ => Groupcache.setPeers s attempt order removal
  | .removePeer peer => Groupcache.removePeer s peer

end TopologyOp

/-- The routing states of node `me` after calls that name peers of `U` and
do not overlap. -/
inductive SerialReachable (U : Set GroupcachePeer) (me : GroupcachePeer) :
    RoutingState → Prop where
  | withLocalPeer : SerialReachable U me (.withLocalPeer me)
  | call {s : RoutingState} (op : TopologyOp) (attempt : GroupcachePeer → ConnectOutcome)
      (order removal : List GroupcachePeer) : SerialReachable U me s → op.peers ⊆ U →
      op.Schedule s.peerSet order removal →
      SerialReachable U me (op.complete s attempt order removal).1

/-! ## Split calls -/

/-- How far a call has come: what it holds, and which lock it takes next. -/
inductive Stage where
  | called (op : TopologyOp)
  /-- `add_peer` did not find the peer; it is connecting. -/
  | addConnecting (peer : GroupcachePeer)
  | addWriting (peer : GroupcachePeer) (client : GroupcachePeerClient)
  /-- `set_peers` has its snapshot; it is connecting. -/
  | setConnecting (updatedPeers currentPeers : Finset GroupcachePeer)
  | setWriting (updatedPeers currentPeers : Finset GroupcachePeer)
      (results : List ConnectResult) (removal : List GroupcachePeer)
  /-- `remove_peer` found the peer. -/
  | removeWriting (peer : GroupcachePeer)
  | returned (result : CallResult)

instance (st : Stage) : Decidable (∃ result, st = .returned result) :=
  match st with
  | .returned result => isTrue ⟨result, rfl⟩
  | .called _ | .addConnecting _ | .addWriting .. | .setConnecting .. | .setWriting ..
  | .removeWriting _ => isFalse nofun

/-- One piece of a call. The two lists are used by `set_peers` when its
attempts have finished. -/
def Stage.advance (s : RoutingState) (attempt : GroupcachePeer → ConnectOutcome)
    (order removal : List GroupcachePeer) : Stage → Option (RoutingState × Stage)
  | .called (.addPeer peer) =>
      if s.containsPeer peer then some (s, .returned (some (.ok ())))
      else some (s, .addConnecting peer)
  | .called (.setPeers updatedPeers) => some (s, .setConnecting updatedPeers s.peerSet)
  | .called (.removePeer peer) =>
      if s.containsPeer peer then some (s, .removeWriting peer)
      else some (s, .returned (some (.ok ())))
  | .addConnecting peer =>
      match connectStatic peer (attempt peer) with
      | none => some (s, .returned none)
      | some (.error e) => some (s, .returned (some (.error e)))
      | some (.ok (_, client)) => some (s, .addWriting peer client)
  -- the write does not look again whether the map has the peer
  | .addWriting peer client => some (s.addPeer peer client, .returned (some (.ok ())))
  | .setConnecting updatedPeers currentPeers =>
      -- the differences are from the snapshot, not from the table of the moment
      if Enumerates order (updatedPeers \ currentPeers) ∧
          Enumerates removal (currentPeers \ updatedPeers) then
        match connectToNewPeers attempt order with
        | .error e => some (s, .returned (some (.error e)))
        | .ok results =>
            if removal.isEmpty && results.isEmpty then some (s, .returned (some (.ok ())))
            else some (s, .setWriting updatedPeers currentPeers results removal)
      else none
  | .setWriting _ _ results removal =>
      let (s', result) := finishSetPeers s results removal
      some (s', .returned result)
  | .removeWriting peer => some (s.removePeer peer, .returned (some (.ok ())))
  | .returned _ => none

/-- A call in progress, with what its connection attempts come to. -/
structure TopologyCall where
  attempt : GroupcachePeer → ConnectOutcome
  stage : Stage

/-- A node's routing table and the topology calls on it. -/
structure Topology where
  routing : RoutingState
  calls : List TopologyCall

inductive TopologyAction where
  | begin (op : TopologyOp) (attempt : GroupcachePeer → ConnectOutcome)
  | advance (i : Nat) (order removal : List GroupcachePeer)

namespace Topology

def start (me : GroupcachePeer) : Topology where
  routing := .withLocalPeer me
  calls := []

def step (t : Topology) : TopologyAction → Option Topology
  | .begin op attempt => some { t with calls := t.calls ++ [{ attempt, stage := .called op }] }
  | .advance i order removal =>
      match t.calls[i]? with
      | none => none
      | some call =>
          match call.stage.advance t.routing call.attempt order removal with
          | none => none
          | some (routing, stage) =>
              some { routing, calls := t.calls.set i { call with stage } }

/-- What a step does: it begins a call, or it advances one. -/
theorem step_cases {t t' : Topology} {a : TopologyAction} (h : t.step a = some t') :
    (∃ op attempt, a = .begin op attempt ∧
      t' = { t with calls := t.calls ++ [{ attempt, stage := .called op }] }) ∨
    ∃ i order removal call routing stage, a = .advance i order removal ∧
      t.calls[i]? = some call ∧
      call.stage.advance t.routing call.attempt order removal = some (routing, stage) ∧
      t' = { routing, calls := t.calls.set i { call with stage } } := by
  cases a with
  | «begin» op attempt =>
      cases h
      exact .inl ⟨op, attempt, rfl, rfl⟩
  | advance i order removal =>
      simp only [step] at h
      split at h
      · cases h
      · rename_i call hcall
        split at h
        · cases h
        · rename_i routing stage hadv
          cases h
          exact .inr ⟨i, order, removal, call, routing, stage, rfl, hcall, hadv, rfl⟩

end Topology

/-! ## What a piece writes -/

/-- The connections among the results. -/
def connections (results : List ConnectResult) : List Connection :=
  results.filterMap Except.toOption

/-- The write-locked update: peers added, then peers removed. -/
def RoutingState.write (s : RoutingState) (adds : List Connection)
    (removes : List GroupcachePeer) : RoutingState :=
  removes.foldl removePeer (adds.foldl (fun s c => s.addPeer c.1 c.2) s)

namespace Stage

/-- The connections the next piece of a call at this stage adds. -/
def adds : Stage → List Connection
  | .addWriting peer client => [(peer, client)]
  | .setWriting _ _ results _ => connections results
  | _ => []

/-- The peers it removes. -/
def removes : Stage → List GroupcachePeer
  | .setWriting _ _ _ removal => removal
  | .removeWriting peer => [peer]
  | _ => []

end Stage

theorem addConnections_fst (s : RoutingState) (results : List ConnectResult) :
    (s.addConnections results).1
      = (connections results).foldl (fun s c => s.addPeer c.1 c.2) s := by
  induction results generalizing s with
  | nil => rfl
  | cons result rest ih =>
      -- errors are collected, and leave the table alone
      cases result with
      | error e => exact ih s
      | ok c => exact ih (s.addPeer c.1 c.2)

theorem finishSetPeers_fst (s : RoutingState) (results : List ConnectResult)
    (removal : List GroupcachePeer) :
    (finishSetPeers s results removal).1 = s.write (connections results) removal := by
  simp [finishSetPeers, RoutingState.updateRoutingTable, RoutingState.write, addConnections_fst]

/-- **What a piece does to the table**: the write its stage announces. -/
theorem Stage.advance_routing {s s' : RoutingState} {st st' : Stage}
    {attempt : GroupcachePeer → ConnectOutcome} {order removal : List GroupcachePeer}
    (h : st.advance s attempt order removal = some (s', st')) :
    s' = s.write st.adds st.removes := by
  cases st with
  | called op =>
      cases op <;> simp only [advance] at h <;> (try split at h) <;> cases h <;> rfl
  | addConnecting peer => simp only [advance] at h; split at h <;> cases h <;> rfl
  | addWriting peer client => cases h; rfl
  | setConnecting updated current =>
      simp only [advance] at h
      split at h
      · split at h
        · cases h; rfl
        · split at h <;> cases h <;> rfl
      · cases h
  | setWriting updated current results removal =>
      cases h
      exact finishSetPeers_fst s results removal
  | removeWriting peer => cases h; rfl
  | returned result => cases h

namespace RoutingState

theorem write_nil (s : RoutingState) : s.write [] [] = s := rfl

variable {s : RoutingState} {U : Set GroupcachePeer} {n : GroupcachePeer → Nat}

theorem mem_foldl_addPeer {p : GroupcachePeer} (adds : List Connection) :
    p ∈ (adds.foldl (fun s c => s.addPeer c.1 c.2) s).peers
      ↔ p ∈ adds.map Prod.fst ∨ p ∈ s.peers := by
  induction adds generalizing s with
  | nil => simp
  | cons c adds ih =>
      rw [List.foldl_cons, ih, mem_addPeer, List.map_cons, List.mem_cons, or_left_comm, or_assoc]

private theorem mem_foldl_removePeer {p : GroupcachePeer} (removes : List GroupcachePeer) :
    p ∈ (removes.foldl RoutingState.removePeer s).peers ↔ p ∉ removes ∧ p ∈ s.peers := by
  induction removes generalizing s with
  | nil => simp
  | cons q removes ih =>
      rw [List.foldl_cons, ih, mem_removePeer, List.mem_cons, not_or]
      tauto

theorem mem_write {adds : List Connection} {removes : List GroupcachePeer} {p : GroupcachePeer} :
    p ∈ (s.write adds removes).peers
      ↔ p ∉ removes ∧ (p ∈ adds.map Prod.fst ∨ p ∈ s.peers) := by
  rw [write, mem_foldl_removePeer, mem_foldl_addPeer]

private theorem lookup_foldl_addPeer_of_notMem {adds : List Connection} {p : GroupcachePeer}
    (ha : p ∉ adds.map Prod.fst) :
    (adds.foldl (fun s c => s.addPeer c.1 c.2) s).peers.lookup p = s.peers.lookup p := by
  induction adds generalizing s with
  | nil => rfl
  | cons c adds ih =>
      rw [List.map_cons] at ha
      obtain ⟨hc, ha⟩ := not_or.mp (List.mem_cons.not.mp ha)
      rw [List.foldl_cons, ih ha, lookup_addPeer, if_neg hc]

private theorem lookup_foldl_addPeer {adds : List Connection} {p : GroupcachePeer}
    {client : GroupcachePeerClient}
    (h : (adds.foldl (fun s c => s.addPeer c.1 c.2) s).peers.lookup p = some client) :
    (p, client) ∈ adds ∨ s.peers.lookup p = some client := by
  induction adds generalizing s with
  | nil => exact .inr h
  | cons c adds ih =>
      rcases ih h with h | h
      · exact .inl (List.mem_cons_of_mem c h)
      · rw [lookup_addPeer] at h
        split at h
        · cases h
          subst p
          exact .inl List.mem_cons_self
        · exact .inr h

private theorem lookup_foldl_removePeer {p : GroupcachePeer} (removes : List GroupcachePeer) :
    (removes.foldl RoutingState.removePeer s).peers.lookup p
      = if p ∈ removes then none else s.peers.lookup p := by
  induction removes generalizing s with
  | nil => rfl
  | cons q removes ih =>
      rw [List.foldl_cons, ih, lookup_removePeer]
      by_cases hp : p ∈ removes <;> simp [hp]

/-- A client in the map after a write was there before or has been added. -/
theorem lookup_write {adds : List Connection} {removes : List GroupcachePeer}
    {p : GroupcachePeer} {client : GroupcachePeerClient}
    (h : (s.write adds removes).peers.lookup p = some client) :
    (p, client) ∈ adds ∨ s.peers.lookup p = some client := by
  rw [write, lookup_foldl_removePeer] at h
  split at h
  · cases h
  · exact lookup_foldl_addPeer h

/-- A client stays in the map where its peer is neither added nor removed. -/
theorem lookup_write_of_notMem {adds : List Connection} {removes : List GroupcachePeer}
    {p : GroupcachePeer} (ha : p ∉ adds.map Prod.fst) (hr : p ∉ removes) :
    (s.write adds removes).peers.lookup p = s.peers.lookup p := by
  rw [write, lookup_foldl_removePeer, if_neg hr, lookup_foldl_addPeer_of_notMem ha]

theorem Copies.foldl_addPeer (hU : Addressable U) {adds : List Connection}
    (ha : ∀ c ∈ adds, c.1 ∈ U) (C : Copies U s n) :
    Copies U (adds.foldl (fun s c => s.addPeer c.1 c.2) s)
      (fun p => n p + (adds.map Prod.fst).count p) := by
  induction adds generalizing s n with
  | nil => simpa using C
  | cons c adds ih =>
      have hstep := C.addPeer c.2 hU (ha c List.mem_cons_self)
      refine (ih (fun d hd => ha d (List.mem_cons_of_mem c hd)) hstep).congr fun p => ?_
      by_cases hp : p = c.1
      · subst hp
        simp only [Function.update_self, List.map_cons, List.count_cons_self]
        omega
      · simp [hp, Ne.symm hp]

private theorem Copies.foldl_removePeer (hU : Addressable U) {removes : List GroupcachePeer}
    (hr : ∀ p ∈ removes, p ∈ U) (C : Copies U s n) :
    Copies U (removes.foldl RoutingState.removePeer s) (fun p => n p - removes.count p) := by
  induction removes generalizing s n with
  | nil => simpa using C
  | cons q removes ih =>
      have hstep := C.removePeer hU (hr q List.mem_cons_self)
      refine (ih (fun p hp => hr p (List.mem_cons_of_mem q hp)) hstep).congr fun p => ?_
      by_cases hp : p = q
      · subst hp
        simp only [Function.update_self, List.count_cons_self]
        omega
      · simp [hp, Ne.symm hp]

/-- The copies after a write. -/
theorem Copies.write (C : Copies U s n) (hU : Addressable U) {adds : List Connection}
    {removes : List GroupcachePeer} (ha : ∀ c ∈ adds, c.1 ∈ U) (hr : ∀ p ∈ removes, p ∈ U) :
    Copies U (s.write adds removes)
      (fun p => n p + (adds.map Prod.fst).count p - removes.count p) :=
  Copies.foldl_removePeer hU hr (Copies.foldl_addPeer hU ha C)

end RoutingState

end Groupcache
