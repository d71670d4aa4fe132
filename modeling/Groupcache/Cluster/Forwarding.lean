import Groupcache.Cluster.Provenance
import Groupcache.Lib.Descent
import Groupcache.Topology.Alone

/-!
# Forwarding

A request is not marked as forwarded and its hops are not counted. What ends
it is that each node stands on its own ring: a node that names another owner
for a key names one whose nearest vnode is closer to the key, clockwise, than
its own nearest one is (`RoutingState.lookup_nearer`). The measure depends on
the key and the node alone, so it goes down along a request whatever the
nodes know of each other and whenever their tables change.
-/

namespace Groupcache

open ConsistentHashing Transition

variable [Platform] {Value : Type} [ValueBounds Value] {U : Set GroupcachePeer}
  {c c' : Cluster Value} {a : Action Value}

/-! ## The measure -/

/-- From the key clockwise to the nearest vnode of the peer. -/
def distance (key : String) (peer : GroupcachePeer) : Nat :=
  nearest (fun vnode : VNode => Platform.hash vnode.addrId) vnodes (Platform.hash key) peer

/-- A lookup at node `n` found the node itself, or a peer nearer to the key
with a client that dials it. -/
def Nearer (U : Set GroupcachePeer) (n : GroupcachePeer) (key : String)
    (found : GroupcachePeerWithClient) : Prop :=
  found.peer ≠ n → ∀ client, found.client = some client →
    client.peer ∈ U ∧ distance key client.peer < distance key n

/-- A node with a copy of itself on the ring finds itself or a nearer peer. -/
theorem RoutingState.Copies.nearer {me : GroupcachePeer} {s : RoutingState}
    {copies : GroupcachePeer → Nat} (C : Copies U s copies) (hU : Addressable U) (hme : me ∈ U)
    (hpos : 0 < copies me) (hdials : ∀ p client, s.peers.lookup p = some client → client.peer = p)
    {key : String} {found : GroupcachePeerWithClient} (hl : s.lookupPeer key = .ok found) :
    Nearer U me key found := by
  intro hne client hc
  obtain ⟨v, hget, hv, hp, _, hclient⟩ := C.of_lookupPeer hU hl
  rw [hdials _ _ (hclient.symm.trans hc)]
  exact ⟨hp, C.nearest_lt hU.placement hget hp hv hme hpos hne⟩

/-- **A node forwards to a nearer one.** -/
theorem RoutingState.lookup_nearer (hU : Addressable U) {me : GroupcachePeer} (hme : me ∈ U)
    {s : RoutingState} (h : SerialReachable U me s) {key : String}
    {found : GroupcachePeerWithClient} (hl : s.lookupPeer key = .ok found) :
    Nearer U me key found := by
  have hinv := h.inv hU hme
  have hpos : 0 < s.serialCopies me me := RoutingState.serialCopies_pos.mpr (.inl rfl)
  exact hinv.copies.nearer hU hme hpos hinv.clients hl

/-! ## The invariant -/

/-- The peers of `U` run nodes, and topology calls on one node do not
overlap. -/
def SerialTopology (U : Set GroupcachePeer) (c : Cluster Value) : Action Value → Prop
  | .get n _ => n ∈ U
  | .remove n _ => n ∈ U
  | .topology n action => n ∈ U ∧ (c.node n).topology.Alone U action
  | _ => True

instance (U : Set GroupcachePeer) [DecidablePred (· ∈ U)] (c : Cluster Value)
    (a : Action Value) : Decidable (SerialTopology U c a) :=
  match a with
  | .get n _ => inferInstanceAs (Decidable (n ∈ U))
  | .remove n _ => inferInstanceAs (Decidable (n ∈ U))
  | .topology n action =>
      inferInstanceAs (Decidable (n ∈ U ∧ (c.node n).topology.Alone U action))
  | .runGet _ | .runFlight _ | .runRemove _ | .load .. | .failGet .. | .failRemove ..
  | .evictMain .. | .evictHot .. => isTrue trivial

/-- Calls stand at peers of `U`, and they and the flights go by lookups that
found the node or a nearer peer. -/
structure Cluster.Nearing (U : Set GroupcachePeer) (c : Cluster Value) : Prop where
  gets : ∀ (i : Nat) (g : GetCall Value), c.gets[i]? = some g →
    g.node ∈ U ∧ ∀ peer, g.phase = .deduping peer → Nearer U g.node g.key peer
  flights : ∀ (f : Nat) (fl : Flight Value), c.flights[f]? = some fl →
    Nearer U fl.node fl.key fl.peer

/-- It is kept where lookups find nearer peers. -/
theorem Cluster.Nearing.step (h : c.Nearing U) (m : Move c a c')
    (hget : ∀ n key, a = .get n key → n ∈ U)
    (hlookup : ∀ n ∈ U, ∀ key found,
      (c.node n).topology.routing.lookupPeer key = .ok found → Nearer U n key found) :
    c'.Nearing U where
  gets i g hg := by
    have hnode : g.node ∈ U := by
      rcases m.get_cases hg with ⟨old, hold, hn, _⟩ | hnew | ⟨f, fl, client, hf, hne, hc, hn, _⟩
      · rw [hn]
        exact (h.gets i old hold).1
      · exact hget _ _ hnew
      · rw [hn]
        exact (h.flights f fl hf hne client hc).1
    refine ⟨hnode, fun peer hp => ?_⟩
    rcases m.deduping_cases hg hp with hg | hl
    · exact (h.gets i g hg).2 peer hp
    · exact hlookup _ hnode _ _ hl
  flights f fl hf := by
    rcases m.flight_cases hf with ⟨old, hold, hn, hk, hp⟩ | ⟨i, call, hcall, hp, hn, hk⟩
    · rw [hn, hk, hp]
      exact h.flights f old hold
    · rw [hn, hk]
      exact (h.gets i call hcall).2 _ hp

structure Cluster.Forwarding (U : Set GroupcachePeer) (c : Cluster Value) : Prop where
  topology : ∀ n ∈ U, (c.node n).topology.AloneInv U n
  gets : ∀ (i : Nat) (g : GetCall Value), c.gets[i]? = some g →
    g.node ∈ U ∧ ∀ peer, g.phase = .deduping peer → Nearer U g.node g.key peer
  flights : ∀ (f : Nat) (fl : Flight Value), c.flights[f]? = some fl →
    Nearer U fl.node fl.key fl.peer
  removes : ∀ (i : Nat) (r : RemoveCall), c.removes[i]? = some r →
    r.node ∈ U ∧ ∀ j, r.origin = some j → ∃ caller, c.removes[j]? = some caller ∧
      r.key = caller.key ∧ distance caller.key r.node < distance caller.key caller.node

namespace Cluster.Forwarding

omit [ValueBounds Value] in
theorem start : (Cluster.start .withLocalPeer : Cluster Value).Forwarding U where
  topology _ _ := Topology.AloneInv.start
  gets i g hg := by simp [Cluster.start] at hg
  flights f fl hf := by simp [Cluster.start] at hf
  removes i r hr := by simp [Cluster.start] at hr

omit [ValueBounds Value] in
theorem lookup (h : c.Forwarding U) (hU : Addressable U) {n : GroupcachePeer} (hn : n ∈ U)
    {key : String} {found : GroupcachePeerWithClient}
    (hl : (c.node n).topology.routing.lookupPeer key = .ok found) : Nearer U n key found :=
  RoutingState.lookup_nearer hU hn (h.topology n hn).reachable hl

omit [ValueBounds Value] in
theorem nearing (h : c.Forwarding U) : c.Nearing U := ⟨h.gets, h.flights⟩

theorem step_nearing (h : c.Forwarding U) (hU : Addressable U) (hguard : SerialTopology U c a)
    (m : Move c a c') : c'.Nearing U := by
  refine h.nearing.step m (fun n key ha => ?_) fun n hn key found hl => h.lookup hU hn hl
  subst ha
  exact hguard

theorem step (h : c.Forwarding U) (hU : Addressable U) (hguard : SerialTopology U c a)
    (m : Move c a c') : c'.Forwarding U where
  topology n hn := by
    rcases m.topology_cases n with heq | ⟨action, rfl, hs⟩
    · rw [heq]
      exact h.topology n hn
    · exact (h.topology n hn).step hguard.2 hs
  gets := (h.step_nearing hU hguard m).gets
  flights := (h.step_nearing hU hguard m).flights
  removes i r hr := by
    have hgrow := m.removes_grow
    rcases m.remove_cases hr with ⟨old, hold, hn, hk, ho⟩ | ⟨rfl, ho⟩ |
      ⟨j, caller, peer, client, hcaller, hl, hne, hc, ho, hn, hk⟩
    · obtain ⟨hmem, hcallers⟩ := h.removes i old hold
      refine ⟨hn ▸ hmem, fun j hj => ?_⟩
      obtain ⟨caller, hcaller, hck, hlt⟩ := hcallers j (ho ▸ hj)
      obtain ⟨caller', hcaller', hb⟩ := hgrow j caller hcaller
      refine ⟨caller', hcaller', (hk.trans hck).trans hb.key.symm, ?_⟩
      rw [hn, hb.key, hb.node]
      exact hlt
    · exact ⟨hguard, fun j hj => by rw [ho] at hj; cases hj⟩
    · -- a request goes to a nearer node; its caller, which now waits, is still there
      obtain ⟨hmem, _⟩ := h.removes j caller hcaller
      obtain ⟨hclient, hlt⟩ := h.lookup hU hmem hl hne client hc
      refine ⟨hn ▸ hclient, fun k hk' => ?_⟩
      obtain rfl : j = k := Option.some.inj (ho.symm.trans hk')
      obtain ⟨caller', hcaller', hb⟩ := hgrow j caller hcaller
      refine ⟨caller', hcaller', hk.trans hb.key.symm, ?_⟩
      rw [hn, hb.key, hb.node]
      exact hlt

end Cluster.Forwarding

theorem Cluster.reaches_forwarding (hU : Addressable U)
    (h : Reaches Cluster.step (SerialTopology U) (.start .withLocalPeer) c) : c.Forwarding U :=
  h.invariant (I := Cluster.Forwarding U) .start
    fun _ _ _ hi hg hs => hi.step hU hg (Cluster.step_move hs)

/-! ## Chains and cycles -/

namespace Cluster

/-- Get `j` is the request of the flight that get `i` waits or waited for. -/
def GetForwards (c : Cluster Value) (i j : Fin c.gets.length) : Prop :=
  ∃ f, (c.gets.get i).flight = some f ∧ (c.gets.get j).origin = some f

/-- Remove `j` is the request of remove `i`. -/
def RemoveForwards (c : Cluster Value) (i j : Fin c.removes.length) : Prop :=
  (c.removes.get j).origin = some i.val

/-- The flight that node `n` has registered for the key awaits the answer of
node `m`. -/
def WaitsFor (c : Cluster Value) (key : String) (n m : GroupcachePeer) : Prop :=
  ∃ f fl request g, (c.node n).singleFlightGroup key = some f ∧ c.flights[f]? = some fl ∧
    fl.phase = .awaiting request ∧ c.gets[request]? = some g ∧ g.node = m

/-- A request is for the key of its flight, at a node nearer to it. -/
theorem Nearing.request (h : c.Nearing U) (hinv : c.Inv) {f i : Nat} {fl : Flight Value}
    {g : GetCall Value} (hf : c.flights[f]? = some fl) (hreq : fl.request = some i)
    (hg : c.gets[i]? = some g) :
    g.key = fl.key ∧ distance fl.key g.node < distance fl.key fl.node := by
  obtain ⟨hne, g', client, hg', _, hk, hc, hn⟩ := (hinv.flights f fl hf).request i hreq
  obtain rfl : g = g' := Option.some.inj (hg.symm.trans hg')
  rw [hn]
  exact ⟨hk, (h.flights f fl hf hne client hc).2⟩

theorem Forwarding.get_nearer (h : c.Forwarding U) (hinv : c.Inv) {i j : Fin c.gets.length}
    (hij : c.GetForwards i j) :
    (c.gets.get j).key = (c.gets.get i).key ∧
      distance (c.gets.get i).key (c.gets.get j).node
        < distance (c.gets.get i).key (c.gets.get i).node := by
  obtain ⟨f, hfi, hfj⟩ := hij
  have hi : c.gets[i.val]? = some (c.gets.get i) := List.getElem?_eq_getElem i.isLt
  have hj : c.gets[j.val]? = some (c.gets.get j) := List.getElem?_eq_getElem j.isLt
  obtain ⟨fl, hf, hn, hk⟩ := (hinv.gets i _ hi).flight f hfi
  obtain ⟨fl', _, hf', hreq, _⟩ := (hinv.gets j _ hj).origin f hfj
  obtain rfl : fl = fl' := Option.some.inj (hf.symm.trans hf')
  have := h.nearing.request hinv hf hreq hj
  rwa [hk, hn] at this

omit [ValueBounds Value] in
theorem Forwarding.remove_nearer (h : c.Forwarding U) {i j : Fin c.removes.length}
    (hij : c.RemoveForwards i j) :
    (c.removes.get j).key = (c.removes.get i).key ∧
      distance (c.removes.get i).key (c.removes.get j).node
        < distance (c.removes.get i).key (c.removes.get i).node := by
  have hi : c.removes[i.val]? = some (c.removes.get i) := List.getElem?_eq_getElem i.isLt
  have hj : c.removes[j.val]? = some (c.removes.get j) := List.getElem?_eq_getElem j.isLt
  obtain ⟨caller, hcaller, hk, hlt⟩ := (h.removes j _ hj).2 i hij
  obtain rfl : c.removes.get i = caller := Option.some.inj (hi.symm.trans hcaller)
  exact ⟨hk, hlt⟩

end Cluster

/-- Requests do not go round. -/
structure Cluster.Acyclic (peers : Finset GroupcachePeer) (c : Cluster Value) : Prop where
  /-- A chain of `GetRequest`s visits no node twice and has fewer hops than
  there are peers. -/
  gets : ∀ path : List (Fin c.gets.length), path.IsChain c.GetForwards →
    (path.map fun i => (c.gets.get i).node).Nodup ∧ (path ≠ [] → path.length - 1 < peers.card)
  /-- Nodes do not wait for each other's answers in a cycle. -/
  waits : ∀ key n, ¬ Relation.TransGen (c.WaitsFor key) n n
  /-- Chains of `RemoveRequest`s are like those of `GetRequest`s. -/
  removes : ∀ path : List (Fin c.removes.length), path.IsChain c.RemoveForwards →
    (path.map fun i => (c.removes.get i).node).Nodup ∧ (path ≠ [] → path.length - 1 < peers.card)

/-- **No forwarding cycle, whatever the tables say.** -/
theorem no_forwarding_cycle {peers : Finset GroupcachePeer}
    (hU : Addressable (peers : Set GroupcachePeer))
    (h : Reaches Cluster.step (SerialTopology (peers : Set GroupcachePeer))
      (.start .withLocalPeer) c) : c.Acyclic peers := by
  have hinv := Cluster.reaches_inv h
  have hfwd := Cluster.reaches_forwarding hU h
  constructor
  case gets =>
    intro path hpath
    have hR := fun i j hij => hfwd.get_nearer hinv (i := i) (j := j) hij
    refine ⟨Descent.places_nodup (m := distance) hR hpath, fun hne => ?_⟩
    refine Descent.hops_lt_card (m := distance) hR hpath hne fun i _ => ?_
    exact (hfwd.gets i _ (List.getElem?_eq_getElem i.isLt)).1
  case waits =>
    intro key n
    refine Descent.not_transGen_self (m := distance key) ?_ n
    rintro p q ⟨f, fl, request, g, hgroup, hf, hp, hg, rfl⟩
    obtain ⟨fl', hf', hn, hk, _⟩ := (hinv.group p key f).mp hgroup
    obtain rfl : fl = fl' := Option.some.inj (hf.symm.trans hf')
    have hph := (hinv.flights f fl hf).phase
    rw [Flight.PhaseOk, hp] at hph
    have := (hfwd.nearing.request hinv hf hph.1 hg).2
    rwa [hk, hn] at this
  case removes =>
    intro path hpath
    have hR := fun i j hij => hfwd.remove_nearer (i := i) (j := j) hij
    refine ⟨Descent.places_nodup (m := distance) hR hpath, fun hne => ?_⟩
    refine Descent.hops_lt_card (m := distance) hR hpath hne fun i _ => ?_
    exact (hfwd.removes i _ (List.getElem?_eq_getElem i.isLt)).1

omit [Platform] [ValueBounds Value] in
/-- A node that has added another forwards a key of the other to it. -/
theorem no_forwarding_cycle_sample :
    let _ : Platform := Concrete.platform [Concrete.node 8001, Concrete.node 8002]
    let _ : ValueBounds UInt8 := Concrete.messagePack
    let peers : Finset GroupcachePeer := {Concrete.node 8001, Concrete.node 8002}
    ∃ c : Cluster UInt8, c.Acyclic peers ∧
      c.gets.map GetCall.node = [Concrete.node 8001, Concrete.node 8002] := by
  intro _ _ peers
  have hU := Concrete.addressable_nodes [8001, 8002] (by decide)
  have hset : {p | p ∈ [8001, 8002].map Concrete.node} = (peers : Set GroupcachePeer) := by
    ext p
    simp [peers]
  have hA : Concrete.node 8001 ∈ {p | p ∈ [8001, 8002].map Concrete.node} := by decide
  have hB : Concrete.node 8002 ∈ {p | p ∈ [8001, 8002].map Concrete.node} := by decide
  obtain ⟨hlookup, -⟩ := Concrete.lookupPeer_paired
  rw [hset] at hU hA hB
  refine ⟨_, no_forwarding_cycle hU <|
    .head (a := .topology (Concrete.node 8001)
      (.begin (.addPeer (Concrete.node 8002)) fun _ => .connected 0)) ⟨hA, ?_, ?_⟩ rfl <|
    .head (a := .topology (Concrete.node 8001) (.advance 0 [] [])) ⟨hA, trivial⟩ rfl <|
    .head (a := .topology (Concrete.node 8001) (.advance 0 [] [])) ⟨hA, trivial⟩ rfl <|
    .head (a := .topology (Concrete.node 8001) (.advance 0 [] [])) ⟨hA, trivial⟩ rfl <|
    .head (a := .get (Concrete.node 8001) "127.0.0.1:8002_0") hA rfl <|
    .head (a := .runGet 0) trivial rfl <| .head (a := .runGet 0) trivial rfl <|
    .head (a := .runGet 0) trivial rfl <|
    .head (a := .runGet 0) trivial (Cluster.step_routing rfl rfl hlookup) <|
    .head (a := .runGet 0) trivial rfl <|
    .single (a := .runFlight 0) trivial rfl, rfl⟩
  · simpa [TopologyOp.peers] using hB
  · intro call hcall
    cases hcall

end Groupcache
