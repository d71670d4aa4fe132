import Groupcache.Cluster.Invariant
import Groupcache.Concrete
import Groupcache.Topology.Overlap

/-!
# Where cached and returned values come from

`Cluster.Inv` traces every value to a load and every cache entry to the
flight that wrote it. What is missing for `Cluster.Provenance` is that a
request goes to the peer it is meant for (`Cluster.Dials`), and that sending a
value does not change it, which is a property of the encoding.
-/

namespace Groupcache

open Transition

variable [Platform] {Value : Type} [ValueBounds Value] {c c' : Cluster Value}
  {a : Action Value}

/-! ## Requests go where they are meant to go -/

omit [Platform] in
/-- The client dials the peer it comes with. -/
def GroupcachePeerWithClient.Dials (found : GroupcachePeerWithClient) : Prop :=
  ∀ client, found.client = some client → client.peer = found.peer

/-- Every client in a table or held by a call or a flight dials its peer. -/
structure Cluster.Dials (c : Cluster Value) : Prop where
  topology : ∀ n, (c.node n).topology.Dials
  gets : ∀ (i : Nat) (g : GetCall Value) peer, c.gets[i]? = some g →
    g.phase = .deduping peer → peer.Dials
  flights : ∀ (f : Nat) (fl : Flight Value), c.flights[f]? = some fl → fl.peer.Dials

/-- A lookup finds the client the table has for the peer. -/
theorem RoutingState.lookupPeer_client {s : RoutingState} {key : String}
    {found : GroupcachePeerWithClient} (h : s.lookupPeer key = .ok found) :
    found.client = s.peers.lookup found.peer := by
  simp only [RoutingState.lookupPeer] at h
  split at h <;> cases h
  rfl

theorem Topology.Dials.lookupPeer {t : Topology} (h : t.Dials) {key : String}
    {found : GroupcachePeerWithClient} (hl : t.routing.lookupPeer key = .ok found) :
    found.Dials := by
  intro client hc
  rw [RoutingState.lookupPeer_client hl] at hc
  exact h.clients _ _ hc

theorem Cluster.Dials.step (h : c.Dials) (m : Move c a c') : c'.Dials where
  topology n := by
    rcases m.topology_cases n with heq | ⟨action, _, hs⟩
    · rw [heq]
      exact h.topology n
    · exact (h.topology n).step hs
  gets i g peer hg hp := by
    rcases m.deduping_cases hg hp with hg | hl
    · exact h.gets i g peer hg hp
    · exact (h.topology _).lookupPeer hl
  flights f fl hf := by
    rcases m.flight_cases hf with ⟨old, hold, _, _, hpeer⟩ | ⟨i, call, hcall, hp, _⟩
    · rw [hpeer]
      exact h.flights f old hold
    · exact h.gets i call _ hcall hp

omit [ValueBounds Value] in
theorem Cluster.Dials.start : (Cluster.start .withLocalPeer : Cluster Value).Dials where
  topology _ := Topology.Dials.start
  gets i g peer hg := by simp [Cluster.start] at hg
  flights f fl hf := by simp [Cluster.start] at hf

theorem Cluster.reaches_dials {guard : Cluster Value → Action Value → Prop}
    (h : Reaches Cluster.step guard (.start .withLocalPeer) c) : c.Dials :=
  h.invariant (I := Cluster.Dials) .start fun _ _ _ hd _ hs => hd.step (Cluster.step_move hs)

/-! ## Encodings -/

/-- Decoding undoes encoding. -/
def ValueBounds.RoundTrips (Value : Type) [ValueBounds Value] : Prop :=
  ∀ (v : Value) bytes, toVec v = .ok bytes → fromRead bytes = .ok v

namespace Concrete

/-- MessagePack of a byte. -/
@[reducible] def messagePack : ValueBounds UInt8 where
  toVec v := .ok (if v < 128 then [v] else [0xcc, v])
  fromRead bytes :=
    match bytes with
    | [b] => if b < 128 then .ok b else .error "invalid marker"
    | [m, b] => if m = 0xcc then .ok b else .error "invalid marker"
    | _ => .error "invalid length"

omit [Platform] in
theorem messagePack_roundTrips : @ValueBounds.RoundTrips UInt8 messagePack := by
  intro v bytes h
  cases h
  by_cases hv : v < 128
  · simp only [ValueBounds.fromRead, if_pos hv]
  · simp only [ValueBounds.fromRead, if_neg hv, if_true]

/-! Actions that runs of two nodes are made of. -/

/-- Topology call `i` of node `n` adds a peer. -/
def adds (n : GroupcachePeer) (i : Nat) (peer : GroupcachePeer) : List (Action UInt8) :=
  .topology n (.begin (.addPeer peer) fun _ => .connected 0) ::
    List.replicate 3 (.topology n (.advance i [] []))

/-- Two nodes add each other. -/
def introduce : List (Action UInt8) :=
  adds (node 8001) 0 (node 8002) ++ adds (node 8002) 0 (node 8001)

/-- Call `i` of `get` misses both caches and enters the group. -/
def enters (i : Nat) : List (Action UInt8) := List.replicate 5 (.runGet i)

/-- Call `i` opens flight `f`, which loads the value. -/
def loads (i f : Nat) (value : UInt8) : List (Action UInt8) :=
  enters i ++ [.runFlight f, .load f (.ok value), .runFlight f, .runFlight f, .runGet i]

/-- Call `i` opens flight `f`, and its request, which is the next call, loads
the value by the next flight. -/
def asks (i f : Nat) (value : UInt8) : List (Action UInt8) :=
  enters i ++ [.runFlight f, .runGet (i + 1)] ++ loads (i + 1) (f + 1) value ++
    List.replicate 3 (.runFlight f) ++ [.runGet i]

end Concrete

/-! ## Provenance -/

/-- A load for the key returned this very value. -/
def LoadedFor (c : Cluster Value) (key : String) (loaded : Loaded Value) : Prop :=
  ∃ load, c.loads[loaded.load]? = some load ∧ load.key = key ∧
    load.result = some (.ok loaded.value)

theorem Produced.loadedFor {key : String} {loaded : Loaded Value}
    (hround : ValueBounds.RoundTrips Value) (h : Produced c key loaded) :
    LoadedFor c key loaded := by
  obtain ⟨load, v, hl, hk, hr, hv⟩ := h
  have hsame : ∀ w, Relation.ReflTransGen Resends v w → w = v := by
    intro w hw
    induction hw with
    | refl => rfl
    | tail _ hstep ih =>
        obtain ⟨bytes, henc, hdec⟩ := hstep
        rw [hround _ _ henc] at hdec
        cases hdec
        exact ih
  exact ⟨load, hl, hk, by rw [hr, hsame _ hv]⟩

/-- The load was a fallback: its flight had looked up another node. -/
def LoadCall.Fallback (c : Cluster Value) (load : LoadCall Value) : Prop :=
  ∃ fl, c.flights[load.flight]? = some fl ∧ fl.peer.peer ≠ load.node

instance (c : Cluster Value) (load : LoadCall Value) : Decidable (load.Fallback c) :=
  inferInstanceAs (Decidable (∃ fl ∈ c.flights[load.flight]?, fl.peer.peer ≠ load.node))

/-- A node has the entry in its main cache or in its hot cache. -/
def GroupcacheInner.Caches (x : GroupcacheInner Value) (key : String) (e : Entry Value) : Prop :=
  x.mainCache key = some e ∨ x.hotCache key = some e

/-- Where the values of a cluster come from. -/
structure Cluster.Provenance (c : Cluster Value) : Prop where
  /-- What is cached for a key was returned by a load for that key. -/
  cached : ∀ n key e, (c.node n).Caches key e → LoadedFor c key e.loaded
  /-- So was what `get` returns for it, -/
  returned : ∀ (i : Nat) (g : GetCall Value) loaded, c.gets[i]? = some g →
    g.phase = .returned (.ok loaded) → LoadedFor c g.key loaded
  /-- and what it answers to a peer. -/
  answered : ∀ (i : Nat) (g : GetCall Value) result response, c.gets[i]? = some g →
    g.phase = .returned result → respondGet result = .ok response →
      ∃ loaded bytes, LoadedFor c g.key loaded ∧ ValueBounds.toVec loaded.value = .ok bytes ∧
        response = { value := some bytes, load := loaded.load }
  /-- An entry of a main cache comes from a load of the node itself, in a
  flight that had looked up the node. -/
  main : ∀ n key e, (c.node n).mainCache key = some e →
    ∃ fl load, c.flights[e.flight]? = some fl ∧ fl.node = n ∧ fl.key = key ∧
      fl.peer.peer = n ∧ c.loads[e.loaded.load]? = some load ∧ load.node = n ∧
      load.flight = e.flight
  /-- An entry of a hot cache comes from the answer of another node to the
  request of the flight that wrote it. -/
  hot : ∀ n key e, (c.node n).hotCache key = some e →
    ∃ fl request call result, c.flights[e.flight]? = some fl ∧ fl.node = n ∧ fl.key = key ∧
      fl.request = some request ∧ c.gets[request]? = some call ∧
      call.origin = some e.flight ∧ call.key = key ∧ call.node = fl.peer.peer ∧
      call.node ≠ n ∧ call.phase = .returned result ∧
      loadRemotely (respondGet result) = some (.ok e.loaded)
  /-- A flight that falls back to a load of its own writes no entry. -/
  fallback : ∀ (l : Nat) (load : LoadCall Value), c.loads[l]? = some load → load.Fallback c →
    ∀ n key e, (c.node n).Caches key e → e.flight ≠ load.flight

/-- It holds in every state that a cluster reaches, whatever is done to it and
whatever fails. -/
theorem Cluster.reaches_provenance (hround : ValueBounds.RoundTrips Value)
    (h : Reaches Cluster.step (fun _ _ => True) (.start .withLocalPeer) c) : c.Provenance := by
  have hinv := Cluster.reaches_inv h
  have hdials := Cluster.reaches_dials h
  have hreturned : ∀ (i : Nat) (g : GetCall Value) loaded, c.gets[i]? = some g →
      g.phase = .returned (.ok loaded) → LoadedFor c g.key loaded := by
    intro i g loaded hg hp
    exact (hinv.returned hg hp).loadedFor hround
  constructor
  case cached =>
    rintro n key e (he | he)
    · exact (hinv.main n key e he).1.loadedFor hround
    · exact (hinv.hot n key e he).1.loadedFor hround
  case returned => exact hreturned
  case answered =>
    intro i g result response hg hp hresp
    cases result with
    | error e => cases hresp
    | ok loaded =>
        simp only [respondGet] at hresp
        split at hresp <;> cases hresp
        exact ⟨loaded, _, hreturned i g loaded hg hp, by assumption, rfl⟩
  case main =>
    intro n key e he
    obtain ⟨_, fl, hf, hn, hk, hpeer, hl⟩ := hinv.main n key e he
    obtain ⟨load, hload, hln, _, hlf⟩ := (hinv.flights _ fl hf).load _ hl
    exact ⟨fl, load, hf, hn, hk, hpeer, hload, hln.trans hn, hlf⟩
  case hot =>
    intro n key e he
    obtain ⟨_, fl, request, hf, hn, hk, hreq, _, _, call, result, hcall, hret, hresp⟩ :=
      hinv.hot n key e he
    obtain ⟨hne, g, client, hg, ho, hgk, hc, hgn⟩ := (hinv.flights _ fl hf).request _ hreq
    obtain rfl : call = g := Option.some.inj (hcall.symm.trans hg)
    have hpeer : call.node = fl.peer.peer := hgn.trans (hdials.flights _ fl hf client hc)
    exact ⟨fl, request, call, result, hf, hn, hk, hreq, hcall, ho, hgk.trans hk, hpeer,
      fun hcn => hne (hpeer.symm.trans (hcn.trans hn.symm)), hret, hresp⟩
  case fallback =>
    rintro l load hload ⟨fl, hf, hne⟩ n key e he heq
    obtain ⟨fl', hf', hl', hn', _⟩ := hinv.loads l load hload
    obtain rfl : fl = fl' := Option.some.inj (hf.symm.trans hf')
    rcases he with he | he
    · obtain ⟨_, x, hx, hxn, _, hpeer, _⟩ := hinv.main n key e he
      obtain rfl : fl = x := Option.some.inj (hf.symm.trans (heq ▸ hx))
      exact hne (hpeer.trans (hxn.symm.trans hn'))
    · obtain ⟨_, x, request, hx, _, _, _, hnone, _⟩ := hinv.hot n key e he
      obtain rfl : fl = x := Option.some.inj (hf.symm.trans (heq ▸ hx))
      rw [hl'] at hnone
      cases hnone

end Groupcache
