import Groupcache.Topology.Serial

/-!
# The known peers

What a call is for, said of the set of known peers alone: `knownAfter`.
`TopologyOp.complete_peerSet` ties it to the calls as the source has them,
whatever the order in which `set_peers` iterates and its attempts finish.
-/

namespace Groupcache

variable [Platform]

def ConnectOutcome.succeeds : ConnectOutcome → Bool
  | .connected _ => true
  | _ => false

/-- The known peers after a call that runs alone. -/
def TopologyOp.knownAfter (attempt : GroupcachePeer → ConnectOutcome)
    (known : Finset GroupcachePeer) : TopologyOp → Finset GroupcachePeer
  | .addPeer p => if (attempt p).succeeds then insert p known else known
  | .setPeers updated =>
      if ∃ p ∈ updated \ known, attempt p = .panicked then known
      else (known ∩ updated) ∪ (updated \ known).filter fun p => (attempt p).succeeds
  | .removePeer p => known.erase p

variable {s : RoutingState} {op : TopologyOp} {attempt : GroupcachePeer → ConnectOutcome}
  {order removal : List GroupcachePeer}

omit [Platform] in
theorem mem_connected_peers {p : GroupcachePeer} :
    p ∈ (connected attempt order).map Prod.fst ↔ p ∈ order ∧ (attempt p).succeeds = true := by
  simp only [List.mem_map, mem_connected]
  constructor
  · rintro ⟨c, ⟨hc, channel, ha, _⟩, rfl⟩
    exact ⟨hc, by rw [ha]; rfl⟩
  · rintro ⟨hp, hs⟩
    cases ha : attempt p with
    | connected channel =>
        exact ⟨(p, { socket := p.socket, channel }), ⟨hp, channel, ha, rfl⟩, rfl⟩
    | failed e => rw [ha] at hs; cases hs
    | panicked => rw [ha] at hs; cases hs

theorem RoutingState.mem_peerSet_write {adds : List Connection} {removes : List GroupcachePeer}
    {p : GroupcachePeer} :
    p ∈ (s.write adds removes).peerSet
      ↔ p ∉ removes ∧ (p ∈ adds.map Prod.fst ∨ p ∈ s.peerSet) := by
  rw [mem_peerSet, mem_write, mem_peerSet]

/-- **A call that runs alone does to the known peers what it is for.** -/
theorem TopologyOp.complete_peerSet (h : op.Schedule s.peerSet order removal) :
    (op.complete s attempt order removal).1.peerSet = op.knownAfter attempt s.peerSet := by
  cases op with
  | addPeer p =>
      by_cases hp : p ∈ s.peers
      · have hins : insert p s.peerSet = s.peerSet :=
          Finset.insert_eq_self.mpr (RoutingState.mem_peerSet.mpr hp)
        simp [complete, Groupcache.addPeer, knownAfter, hp, hins]
      · cases ha : attempt p with
        | connected channel =>
            ext q
            simp [complete, Groupcache.addPeer, knownAfter, hp, ha, connectStatic,
              ConnectOutcome.succeeds, RoutingState.mem_peerSet]
        | failed e =>
            simp [complete, Groupcache.addPeer, knownAfter, hp, ha, connectStatic,
              ConnectOutcome.succeeds]
        | panicked =>
            simp [complete, Groupcache.addPeer, knownAfter, hp, ha, connectStatic,
              ConnectOutcome.succeeds]
  | setPeers updated =>
      have hiff : (∃ p ∈ order, attempt p = .panicked)
          ↔ ∃ p ∈ updated \ s.peerSet, attempt p = .panicked :=
        exists_congr fun p => and_congr_left fun _ => h.1.mem_iff
      by_cases hpanic : ∃ p ∈ order, attempt p = .panicked
      · rw [complete, setPeers_fst, if_pos hpanic, knownAfter, if_pos (hiff.mp hpanic)]
      · rw [complete, setPeers_fst, if_neg hpanic, knownAfter, if_neg (hiff.not.mp hpanic)]
        ext p
        rw [RoutingState.mem_peerSet_write, mem_connected_peers, h.1.mem_iff, h.2.mem_iff]
        simp only [Finset.mem_sdiff, Finset.mem_union, Finset.mem_inter, Finset.mem_filter]
        tauto
  | removePeer p =>
      by_cases hp : p ∈ s.peers
      · ext q
        simp [complete, Groupcache.removePeer, knownAfter, hp, RoutingState.mem_peerSet]
      · have : s.peerSet.erase p = s.peerSet :=
          Finset.erase_eq_self.mpr fun h => hp (RoutingState.mem_peerSet.mp h)
        simp [complete, Groupcache.removePeer, knownAfter, hp, this]

/-! ## One call after another -/

/-- A call as it is made: the operation, and what its attempts come to. -/
structure TopologyRequest where
  op : TopologyOp
  attempt : GroupcachePeer → ConnectOutcome

/-- The calls run one after the other. -/
inductive SerialRun : RoutingState → List TopologyRequest → RoutingState → Prop where
  | nil (s : RoutingState) : SerialRun s [] s
  | cons {s s' : RoutingState} {r : TopologyRequest} {rs : List TopologyRequest}
      (order removal : List GroupcachePeer) : r.op.Schedule s.peerSet order removal →
      SerialRun (r.op.complete s r.attempt order removal).1 rs s' → SerialRun s (r :: rs) s'

/-- The known peers after a list of calls. -/
def knownAfterAll (known : Finset GroupcachePeer) (rs : List TopologyRequest) :
    Finset GroupcachePeer :=
  rs.foldl (fun known r => r.op.knownAfter r.attempt known) known

theorem SerialRun.peerSet {s s' : RoutingState} {rs : List TopologyRequest}
    (h : SerialRun s rs s') : s'.peerSet = knownAfterAll s.peerSet rs := by
  induction h with
  | nil => rfl
  | cons order removal hsched _ ih =>
      rw [ih, TopologyOp.complete_peerSet hsched]
      rfl

/-- Every set can be iterated, so any calls can be run. -/
theorem SerialRun.exists (s : RoutingState) (rs : List TopologyRequest) :
    ∃ s', SerialRun s rs s' := by
  have henum : ∀ A : Finset GroupcachePeer, Enumerates A.toList A := fun A =>
    ⟨A.nodup_toList, A.toList_toFinset⟩
  induction rs generalizing s with
  | nil => exact ⟨s, .nil s⟩
  | cons r rs ih =>
      have hsched : ∃ order removal, r.op.Schedule s.peerSet order removal := by
        cases r.op with
        | setPeers updated => exact ⟨_, _, henum _, henum _⟩
        | addPeer p => exact ⟨[], [], trivial⟩
        | removePeer p => exact ⟨[], [], trivial⟩
      obtain ⟨order, removal, hsched⟩ := hsched
      obtain ⟨s', hs'⟩ := ih (r.op.complete s r.attempt order removal).1
      exact ⟨s', .cons order removal hsched hs'⟩

end Groupcache
