import Groupcache.Topology.Known
import Groupcache.Topology.Overlap

/-!
# The contract of `set_peers`

What a call of `set_peers` does that no other topology call overlaps, on any
table that calls can lead to: the connections it attempts, the known peers,
their clients and the ring afterwards, and its result. `SetPeersRun` is one
way such a call can go, by the orders in which the two sets are iterated and
the attempts finish; what the call does is the same for all of them
(`SetPeersContract.order`), but for the order of the errors.
-/

namespace Groupcache

open Transition

variable [Platform]

/-- One way a call of `set_peers` on the table can go. -/
structure SetPeersRun (s : RoutingState) (updatedPeers : Finset GroupcachePeer) where
  /-- The order in which `updated_peers` is iterated. -/
  updatedIter : List GroupcachePeer
  /-- The order in which `current_peers` is iterated. -/
  currentIter : List GroupcachePeer
  /-- The order in which `join_next` returns the attempts. -/
  finished : List GroupcachePeer
  updatedIter_enumerates : Enumerates updatedIter updatedPeers
  currentIter_enumerates : Enumerates currentIter s.peerSet
  finished_perm : finished.Perm (updatedIter.filter fun p => p ∉ s.peerSet)

namespace SetPeersRun

variable {s : RoutingState} {updatedPeers : Finset GroupcachePeer}

/-- `updated_peers.difference(current_peers)`: each of these is spawned an attempt. -/
def attempted (r : SetPeersRun s updatedPeers) : List GroupcachePeer :=
  r.updatedIter.filter fun p => p ∉ s.peerSet

/-- `current_peers.difference(&updated_peers)` -/
def peersToRemove (r : SetPeersRun s updatedPeers) : List GroupcachePeer :=
  r.currentIter.filter fun p => p ∉ updatedPeers

def outcome (r : SetPeersRun s updatedPeers) (attempt : GroupcachePeer → ConnectOutcome) :
    RoutingState × CallResult :=
  setPeers s attempt r.finished r.peersToRemove

omit [Platform] in
private theorem enumerates_filter {l : List GroupcachePeer} {A B : Finset GroupcachePeer}
    (h : Enumerates l A) : Enumerates (l.filter fun p => p ∉ B) (A \ B) := by
  refine ⟨h.1.filter _, ?_⟩
  ext p
  simp [h.mem_iff]

theorem enumerates_attempted (r : SetPeersRun s updatedPeers) :
    Enumerates r.attempted (updatedPeers \ s.peerSet) :=
  enumerates_filter r.updatedIter_enumerates

/-- The orders are those of a call that runs alone. -/
theorem schedule (r : SetPeersRun s updatedPeers) :
    TopologyOp.Schedule s.peerSet r.finished r.peersToRemove (.setPeers updatedPeers) := by
  obtain ⟨hnodup, hset⟩ := r.enumerates_attempted
  refine ⟨⟨r.finished_perm.nodup_iff.mpr hnodup, ?_⟩, enumerates_filter r.currentIter_enumerates⟩
  rw [← hset]
  exact List.toFinset_eq_of_perm _ _ r.finished_perm

theorem mem_finished (r : SetPeersRun s updatedPeers) {p : GroupcachePeer} :
    p ∈ r.finished ↔ p ∈ updatedPeers ∧ p ∉ s.peers := by
  rw [r.schedule.1.mem_iff, Finset.mem_sdiff, RoutingState.mem_peerSet]

theorem mem_peersToRemove (r : SetPeersRun s updatedPeers) {p : GroupcachePeer} :
    p ∈ r.peersToRemove ↔ p ∈ s.peers ∧ p ∉ updatedPeers := by
  rw [r.schedule.2.mem_iff, Finset.mem_sdiff, RoutingState.mem_peerSet]

theorem peerSet_outcome (r : SetPeersRun s updatedPeers)
    (attempt : GroupcachePeer → ConnectOutcome) :
    (r.outcome attempt).1.peerSet
      = (TopologyOp.setPeers updatedPeers).knownAfter attempt s.peerSet :=
  TopologyOp.complete_peerSet r.schedule

end SetPeersRun

/-! ## What `set_peers` returns -/

/-- The error of an attempt. -/
def ConnectOutcome.failure : ConnectOutcome → Option InternalGroupcacheError
  | .failed error => some (.connection error)
  | _ => none

/-- The errors of a list of attempts. -/
def failures (attempt : GroupcachePeer → ConnectOutcome) (order : List GroupcachePeer) :
    List InternalGroupcacheError :=
  order.filterMap fun p => (attempt p).failure

theorem addConnections_snd (s : RoutingState) (results : List ConnectResult) :
    (s.addConnections results).2
      = results.filterMap fun | .ok _ => none | .error e => some e := by
  induction results generalizing s with
  | nil => rfl
  | cons result rest ih =>
      cases result with
      | error e =>
          simp only [RoutingState.addConnections]
          rw [ih s, List.filterMap_cons]
      | ok c =>
          obtain ⟨peer, client⟩ := c
          simp only [RoutingState.addConnections]
          rw [ih, List.filterMap_cons]

omit [Platform] in
/-- An attempt that does not panic has a result. -/
theorem connectToNewPeers_eq_ok {attempt : GroupcachePeer → ConnectOutcome}
    {order : List GroupcachePeer} (h : ∀ p ∈ order, attempt p ≠ .panicked) :
    connectToNewPeers attempt order
      = .ok (order.filterMap fun p => connectStatic p (attempt p)) := by
  induction order with
  | nil => rfl
  | cons p rest ih =>
      have hrest := ih fun q hq => h q (List.mem_cons_of_mem p hq)
      cases ha : attempt p with
      | connected channel => simp [connectToNewPeers, connectStatic, ha, hrest]
      | failed e => simp [connectToNewPeers, connectStatic, ha, hrest]
      | panicked => exact absurd ha (h p List.mem_cons_self)

omit [Platform] in
private theorem filterMap_connectStatic (attempt : GroupcachePeer → ConnectOutcome)
    (order : List GroupcachePeer) :
    (order.filterMap fun p => connectStatic p (attempt p)).filterMap
        (fun | .ok _ => none | .error e => some e)
      = failures attempt order := by
  rw [List.filterMap_filterMap, failures]
  refine List.filterMap_congr fun p _ => ?_
  cases attempt p <;> rfl

/-- **What `set_peers` returns**: Ok if no attempt has failed, else the errors
of those that have. -/
theorem setPeers_snd (s : RoutingState) {attempt : GroupcachePeer → ConnectOutcome}
    {order : List GroupcachePeer} (removal : List GroupcachePeer)
    (h : ∀ p ∈ order, attempt p ≠ .panicked) :
    (setPeers s attempt order removal).2
      = some (if (failures attempt order).isEmpty then .ok ()
        else .error (.connectionErrors (failures attempt order))) := by
  have hfail := filterMap_connectStatic attempt order
  simp only [setPeers, connectToNewPeers_eq_ok h]
  by_cases hempty :
      (removal.isEmpty && (order.filterMap fun p => connectStatic p (attempt p)).isEmpty) = true
  · -- no update to make, so nothing has failed
    rw [if_pos hempty, ← hfail, List.isEmpty_iff.mp (Bool.and_eq_true_iff.mp hempty).2]
    rfl
  · rw [if_neg hempty]
    simp only [finishSetPeers, RoutingState.updateRoutingTable, addConnections_snd, hfail]

/-- A panic of an attempt leaves the table as it is. -/
theorem setPeers_panicked (s : RoutingState) {attempt : GroupcachePeer → ConnectOutcome}
    {order : List GroupcachePeer} (removal : List GroupcachePeer)
    (h : ∃ p ∈ order, attempt p = .panicked) :
    (setPeers s attempt order removal).1 = s ∧
      ∃ e, (setPeers s attempt order removal).2 = some (.error e) := by
  cases hc : connectToNewPeers attempt order with
  | error e => simp [setPeers, hc]
  | ok results =>
      obtain ⟨p, hp, hpanic⟩ := h
      exact absurd hpanic ((connectToNewPeers_ok hc).2 p hp)

/-! ## What a write does to the ring -/

namespace RoutingState

variable {s : RoutingState} {U : Set GroupcachePeer} {n : GroupcachePeer → Nat}

private theorem coe_entries_foldl_addPeer (s : RoutingState) (adds : List Connection) :
    ((adds.foldl (fun s c => s.addPeer c.1 c.2) s).entries : Multiset VNode)
      = s.entries + (adds.map fun c => (vnodes c.1 : Multiset VNode)).sum := by
  induction adds generalizing s with
  | nil => simp
  | cons c adds ih =>
      have hadd : ((s.addPeer c.1 c.2).entries : Multiset VNode) = s.entries + vnodes c.1 :=
        ConsistentHashing.Copies.coe_entries_addAll s.ring (vnodes c.1)
      rw [List.foldl_cons, ih, hadd, List.map_cons, List.sum_cons, add_assoc]

/-- Each peer removed loses a copy, if it has one. -/
private theorem coe_entries_foldl_removePeer (hU : Addressable U) {removes : List GroupcachePeer}
    (hnodup : removes.Nodup) (hr : ∀ p ∈ removes, p ∈ U ∧ 0 < n p) (C : Copies U s n) :
    ((removes.foldl RoutingState.removePeer s).entries : Multiset VNode)
        + (removes.map fun p => (vnodes p : Multiset VNode)).sum
      = s.entries := by
  induction removes generalizing s n with
  | nil => simp
  | cons q removes ih =>
      obtain ⟨hq, hnodup⟩ := List.nodup_cons.mp hnodup
      obtain ⟨hqU, hqn⟩ := hr q List.mem_cons_self
      have hrest : ∀ p ∈ removes, p ∈ U ∧ 0 < Function.update n q (n q - 1) p := by
        intro p hp
        have hpq : p ≠ q := fun h => hq (h ▸ hp)
        rw [Function.update_of_ne hpq]
        exact hr p (List.mem_cons_of_mem q hp)
      have hrem : ((s.removePeer q).entries : Multiset VNode) + vnodes q = s.entries := by
        have h := ConsistentHashing.Copies.coe_entries_removeAll C hU.placement hqU hqn
        exact h
      rw [List.foldl_cons, List.map_cons, List.sum_cons, add_comm (vnodes q : Multiset VNode),
        ← add_assoc, ih hnodup hrest (C.removePeer hU hqU), hrem]

/-- **A write changes the ring by the vnodes of the peers it adds and removes**,
if those it removes stand there and it does not add them. -/
theorem coe_entries_write (hU : Addressable U) (C : Copies U s n) {adds : List Connection}
    {removes : List GroupcachePeer} (ha : ∀ c ∈ adds, c.1 ∈ U) (hnodup : removes.Nodup)
    (hr : ∀ p ∈ removes, p ∈ U ∧ 0 < n p) :
    ((s.write adds removes).entries : Multiset VNode)
        + (removes.map fun p => (vnodes p : Multiset VNode)).sum
      = s.entries + (adds.map fun c => (vnodes c.1 : Multiset VNode)).sum := by
  rw [write, coe_entries_foldl_removePeer hU hnodup _ (C.foldl_addPeer hU ha),
    coe_entries_foldl_addPeer]
  intro p hp
  exact ⟨(hr p hp).1, Nat.lt_of_lt_of_le (hr p hp).2 (Nat.le_add_right _ _)⟩

end RoutingState

/-! ## The contract -/

omit [Platform] in
theorem Enumerates.perm {α : Type} [DecidableEq α] {l l' : List α} {A : Finset α}
    (h : Enumerates l A) (h' : Enumerates l' A) : l.Perm l' :=
  List.perm_of_nodup_nodup_toFinset_eq h.1 h'.1 (h.2.trans h'.2.symm)

/-- The peers that are new to the table. -/
def RoutingState.newPeers (s : RoutingState) (updatedPeers : Finset GroupcachePeer) :
    Finset GroupcachePeer := updatedPeers \ s.peerSet

/-- What a call of `set_peers` does to the table it finds. -/
structure SetPeersContract (s : RoutingState) (updatedPeers : Finset GroupcachePeer)
    (attempt : GroupcachePeer → ConnectOutcome) (r : SetPeersRun s updatedPeers) : Prop where
  /-- It attempts one connection to each new peer and none to a known one. -/
  attempted : r.attempted.Nodup ∧ ∀ p, p ∈ r.attempted ↔ p ∈ updatedPeers ∧ p ∉ s.peers
  known : (∀ p ∈ s.newPeers updatedPeers, attempt p ≠ .panicked) →
    (r.outcome attempt).1.peerSet = (s.peerSet ∩ updatedPeers)
      ∪ (s.newPeers updatedPeers).filter fun p => (attempt p).succeeds
  /-- The known peers that stay keep their clients, -/
  clients : (∀ p ∈ s.newPeers updatedPeers, attempt p ≠ .panicked) →
    ∀ p ∈ s.peerSet ∩ updatedPeers, (r.outcome attempt).1.peers.lookup p = s.peers.lookup p
  /-- and a new one gets that of its connection. -/
  connected : (∀ p ∈ s.newPeers updatedPeers, attempt p ≠ .panicked) →
    ∀ p ∈ s.newPeers updatedPeers, ∀ channel, attempt p = .connected channel →
      (r.outcome attempt).1.peers.lookup p = some { socket := p.socket, channel }
  /-- The vnodes of the peers dropped go and those of the peers added come. -/
  ring : (∀ p ∈ s.newPeers updatedPeers, attempt p ≠ .panicked) →
    ((r.outcome attempt).1.entries : Multiset VNode)
        + ∑ p ∈ s.peerSet \ updatedPeers, (vnodes p : Multiset VNode)
      = s.entries + ∑ p ∈ (s.newPeers updatedPeers).filter fun p => (attempt p).succeeds,
          (vnodes p : Multiset VNode)
  ok : (∀ p ∈ s.newPeers updatedPeers, attempt p ≠ .panicked) →
    ((r.outcome attempt).2 = some (.ok ())
      ↔ ∀ p ∈ s.newPeers updatedPeers, (attempt p).succeeds = true)
  /-- Otherwise there is one error for each attempt that has failed. -/
  errors : (∀ p ∈ s.newPeers updatedPeers, attempt p ≠ .panicked) →
    (∃ p ∈ s.newPeers updatedPeers, (attempt p).succeeds = false) →
      ∃ errors, (r.outcome attempt).2 = some (.error (.connectionErrors errors)) ∧
        (errors : Multiset InternalGroupcacheError)
          = (s.newPeers updatedPeers).val.filterMap fun p => (attempt p).failure
  panicked : (∃ p ∈ s.newPeers updatedPeers, attempt p = .panicked) →
    (r.outcome attempt).1 = s ∧ ∃ e, (r.outcome attempt).2 = some (.error e)
  /-- The order of the iterations and in which the attempts finish does not matter. -/
  order : ∀ r' : SetPeersRun s updatedPeers,
    (r.outcome attempt).1.peers = (r'.outcome attempt).1.peers ∧
      (r.outcome attempt).1.entries = (r'.outcome attempt).1.entries ∧
      (r.outcome attempt).2.map Except.isOk = (r'.outcome attempt).2.map Except.isOk

namespace SetPeersRun

variable {s : RoutingState} {updatedPeers : Finset GroupcachePeer}
  {attempt : GroupcachePeer → ConnectOutcome}

theorem mem_finished_iff (r : SetPeersRun s updatedPeers) {p : GroupcachePeer} :
    p ∈ r.finished ↔ p ∈ s.newPeers updatedPeers :=
  r.schedule.1.mem_iff

theorem outcome_write (r : SetPeersRun s updatedPeers)
    (h : ∀ p ∈ s.newPeers updatedPeers, attempt p ≠ .panicked) :
    (r.outcome attempt).1 = s.write (Groupcache.connected attempt r.finished) r.peersToRemove := by
  have hnone : ¬ ∃ p ∈ r.finished, attempt p = .panicked := by
    rintro ⟨p, hp, hpanic⟩
    exact h p (r.mem_finished_iff.mp hp) hpanic
  rw [outcome, setPeers_fst, if_neg hnone]

theorem outcome_snd (r : SetPeersRun s updatedPeers)
    (h : ∀ p ∈ s.newPeers updatedPeers, attempt p ≠ .panicked) :
    (r.outcome attempt).2 = some (if (failures attempt r.finished).isEmpty then .ok ()
      else .error (.connectionErrors (failures attempt r.finished))) :=
  setPeers_snd s r.peersToRemove fun p hp => h p (r.mem_finished_iff.mp hp)

theorem outcome_panicked (r : SetPeersRun s updatedPeers)
    (h : ∃ p ∈ s.newPeers updatedPeers, attempt p = .panicked) :
    (r.outcome attempt).1 = s ∧ ∃ e, (r.outcome attempt).2 = some (.error e) := by
  obtain ⟨p, hp, hpanic⟩ := h
  exact setPeers_panicked s r.peersToRemove ⟨p, r.mem_finished_iff.mpr hp, hpanic⟩

/-- The attempts that fail are those that have an error. -/
theorem failures_isEmpty_iff (r : SetPeersRun s updatedPeers)
    (h : ∀ p ∈ s.newPeers updatedPeers, attempt p ≠ .panicked) :
    (failures attempt r.finished).isEmpty = true
      ↔ ∀ p ∈ s.newPeers updatedPeers, (attempt p).succeeds = true := by
  rw [List.isEmpty_iff, failures, List.filterMap_eq_nil_iff]
  constructor
  · intro hnone p hp
    have hp' := hnone p (r.mem_finished_iff.mpr hp)
    cases ha : attempt p with
    | connected channel => rfl
    | failed e => simp [ha, ConnectOutcome.failure] at hp'
    | panicked => exact absurd ha (h p hp)
  · intro hall p hp
    have hp' := hall p (r.mem_finished_iff.mp hp)
    cases ha : attempt p with
    | connected channel => rfl
    | failed e => simp [ha, ConnectOutcome.succeeds] at hp'
    | panicked => rfl

/-- Two ways a call can go finish the same attempts and drop the same peers. -/
theorem finished_perm_finished (r r' : SetPeersRun s updatedPeers) :
    r.finished.Perm r'.finished ∧ r.peersToRemove.Perm r'.peersToRemove :=
  ⟨r.schedule.1.perm r'.schedule.1, r.schedule.2.perm r'.schedule.2⟩

/-- A known peer that stays keeps its client. -/
theorem lookup_kept (r : SetPeersRun s updatedPeers)
    (h : ∀ p ∈ s.newPeers updatedPeers, attempt p ≠ .panicked) {p : GroupcachePeer}
    (hp : p ∈ s.peerSet ∩ updatedPeers) :
    (r.outcome attempt).1.peers.lookup p = s.peers.lookup p := by
  obtain ⟨hknown, hupdated⟩ := Finset.mem_inter.mp hp
  rw [r.outcome_write h]
  refine RoutingState.lookup_write_of_notMem (fun hadd => ?_) fun hrem => ?_
  · have hnew := r.mem_finished.mp (mem_connected_peers.mp hadd).1
    exact hnew.2 (RoutingState.mem_peerSet.mp hknown)
  · exact (r.mem_peersToRemove.mp hrem).2 hupdated

/-- A new peer that is known afterwards has the client of its connection. -/
theorem lookup_connected (r : SetPeersRun s updatedPeers)
    (h : ∀ p ∈ s.newPeers updatedPeers, attempt p ≠ .panicked) {p : GroupcachePeer}
    (hp : p ∈ s.newPeers updatedPeers) {channel : Nat} (ha : attempt p = .connected channel) :
    (r.outcome attempt).1.peers.lookup p = some { socket := p.socket, channel } := by
  have hnew := r.mem_finished.mp (r.mem_finished_iff.mpr hp)
  have hmem : p ∈ (r.outcome attempt).1.peers := by
    rw [r.outcome_write h, RoutingState.mem_write, mem_connected_peers, r.mem_peersToRemove]
    exact ⟨fun hrem => hrem.2 hnew.1, .inl ⟨r.mem_finished_iff.mpr hp, by rw [ha]; rfl⟩⟩
  obtain ⟨client, hc⟩ := Finmap.mem_iff.mp hmem
  rw [hc]
  rw [r.outcome_write h] at hc
  rcases RoutingState.lookup_write hc with hc | hc
  · obtain ⟨_, channel', ha', hclient⟩ := mem_connected.mp hc
    rw [ha] at ha'
    cases ha'
    exact congrArg some hclient
  · exact absurd (Finmap.mem_of_lookup_eq_some hc) hnew.2

/-- The peers that connect are the new ones whose attempts succeed. -/
theorem enumerates_connected (r : SetPeersRun s updatedPeers)
    (attempt : GroupcachePeer → ConnectOutcome) :
    Enumerates ((Groupcache.connected attempt r.finished).map Prod.fst)
      ((s.newPeers updatedPeers).filter fun p => (attempt p).succeeds) := by
  refine ⟨connected_peers_sublist.nodup r.schedule.1.1, ?_⟩
  ext p
  rw [List.mem_toFinset, mem_connected_peers, Finset.mem_filter, r.mem_finished_iff]

/-- The known peers afterwards. -/
theorem peerSet_ended (r : SetPeersRun s updatedPeers)
    (h : ∀ p ∈ s.newPeers updatedPeers, attempt p ≠ .panicked) :
    (r.outcome attempt).1.peerSet = (s.peerSet ∩ updatedPeers)
      ∪ (s.newPeers updatedPeers).filter fun p => (attempt p).succeeds := by
  have hnone : ¬ ∃ p ∈ updatedPeers \ s.peerSet, attempt p = .panicked :=
    fun ⟨p, hp, hpanic⟩ => h p hp hpanic
  rw [r.peerSet_outcome, TopologyOp.knownAfter, if_neg hnone]
  rfl

/-- The map afterwards does not depend on the way the call goes. -/
theorem peers_eq (r r' : SetPeersRun s updatedPeers)
    (h : ∀ p ∈ s.newPeers updatedPeers, attempt p ≠ .panicked) :
    (r.outcome attempt).1.peers = (r'.outcome attempt).1.peers := by
  have hset : (r.outcome attempt).1.peerSet = (r'.outcome attempt).1.peerSet := by
    rw [r.peerSet_outcome, r'.peerSet_outcome]
  refine Finmap.ext_lookup fun p => ?_
  by_cases hp : p ∈ (r.outcome attempt).1.peerSet
  · have hp' := hp
    rw [r.peerSet_ended h] at hp'
    rcases Finset.mem_union.mp hp' with hkept | hnew
    · rw [r.lookup_kept h hkept, r'.lookup_kept h hkept]
    · obtain ⟨hnew, hsucc⟩ := Finset.mem_filter.mp hnew
      cases ha : attempt p with
      | connected channel => rw [r.lookup_connected h hnew ha, r'.lookup_connected h hnew ha]
      | failed e => simp [ha, ConnectOutcome.succeeds] at hsucc
      | panicked => simp [ha, ConnectOutcome.succeeds] at hsucc
  · have hp' := hset ▸ hp
    rw [RoutingState.mem_peerSet] at hp hp'
    rw [Finmap.lookup_eq_none.mpr hp, Finmap.lookup_eq_none.mpr hp']

/-- Nor does the result, but for the order of the errors. -/
theorem isOk_eq (r r' : SetPeersRun s updatedPeers)
    (h : ∀ p ∈ s.newPeers updatedPeers, attempt p ≠ .panicked) :
    (r.outcome attempt).2.map Except.isOk = (r'.outcome attempt).2.map Except.isOk := by
  have hiff := (r.failures_isEmpty_iff h).trans (r'.failures_isEmpty_iff h).symm
  rw [r.outcome_snd h, r'.outcome_snd h]
  by_cases hempty : (failures attempt r.finished).isEmpty = true
  · rw [if_pos hempty, if_pos (hiff.mp hempty)]
  · rw [if_neg hempty, if_neg (hiff.not.mp hempty)]
    rfl

end SetPeersRun

variable {U : Set GroupcachePeer} {me : GroupcachePeer} {t : Topology}

/-- **The contract of `set_peers`.** It holds on every table that calls can
lead to, overlapping or not, for every mix of outcomes and every order. -/
theorem set_peers_contract (hU : Addressable U) (hme : me ∈ U)
    (h : Reaches Topology.step (fun _ a => a.peers ⊆ U) (Topology.start me) t)
    {updatedPeers : Finset GroupcachePeer} (hupdated : ∀ p ∈ updatedPeers, p ∈ U)
    (attempt : GroupcachePeer → ConnectOutcome) (r : SetPeersRun t.routing updatedPeers) :
    SetPeersContract t.routing updatedPeers attempt r := by
  obtain ⟨n, C, hknown⟩ := Topology.reaches_known hU hme h
  have hadds : ∀ r : SetPeersRun t.routing updatedPeers,
      ∀ c ∈ connected attempt r.finished, c.1 ∈ U := fun r c hc =>
    hupdated _ (r.mem_finished.mp (mem_connected.mp hc).1).1
  have hremoves : ∀ r : SetPeersRun t.routing updatedPeers,
      ∀ p ∈ r.peersToRemove, p ∈ U ∧ 0 < n p := fun r p hp =>
    hknown p (r.mem_peersToRemove.mp hp).1
  constructor
  case attempted =>
    refine ⟨r.enumerates_attempted.1, fun p => ?_⟩
    rw [r.enumerates_attempted.mem_iff, Finset.mem_sdiff, RoutingState.mem_peerSet]
  case known => exact r.peerSet_ended
  case clients => exact fun hnone p hp => r.lookup_kept hnone hp
  case connected => exact fun hnone p hp channel ha => r.lookup_connected hnone hp ha
  case ring =>
    intro hnone
    have hwrite := RoutingState.coe_entries_write hU C (hadds r) r.schedule.2.1 (hremoves r)
    have hadd := r.enumerates_connected attempt
    rw [r.outcome_write hnone, ← hadd.2, ← r.schedule.2.2, List.sum_toFinset _ r.schedule.2.1,
      List.sum_toFinset _ hadd.1, List.map_map]
    exact hwrite
  case ok =>
    intro hnone
    rw [← r.failures_isEmpty_iff hnone, r.outcome_snd hnone]
    split <;> simp_all
  case errors =>
    rintro hnone ⟨p, hp, hfail⟩
    have hsome : ¬ (failures attempt r.finished).isEmpty = true := by
      intro hempty
      rw [(r.failures_isEmpty_iff hnone).mp hempty p hp] at hfail
      cases hfail
    refine ⟨failures attempt r.finished, ?_, ?_⟩
    · rw [r.outcome_snd hnone, if_neg hsome]
    · have hval : (r.finished : Multiset GroupcachePeer)
          = (t.routing.newPeers updatedPeers).val := by
        rw [RoutingState.newPeers, ← r.schedule.1.2, List.toFinset_val,
          List.dedup_eq_self.mpr r.schedule.1.1]
      rw [← hval]
      rfl
  case panicked => exact r.outcome_panicked
  case order =>
    intro r'
    by_cases hpanic : ∃ p ∈ t.routing.newPeers updatedPeers, attempt p = .panicked
    · obtain ⟨hs, e, he⟩ := r.outcome_panicked hpanic
      obtain ⟨hs', e', he'⟩ := r'.outcome_panicked hpanic
      rw [hs, hs', he, he']
      exact ⟨rfl, rfl, rfl⟩
    · have hnone : ∀ p ∈ t.routing.newPeers updatedPeers, attempt p ≠ .panicked := by
        simpa using hpanic
      refine ⟨r.peers_eq r' hnone, ?_, r.isOk_eq r' hnone⟩
      -- one write adds and removes the peers that the other does
      obtain ⟨hfin, hrem⟩ := r.finished_perm_finished r'
      have hcon : ((connected attempt r.finished).map Prod.fst).Perm
          ((connected attempt r'.finished).map Prod.fst) := (hfin.filterMap _).map _
      rw [r.outcome_write hnone, r'.outcome_write hnone]
      refine (C.write hU (hadds r) fun p hp => (hremoves r p hp).1).entries_eq
        (C.write hU (hadds r') fun p hp => (hremoves r' p hp).1) hU.placement fun p _ => ?_
      rw [hcon.count_eq, hrem.count_eq]

omit [Platform] in
/-- Of two new peers one connects, and the attempt on the other fails first. -/
theorem set_peers_contract_sample :
    let _ : Platform := Concrete.platform ([8001, 8002, 8003].map Concrete.node)
    let me := Concrete.node 8001
    let updatedPeers : Finset GroupcachePeer := {Concrete.node 8002, Concrete.node 8003}
    let attempt : GroupcachePeer → ConnectOutcome := fun p =>
      if p = Concrete.node 8002 then .connected 0 else .failed "refused"
    ∃ r : SetPeersRun (.withLocalPeer me) updatedPeers,
      SetPeersContract (.withLocalPeer me) updatedPeers attempt r ∧
        r.finished = [Concrete.node 8003, Concrete.node 8002] := by
  intro _ me updatedPeers attempt
  have hU := Concrete.addressable_nodes [8001, 8002, 8003] (by decide)
  let r : SetPeersRun (.withLocalPeer me) updatedPeers :=
    { updatedIter := [Concrete.node 8002, Concrete.node 8003]
      currentIter := []
      finished := [Concrete.node 8003, Concrete.node 8002]
      updatedIter_enumerates := by decide
      currentIter_enumerates := ⟨List.nodup_nil, rfl⟩
      finished_perm := List.Perm.swap _ _ _ }
  exact ⟨r, set_peers_contract hU (by decide) .refl (by decide) attempt r, rfl⟩

end Groupcache
