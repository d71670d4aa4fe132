import Groupcache.Topology.Discovery

/-!
# Owners

Who owns a key is a matter of the members alone: it is the one whose vnodes
come first from the key on, clockwise (`Owner`). No ring is in this, nor the
order in which the members have become known. A node whose topology calls do
not overlap finds the owner among the members it knows
(`SerialInv.finds_owner`), so nodes to which service discovery has brought
the same members find one owner (`discovered_nodes_agree`).
-/

namespace Groupcache

open ConsistentHashing

variable [Platform] {U : Set GroupcachePeer} {M : Finset GroupcachePeer}
  {me owner : GroupcachePeer} {s : RoutingState} {key : String}

/-- The member that owns the key. -/
def Owner (M : Finset GroupcachePeer) (key : String) (n : GroupcachePeer) : Prop :=
  IsOwner (fun vnode : VNode => Platform.hash vnode.addrId) vnodes (M : Set GroupcachePeer)
    (Platform.hash key) n

theorem Owner.unique {n m : GroupcachePeer} (h : Owner M key n) (h' : Owner M key m) : n = m :=
  IsOwner.unique h h'

theorem Owner.mem {n : GroupcachePeer} (h : Owner M key n) : n ∈ M := Finset.mem_coe.mp h.1

/-- A lookup on the node names the peer, with a client that dials it if it is
another node. -/
structure Finds (me : GroupcachePeer) (s : RoutingState) (key : String)
    (owner : GroupcachePeer) : Prop where
  lookup : s.lookupPeer key = .ok { peer := owner, client := s.peers.lookup owner }
  client : owner ≠ me → ∃ client, s.peers.lookup owner = some client ∧ client.peer = owner

/-- **A node finds the owner** among the members it knows. -/
theorem SerialInv.finds_owner (h : SerialInv U me s) (hU : Addressable U) (hme : me ∈ U)
    (key : String) : ∃ owner, Owner (s.members me) key owner ∧ Finds me s key owner := by
  obtain ⟨v, p, hp, hget, hv, hmem, hl⟩ := h.lookupPeer hU hme key
  have hknown : ∀ q ∈ (s.members me : Set GroupcachePeer), q ∈ U ∧ 0 < s.serialCopies me q := by
    intro q hq
    have hq := Finset.mem_coe.mp hq
    refine ⟨?_, SerialInv.pos_iff.mpr hq⟩
    rcases RoutingState.mem_members.mp hq with rfl | hq
    · exact hme
    · exact h.known q hq
  refine ⟨p, h.copies.isOwner hU.placement hknown hget (Finset.mem_coe.mpr hmem) hv, hl, ?_⟩
  intro hne
  have hpeers := (RoutingState.mem_members.mp hmem).resolve_left hne
  obtain ⟨client, hc⟩ := Finmap.mem_iff.mp hpeers
  exact ⟨client, hc, h.clients p client hc⟩

/-! ## By service discovery -/

/-- The sets that the ticks pull name peers of `U`. -/
def PullsFrom (U : Set GroupcachePeer) (ticks : List Tick) : Prop :=
  ∀ tick ∈ ticks, ∀ instances, tick.pull = .ok instances → ∀ p ∈ instances, p ∈ U

/-- What the loop does are calls of `set_peers` that do not overlap. -/
theorem DiscoveryRun.serialReachable {ticks : List Tick} {attempts : List (List GroupcachePeer)}
    (h : DiscoveryRun me ticks s attempts) (hpulls : PullsFrom U ticks) :
    SerialReachable U me s := by
  induction h with
  | start => exact .withLocalPeer
  | @pulled ticks s attempts tick instances r hrun hpull ih =>
      have hbefore := ih fun x hx => hpulls x (List.mem_append_left _ hx)
      have hnamed : (TopologyOp.setPeers instances).peers ⊆ U := fun p hp =>
        hpulls tick (List.mem_append_right _ List.mem_cons_self) instances hpull p
          (Finset.mem_coe.mp hp)
      rw [hpull, discoveryTurn_ok]
      exact .call (.setPeers instances) tick.attempt r.finished r.peersToRemove hbefore hnamed
        r.schedule
  | failed setPeers hrun hpull ih =>
      rw [hpull]
      exact ih fun x hx => hpulls x (List.mem_append_left _ hx)

/-- The loop of the node has pulled the members, with the node itself or
without it, and each attempt that it has made then has succeeded; pulls have
failed since. -/
structure CaughtUp (U : Set GroupcachePeer) (M : Finset GroupcachePeer) (me : GroupcachePeer)
    (s : RoutingState) where
  before : List Tick
  tick : Tick
  after : List Tick
  attempts : List (List GroupcachePeer)
  instances : Finset GroupcachePeer
  made : List GroupcachePeer
  run : DiscoveryRun me (before ++ tick :: after) s attempts
  pullsFrom : PullsFrom U (before ++ tick :: after)
  pull : tick.pull = .ok instances
  members : insert me instances = M
  made_eq : attempts[before.length]? = some made
  connects : ∀ p ∈ made, (tick.attempt p).succeeds = true
  failing : ∀ x ∈ after, ∃ e, x.pull = .error e

/-- A node that has caught up knows the members and no other peer. -/
theorem CaughtUp.members_eq (h : CaughtUp U M me s) : s.members me = M := by
  have htick : (h.before ++ h.tick :: h.after)[h.before.length]? = some h.tick := by simp
  have hmade := (h.run.attempted htick h.made_eq).2
  rw [List.take_left' rfl] at hmade
  have hpeers : s.peerSet = h.instances := by
    ext p
    rw [RoutingState.mem_peerSet, h.run.mem_iff, List.append_cons,
      knownAfter_append_failed h.failing, knownAfter_concat]
    simp only [Tick.Lists, h.pull, Except.ok.injEq, forall_eq', exists_eq_left'] at hmade ⊢
    refine ⟨And.left, fun hp => ⟨hp, ?_⟩⟩
    by_cases hknown : KnownAfter h.before p
    · exact .inl hknown
    · exact .inr ⟨hp, h.connects p ((hmade p).mpr ⟨hp, hknown⟩)⟩
  rw [RoutingState.members, hpeers, h.members]

/-- **Discovery brings agreement.** Nodes to which it has brought the same
members find one owner of a key, whatever each has pulled before and whatever
has failed, and can dial it. -/
theorem discovered_nodes_agree (hU : Addressable U) (hM : ∀ n ∈ M, n ∈ U) (hne : M.Nonempty)
    (routing : GroupcachePeer → RoutingState)
    (h : ∀ n ∈ M, Nonempty (CaughtUp U M n (routing n))) (key : String) :
    ∃ owner, Owner M key owner ∧ ∀ n ∈ M, Finds n (routing n) key owner := by
  have hfinds : ∀ n ∈ M, ∃ owner, Owner M key owner ∧ Finds n (routing n) key owner := by
    intro n hn
    obtain ⟨hcaught⟩ := h n hn
    have hinv := (hcaught.run.serialReachable hcaught.pullsFrom).inv hU (hM n hn)
    have := hinv.finds_owner hU (hM n hn) key
    rwa [hcaught.members_eq] at this
  obtain ⟨n₀, hn₀⟩ := hne
  obtain ⟨owner, howner, _⟩ := hfinds n₀ hn₀
  refine ⟨owner, howner, fun n hn => ?_⟩
  obtain ⟨owner', howner', hfind⟩ := hfinds n hn
  rwa [howner.unique howner']

/-- A call of `set_peers` with one peer, which is new. -/
private def oneNew (s : RoutingState) (p : GroupcachePeer) (hs : s.peerSet = ∅) :
    SetPeersRun s {p} where
  updatedIter := [p]
  currentIter := []
  finished := [p]
  updatedIter_enumerates := ⟨List.nodup_singleton p, rfl⟩
  currentIter_enumerates := ⟨List.nodup_nil, by rw [hs]; rfl⟩
  finished_perm := by rw [hs]; rfl

/-- A loop that pulls one other node at its second turn, after a failure. -/
private theorem caughtUp_second (me : GroupcachePeer) {p : GroupcachePeer} (hp : p ∈ U) :
    ∃ s, Nonempty (CaughtUp U {me, p} me s) := by
  let lost : Tick :=
    { pull := .error "timeout", attempt := fun _ => .failed "refused", attempt_ends := by simp }
  let up : Tick := { pull := .ok {p}, attempt := fun _ => .connected 0, attempt_ends := by simp }
  have hlost : DiscoveryRun me ([] ++ [lost]) _ ([] ++ [[]]) :=
    .failed (fun _ => (.withLocalPeer me, none)) .start rfl
  refine ⟨_, ⟨{ before := [lost], tick := up, after := [], instances := {p}, made := [p]
                attempts := [[], [p]], run := .pulled (oneNew _ p rfl) hlost rfl
                pullsFrom := ?_, pull := rfl, members := rfl, made_eq := rfl
                connects := fun _ _ => rfl, failing := nofun }⟩⟩
  intro tick htick instances hpull q hq
  rcases List.mem_cons.mp htick with rfl | htick
  · cases hpull
  · obtain rfl := List.mem_singleton.mp htick
    cases hpull
    exact Finset.mem_singleton.mp hq ▸ hp

omit [Platform] in
/-- Two nodes, each of which has pulled the other. -/
theorem discovered_nodes_agree_sample :
    let _ : Platform := Concrete.platform [Concrete.node 8001, Concrete.node 8002]
    let M : Finset GroupcachePeer := {Concrete.node 8001, Concrete.node 8002}
    ∃ routing : GroupcachePeer → RoutingState, ∃ owner, Owner M "key" owner ∧
      ∀ n ∈ M, Finds n (routing n) "key" owner := by
  intro _ M
  have hU := Concrete.addressable_nodes [8001, 8002] (by decide)
  have hA : Concrete.node 8001 ∈ {p | p ∈ [8001, 8002].map Concrete.node} := by decide
  have hB : Concrete.node 8002 ∈ {p | p ∈ [8001, 8002].map Concrete.node} := by decide
  obtain ⟨s, hs⟩ := caughtUp_second (Concrete.node 8001) hB
  obtain ⟨t, ht⟩ := caughtUp_second (Concrete.node 8002) hA
  have hpair : ∀ n ∈ M, n = Concrete.node 8001 ∨ n = Concrete.node 8002 := by
    intro n hn
    exact (Finset.mem_insert.mp hn).imp_right Finset.mem_singleton.mp
  refine ⟨fun n => if n = Concrete.node 8001 then s else t, discovered_nodes_agree hU
    (fun n hn => ?_) (Finset.insert_nonempty _ _) _ (fun n hn => ?_) "key"⟩
  · rcases hpair n hn with rfl | rfl
    · exact hA
    · exact hB
  · rcases hpair n hn with rfl | rfl
    · exact hs
    · rw [Finset.pair_comm] at ht
      rw [if_neg (by decide)]
      exact ht

end Groupcache
