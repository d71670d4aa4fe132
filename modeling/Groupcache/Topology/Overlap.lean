import Groupcache.Concrete
import Groupcache.Lib.Transition
import Groupcache.Topology.Serial

/-!
# Calls that overlap

The check of a call and its write take different locks, so a call writes by
what it saw and not by what is there: a peer can be added when the map has
it already, which the map does not notice and the ring does, and a peer can
be removed when the map has lost it.

`Topology.Inv` is what holds all the same. From it the two properties that
overlapping calls endanger are each decided by a number of COPIES, and lost
exactly at the removals that find too many or too few of them:
`remote_owner_connected_iff` and `local_vnodes_present_iff`.
-/

namespace Groupcache

open ConsistentHashing Transition

variable [Platform] {U : Set GroupcachePeer} {me : GroupcachePeer}

/-! ## The invariant -/

/-- What a call in progress holds is in play; the removals it has computed
are different peers, none of which it adds. -/
def Stage.Ok (U : Set GroupcachePeer) : Stage → Prop
  | .called op => op.peers ⊆ U
  | .addConnecting peer => peer ∈ U
  | .addWriting peer client => peer ∈ U ∧ client.peer = peer
  | .setConnecting updatedPeers currentPeers =>
      (∀ p ∈ updatedPeers, p ∈ U) ∧ ∀ p ∈ currentPeers, p ∈ U
  | .setWriting _ _ results removal =>
      (∀ c ∈ connections results, c.1 ∈ U ∧ c.2.peer = c.1 ∧ c.1 ∉ removal) ∧
        removal.Nodup ∧ ∀ p ∈ removal, p ∈ U
  | .removeWriting peer => peer ∈ U
  | .returned _ => True

omit [Platform] in
theorem Stage.Ok.adds {st : Stage} (h : st.Ok U) :
    ∀ c ∈ st.adds, c.1 ∈ U ∧ c.2.peer = c.1 ∧ c.1 ∉ st.removes := by
  cases st with
  | addWriting peer client =>
      intro c hc
      cases List.mem_singleton.mp hc
      exact ⟨h.1, h.2, by simp [Stage.removes]⟩
  | setWriting updated current results removal => exact h.1
  | _ => simp [Stage.adds]

omit [Platform] in
theorem Stage.Ok.removes {st : Stage} (h : st.Ok U) :
    st.removes.Nodup ∧ ∀ p ∈ st.removes, p ∈ U := by
  cases st with
  | setWriting updated current results removal => exact h.2
  | removeWriting peer =>
      exact ⟨List.nodup_singleton peer, by simpa [Stage.removes, Stage.Ok] using h⟩
  | _ => simp [Stage.removes]

/-- A piece of a call leads to a stage that is in order again. -/
theorem Stage.Ok.advance {s s' : RoutingState} {st st' : Stage}
    {attempt : GroupcachePeer → ConnectOutcome} {order removal : List GroupcachePeer}
    (h : st.Ok U) (hs : ∀ p ∈ s.peers, p ∈ U)
    (ha : st.advance s attempt order removal = some (s', st')) : st'.Ok U := by
  cases st with
  | called op =>
      cases op with
      | addPeer peer =>
          simp only [Stage.advance] at ha
          split at ha <;> cases ha
          · trivial
          · exact h rfl
      | setPeers updated =>
          cases ha
          exact ⟨h, fun p hp => hs p (RoutingState.mem_peerSet.mp hp)⟩
      | removePeer peer =>
          simp only [Stage.advance] at ha
          split at ha <;> cases ha
          · exact h rfl
          · trivial
  | addConnecting peer =>
      cases hp : attempt peer with
      | connected channel =>
          simp only [Stage.advance, hp, connectStatic] at ha
          cases ha
          exact ⟨h, rfl⟩
      | failed e => simp only [Stage.advance, hp, connectStatic] at ha; cases ha; trivial
      | panicked => simp only [Stage.advance, hp, connectStatic] at ha; cases ha; trivial
  | addWriting peer client => cases ha; trivial
  | setConnecting updated current =>
      simp only [Stage.advance] at ha
      split at ha
      · rename_i hsched
        obtain ⟨ho, hr⟩ := hsched
        split at ha
        · cases ha; trivial
        · rename_i results hc
          split at ha <;> cases ha
          · trivial
          · refine ⟨fun c hcon => ?_, hr.1, fun p hp => ?_⟩
            · rw [(connectToNewPeers_ok hc).1] at hcon
              obtain ⟨hmem, channel, _, hclient⟩ := mem_connected.mp hcon
              have hmem := Finset.mem_sdiff.mp (ho.mem_iff.mp hmem)
              refine ⟨h.1 _ hmem.1, by rw [hclient]; rfl, fun hrem => ?_⟩
              exact (Finset.mem_sdiff.mp (hr.mem_iff.mp hrem)).2 hmem.1
            · exact h.2 p (Finset.mem_sdiff.mp (hr.mem_iff.mp hp)).1
      · cases ha
  | setWriting updated current results removal => cases ha; trivial
  | removeWriting peer => cases ha; trivial
  | returned result => cases ha

namespace Topology

/-- The ring holds some number of copies of each peer in play, and nothing
else; what the map and the calls hold is in play. -/
structure Inv (U : Set GroupcachePeer) (t : Topology) : Prop where
  copies : ∃ n, RoutingState.Copies U t.routing n
  known : ∀ p ∈ t.routing.peers, p ∈ U
  calls : ∀ call ∈ t.calls, call.stage.Ok U

theorem Inv.start (hU : Addressable U) (hme : me ∈ U) : Inv U (start me) where
  copies := ⟨_, .withLocalPeer hU hme⟩
  known p hp := absurd hp Finmap.notMem_empty
  calls := by simp [Topology.start]

end Topology

/-- The peers an action names. -/
def TopologyAction.peers : TopologyAction → Set GroupcachePeer
  | .begin op _ => op.peers
  | .advance .. => ∅

instance (a : TopologyAction) (U : Set GroupcachePeer) [DecidablePred (· ∈ U)] :
    Decidable (a.peers ⊆ U) :=
  match a with
  | .begin op _ => inferInstanceAs (Decidable (op.peers ⊆ U))
  | .advance .. => isTrue (Set.empty_subset U)

namespace Topology

theorem Inv.step {t t' : Topology} {a : TopologyAction} (h : Inv U t) (hU : Addressable U)
    (ha : a.peers ⊆ U) (hs : t.step a = some t') : Inv U t' := by
  rcases step_cases hs with ⟨op, attempt, rfl, rfl⟩ |
    ⟨i, order, removal, call, routing, stage, rfl, hcall, hadv, rfl⟩
  · refine ⟨h.copies, h.known, fun c hc => ?_⟩
    rcases List.mem_append.mp hc with hc | hc
    · exact h.calls c hc
    · cases List.mem_singleton.mp hc
      exact ha
  · have hok := h.calls call (List.mem_of_getElem? hcall)
    have hw := Stage.advance_routing hadv
    obtain ⟨n, C⟩ := h.copies
    refine ⟨?_, fun p hp => ?_, fun c hc => ?_⟩
    · rw [hw]
      exact ⟨_, C.write hU (fun c hc => (hok.adds c hc).1) hok.removes.2⟩
    · rw [hw, RoutingState.mem_write] at hp
      rcases hp.2 with hp | hp
      · obtain ⟨c, hc, rfl⟩ := List.mem_map.mp hp
        exact (hok.adds c hc).1
      · exact h.known p hp
    · -- of the calls only the one that has advanced is at another stage
      rcases List.mem_or_eq_of_mem_set hc with hc | rfl
      · exact h.calls c hc
      · exact hok.advance h.known hadv

/-- The copies of a peer after a step: one more if the step adds it, one
fewer if it removes it. A step that removes a peer does not add it. -/
theorem Inv.step_copies {t : Topology} {call : TopologyCall} (h : Inv U t)
    (hU : Addressable U) (hcall : call ∈ t.calls) {n : GroupcachePeer → Nat}
    (C : RoutingState.Copies U t.routing n) :
    ∃ m, RoutingState.Copies U (t.routing.write call.stage.adds call.stage.removes) m ∧
      ∀ p, (p ∈ call.stage.removes → p ∉ call.stage.adds.map Prod.fst ∧ m p = n p - 1) ∧
        (p ∉ call.stage.removes → n p ≤ m p ∧
          (0 < m p → p ∈ call.stage.adds.map Prod.fst ∨ 0 < n p)) := by
  have hok := h.calls call hcall
  refine ⟨_, C.write hU (fun c hc => (hok.adds c hc).1) hok.removes.2, fun p => ⟨?_, ?_⟩⟩
  · intro hp
    have hnot : p ∉ call.stage.adds.map Prod.fst := by
      intro hadd
      obtain ⟨c, hc, rfl⟩ := List.mem_map.mp hadd
      exact (hok.adds c hc).2.2 hp
    rw [List.count_eq_zero.mpr hnot, List.count_eq_one_of_mem hok.removes.1 hp]
    exact ⟨hnot, rfl⟩
  · intro hp
    rw [List.count_eq_zero.mpr hp]
    refine ⟨by omega, fun hpos => ?_⟩
    by_cases hadd : p ∈ call.stage.adds.map Prod.fst
    · exact .inl hadd
    · rw [List.count_eq_zero.mpr hadd] at hpos
      exact .inr (by omega)

end Topology

/-- The peers of the map stand on the ring: no removal takes a peer's copies
and leaves it in the map. -/
theorem Topology.reaches_known {t : Topology} (hU : Addressable U) (hme : me ∈ U)
    (h : Reaches Topology.step (fun _ a => a.peers ⊆ U) (Topology.start me) t) :
    ∃ n, RoutingState.Copies U t.routing n ∧ ∀ p ∈ t.routing.peers, p ∈ U ∧ 0 < n p := by
  have hinv : Inv U t ∧ ∃ n, RoutingState.Copies U t.routing n ∧
      ∀ p ∈ t.routing.peers, 0 < n p := by
    refine h.invariant (I := fun t => Inv U t ∧ ∃ n, RoutingState.Copies U t.routing n ∧
      ∀ p ∈ t.routing.peers, 0 < n p)
      ⟨.start hU hme, _, .withLocalPeer hU hme, fun p hp => absurd hp Finmap.notMem_empty⟩ ?_
    rintro t t' a ⟨hi, n, C, hknown⟩ ha hs
    refine ⟨hi.step hU ha hs, ?_⟩
    rcases step_cases hs with ⟨op, attempt, rfl, rfl⟩ |
      ⟨i, order, removal, call, routing, stage, rfl, hcall, hadv, rfl⟩
    · exact ⟨n, C, hknown⟩
    · have hok := hi.calls call (List.mem_of_getElem? hcall)
      have hw := Stage.advance_routing hadv
      rw [hw]
      refine ⟨_, C.write hU (fun c hc => (hok.adds c hc).1) hok.removes.2, fun p hp => ?_⟩
      obtain ⟨hrem, hp⟩ := RoutingState.mem_write.mp hp
      rw [List.count_eq_zero.mpr hrem]
      rcases hp with hp | hp
      · have := List.count_pos_iff.mpr hp
        omega
      · have := hknown p hp
        omega
  obtain ⟨hi, n, C, hknown⟩ := hinv
  exact ⟨n, C, fun p hp => ⟨hi.known p hp, hknown p hp⟩⟩

/-! ## Clients dial their peers -/

/-- The client the map has for a peer dials that peer, and so do the clients
that the calls in progress are about to add. -/
structure Topology.Dials (t : Topology) : Prop where
  clients : ∀ p client, t.routing.peers.lookup p = some client → client.peer = p
  calls : ∀ call ∈ t.calls, call.stage.Ok Set.univ

namespace Topology.Dials

theorem start : Topology.Dials (Topology.start me) where
  clients p client h := by
    have : (Topology.start me).routing.peers = ∅ := rfl
    rw [this, Finmap.lookup_empty] at h
    cases h
  calls := by simp [Topology.start]

theorem step {t t' : Topology} {a : TopologyAction} (h : t.Dials) (hs : t.step a = some t') :
    t'.Dials := by
  rcases step_cases hs with ⟨op, attempt, rfl, rfl⟩ |
    ⟨i, order, removal, call, routing, stage, rfl, hcall, hadv, rfl⟩
  · refine ⟨h.clients, fun c hc => ?_⟩
    rcases List.mem_append.mp hc with hc | hc
    · exact h.calls c hc
    · cases List.mem_singleton.mp hc
      exact Set.subset_univ _
  · have hok := h.calls call (List.mem_of_getElem? hcall)
    refine ⟨fun p client hp => ?_, fun c hc => ?_⟩
    · rw [Stage.advance_routing hadv] at hp
      rcases RoutingState.lookup_write hp with hp | hp
      · exact (hok.adds _ hp).2.1
      · exact h.clients p client hp
    · rcases List.mem_or_eq_of_mem_set hc with hc | rfl
      · exact h.calls c hc
      · exact hok.advance (fun _ _ => Set.mem_univ _) hadv

end Topology.Dials

/-! ## A remote owner has a connection -/

/-- The peer a lookup returns is the local one or comes with a client, so
`get` and `remove` find their way from it. -/
def RemoteOwnersConnected (me : GroupcachePeer) (s : RoutingState) : Prop :=
  ∀ key found, s.lookupPeer key = .ok found →
    (found.peer = me ∨ found.client.isSome = true) ∧ ∀ e, found.dispatch me ≠ .error e

/-- No vnode is left on the ring of a peer that is neither the local one nor
in the map. -/
def NoOrphanVNodes (me : GroupcachePeer) (s : RoutingState) : Prop :=
  ∀ v ∈ s.entries, ∃ p, v.asPeer = .ok p ∧ (p = me ∨ p ∈ s.peers)

/-- The removals a step makes of remote peers find no second copy of them on
the ring. -/
def RemovesLastCopy (me : GroupcachePeer) (t : Topology) : TopologyAction → Prop
  | .begin .. => True
  | .advance i _ _ => ∀ call, t.calls[i]? = some call → ∀ p ∈ call.stage.removes, p ≠ me →
      ∀ v ∈ vnodes p, t.routing.entries.count v ≤ 1

namespace RoutingState.Copies

variable {s : RoutingState} {n : GroupcachePeer → Nat}

theorem noOrphan_iff (C : Copies U s n) (hU : Addressable U) :
    NoOrphanVNodes me s ↔ ∀ p ∈ U, p ≠ me → 0 < n p → p ∈ s.peers := by
  constructor
  · intro h p hp hne hn
    obtain ⟨v, hv⟩ := List.exists_mem_of_ne_nil _ (vnodes_ne_nil p)
    obtain ⟨q, hq, hmem⟩ := h v ((C.mem_iff hp hv).mpr hn)
    rw [VNode.asPeer_of_mem hU hp hv] at hq
    cases hq
    exact hmem.resolve_left hne
  · intro h v hv
    obtain ⟨p, hp, hvp, hn⟩ := C.owner hv
    refine ⟨p, VNode.asPeer_of_mem hU hp hvp, ?_⟩
    by_cases hne : p = me
    · exact .inl hne
    · exact .inr (h p hp hne hn)

/-- A key spelled like a vnode finds the peer of that vnode. -/
theorem lookupPeer_vnode (C : Copies U s n) (hU : Addressable U) {p : GroupcachePeer}
    (hp : p ∈ U) {v : VNode} (hv : v ∈ vnodes p) (hn : 0 < n p) :
    s.lookupPeer v.addrId = .ok { peer := p, client := s.peers.lookup p } := by
  have hget := C.get_hash hU.placement hp hv hn
  simp [RoutingState.lookupPeer, RoutingState.peerForKey, hget, VNode.asPeer_of_mem hU hp hv,
    RoutingState.connectedClient]

theorem remoteOwnersConnected_iff (C : Copies U s n) (hU : Addressable U) :
    RemoteOwnersConnected me s ↔ ∀ p ∈ U, p ≠ me → 0 < n p → p ∈ s.peers := by
  constructor
  · intro h p hp hne hn
    obtain ⟨v, hv⟩ := List.exists_mem_of_ne_nil _ (vnodes_ne_nil p)
    have hsome := (h v.addrId _ (C.lookupPeer_vnode hU hp hv hn)).1.resolve_left hne
    exact Finmap.mem_of_lookup_eq_some (Option.eq_some_of_isSome hsome)
  · intro h key found hfound
    obtain ⟨v, _, _, hp, hn, hclient⟩ := C.of_lookupPeer hU hfound
    by_cases hne : found.peer = me
    · exact ⟨.inl hne, fun e he => by simp [GroupcachePeerWithClient.dispatch, hne] at he⟩
    · obtain ⟨client, hc⟩ := Finmap.mem_iff.mp (h _ hp hne hn)
      rw [hc] at hclient
      refine ⟨.inr (by simp [hclient]), fun e he => ?_⟩
      simp [GroupcachePeerWithClient.dispatch, hne, hclient] at he

theorem removesLastCopy_iff {t : Topology} (C : Copies U t.routing n)
    {call : TopologyCall} (hok : call.stage.Ok U) {i : Nat} (hcall : t.calls[i]? = some call)
    {order removal : List GroupcachePeer} :
    RemovesLastCopy me t (.advance i order removal)
      ↔ ∀ p ∈ call.stage.removes, p ≠ me → n p ≤ 1 := by
  constructor
  · intro h p hp hne
    obtain ⟨v, hv⟩ := List.exists_mem_of_ne_nil _ (vnodes_ne_nil p)
    have := h call hcall p hp hne v hv
    rwa [RoutingState.entries, C.count p (hok.removes.2 p hp) v hv] at this
  · intro h c hc p hp hne v hv
    rw [hcall] at hc
    cases hc
    rw [RoutingState.entries, C.count p (hok.removes.2 p hp) v hv]
    exact h p hp hne

end RoutingState.Copies

/-- A step keeps the copies of remote peers within the map exactly when the
peers it removes stand on the ring once. -/
private theorem remote_step {t t' : Topology} {a : TopologyAction} (hU : Addressable U)
    (h : Topology.Inv U t) (ha : a.peers ⊆ U) (hs : t.step a = some t')
    (hP : ∀ n, RoutingState.Copies U t.routing n →
      ∀ p ∈ U, p ≠ me → 0 < n p → p ∈ t.routing.peers) :
    (∃ m, RoutingState.Copies U t'.routing m ∧
        ((∀ p ∈ U, p ≠ me → 0 < m p → p ∈ t'.routing.peers) ↔ RemovesLastCopy me t a)) := by
  rcases Topology.step_cases hs with ⟨op, attempt, rfl, rfl⟩ |
    ⟨i, order, removal, call, routing, stage, rfl, hcall, hadv, rfl⟩
  · obtain ⟨n, C⟩ := h.copies
    exact ⟨n, C, iff_of_true (hP n C) trivial⟩
  · have hmem := List.mem_of_getElem? hcall
    obtain ⟨n, C⟩ := h.copies
    obtain ⟨m, D, hm⟩ := h.step_copies hU hmem C
    have hok := h.calls call hmem
    rw [← Stage.advance_routing hadv] at D
    refine ⟨m, D, ?_⟩
    rw [C.removesLastCopy_iff hok hcall]
    have hpeers : ∀ p, p ∈ routing.peers ↔ p ∉ call.stage.removes ∧
        (p ∈ call.stage.adds.map Prod.fst ∨ p ∈ t.routing.peers) := by
      intro p
      rw [Stage.advance_routing hadv, RoutingState.mem_write]
    constructor
    · -- a second copy would stay on the ring, and the map has lost the peer
      intro hkeep p hp hne
      have hmp := ((hm p).1 hp).2
      by_contra hcon
      have := (hpeers p).mp (hkeep p (hok.removes.2 p hp) hne (by omega))
      exact this.1 hp
    · intro hlast p hp hne hpos
      by_cases hrem : p ∈ call.stage.removes
      · have := hlast p hrem hne
        have hmp := ((hm p).1 hrem).2
        omega
      · refine (hpeers p).mpr ⟨hrem, ?_⟩
        exact ((hm p).2 hrem).2 hpos |>.imp id (hP n C p hp hne)

/-- **When a remote owner always has a connection.** In a run of overlapping
calls every lookup leads to the local peer or to a client, and no orphan
vnode is left on the ring, exactly as long as no removal of a remote peer
finds a second copy of it there. -/
theorem remote_owner_connected_iff (hU : Addressable U) (hme : me ∈ U)
    (acts : List TopologyAction) (hacts : ∀ a ∈ acts, a.peers ⊆ U) :
    (Always Topology.step (fun t => RemoteOwnersConnected me t.routing)
        (Topology.start me) acts
      ↔ AlwaysStep Topology.step (RemovesLastCopy me) (Topology.start me) acts) ∧
      (Always Topology.step (fun t => NoOrphanVNodes me t.routing) (Topology.start me) acts
      ↔ AlwaysStep Topology.step (RemovesLastCopy me) (Topology.start me) acts) := by
  have hstart := Topology.Inv.start hU hme
  have hI : ∀ (s t : Topology) (a : TopologyAction), Topology.Inv U s → a.peers ⊆ U →
      s.step a = some t → Topology.Inv U t := fun s t a h ha hs => h.step hU ha hs
  have hone : ∀ p ∈ U, p ≠ me → ¬ 0 < Function.update (fun _ => 0) me 1 p := by
    intro p _ hne
    simp [hne]
  have C₀ := RoutingState.Copies.withLocalPeer hU hme
  constructor
  · refine always_iff_alwaysStep (P := fun t => RemoteOwnersConnected me t.routing)
      hI (fun s t a h ha hP hs => ?_) acts _ hacts hstart
      ((C₀.remoteOwnersConnected_iff hU).mpr fun p hp hne hn => absurd hn (hone p hp hne))
    obtain ⟨m, D, hm⟩ := remote_step hU h ha hs fun n C => (C.remoteOwnersConnected_iff hU).mp hP
    rw [D.remoteOwnersConnected_iff hU, hm]
  · refine always_iff_alwaysStep (P := fun t => NoOrphanVNodes me t.routing)
      hI (fun s t a h ha hP hs => ?_) acts _ hacts hstart
      ((C₀.noOrphan_iff hU).mpr fun p hp hne hn => absurd hn (hone p hp hne))
    obtain ⟨m, D, hm⟩ := remote_step hU h ha hs fun n C => (C.noOrphan_iff hU).mp hP
    rw [D.noOrphan_iff hU, hm]

/-- Two calls of `add_peer` for one peer, both past their check before either
writes, then a removal of that peer. -/
def overlappingAdds (peer : GroupcachePeer) : List TopologyAction :=
  [.begin (.addPeer peer) fun _ => .connected 0, .begin (.addPeer peer) fun _ => .connected 1,
    .advance 0 [] [], .advance 1 [] [], .advance 0 [] [], .advance 1 [] [],
    .advance 0 [] [], .advance 1 [] [],
    .begin (.removePeer peer) fun _ => .panicked, .advance 2 [] [], .advance 2 [] []]

/-- The table the calls leave: two copies added, one removed. -/
private theorem overlappingAdds_routing :
    ∃ t, (overlappingAdds (Concrete.node 8002)).foldlM Topology.step
        (Topology.start (Concrete.node 8001)) = some t ∧
      t.routing = (((RoutingState.withLocalPeer (Concrete.node 8001)).addPeer
        (Concrete.node 8002) ⟨(Concrete.node 8002).socket, 0⟩).addPeer
        (Concrete.node 8002) ⟨(Concrete.node 8002).socket, 1⟩).removePeer
        (Concrete.node 8002) :=
  ⟨_, rfl, rfl⟩

omit [Platform] in
/-- The removal takes one of the two copies and the only client. -/
theorem orphan_after_overlapping_adds :
    let _ : Platform := Concrete.platform [Concrete.node 8001, Concrete.node 8002]
    ∃ t, (overlappingAdds (Concrete.node 8002)).foldlM Topology.step
        (Topology.start (Concrete.node 8001)) = some t ∧
      ∃ found, t.routing.lookupPeer "127.0.0.1:8002_0" = .ok found ∧
        found.peer = Concrete.node 8002 ∧ found.client = none ∧
        found.dispatch (Concrete.node 8001)
          = .error (.anyhow "unreachable: cannot be empty since it's a remote peer") := by
  intro _
  have hU := Concrete.addressable_nodes [8001, 8002] (by decide)
  have hA : Concrete.node 8001 ∈ {p | p ∈ [8001, 8002].map Concrete.node} := by decide
  have hB : Concrete.node 8002 ∈ {p | p ∈ [8001, 8002].map Concrete.node} := by decide
  have hne : Concrete.node 8002 ≠ Concrete.node 8001 := by decide
  have hv : VNode.mk "127.0.0.1:8002_0" ∈ vnodes (Concrete.node 8002) :=
    VNode.mem_vnodes.mpr ⟨0, by decide, by decide⟩
  obtain ⟨t, ht, hrouting⟩ := overlappingAdds_routing
  have C := (((RoutingState.Copies.withLocalPeer hU hA).addPeer
    ⟨(Concrete.node 8002).socket, 0⟩ hU hB).addPeer
    ⟨(Concrete.node 8002).socket, 1⟩ hU hB).removePeer hU hB
  rw [← hrouting] at C
  have hlookup := C.lookupPeer_vnode hU hB hv (by simp)
  refine ⟨t, ht, _, hlookup, rfl, ?_, ?_⟩
  · simp [hrouting, RoutingState.removePeer]
  · simp [GroupcachePeerWithClient.dispatch, hne, hrouting, RoutingState.removePeer]

omit [Platform] in
theorem remote_owner_connected_sample :
    let _ : Platform := Concrete.platform [Concrete.node 8001, Concrete.node 8002]
    let me := Concrete.node 8001
    let acts := overlappingAdds (Concrete.node 8002)
    (Always Topology.step (fun t => RemoteOwnersConnected me t.routing) (Topology.start me) acts
        ↔ AlwaysStep Topology.step (RemovesLastCopy me) (Topology.start me) acts) ∧
      (Always Topology.step (fun t => NoOrphanVNodes me t.routing) (Topology.start me) acts
        ↔ AlwaysStep Topology.step (RemovesLastCopy me) (Topology.start me) acts) := by
  intro _ me acts
  have hU := Concrete.addressable_nodes [8001, 8002] (by decide)
  exact remote_owner_connected_iff hU (by decide) acts
    (by simp [acts, overlappingAdds, TopologyAction.peers, TopologyOp.peers])

/-! ## The local peer stays on the ring -/

/-- Every vnode of the local peer is on the ring, which is then not empty. -/
def LocalVNodesPresent (me : GroupcachePeer) (s : RoutingState) : Prop :=
  (∀ v ∈ vnodes me, v ∈ s.entries) ∧ s.entries ≠ [] ∧
    ∀ key, s.lookupPeer key ≠ .error (.error "unreachable: ring can't be empty")

/-- A removal of the local peer leaves a copy of it on the ring. -/
def LeavesLocalCopy (me : GroupcachePeer) (t : Topology) : TopologyAction → Prop
  | .begin .. => True
  | .advance i _ _ => ∀ call, t.calls[i]? = some call → me ∈ call.stage.removes →
      ∀ v ∈ vnodes me, 2 ≤ t.routing.entries.count v

instance (me : GroupcachePeer) (t : Topology) (a : TopologyAction) :
    Decidable (LeavesLocalCopy me t a) :=
  match a with
  | .begin .. => isTrue trivial
  | .advance i _ _ => inferInstanceAs (Decidable (∀ call ∈ t.calls[i]?,
      me ∈ call.stage.removes → ∀ v ∈ vnodes me, 2 ≤ t.routing.entries.count v))

theorem RoutingState.Copies.localVNodesPresent_iff {s : RoutingState}
    {n : GroupcachePeer → Nat} (C : Copies U s n) (hU : Addressable U) (hme : me ∈ U) :
    LocalVNodesPresent me s ↔ 0 < n me := by
  constructor
  · intro h
    obtain ⟨v, hv⟩ := List.exists_mem_of_ne_nil _ (vnodes_ne_nil me)
    exact (C.mem_iff hme hv).mp (h.1 v hv)
  · intro hn
    have hall : ∀ v ∈ vnodes me, v ∈ s.entries := fun v hv => (C.mem_iff hme hv).mpr hn
    refine ⟨hall, ?_, fun key => ?_⟩
    · obtain ⟨v, hv⟩ := List.exists_mem_of_ne_nil _ (vnodes_ne_nil me)
      exact List.ne_nil_of_mem (hall v hv)
    · obtain ⟨_, p, _, _, _, _, hl⟩ := C.lookupPeer hU hme hn key
      rw [hl]
      exact fun h => by cases h

/-- A step keeps the local peer on the ring exactly when a removal of it
leaves a copy there. -/
theorem localVNodesPresent_step {t t' : Topology} {a : TopologyAction} (hU : Addressable U)
    (hme : me ∈ U) (h : Topology.Inv U t) (hP : LocalVNodesPresent me t.routing)
    (hs : t.step a = some t') : LocalVNodesPresent me t'.routing ↔ LeavesLocalCopy me t a := by
  rcases Topology.step_cases hs with ⟨op, attempt, rfl, rfl⟩ |
    ⟨i, order, removal, call, routing, stage, rfl, hcall, hadv, rfl⟩
  · exact iff_of_true hP trivial
  · have hmem := List.mem_of_getElem? hcall
    obtain ⟨n, C⟩ := h.copies
    obtain ⟨m, D, hm⟩ := h.step_copies hU hmem C
    rw [← Stage.advance_routing hadv] at D
    rw [D.localVNodesPresent_iff hU hme]
    have hn : 0 < n me := (C.localVNodesPresent_iff hU hme).mp hP
    obtain ⟨v₀, hv₀⟩ := List.exists_mem_of_ne_nil _ (vnodes_ne_nil me)
    have hcount : ∀ v ∈ vnodes me, t.routing.entries.count v = n me := C.count me hme
    by_cases hrem : me ∈ call.stage.removes
    · -- one copy goes, and one has to be left
      have hmp := ((hm me).1 hrem).2
      constructor
      · intro hpos c hc _ v hv
        rw [hcount v hv]
        omega
      · intro hleave
        have := hleave call hcall hrem v₀ hv₀
        rw [hcount v₀ hv₀] at this
        omega
    · have hge := ((hm me).2 hrem).1
      refine iff_of_true (by omega) fun c hc hcrem => ?_
      rw [hcall] at hc
      cases hc
      exact absurd hcrem hrem

theorem localVNodesPresent_start (hU : Addressable U) (hme : me ∈ U) :
    LocalVNodesPresent me (Topology.start me).routing :=
  ((RoutingState.Copies.withLocalPeer hU hme).localVNodesPresent_iff hU hme).mpr (by simp)

/-- **When a node stays on its own ring.** In a run of overlapping calls the
local peer's vnodes are all on the ring, in every state, exactly as long as
every removal of the local peer finds a second copy of it there. -/
theorem local_vnodes_present_iff (hU : Addressable U) (hme : me ∈ U)
    (acts : List TopologyAction) (hacts : ∀ a ∈ acts, a.peers ⊆ U) :
    Always Topology.step (fun t => LocalVNodesPresent me t.routing) (Topology.start me) acts
      ↔ AlwaysStep Topology.step (LeavesLocalCopy me) (Topology.start me) acts :=
  always_iff_alwaysStep (I := Topology.Inv U) (A := fun a => a.peers ⊆ U)
    (P := fun t => LocalVNodesPresent me t.routing)
    (fun _ _ _ h ha hs => h.step hU ha hs)
    (fun _ _ _ h _ hP hs => localVNodesPresent_step hU hme h hP hs) acts _ hacts
    (Topology.Inv.start hU hme) (localVNodesPresent_start hU hme)

/-- The node's own address added, then removed by two calls that are both
past their check before either writes. -/
def overlappingRemovals (me : GroupcachePeer) : List TopologyAction :=
  [.begin (.addPeer me) fun _ => .connected 0,
    .advance 0 [] [], .advance 0 [] [], .advance 0 [] [],
    .begin (.removePeer me) fun _ => .panicked, .begin (.removePeer me) fun _ => .panicked,
    .advance 1 [] [], .advance 2 [] [], .advance 1 [] [], .advance 2 [] []]

private theorem overlappingRemovals_routing :
    ∃ t, (overlappingRemovals (Concrete.node 8001)).foldlM Topology.step
        (Topology.start (Concrete.node 8001)) = some t ∧
      t.routing = (((RoutingState.withLocalPeer (Concrete.node 8001)).addPeer
        (Concrete.node 8001) ⟨(Concrete.node 8001).socket, 0⟩).removePeer
        (Concrete.node 8001)).removePeer (Concrete.node 8001) :=
  ⟨_, rfl, rfl⟩

omit [Platform] in
/-- The second removal takes the node itself off its ring, which is then
empty. -/
theorem ring_empty_after_overlapping_removals :
    let _ : Platform := Concrete.platform [Concrete.node 8001]
    ∃ t, (overlappingRemovals (Concrete.node 8001)).foldlM Topology.step
        (Topology.start (Concrete.node 8001)) = some t ∧
      t.routing.entries = [] ∧
      ∀ key, t.routing.lookupPeer key = .error (.error "unreachable: ring can't be empty") := by
  intro _
  have hU := Concrete.addressable_nodes [8001] (by decide)
  have hA : Concrete.node 8001 ∈ {p | p ∈ [8001].map Concrete.node} := by decide
  obtain ⟨t, ht, hrouting⟩ := overlappingRemovals_routing
  have C := (((RoutingState.Copies.withLocalPeer hU hA).addPeer
    ⟨(Concrete.node 8001).socket, 0⟩ hU hA).removePeer hU hA).removePeer hU hA
  rw [← hrouting] at C
  have hempty : t.routing.entries = [] := by
    refine List.eq_nil_iff_forall_not_mem.mpr fun v hv => ?_
    obtain ⟨p, hp, _, hn⟩ := C.owner hv
    obtain rfl : p = Concrete.node 8001 := by simpa using hp
    simp at hn
  refine ⟨t, ht, hempty, fun key => ?_⟩
  have hget := (Platform.ring.get_eq_none_iff t.routing.ring (Platform.hash key)).mpr hempty
  simp [RoutingState.lookupPeer, RoutingState.peerForKey, hget]

omit [Platform] in
theorem local_vnodes_present_sample :
    let _ : Platform := Concrete.platform [Concrete.node 8001]
    let me := Concrete.node 8001
    let acts := overlappingRemovals me
    Always Topology.step (fun t => LocalVNodesPresent me t.routing) (Topology.start me) acts
      ↔ AlwaysStep Topology.step (LeavesLocalCopy me) (Topology.start me) acts := by
  intro _ me acts
  have hU := Concrete.addressable_nodes [8001] (by decide)
  exact local_vnodes_present_iff hU (by decide) acts
    (by simp [acts, overlappingRemovals, TopologyAction.peers, TopologyOp.peers, me])

/-! ## Two nodes that know each other -/

namespace Concrete

/-- The table of one of two nodes that has added the other. -/
def paired (n : GroupcachePeer) : RoutingState :=
  let other := if n = node 8001 then node 8002 else node 8001
  (RoutingState.withLocalPeer n).addPeer other { socket := other.socket, channel := 0 }

omit [Platform] in
/-- Both find the second node for a key spelled like one of its vnodes. -/
theorem lookupPeer_paired :
    let _ : Platform := platform [node 8001, node 8002]
    (paired (node 8001)).lookupPeer "127.0.0.1:8002_0" = .ok
        { peer := node 8002, client := some { socket := (node 8002).socket, channel := 0 } } ∧
      (paired (node 8002)).lookupPeer "127.0.0.1:8002_0" = .ok
        { peer := node 8002, client := none } := by
  intro _
  have hU := addressable_nodes [8001, 8002] (by decide)
  have hA : node 8001 ∈ {p | p ∈ [8001, 8002].map node} := by decide
  have hB : node 8002 ∈ {p | p ∈ [8001, 8002].map node} := by decide
  have hv : VNode.mk "127.0.0.1:8002_0" ∈ vnodes (node 8002) :=
    VNode.mem_vnodes.mpr ⟨0, by decide, by decide⟩
  constructor
  · exact ((RoutingState.Copies.withLocalPeer hU hA).addPeer
      ⟨(node 8002).socket, 0⟩ hU hB).lookupPeer_vnode hU hB hv (by simp)
  · exact ((RoutingState.Copies.withLocalPeer hU hB).addPeer
      ⟨(node 8001).socket, 0⟩ hU hA).lookupPeer_vnode hU hB hv (by decide)

end Concrete

end Groupcache
