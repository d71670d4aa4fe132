import Groupcache.Concrete
import Groupcache.Topology.Calls

/-!
# Calls that do not overlap

A call that runs alone adds peers the map does not have and removes peers it
has (`TopologyOp.complete_fresh`). So the ring holds one copy of the local
peer and one of each peer of the map, at every time between calls
(`SerialReachable.inv`), and what a node routes by is its member set alone.
-/

namespace Groupcache

open ConsistentHashing

variable [Platform]

/-! ## The connections of `set_peers` -/

/-- The connection an attempt yields. -/
def ConnectOutcome.connection (peer : GroupcachePeer) : ConnectOutcome → Option Connection
  | .connected channel => some (peer, { socket := peer.socket, channel })
  | _ => none

/-- The attempts of a list that succeed. -/
def connected (attempt : GroupcachePeer → ConnectOutcome) (order : List GroupcachePeer) :
    List Connection :=
  order.filterMap fun p => (attempt p).connection p

variable {attempt : GroupcachePeer → ConnectOutcome} {order removal : List GroupcachePeer}

omit [Platform] in
theorem connectToNewPeers_ok {results : List ConnectResult}
    (h : connectToNewPeers attempt order = .ok results) :
    connections results = connected attempt order ∧ ∀ p ∈ order, attempt p ≠ .panicked := by
  induction order generalizing results with
  | nil => cases h; exact ⟨rfl, by simp⟩
  | cons p rest ih =>
      cases hp : attempt p with
      | panicked => simp [connectToNewPeers, connectStatic, hp] at h
      | failed e =>
          simp only [connectToNewPeers, connectStatic, hp] at h
          split at h
          · cases h
          · rename_i results' hrest
            cases h
            obtain ⟨hc, hn⟩ := ih hrest
            refine ⟨?_, by simpa [hp] using hn⟩
            rw [connected, List.filterMap_cons_none (by simp [hp, ConnectOutcome.connection])]
            exact hc
      | connected channel =>
          simp only [connectToNewPeers, connectStatic, hp] at h
          split at h
          · cases h
          · rename_i results' hrest
            cases h
            obtain ⟨hc, hn⟩ := ih hrest
            refine ⟨?_, by simpa [hp] using hn⟩
            simpa [connections, connected, hp, ConnectOutcome.connection, Except.toOption] using hc

omit [Platform] in
theorem connectToNewPeers_nil (h : connectToNewPeers attempt order = .ok []) : order = [] := by
  cases order with
  | nil => rfl
  | cons p rest =>
      simp only [connectToNewPeers] at h
      split at h
      · cases h
      · split at h <;> cases h

omit [Platform] in
theorem connectToNewPeers_error {e : InternalGroupcacheError}
    (h : connectToNewPeers attempt order = .error e) : ∃ p ∈ order, attempt p = .panicked := by
  induction order generalizing e with
  | nil => cases h
  | cons p rest ih =>
      by_cases hp : attempt p = .panicked
      · exact ⟨p, List.mem_cons_self, hp⟩
      · have hrest : ∃ e', connectToNewPeers attempt rest = .error e' := by
          cases hr : connectToNewPeers attempt rest with
          | error e' => exact ⟨e', rfl⟩
          | ok results => cases ha : attempt p <;> simp_all [connectToNewPeers, connectStatic]
        obtain ⟨e', hr⟩ := hrest
        obtain ⟨q, hq, hpanic⟩ := ih hr
        exact ⟨q, List.mem_cons_of_mem p hq, hpanic⟩

omit [Platform] in
theorem mem_connected {c : Connection} :
    c ∈ connected attempt order ↔
      c.1 ∈ order ∧ ∃ channel, attempt c.1 = .connected channel ∧
        c.2 = { socket := c.1.socket, channel } := by
  obtain ⟨q, client⟩ := c
  simp only [connected, List.mem_filterMap]
  constructor
  · rintro ⟨p, hp, hc⟩
    cases ha : attempt p with
    | panicked => simp [ha, ConnectOutcome.connection] at hc
    | failed e => simp [ha, ConnectOutcome.connection] at hc
    | connected channel =>
        simp only [ha, ConnectOutcome.connection, Option.some.injEq, Prod.mk.injEq] at hc
        obtain ⟨rfl, rfl⟩ := hc
        exact ⟨hp, channel, ha, rfl⟩
  · rintro ⟨hq, channel, ha, rfl⟩
    exact ⟨q, hq, by simp [ha, ConnectOutcome.connection]⟩

omit [Platform] in
theorem connected_peers_sublist :
    ((connected attempt order).map Prod.fst).Sublist order := by
  induction order with
  | nil => simp [connected]
  | cons p rest ih =>
      cases ha : attempt p with
      | connected channel =>
          simpa [connected, ha, ConnectOutcome.connection] using ih.cons_cons p
      | failed e => simpa [connected, ha, ConnectOutcome.connection] using ih.cons p
      | panicked => simpa [connected, ha, ConnectOutcome.connection] using ih.cons p

/-- **What `set_peers` writes** when it runs alone: nothing if an attempt
panics, else the connections and the removals, of which there may be none. -/
theorem setPeers_fst (s : RoutingState) :
    (setPeers s attempt order removal).1
      = if ∃ p ∈ order, attempt p = .panicked then s
        else s.write (connected attempt order) removal := by
  cases hc : connectToNewPeers attempt order with
  | error e =>
      rw [if_pos (connectToNewPeers_error hc)]
      simp [setPeers, hc]
  | ok results =>
      obtain ⟨hcon, hnone⟩ := connectToNewPeers_ok hc
      rw [if_neg (by simpa using hnone), ← hcon]
      by_cases hempty : (removal.isEmpty && results.isEmpty) = true
      · obtain ⟨hr, hres⟩ := Bool.and_eq_true_iff.mp hempty
        rw [List.isEmpty_iff] at hr hres
        simp [setPeers, hc, hr, hres, connections, RoutingState.write_nil]
      · rw [← finishSetPeers_fst]
        simp only [setPeers, hc, if_neg hempty]

/-! ## What a call does -/

/-- A write computed from the table it is applied to: the peers added are
new and among those the operation names, the peers removed are known. -/
structure FreshWrite (s : RoutingState) (op : TopologyOp) (adds : List Connection)
    (removes : List GroupcachePeer) : Prop where
  adds_nodup : (adds.map Prod.fst).Nodup
  adds_new : ∀ c ∈ adds, c.1 ∉ s.peers
  adds_named : ∀ c ∈ adds, c.1 ∈ op.peers
  adds_client : ∀ c ∈ adds, c.2.peer = c.1
  removes_nodup : removes.Nodup
  removes_known : ∀ p ∈ removes, p ∈ s.peers

omit [Platform] in
theorem Enumerates.mem_iff {α : Type} [DecidableEq α] {l : List α} {A : Finset α}
    (h : Enumerates l A) {a : α} : a ∈ l ↔ a ∈ A := by
  rw [← h.2, List.mem_toFinset]

variable {s : RoutingState} {op : TopologyOp}

theorem FreshWrite.nil : FreshWrite s op [] [] := by
  constructor <;> simp

/-- A call of `set_peers` whose attempts have all ended. -/
theorem FreshWrite.setPeers {updatedPeers : Finset GroupcachePeer}
    (h : TopologyOp.Schedule s.peerSet order removal (.setPeers updatedPeers)) :
    FreshWrite s (.setPeers updatedPeers) (connected attempt order) removal where
  adds_nodup := connected_peers_sublist.nodup h.1.1
  adds_new c hc hmem := by
    have hc := h.1.mem_iff.mp (mem_connected.mp hc).1
    exact (Finset.mem_sdiff.mp hc).2 (RoutingState.mem_peerSet.mpr hmem)
  adds_named c hc := by
    have hc := h.1.mem_iff.mp (mem_connected.mp hc).1
    exact (Finset.mem_sdiff.mp hc).1
  adds_client c hc := by
    obtain ⟨_, channel, _, hclient⟩ := mem_connected.mp hc
    rw [hclient]
    rfl
  removes_nodup := h.2.1
  removes_known p hp :=
    RoutingState.mem_peerSet.mp (Finset.mem_sdiff.mp (h.2.mem_iff.mp hp)).1

/-- **A call that runs alone makes a fresh write.** -/
theorem TopologyOp.complete_fresh (attempt : GroupcachePeer → ConnectOutcome)
    (h : op.Schedule s.peerSet order removal) :
    ∃ adds removes, (op.complete s attempt order removal).1 = s.write adds removes ∧
      FreshWrite s op adds removes := by
  cases op with
  | addPeer p =>
      by_cases hp : p ∈ s.peers
      · exact ⟨[], [], by simp [complete, Groupcache.addPeer, hp, RoutingState.write_nil], .nil⟩
      · cases ha : attempt p with
        | connected channel =>
            refine ⟨[(p, { socket := p.socket, channel })], [], ?_, ?_⟩
            · simp [complete, Groupcache.addPeer, hp, ha, connectStatic, RoutingState.write]
            · constructor <;> simp [hp, TopologyOp.peers, GroupcachePeerClient.peer]
        | failed e =>
            exact ⟨[], [], by simp [complete, Groupcache.addPeer, hp, ha, connectStatic,
              RoutingState.write_nil], .nil⟩
        | panicked =>
            exact ⟨[], [], by simp [complete, Groupcache.addPeer, hp, ha, connectStatic,
              RoutingState.write_nil], .nil⟩
  | setPeers updated =>
      by_cases hpanic : ∃ p ∈ order, attempt p = .panicked
      · exact ⟨[], [], by rw [complete, setPeers_fst, if_pos hpanic, RoutingState.write_nil],
          .nil⟩
      · exact ⟨connected attempt order, removal,
          by rw [complete, setPeers_fst, if_neg hpanic], .setPeers h⟩
  | removePeer p =>
      by_cases hp : p ∈ s.peers
      · refine ⟨[], [p], by simp [complete, Groupcache.removePeer, hp, RoutingState.write], ?_⟩
        constructor <;> simp [hp]
      · exact ⟨[], [], by simp [complete, Groupcache.removePeer, hp, RoutingState.write_nil],
          .nil⟩

/-! ## The table between calls -/

/-- One copy of the local peer and of each peer of the map; every peer of
the map is in play, and its client dials it. -/
structure SerialInv (U : Set GroupcachePeer) (me : GroupcachePeer) (s : RoutingState) :
    Prop where
  copies : RoutingState.Copies U s (s.serialCopies me)
  known : ∀ p ∈ s.peers, p ∈ U
  clients : ∀ p client, s.peers.lookup p = some client → client.peer = p

namespace RoutingState

variable {adds : List Connection} {removes : List GroupcachePeer} {me : GroupcachePeer}
  {U : Set GroupcachePeer}

theorem serialCopies_write (C : Copies U s (s.serialCopies me)) (hU : Addressable U)
    (hf : FreshWrite s op adds removes) (ha : ∀ c ∈ adds, c.1 ∈ U)
    (hr : ∀ p ∈ removes, p ∈ U) :
    Copies U (s.write adds removes) ((s.write adds removes).serialCopies me) := by
  refine (C.write hU ha hr).congr fun p => ?_
  have hnew : p ∈ adds.map Prod.fst → p ∉ s.peers := by
    intro hp
    obtain ⟨c, hc, rfl⟩ := List.mem_map.mp hp
    exact hf.adds_new c hc
  have hknown := hf.removes_known p
  rw [hf.adds_nodup.count, hf.removes_nodup.count]
  -- the peers added are new and those removed are known, so no count goes past one
  simp only [serialCopies, mem_write]
  by_cases hpa : p ∈ adds.map Prod.fst <;> by_cases hpr : p ∈ removes <;>
    by_cases hps : p ∈ s.peers <;> simp_all

end RoutingState

variable {U : Set GroupcachePeer} {me : GroupcachePeer}

theorem SerialInv.withLocalPeer (hU : Addressable U) (hme : me ∈ U) :
    SerialInv U me (.withLocalPeer me) where
  copies := RoutingState.serialCopies_withLocalPeer hU hme
  known p hp := absurd hp Finmap.notMem_empty
  clients p client h := by
    have : (RoutingState.withLocalPeer me).peers = ∅ := rfl
    rw [this, Finmap.lookup_empty] at h
    cases h

theorem SerialInv.write (h : SerialInv U me s) (hU : Addressable U) {adds : List Connection}
    {removes : List GroupcachePeer} (hf : FreshWrite s op adds removes) (hop : op.peers ⊆ U) :
    SerialInv U me (s.write adds removes) where
  copies := RoutingState.serialCopies_write h.copies hU hf
    (fun c hc => hop (hf.adds_named c hc)) (fun p hp => h.known p (hf.removes_known p hp))
  known p hp := by
    rcases (RoutingState.mem_write.mp hp).2 with hp | hp
    · obtain ⟨c, hc, rfl⟩ := List.mem_map.mp hp
      exact hop (hf.adds_named c hc)
    · exact h.known p hp
  clients p client hc := by
    rcases RoutingState.lookup_write hc with hc | hc
    · exact hf.adds_client _ hc
    · exact h.clients p client hc

/-- **The invariant of calls that do not overlap.** -/
theorem SerialReachable.inv (hU : Addressable U) (hme : me ∈ U)
    (h : SerialReachable U me s) : SerialInv U me s := by
  induction h with
  | withLocalPeer => exact .withLocalPeer hU hme
  | call op attempt order removal _ hop hsched ih =>
      obtain ⟨adds, removes, hw, hf⟩ := TopologyOp.complete_fresh attempt hsched
      rw [hw]
      exact ih.write hU hf hop

/-! ## Members -/

/-- The local peer and the peers in the map. -/
def RoutingState.members (me : GroupcachePeer) (s : RoutingState) : Finset GroupcachePeer :=
  insert me s.peerSet

theorem RoutingState.mem_members {p : GroupcachePeer} :
    p ∈ s.members me ↔ p = me ∨ p ∈ s.peers := by
  rw [members, Finset.mem_insert, mem_peerSet]

theorem SerialInv.pos_iff {p : GroupcachePeer} :
    0 < s.serialCopies me p ↔ p ∈ s.members me := by
  rw [RoutingState.serialCopies_pos, RoutingState.mem_members]

/-- Every key has an owner: the member with the vnode the ring finds. -/
theorem SerialInv.lookupPeer (h : SerialInv U me s) (hU : Addressable U) (hme : me ∈ U)
    (key : String) :
    ∃ v, ∃ p ∈ U, Platform.ring.get s.ring (Platform.hash key) = some v ∧ v ∈ vnodes p ∧
      p ∈ s.members me ∧ s.lookupPeer key = .ok { peer := p, client := s.peers.lookup p } := by
  have hpos : 0 < s.serialCopies me me :=
    SerialInv.pos_iff.mpr (RoutingState.mem_members.mpr (.inl rfl))
  obtain ⟨v, p, hp, hv, hvp, hn, hl⟩ := h.copies.lookupPeer hU hme hpos key
  exact ⟨v, p, hp, hv, hvp, SerialInv.pos_iff.mp hn, hl⟩

/-- **Representation invariant of the routing table.** The ring is the
vnodes of the local peer and those of each peer of the map; every lookup
answers with a member and the client the map has for it; and adding a peer
the map does not have, then removing it, restores the table. -/
theorem routing_representation (hU : Addressable U) (hme : me ∈ U)
    (h : SerialReachable U me s) :
    ((s.entries : Multiset VNode)
        = (vnodes me : Multiset VNode) + ∑ p ∈ s.peerSet, (vnodes p : Multiset VNode)) ∧
      (∀ key, ∃ p, s.lookupPeer key = .ok { peer := p, client := s.peers.lookup p } ∧
        (p = me ∨ p ∈ s.peers)) ∧
      ∀ p ∈ U, p ∉ s.peers → ∀ channel,
        let added := (addPeer s p (.connected channel)).1
        let removed := (removePeer added p).1
        p ∈ added.peers ∧ removed.entries = s.entries ∧ removed.peers = s.peers := by
  have hinv := h.inv hU hme
  refine ⟨?_, ?_, ?_⟩
  · have hmem : ∀ o ∈ s.members me, o ∈ U := by
      intro o ho
      rcases RoutingState.mem_members.mp ho with rfl | ho
      · exact hme
      · exact hinv.known o ho
    have hsum := hinv.copies.entries_eq_sum hU.placement hmem
      (fun o _ hpos => SerialInv.pos_iff.mp hpos)
    rw [RoutingState.entries, hsum]
    -- split the copies into the local one and those of the map
    simp only [RoutingState.serialCopies, add_nsmul, Finset.sum_add_distrib]
    congr 1
    · have hself : me ∈ s.members me := RoutingState.mem_members.mpr (.inl rfl)
      rw [Finset.sum_eq_single_of_mem me hself fun p _ hp => by rw [if_neg hp, zero_nsmul],
        if_pos rfl, one_nsmul]
    · have hsub : s.peerSet ⊆ s.members me := Finset.subset_insert _ _
      rw [← Finset.sum_subset hsub fun p _ hp => by
        rw [if_neg (RoutingState.mem_peerSet.not.mp hp), zero_nsmul]]
      exact Finset.sum_congr rfl fun p hp => by
        rw [if_pos (RoutingState.mem_peerSet.mp hp), one_nsmul]
  · intro key
    obtain ⟨_, p, _, _, _, hp, hl⟩ := hinv.lookupPeer hU hme key
    exact ⟨p, hl, RoutingState.mem_members.mp hp⟩
  · intro p hp hnew channel added removed
    have hadded : added = s.addPeer p { socket := p.socket, channel } := by
      simp [added, addPeer, hnew, connectStatic]
    have hremoved : removed = added.removePeer p := by
      simp [removed, removePeer, hadded]
    refine ⟨by simp [hadded], ?_, ?_⟩
    · have hadd := hinv.copies.addPeer { socket := p.socket, channel } hU hp
      have hrem := hadd.removePeer hU hp
      rw [hremoved, hadded]
      refine hrem.entries_eq hinv.copies hU.placement fun o _ => ?_
      by_cases ho : o = p
      · subst ho
        simp
      · simp [ho]
    · rw [hremoved, hadded]
      refine Finmap.ext_lookup fun q => ?_
      by_cases hq : q = p
      · subst hq
        simp [RoutingState.removePeer, RoutingState.addPeer, Finmap.lookup_eq_none.mpr hnew]
      · simp [RoutingState.removePeer, RoutingState.addPeer, hq]

omit [Platform] in
theorem routing_representation_sample :
    let _ : Platform := Concrete.platform [Concrete.node 8001, Concrete.node 8002]
    let me := Concrete.node 8001
    let s := (addPeer (.withLocalPeer me) (Concrete.node 8002) (.connected 0)).1
    ((s.entries : Multiset VNode)
        = (vnodes me : Multiset VNode) + ∑ p ∈ s.peerSet, (vnodes p : Multiset VNode)) ∧
      (∀ key, ∃ p, s.lookupPeer key = .ok { peer := p, client := s.peers.lookup p } ∧
        (p = me ∨ p ∈ s.peers)) ∧
      ∀ p ∈ {p | p ∈ [8001, 8002].map Concrete.node}, p ∉ s.peers → ∀ channel,
        let added := (addPeer s p (.connected channel)).1
        let removed := (removePeer added p).1
        p ∈ added.peers ∧ removed.entries = s.entries ∧ removed.peers = s.peers := by
  intro _ me s
  have hU := Concrete.addressable_nodes [8001, 8002] (by decide)
  exact routing_representation hU (by decide)
    (.call (.addPeer (Concrete.node 8002)) (fun _ => .connected 0) [] [] .withLocalPeer
      (by simp [TopologyOp.peers]) trivial)

/-- **Ownership is consistent between any two tables.** Each table owns its
keys to a member; where each knows the other's owner the two owners are one. -/
theorem ownership_consistent (hU : Addressable U) {me₁ me₂ : GroupcachePeer}
    (hme₁ : me₁ ∈ U) (hme₂ : me₂ ∈ U) {s₁ s₂ : RoutingState}
    (h₁ : SerialReachable U me₁ s₁) (h₂ : SerialReachable U me₂ s₂) (key : String) :
    ∃ o₁ c₁ o₂ c₂, s₁.lookupPeer key = .ok { peer := o₁, client := c₁ } ∧
      s₂.lookupPeer key = .ok { peer := o₂, client := c₂ } ∧
      (o₁ ∈ s₂.members me₂ → o₂ ∈ s₁.members me₁ → o₁ = o₂) ∧
      (s₁.members me₁ = s₂.members me₂ → o₁ = o₂) ∧
      (o₁ ≠ o₂ → o₁ ∉ s₂.members me₂ ∨ o₂ ∉ s₁.members me₁) := by
  have hinv₁ := h₁.inv hU hme₁
  have hinv₂ := h₂.inv hU hme₂
  obtain ⟨v₁, o₁, ho₁, hg₁, hv₁, hm₁, hl₁⟩ := hinv₁.lookupPeer hU hme₁ key
  obtain ⟨v₂, o₂, ho₂, hg₂, hv₂, hm₂, hl₂⟩ := hinv₂.lookupPeer hU hme₂ key
  have hagree : o₁ ∈ s₂.members me₂ → o₂ ∈ s₁.members me₁ → o₁ = o₂ := by
    intro h12 h21
    -- each choice is on the ring of the other, so neither is nearer
    have hv := hinv₁.copies.get_agree hinv₂.copies hU.placement
      hg₁ ho₁ hv₁ (SerialInv.pos_iff.mpr h12) hg₂ ho₂ hv₂ (SerialInv.pos_iff.mpr h21)
    exact hU.placement.disjoint o₁ ho₁ o₂ ho₂ v₁ hv₁ (hv ▸ hv₂)
  refine ⟨o₁, _, o₂, _, hl₁, hl₂, hagree, ?_, ?_⟩
  · intro hm
    exact hagree (hm ▸ hm₁) (hm.symm ▸ hm₂)
  · intro hne
    by_contra hcon
    rw [not_or, not_not, not_not] at hcon
    exact hne (hagree hcon.1 hcon.2)

omit [Platform] in
theorem ownership_consistent_sample :
    let _ : Platform := Concrete.platform [Concrete.node 8001, Concrete.node 8002]
    let me₁ := Concrete.node 8001
    let me₂ := Concrete.node 8002
    let s₁ := (addPeer (.withLocalPeer me₁) me₂ (.connected 0)).1
    let s₂ := (addPeer (.withLocalPeer me₂) me₁ (.connected 0)).1
    ∃ o₁ c₁ o₂ c₂, s₁.lookupPeer "key" = .ok { peer := o₁, client := c₁ } ∧
      s₂.lookupPeer "key" = .ok { peer := o₂, client := c₂ } ∧
      (o₁ ∈ s₂.members me₂ → o₂ ∈ s₁.members me₁ → o₁ = o₂) ∧
      (s₁.members me₁ = s₂.members me₂ → o₁ = o₂) ∧
      (o₁ ≠ o₂ → o₁ ∉ s₂.members me₂ ∨ o₂ ∉ s₁.members me₁) := by
  intro _ me₁ me₂ s₁ s₂
  have hU := Concrete.addressable_nodes [8001, 8002] (by decide)
  exact ownership_consistent hU (by decide) (by decide)
    (.call (.addPeer me₂) (fun _ => .connected 0) [] [] .withLocalPeer
      (by simp [TopologyOp.peers, me₂]) trivial)
    (.call (.addPeer me₁) (fun _ => .connected 0) [] [] .withLocalPeer
      (by simp [TopologyOp.peers, me₁]) trivial) "key"

end Groupcache
