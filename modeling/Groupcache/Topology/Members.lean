import Groupcache.Topology.Serial

/-!
# Who owns the keys

Between calls that do not overlap every member owns keys: those spelled like
its vnodes (`members_own_their_keys`). What else is on the ring does not
matter for it, not even peers whose addresses are not recovered from their
texts, so the copies are counted here by the TEXT of an address instead of by
peer, and one text can stand for several.
-/

namespace Groupcache

open ConsistentHashing

variable [Platform] {U : Set GroupcachePeer} {me p : GroupcachePeer} {s : RoutingState}
  {key : String}

/-! ## Texts of addresses -/

/-- What routing relies on about the texts of the peers of `U`. -/
structure Printable (U : Set GroupcachePeer) : Prop where
  no_separator : ∀ p ∈ U, '_' ∉ (Platform.display p.socket).toList
  distinct : ∀ p ∈ U, ∀ q ∈ U, ∀ v ∈ vnodes p, ∀ w ∈ vnodes q,
    Platform.hash v.addrId = Platform.hash w.addrId → v = w

/-- The address survives being formatted and parsed. -/
def GroupcachePeer.Survives (p : GroupcachePeer) : Prop :=
  Platform.parse (Platform.display p.socket) = some p.socket

/-- The vnodes of the peers whose address has the text. -/
def textVNodes (text : String) : List VNode :=
  (List.range 40).map fun i => ⟨text ++ "_" ++ i.repr⟩

def texts (U : Set GroupcachePeer) : Set String := {t | ∃ p ∈ U, Platform.display p.socket = t}

theorem Printable.placement (hU : Printable U) :
    Placement (fun vnode : VNode => Platform.hash vnode.addrId) textVNodes (texts U) where
  nodup := by
    rintro t ⟨p, _, rfl⟩
    exact vnodes_nodup p
  disjoint := by
    rintro t ⟨p, hp, rfl⟩ u ⟨q, hq, rfl⟩ v hv hw
    obtain ⟨i, _, rfl⟩ := VNode.mem_vnodes.mp hv
    obtain ⟨j, _, hj⟩ := VNode.mem_vnodes.mp hw
    have htext := VNode.takeWhile_new (hU.no_separator p hp) i
    rw [hj, VNode.takeWhile_new (hU.no_separator q hq) j] at htext
    exact (String.toList_inj.mp htext).symm
  distinct := by
    rintro t ⟨p, hp, rfl⟩ u ⟨q, hq, rfl⟩
    exact hU.distinct p hp q hq

/-! ## Copies of a text -/

/-- How many members have an address of that text; the local peer counts once
more if it is in the map. -/
def RoutingState.textCopies (me : GroupcachePeer) (s : RoutingState) (text : String) : Nat :=
  (if Platform.display me.socket = text then 1 else 0)
    + (s.peerSet.filter fun p => Platform.display p.socket = text).card

/-- The ring holds each text as often as members have it. -/
abbrev RoutingState.TextCopies (U : Set GroupcachePeer) (me : GroupcachePeer)
    (s : RoutingState) : Prop :=
  ConsistentHashing.Copies Platform.ring textVNodes (texts U) s.ring (s.textCopies me)

namespace RoutingState.TextCopies

theorem withLocalPeer (hU : Printable U) (hme : me ∈ U) :
    TextCopies U me (.withLocalPeer me) := by
  have h := ConsistentHashing.Copies.new.addAll (H := Platform.ring) hU.placement
    (⟨me, hme, rfl⟩ : Platform.display me.socket ∈ texts U)
  have hcopies : textCopies me (.withLocalPeer me)
      = Function.update (fun _ => 0) (Platform.display me.socket) 1 := by
    funext t
    have hnone : (RoutingState.withLocalPeer me).peerSet = ∅ := rfl
    by_cases ht : Platform.display me.socket = t
    · subst ht
      simp [textCopies, hnone]
    · simp [textCopies, hnone, ht, Function.update_of_ne (Ne.symm ht)]
  rw [TextCopies, hcopies]
  exact h

theorem addPeer (C : TextCopies U me s) (hU : Printable U) (hp : p ∈ U) (hnew : p ∉ s.peers)
    (client : GroupcachePeerClient) : TextCopies U me (s.addPeer p client) := by
  have h := ConsistentHashing.Copies.addAll C hU.placement
    (⟨p, hp, rfl⟩ : Platform.display p.socket ∈ texts U)
  have hset : (s.addPeer p client).peerSet = insert p s.peerSet := by
    ext q
    rw [mem_peerSet, mem_addPeer, Finset.mem_insert, mem_peerSet]
  have hcopies : textCopies me (s.addPeer p client)
      = Function.update (s.textCopies me) (Platform.display p.socket)
          (s.textCopies me (Platform.display p.socket) + 1) := by
    funext t
    by_cases ht : Platform.display p.socket = t
    · subst ht
      have hnot : p ∉ s.peerSet.filter fun q =>
          Platform.display q.socket = Platform.display p.socket := by
        simp [mem_peerSet, hnew]
      rw [Function.update_self, textCopies, textCopies, hset, Finset.filter_insert, if_pos rfl,
        Finset.card_insert_of_notMem hnot, Nat.add_assoc]
    · rw [Function.update_of_ne (Ne.symm ht), textCopies, textCopies, hset, Finset.filter_insert,
        if_neg ht]
  rw [TextCopies, hcopies]
  exact h

theorem removePeer (C : TextCopies U me s) (hU : Printable U) (hp : p ∈ U) (hknown : p ∈ s.peers) :
    TextCopies U me (s.removePeer p) := by
  have h := ConsistentHashing.Copies.removeAll C hU.placement
    (⟨p, hp, rfl⟩ : Platform.display p.socket ∈ texts U)
  have hset : (s.removePeer p).peerSet = s.peerSet.erase p := by
    ext q
    rw [mem_peerSet, mem_removePeer, Finset.mem_erase, mem_peerSet]
  have hcopies : textCopies me (s.removePeer p)
      = Function.update (s.textCopies me) (Platform.display p.socket)
          (s.textCopies me (Platform.display p.socket) - 1) := by
    funext t
    by_cases ht : Platform.display p.socket = t
    · subst ht
      have hmem : p ∈ s.peerSet.filter fun q =>
          Platform.display q.socket = Platform.display p.socket :=
        Finset.mem_filter.mpr ⟨mem_peerSet.mpr hknown, rfl⟩
      have hpos := Finset.card_pos.mpr ⟨p, hmem⟩
      rw [Function.update_self, textCopies, textCopies, hset, Finset.filter_erase,
        Finset.card_erase_of_mem hmem]
      omega
    · have hnot : p ∉ s.peerSet.filter fun q => Platform.display q.socket = t := by
        simp [ht]
      rw [Function.update_of_ne (Ne.symm ht), textCopies, textCopies, hset, Finset.filter_erase,
        Finset.erase_eq_of_notMem hnot]
  rw [TextCopies, hcopies]
  exact h

/-- Peers that are new to the map and different are added one by one, -/
private theorem foldl_addPeer (C : TextCopies U me s) (hU : Printable U) {adds : List Connection}
    (hnodup : (adds.map Prod.fst).Nodup) (ha : ∀ c ∈ adds, c.1 ∈ U ∧ c.1 ∉ s.peers) :
    TextCopies U me (adds.foldl (fun s c => s.addPeer c.1 c.2) s) := by
  induction adds generalizing s with
  | nil => exact C
  | cons c adds ih =>
      obtain ⟨hc, hnodup⟩ := List.nodup_cons.mp hnodup
      obtain ⟨hcU, hcnew⟩ := ha c List.mem_cons_self
      refine ih (C.addPeer hU hcU hcnew c.2) hnodup fun d hd => ?_
      obtain ⟨hdU, hdnew⟩ := ha d (List.mem_cons_of_mem c hd)
      refine ⟨hdU, fun hmem => ?_⟩
      rcases mem_addPeer.mp hmem with heq | hmem
      · exact hc (heq ▸ List.mem_map_of_mem hd)
      · exact hdnew hmem

/-- and so are known ones removed. -/
private theorem foldl_removePeer (C : TextCopies U me s) (hU : Printable U)
    {removes : List GroupcachePeer} (hnodup : removes.Nodup)
    (hr : ∀ q ∈ removes, q ∈ U ∧ q ∈ s.peers) :
    TextCopies U me (removes.foldl RoutingState.removePeer s) := by
  induction removes generalizing s with
  | nil => exact C
  | cons q removes ih =>
      obtain ⟨hq, hnodup⟩ := List.nodup_cons.mp hnodup
      obtain ⟨hqU, hqknown⟩ := hr q List.mem_cons_self
      refine ih (C.removePeer hU hqU hqknown) hnodup fun d hd => ?_
      obtain ⟨hdU, hdknown⟩ := hr d (List.mem_cons_of_mem q hd)
      exact ⟨hdU, mem_removePeer.mpr ⟨fun heq => hq (heq ▸ hd), hdknown⟩⟩

theorem write (C : TextCopies U me s) (hU : Printable U) {op : TopologyOp}
    {adds : List Connection} {removes : List GroupcachePeer} (hf : FreshWrite s op adds removes)
    (hop : op.peers ⊆ U) (hknown : ∀ q ∈ s.peers, q ∈ U) :
    TextCopies U me (s.write adds removes) := by
  have hadd := C.foldl_addPeer hU hf.adds_nodup fun c hc =>
    ⟨hop (hf.adds_named c hc), hf.adds_new c hc⟩
  refine hadd.foldl_removePeer hU hf.removes_nodup fun q hq => ?_
  have hq := hf.removes_known q hq
  exact ⟨hknown q hq, mem_foldl_addPeer _ |>.mpr (.inr hq)⟩

end RoutingState.TextCopies

/-- **Calls that do not overlap** keep one copy for each member. -/
theorem SerialReachable.textCopies (hU : Printable U) (hme : me ∈ U)
    (h : SerialReachable U me s) :
    s.TextCopies U me ∧ ∀ q ∈ s.peers, q ∈ U := by
  induction h with
  | withLocalPeer =>
      exact ⟨.withLocalPeer hU hme, fun q hq => absurd hq Finmap.notMem_empty⟩
  | call op attempt order removal _ hop hsched ih =>
      obtain ⟨C, hknown⟩ := ih
      obtain ⟨adds, removes, hw, hf⟩ := TopologyOp.complete_fresh attempt hsched
      rw [hw]
      refine ⟨C.write hU hf hop hknown, fun q hq => ?_⟩
      rcases (RoutingState.mem_write.mp hq).2 with hq | hq
      · obtain ⟨c, hc, rfl⟩ := List.mem_map.mp hq
        exact hop (hf.adds_named c hc)
      · exact hknown q hq

/-! ## Lookups -/

namespace RoutingState.TextCopies

theorem textCopies_pos {text : String} :
    0 < s.textCopies me text ↔ ∃ q ∈ s.members me, Platform.display q.socket = text := by
  rw [textCopies]
  constructor
  · intro hpos
    by_cases ht : Platform.display me.socket = text
    · exact ⟨me, mem_members.mpr (.inl rfl), ht⟩
    · rw [if_neg ht, Nat.zero_add] at hpos
      obtain ⟨q, hq⟩ := Finset.card_pos.mp hpos
      obtain ⟨hq, hqt⟩ := Finset.mem_filter.mp hq
      exact ⟨q, mem_members.mpr (.inr (mem_peerSet.mp hq)), hqt⟩
  · rintro ⟨q, hq, ht⟩
    rcases mem_members.mp hq with rfl | hq
    · rw [if_pos ht]
      omega
    · have hmem : q ∈ s.peerSet.filter fun p => Platform.display p.socket = text :=
        Finset.mem_filter.mpr ⟨mem_peerSet.mpr hq, ht⟩
      have := Finset.card_pos.mpr ⟨q, hmem⟩
      omega

/-- **A key spelled like a vnode of a member** whose address survives finds
that member. -/
theorem lookupPeer_vnode (C : TextCopies U me s) (hU : Printable U)
    (hknown : ∀ q ∈ s.members me, q ∈ U) (hp : p ∈ s.members me) (hsurvives : p.Survives)
    {i : Nat} (hi : i < 40) :
    s.lookupPeer (Platform.display p.socket ++ "_" ++ i.repr)
      = .ok { peer := p, client := s.peers.lookup p } := by
  have hmem : VNode.new p.socket i ∈ textVNodes (Platform.display p.socket) :=
    VNode.mem_vnodes.mpr ⟨i, hi, rfl⟩
  have hget := C.get_hash hU.placement ⟨p, hknown p hp, rfl⟩ hmem
    (textCopies_pos.mpr ⟨p, hp, rfl⟩)
  have hpeer : (VNode.new p.socket i).asPeer = .ok p := by
    simp only [VNode.asPeer, VNode.takeWhile_new (hU.no_separator p (hknown p hp)),
      String.ofList_toList]
    rw [show Platform.parse (Platform.display p.socket) = some p.socket from hsurvives]
  change Platform.ring.get s.ring (Platform.hash (VNode.new p.socket i).addrId) = _ at hget
  simp only [RoutingState.lookupPeer, peerForKey]
  rw [show Platform.display p.socket ++ "_" ++ i.repr = (VNode.new p.socket i).addrId from rfl,
    hget]
  simp only [hpeer, connectedClient]

/-- **Where the addresses of the members survive** every key is routed to a
member. -/
theorem lookupPeer_member (C : TextCopies U me s) (hU : Printable U) (hme : me ∈ U)
    (hknown : ∀ q ∈ s.members me, q ∈ U) (hsurvive : ∀ q ∈ s.members me, q.Survives)
    (key : String) :
    ∃ q ∈ s.members me, s.lookupPeer key = .ok { peer := q, client := s.peers.lookup q } := by
  obtain ⟨v, hget⟩ := C.get_isSome (k := Platform.hash key)
    (⟨me, hme, rfl⟩ : Platform.display me.socket ∈ texts U) (vnodes_ne_nil me)
    (textCopies_pos.mpr ⟨me, mem_members.mpr (.inl rfl), rfl⟩)
  obtain ⟨text, _, hv, hpos⟩ := C.owner (Platform.ring.get_mem hget)
  obtain ⟨q, hq, rfl⟩ := textCopies_pos.mp hpos
  obtain ⟨i, _, rfl⟩ := VNode.mem_vnodes.mp hv
  refine ⟨q, hq, ?_⟩
  simp only [RoutingState.lookupPeer, peerForKey, hget, VNode.asPeer,
    VNode.takeWhile_new (hU.no_separator q (hknown q hq)), String.ofList_toList]
  rw [show Platform.parse (Platform.display q.socket) = some q.socket from hsurvive q hq]
  rfl

end RoutingState.TextCopies

/-! ## Members and owners -/

/-- Every member owns keys, and where the addresses of the members survive
nobody else does. -/
structure MembersOwnKeys (me : GroupcachePeer) (s : RoutingState) : Prop where
  /-- The keys spelled like the vnodes of a member are its own. -/
  spelled : ∀ p ∈ s.members me, p.Survives → ∀ i < vnodesPerPeer.toNat,
    s.lookupPeer (Platform.display p.socket ++ "_" ++ i.repr)
        = .ok { peer := p, client := s.peers.lookup p } ∧
      (p ≠ me → (s.peers.lookup p).isSome = true)
  /-- No key is routed to a peer that has been removed. -/
  removed : (∀ q ∈ s.members me, q.Survives) → ∀ p ∈ s.peers, p ≠ me → ∀ key found,
    (removePeer s p).1.lookupPeer key = .ok found → found.peer ≠ p
  owners : (∀ q ∈ s.members me, q.Survives) →
    {p | ∃ key found, s.lookupPeer key = .ok found ∧ found.peer = p} = (s.members me : Set _)

/-- **Every member owns the keys spelled like its vnodes.** -/
theorem members_own_their_keys (hU : Printable U) (hme : me ∈ U) (h : SerialReachable U me s) :
    MembersOwnKeys me s := by
  obtain ⟨C, hpeers⟩ := h.textCopies hU hme
  have hknown : ∀ q ∈ s.members me, q ∈ U := by
    intro q hq
    rcases RoutingState.mem_members.mp hq with rfl | hq
    · exact hme
    · exact hpeers q hq
  have hspelled : ∀ p ∈ s.members me, p.Survives → ∀ i < vnodesPerPeer.toNat,
      s.lookupPeer (Platform.display p.socket ++ "_" ++ i.repr)
        = .ok { peer := p, client := s.peers.lookup p } := fun p hp hsurvives i hi =>
    C.lookupPeer_vnode hU hknown hp hsurvives hi
  constructor
  case spelled =>
    intro p hp hsurvives i hi
    refine ⟨hspelled p hp hsurvives i hi, fun hne => ?_⟩
    have hmem := (RoutingState.mem_members.mp hp).resolve_left hne
    rw [Option.isSome_iff_exists]
    exact Finmap.mem_iff.mp hmem
  case removed =>
    intro hsurvive p hp hne key found hfound
    have hremoved : (removePeer s p).1 = s.removePeer p := by simp [removePeer, hp]
    rw [hremoved] at hfound
    -- the members that are left
    have hsub : ∀ q ∈ (s.removePeer p).members me, q ∈ s.members me ∧ q ≠ p := by
      intro q hq
      rcases RoutingState.mem_members.mp hq with rfl | hq
      · exact ⟨RoutingState.mem_members.mpr (.inl rfl), hne.symm⟩
      · obtain ⟨hqp, hq⟩ := RoutingState.mem_removePeer.mp hq
        exact ⟨RoutingState.mem_members.mpr (.inr hq), hqp⟩
    obtain ⟨q, hq, hl⟩ := (C.removePeer hU (hpeers p hp) hp).lookupPeer_member hU hme
      (fun q hq => hknown q (hsub q hq).1) (fun q hq => hsurvive q (hsub q hq).1) key
    rw [hl] at hfound
    cases hfound
    exact (hsub q hq).2
  case owners =>
    intro hsurvive
    ext p
    constructor
    · rintro ⟨key, found, hfound, rfl⟩
      obtain ⟨q, hq, hl⟩ := C.lookupPeer_member hU hme hknown hsurvive key
      rw [hl] at hfound
      cases hfound
      exact hq
    · intro hp
      exact ⟨_, _, hspelled p hp (hsurvive p hp) 0 (by decide), rfl⟩

theorem Addressable.printable (hU : Addressable U) : Printable U where
  no_separator := hU.no_separator
  distinct := hU.distinct

omit [Platform] in
/-- Two members, of which the one added can be removed again. -/
theorem members_own_their_keys_sample :
    let _ : Platform := Concrete.platform ([8001, 8002].map Concrete.node)
    let me := Concrete.node 8001
    let s := (addPeer (.withLocalPeer me) (Concrete.node 8002) (.connected 0)).1
    MembersOwnKeys me s ∧ Concrete.node 8002 ∈ s.members me ∧
      ∀ q ∈ s.members me, q.Survives := by
  intro _ me s
  have hU := Concrete.addressable_nodes [8001, 8002] (by decide)
  refine ⟨members_own_their_keys hU.printable (by decide)
    (.call (.addPeer (Concrete.node 8002)) (fun _ => .connected 0) [] [] .withLocalPeer
      (by simp [TopologyOp.peers]) trivial), by decide, fun q hq => ?_⟩
  have hq : q ∈ [8001, 8002].map Concrete.node := by
    revert q
    decide
  exact hU.parse_display q hq

end Groupcache
