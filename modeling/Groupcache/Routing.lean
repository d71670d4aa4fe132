import Groupcache.Lib.VirtualNodes
import Groupcache.Peer
import Mathlib.Data.Finmap

/-!
# Routing (`routing.rs`)

The routing table of a node: the map of connected peers, which the node
itself need not be in, and the ring, which it always starts in. A peer is on
the ring as the text of its address, so every answer of the ring is parsed
back.

What the ring holds is read through `Copies` (`Lib/VirtualNodes`): each
operation of the table adds or removes one copy of one peer, and
`lookupPeer` answers with a peer of which there is a copy.
-/

namespace Groupcache

open ConsistentHashing

structure VNode where
  addrId : String
  deriving DecidableEq

/-- What routing is compiled against. -/
class Platform where
  /-- `Display` of a socket address. -/
  display : SocketAddr → String
  /-- `FromStr` of a socket address. -/
  parse : String → Option SocketAddr
  /-- The derived `Debug` of an error. -/
  debug : InternalGroupcacheError → String
  /-- The ring's hasher over a text. A `VNode` hashes as its only field, so a
  key and a vnode of one text have one hash. -/
  hash : String → UInt64
  /-- The `hashring` crate. -/
  ring : HashRing VNode fun vnode => hash vnode.addrId

/-- `VNODES_PER_PEER` -/
def vnodesPerPeer : Int := 40

variable [Platform]

/-! ## VNode -/

namespace VNode

def new (addr : SocketAddr) (id : Nat) : VNode where
  addrId := Platform.display addr ++ "_" ++ id.repr

def vnodesForPeer (peer : GroupcachePeer) (num : Int) : List VNode :=
  (List.range num.toNat).map fun i => new peer.socket i

/-- The text up to the first `_` (`split('_').next()`), parsed. -/
def asPeer (vnode : VNode) : Except Fault GroupcachePeer :=
  match Platform.parse (String.ofList (vnode.addrId.toList.takeWhile (· ≠ '_'))) with
  | some addr => .ok ⟨addr⟩
  | none => .error (.panic "called `Result::unwrap()` on an `Err` value: AddrParseError(Socket)")

end VNode

/-- The vnodes a peer is given. -/
def vnodes (peer : GroupcachePeer) : List VNode := VNode.vnodesForPeer peer vnodesPerPeer

/-! ## RoutingState -/

structure RoutingState where
  peers : Finmap fun _ : GroupcachePeer => GroupcachePeerClient
  ring : Platform.ring.Ring

namespace RoutingState

def withLocalPeer (peer : GroupcachePeer) : RoutingState where
  peers := ∅
  ring := Platform.ring.addAll Platform.ring.new (VNode.vnodesForPeer peer vnodesPerPeer)

/-- `RoutingState::peers` -/
def peerSet (s : RoutingState) : Finset GroupcachePeer := s.peers.keys

def peerForKey (s : RoutingState) (key : String) : Except Fault GroupcachePeer :=
  match Platform.ring.get s.ring (Platform.hash key) with
  | none => .error (.error "unreachable: ring can't be empty")
  | some vnode => vnode.asPeer

def connectedClient (s : RoutingState) (peer : GroupcachePeer) : Option GroupcachePeerClient :=
  s.peers.lookup peer

def lookupPeer (s : RoutingState) (key : String) : Except Fault GroupcachePeerWithClient :=
  match s.peerForKey key with
  | .error fault => .error fault
  | .ok peer => .ok { peer, client := s.connectedClient peer }

def addPeer (s : RoutingState) (peer : GroupcachePeer) (client : GroupcachePeerClient) :
    RoutingState where
  ring := Platform.ring.addAll s.ring (VNode.vnodesForPeer peer vnodesPerPeer)
  peers := s.peers.insert peer client

def removePeer (s : RoutingState) (peer : GroupcachePeer) : RoutingState where
  ring := Platform.ring.removeAll s.ring (VNode.vnodesForPeer peer vnodesPerPeer)
  peers := s.peers.erase peer

def containsPeer (s : RoutingState) (peer : GroupcachePeer) : Bool :=
  decide (peer ∈ s.peers)

/-- The entries of the ring. -/
def entries (s : RoutingState) : List VNode := Platform.ring.entries s.ring

end RoutingState

/-! ## Addresses and hashes in play

The peers a run names are a set `U`. What routing relies on is about that
set: each address is recovered by parsing its own text, in which the
separator does not occur, and different vnodes have different hashes. -/

structure Addressable (U : Set GroupcachePeer) : Prop where
  parse_display : ∀ p ∈ U, Platform.parse (Platform.display p.socket) = some p.socket
  no_separator : ∀ p ∈ U, '_' ∉ (Platform.display p.socket).toList
  distinct : ∀ p ∈ U, ∀ q ∈ U, ∀ v ∈ vnodes p, ∀ w ∈ vnodes q,
    Platform.hash v.addrId = Platform.hash w.addrId → v = w

namespace VNode

theorem mem_vnodes {peer : GroupcachePeer} {v : VNode} :
    v ∈ vnodes peer ↔ ∃ i < 40, v = new peer.socket i := by
  simp [vnodes, vnodesForPeer, vnodesPerPeer, eq_comm]

omit [Platform] in
/-- Decimal rendering loses nothing. -/
private theorem repr_inj {i j : Nat} (h : i.repr = j.repr) : i = j := by
  have hd : Nat.toDigits 10 i = Nat.toDigits 10 j := by
    rw [← Nat.toList_repr, h, Nat.toList_repr]
  rw [← Nat.ofDigitChars_ten_toDigits (n := i), hd, Nat.ofDigitChars_ten_toDigits]

/-- The index can be read off a vnode of a given address. -/
theorem new_injective (addr : SocketAddr) : Function.Injective (new addr) := by
  intro i j h
  simp only [new, VNode.mk.injEq] at h
  have hl : (Platform.display addr ++ "_").toList ++ i.repr.toList
      = (Platform.display addr ++ "_").toList ++ j.repr.toList := by
    rw [← String.toList_append, ← String.toList_append, h]
  exact repr_inj (String.toList_inj.mp (List.append_cancel_left hl))

/-- The text up to the separator is that of the address, if the separator does
not occur in it. -/
theorem takeWhile_new {addr : SocketAddr} (h : '_' ∉ (Platform.display addr).toList) (i : Nat) :
    (new addr i).addrId.toList.takeWhile (· ≠ '_') = (Platform.display addr).toList := by
  have hne : ∀ c ∈ (Platform.display addr).toList, decide (c ≠ '_') = true := by
    intro c hc
    refine decide_eq_true fun heq => h ?_
    rwa [← heq]
  have hl : (new addr i).addrId.toList =
      (Platform.display addr).toList ++ '_' :: i.repr.toList := by
    simp [new, String.toList_append]
  rw [hl, List.takeWhile_append_of_pos hne]
  simp

theorem asPeer_new {U : Set GroupcachePeer} (hU : Addressable U) {p : GroupcachePeer}
    (hp : p ∈ U) (i : Nat) : (new p.socket i).asPeer = .ok p := by
  simp only [asPeer, takeWhile_new (hU.no_separator p hp), String.ofList_toList,
    hU.parse_display p hp]

theorem asPeer_of_mem {U : Set GroupcachePeer} (hU : Addressable U) {p : GroupcachePeer}
    (hp : p ∈ U) {v : VNode} (hv : v ∈ vnodes p) : v.asPeer = .ok p := by
  obtain ⟨i, _, rfl⟩ := mem_vnodes.mp hv
  exact asPeer_new hU hp i

end VNode

theorem vnodes_ne_nil (peer : GroupcachePeer) : vnodes peer ≠ [] := by
  intro h
  have : VNode.new peer.socket 0 ∈ vnodes peer := VNode.mem_vnodes.mpr ⟨0, by decide, rfl⟩
  rw [h] at this
  cases this

theorem vnodes_nodup (peer : GroupcachePeer) : (vnodes peer).Nodup :=
  List.nodup_range.map (VNode.new_injective peer.socket)

variable {U : Set GroupcachePeer}

theorem Addressable.placement (hU : Addressable U) :
    Placement (fun vnode : VNode => Platform.hash vnode.addrId) vnodes U where
  nodup p _ := vnodes_nodup p
  disjoint p hp q hq v hv hw := by
    have h := (VNode.asPeer_of_mem hU hp hv).symm.trans (VNode.asPeer_of_mem hU hq hw)
    exact Except.ok.inj h
  distinct := hU.distinct

/-! ## The table through its copies -/

/-- `n p` copies of every peer `p` of `U` on the ring of `s`. -/
abbrev RoutingState.Copies (U : Set GroupcachePeer) (s : RoutingState)
    (n : GroupcachePeer → Nat) : Prop :=
  ConsistentHashing.Copies Platform.ring vnodes U s.ring n

/-- One copy of the local peer and one of each peer of the map. -/
def RoutingState.serialCopies (me : GroupcachePeer) (s : RoutingState) (p : GroupcachePeer) :
    Nat :=
  (if p = me then 1 else 0) + if p ∈ s.peers then 1 else 0

namespace RoutingState

variable {s : RoutingState} {n : GroupcachePeer → Nat} {p me : GroupcachePeer}
  {client : GroupcachePeerClient} {key : String}

theorem mem_peerSet : p ∈ s.peerSet ↔ p ∈ s.peers := Finmap.mem_keys

@[simp] theorem containsPeer_iff : s.containsPeer p = true ↔ p ∈ s.peers := by
  simp [containsPeer]

@[simp] theorem mem_addPeer {q : GroupcachePeer} :
    q ∈ (s.addPeer p client).peers ↔ q = p ∨ q ∈ s.peers := by
  simp [addPeer]

@[simp] theorem mem_removePeer {q : GroupcachePeer} :
    q ∈ (s.removePeer p).peers ↔ q ≠ p ∧ q ∈ s.peers := by
  simp [removePeer]

theorem lookup_addPeer {q : GroupcachePeer} :
    (s.addPeer p client).peers.lookup q = if q = p then some client else s.peers.lookup q := by
  split
  · subst q
    exact Finmap.lookup_insert _
  · exact Finmap.lookup_insert_of_ne _ ‹_›

theorem lookup_removePeer {q : GroupcachePeer} :
    (s.removePeer p).peers.lookup q = if q = p then none else s.peers.lookup q := by
  split
  · subst q
    exact Finmap.lookup_erase ..
  · exact Finmap.lookup_erase_ne ‹_›

theorem Copies.withLocalPeer (hU : Addressable U) (hme : me ∈ U) :
    Copies U (withLocalPeer me) (Function.update (fun _ => 0) me 1) :=
  ConsistentHashing.Copies.new.addAll hU.placement hme

theorem Copies.addPeer (C : Copies U s n) (client : GroupcachePeerClient)
    (hU : Addressable U) (hp : p ∈ U) :
    Copies U (s.addPeer p client) (Function.update n p (n p + 1)) :=
  ConsistentHashing.Copies.addAll C hU.placement hp

theorem Copies.removePeer (C : Copies U s n) (hU : Addressable U) (hp : p ∈ U) :
    Copies U (s.removePeer p) (Function.update n p (n p - 1)) :=
  ConsistentHashing.Copies.removeAll C hU.placement hp

/-- A lookup on a ring that is not empty: the vnode the scan finds, its
peer, and the client the map has for it. -/
theorem Copies.lookupPeer (C : Copies U s n) (hU : Addressable U) (hme : me ∈ U)
    (hn : 0 < n me) (key : String) :
    ∃ v, ∃ p ∈ U, Platform.ring.get s.ring (Platform.hash key) = some v ∧ v ∈ vnodes p ∧
      0 < n p ∧ s.lookupPeer key = .ok { peer := p, client := s.peers.lookup p } := by
  obtain ⟨v, hv⟩ := C.get_isSome (k := Platform.hash key) hme (vnodes_ne_nil me) hn
  obtain ⟨p, hp, hvp, hpos⟩ := C.owner (Platform.ring.get_mem hv)
  refine ⟨v, p, hp, hv, hvp, hpos, ?_⟩
  simp [RoutingState.lookupPeer, peerForKey, hv, VNode.asPeer_of_mem hU hp hvp, connectedClient]

/-- Any successful lookup names a peer of which the ring has a copy. -/
theorem Copies.of_lookupPeer (C : Copies U s n) (hU : Addressable U)
    {found : GroupcachePeerWithClient} (h : s.lookupPeer key = .ok found) :
    ∃ v, Platform.ring.get s.ring (Platform.hash key) = some v ∧ v ∈ vnodes found.peer ∧
      found.peer ∈ U ∧ 0 < n found.peer ∧ found.client = s.peers.lookup found.peer := by
  cases hg : Platform.ring.get s.ring (Platform.hash key) with
  | none => simp [RoutingState.lookupPeer, peerForKey, hg] at h
  | some v =>
      obtain ⟨p, hp, hvp, hpos⟩ := C.owner (Platform.ring.get_mem hg)
      simp only [RoutingState.lookupPeer, peerForKey, hg, VNode.asPeer_of_mem hU hp hvp,
        connectedClient, Except.ok.injEq] at h
      subst h
      exact ⟨v, rfl, hvp, hp, hpos, rfl⟩

theorem Copies.congr {m : GroupcachePeer → Nat} (C : Copies U s n) (h : ∀ p, n p = m p) :
    Copies U s m :=
  (funext h : n = m) ▸ C

/-! ### One copy each -/

theorem serialCopies_withLocalPeer (hU : Addressable U) (hme : me ∈ U) :
    Copies U (RoutingState.withLocalPeer me) (serialCopies me (RoutingState.withLocalPeer me)) := by
  refine (Copies.withLocalPeer hU hme).congr fun q => ?_
  by_cases hq : q = me
  · subst hq
    simp [serialCopies, RoutingState.withLocalPeer, Finmap.notMem_empty]
  · simp [serialCopies, RoutingState.withLocalPeer, Finmap.notMem_empty, hq]

theorem serialCopies_pos : 0 < serialCopies me s p ↔ p = me ∨ p ∈ s.peers := by
  unfold serialCopies
  split <;> split <;> simp_all

end RoutingState

end Groupcache
