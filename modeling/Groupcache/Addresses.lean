import Groupcache.Concrete

/-!
# Peers as texts (`routing.rs`: `VNode`)

A peer stands on the ring as the text of its address and is parsed back on
every lookup. `StdAddresses` is what `std` does there: an IPv6 address is
printed without its flow information, which equality of peers sees. So the
encoding is faithful for the peers without flow information and for no others
(`faithful_iff`); a node whose own address has some cannot route a key
(`unreachable_of_flowinfo`).
-/

namespace Groupcache

open ConsistentHashing

/-- The flow information of an IPv6 address. -/
def SocketAddr.flowinfo : SocketAddr → UInt32
  | .v4 .. => 0
  | .v6 _ _ flowinfo _ => flowinfo

/-- The address without its flow information. -/
def SocketAddr.withoutFlowinfo : SocketAddr → SocketAddr
  | .v4 ip port => .v4 ip port
  | .v6 ip port _ scopeId => .v6 ip port 0 scopeId

@[simp] theorem SocketAddr.withoutFlowinfo_eq_self {addr : SocketAddr} :
    addr.withoutFlowinfo = addr ↔ addr.flowinfo = 0 := by
  cases addr with
  | v4 ip port => simp [withoutFlowinfo, flowinfo]
  | v6 ip port flow scope => simp [withoutFlowinfo, flowinfo, eq_comm]

variable [Platform]

/-- Addresses as `std` prints and parses them. -/
structure StdAddresses : Prop where
  /-- The flow information is not printed. -/
  display_withoutFlowinfo : ∀ addr : SocketAddr,
    Platform.display addr.withoutFlowinfo = Platform.display addr
  /-- What is printed is parsed back. -/
  parse_display : ∀ addr : SocketAddr, addr.flowinfo = 0 →
    Platform.parse (Platform.display addr) = some addr
  no_separator : ∀ addr : SocketAddr, '_' ∉ (Platform.display addr).toList

namespace StdAddresses

variable (std : StdAddresses) {a b : SocketAddr} {p : GroupcachePeer} {i j : Nat}

include std

theorem parse_display' (a : SocketAddr) :
    Platform.parse (Platform.display a) = some a.withoutFlowinfo := by
  rw [← std.display_withoutFlowinfo a]
  refine std.parse_display _ ?_
  cases a <;> rfl

theorem display_eq_iff :
    Platform.display a = Platform.display b ↔ a.withoutFlowinfo = b.withoutFlowinfo := by
  constructor
  · intro h
    have ha := std.parse_display' a
    rw [h, std.parse_display' b] at ha
    exact (Option.some.inj ha).symm
  · intro h
    rw [← std.display_withoutFlowinfo a, h, std.display_withoutFlowinfo b]

/-- A peer comes back from its vnodes without its flow information. -/
theorem asPeer_new (p : GroupcachePeer) (i : Nat) :
    (VNode.new p.socket i).asPeer = .ok ⟨p.socket.withoutFlowinfo⟩ := by
  simp only [VNode.asPeer, VNode.takeWhile_new (std.no_separator p.socket), String.ofList_toList,
    std.parse_display']

/-- **Vnodes are equal** when their indices are, and their addresses but for
the flow information. -/
theorem new_eq_iff :
    VNode.new a i = VNode.new b j ↔ a.withoutFlowinfo = b.withoutFlowinfo ∧ i = j := by
  constructor
  · intro h
    have hdisplay : Platform.display a = Platform.display b := by
      have htext := VNode.takeWhile_new (std.no_separator a) i
      rw [h, VNode.takeWhile_new (std.no_separator b) j] at htext
      exact String.toList_inj.mp htext.symm
    refine ⟨(std.display_eq_iff).mp hdisplay, VNode.new_injective a ?_⟩
    rw [h, VNode.new, VNode.new, hdisplay]
  · rintro ⟨h, rfl⟩
    rw [VNode.new, VNode.new, (std.display_eq_iff).mpr h]

end StdAddresses

/-! ## Faithful encodings -/

/-- The peers are recovered from their vnodes, and so are the indices. -/
structure FaithfulVNodes (A : Set GroupcachePeer) : Prop where
  asPeer : ∀ p ∈ A, ∀ i, (VNode.new p.socket i).asPeer = .ok p
  injective : ∀ p ∈ A, ∀ q ∈ A, ∀ i j, VNode.new p.socket i = VNode.new q.socket j →
    p = q ∧ i = j

/-- **The encoding is faithful exactly without flow information.** -/
theorem faithful_iff (std : StdAddresses) (A : Set GroupcachePeer) :
    FaithfulVNodes A ↔ ∀ p ∈ A, p.socket.flowinfo = 0 := by
  constructor
  · intro h p hp
    have hback := h.asPeer p hp 0
    rw [std.asPeer_new p 0] at hback
    exact SocketAddr.withoutFlowinfo_eq_self.mp
      (congrArg GroupcachePeer.socket (Except.ok.inj hback))
  · intro h
    have hself : ∀ p ∈ A, p.socket.withoutFlowinfo = p.socket := fun p hp =>
      SocketAddr.withoutFlowinfo_eq_self.mpr (h p hp)
    constructor
    · intro p hp i
      rw [std.asPeer_new p i, hself p hp]
    · intro p hp q hq i j hij
      obtain ⟨hsocket, hindex⟩ := std.new_eq_iff.mp hij
      rw [hself p hp, hself q hq] at hsocket
      cases p
      cases q
      exact ⟨congrArg GroupcachePeer.mk hsocket, hindex⟩

/-- A node whose address has flow information does not recognise itself: what
it does with any key ends in the error that is meant to be unreachable. -/
theorem unreachable_of_flowinfo (std : StdAddresses) {me : GroupcachePeer}
    (hflow : me.socket.flowinfo ≠ 0) (key : String) :
    ∃ found, (RoutingState.withLocalPeer me).lookupPeer key = .ok found ∧
      found.dispatch me
        = .error (.anyhow "unreachable: cannot be empty since it's a remote peer") := by
  have hentries : ∀ v, v ∈ (RoutingState.withLocalPeer me).entries ↔ v ∈ vnodes me := by
    intro v
    rw [RoutingState.entries, RoutingState.withLocalPeer, Platform.ring.mem_addAll,
      Platform.ring.entries_new]
    simp [vnodes]
  cases hget : Platform.ring.get (RoutingState.withLocalPeer me).ring (Platform.hash key) with
  | none =>
      have hempty := (Platform.ring.get_eq_none_iff _ _).mp hget
      obtain ⟨v, hv⟩ := List.exists_mem_of_ne_nil _ (vnodes_ne_nil me)
      have hv := (hentries v).mpr hv
      rw [RoutingState.entries, hempty] at hv
      cases hv
  | some v =>
      obtain ⟨i, _, rfl⟩ := VNode.mem_vnodes.mp ((hentries v).mp (Platform.ring.get_mem hget))
      refine ⟨{ peer := ⟨me.socket.withoutFlowinfo⟩, client := none }, ?_, ?_⟩
      · simp only [RoutingState.lookupPeer, RoutingState.peerForKey, hget, std.asPeer_new]
        rfl
      · have hne : (⟨me.socket.withoutFlowinfo⟩ : GroupcachePeer) ≠ me := by
          intro h
          exact hflow (SocketAddr.withoutFlowinfo_eq_self.mp (congrArg GroupcachePeer.socket h))
        simp [GroupcachePeerWithClient.dispatch, hne]

/-! ## A platform for IPv6

What `std` prints of an IPv6 address in which no two segments that follow each
other are zero: there is nothing for `::` to abbreviate, and the text is the
segments in hexadecimal, with the scope id where it is not zero. Here the
other addresses are printed in full as well. -/

namespace Concrete

def hex (n : Nat) : List Char := Nat.toDigits 16 n

def isHex (c : Char) : Bool := c.isDigit || ('a' ≤ c && c ≤ 'f')

def hexVal (c : Char) : Nat := if c.isDigit then c.toNat - 48 else c.toNat - 87

def ofHex (cs : List Char) : Nat := cs.foldl (fun n c => 16 * n + hexVal c) 0

def readSegment (cs : List Char) : Option UInt16 :=
  if cs ≠ [] ∧ cs.all isHex ∧ ofHex cs < 65536 then some (UInt16.ofNat (ofHex cs)) else none

def readScope (cs : List Char) : Option UInt32 :=
  (readNat cs).bind fun n => if n < 2 ^ 32 then some (UInt32.ofNat n) else none

/-- `a:b:c:d:e:f:g:h` -/
def showIpv6 (ip : Ipv6Addr) : List Char :=
  List.intercalate [':']
    [hex ip.a.toNat, hex ip.b.toNat, hex ip.c.toNat, hex ip.d.toNat,
      hex ip.e.toNat, hex ip.f.toNat, hex ip.g.toNat, hex ip.h.toNat]

def readIpv6 (cs : List Char) : Option Ipv6Addr :=
  match cs.splitOn ':' with
  | [a, b, c, d, e, f, g, h] => do
      return ⟨← readSegment a, ← readSegment b, ← readSegment c, ← readSegment d,
        ← readSegment e, ← readSegment f, ← readSegment g, ← readSegment h⟩
  | _ => none

/-- `ip` or `ip%scope` -/
def showHost (ip : Ipv6Addr) (scopeId : UInt32) : List Char :=
  if scopeId = 0 then showIpv6 ip
  else List.intercalate ['%'] [showIpv6 ip, digits scopeId.toNat]

def readHost (cs : List Char) : Option (Ipv6Addr × UInt32) :=
  match cs.splitOn '%' with
  | [ip] => (readIpv6 ip).map (·, 0)
  | [ip, scope] => do return (← readIpv6 ip, ← readScope scope)
  | _ => none

/-- `[host]:port`; IPv4 as before. -/
def displayStd : SocketAddr → String
  | .v4 ip port => display (.v4 ip port)
  | .v6 ip port _ scopeId =>
      String.ofList ('[' :: List.intercalate [']'] [showHost ip scopeId, ':' :: digits port.toNat])

def parseStd (s : String) : Option SocketAddr :=
  match s.toList with
  | '[' :: rest =>
      match rest.splitOn ']' with
      | [host, ':' :: port] => do
          let (ip, scopeId) ← readHost host
          return .v6 ip (← readPort port) 0 scopeId
      | _ => none
  | _ => parse s

omit [Platform] in
private theorem digitChar_hex :
    ∀ n < 16, isHex n.digitChar = true ∧ hexVal n.digitChar = n := by decide

omit [Platform] in
theorem isHex_of_mem_hex {n : Nat} {c : Char} (h : c ∈ hex n) : isHex c = true := by
  induction n using Nat.base_induction 16 (by decide) with
  | single m hm =>
      rw [hex, Nat.toDigits_of_lt_base hm, List.mem_singleton] at h
      exact h ▸ (digitChar_hex m hm).1
  | digit m k hk hm ih =>
      rw [hex, ← Nat.toDigits_append_toDigits (by decide) hm hk, List.mem_append,
        Nat.toDigits_of_lt_base hk, List.mem_singleton] at h
      rcases h with h | rfl
      · exact ih h
      · exact (digitChar_hex k hk).1

omit [Platform] in
theorem ofHex_hex (n : Nat) : ofHex (hex n) = n := by
  induction n using Nat.base_induction 16 (by decide) with
  | single m hm => simp [hex, ofHex, Nat.toDigits_of_lt_base hm, (digitChar_hex m hm).2]
  | digit m k hk hm ih =>
      rw [hex, ofHex] at ih
      rw [hex, ← Nat.toDigits_append_toDigits (by decide) hm hk, Nat.toDigits_of_lt_base hk, ofHex,
        List.foldl_append, ih]
      simp [(digitChar_hex k hk).2]

omit [Platform] in
theorem notMem_hex {n : Nat} {c : Char} (hc : isHex c = false) : c ∉ hex n := by
  intro h
  rw [isHex_of_mem_hex h] at hc
  cases hc

omit [Platform] in
theorem readSegment_hex (n : UInt16) : readSegment (hex n.toNat) = some n := by
  have hne : hex n.toNat ≠ [] := Nat.toDigits_ne_nil
  have hall : (hex n.toNat).all isHex = true :=
    List.all_eq_true.mpr fun c hc => isHex_of_mem_hex hc
  have hlt := n.toNat_lt
  simp only [readSegment, ofHex_hex]
  rw [if_pos ⟨hne, hall, by omega⟩, UInt16.ofNat_toNat]

omit [Platform] in
theorem readScope_digits (n : UInt32) : readScope (digits n.toNat) = some n := by
  simp [readScope, readNat_digits, n.toNat_lt]

omit [Platform] in
theorem notMem_showIpv6 {ip : Ipv6Addr} {c : Char} (hc : isHex c = false) (hcolon : c ≠ ':') :
    c ∉ showIpv6 ip := by
  simp [showIpv6, List.intercalate, notMem_hex hc, hcolon]

omit [Platform] in
theorem notMem_showHost {ip : Ipv6Addr} {scopeId : UInt32} {c : Char} (hc : isHex c = false)
    (hdigit : c.isDigit = false) (hcolon : c ≠ ':') (hpercent : c ≠ '%') :
    c ∉ showHost ip scopeId := by
  unfold showHost
  split
  · exact notMem_showIpv6 hc hcolon
  · simp [List.intercalate, notMem_showIpv6 hc hcolon, notMem_digits hdigit, hpercent]

omit [Platform] in
theorem readIpv6_showIpv6 (ip : Ipv6Addr) : readIpv6 (showIpv6 ip) = some ip := by
  have hcolon : ∀ n, ':' ∉ hex n := fun n => notMem_hex (by decide)
  simp only [readIpv6, showIpv6]
  rw [List.splitOn_intercalate _ (by simp [hcolon]) (by simp)]
  simp [readSegment_hex]

omit [Platform] in
theorem readHost_showHost (ip : Ipv6Addr) (scopeId : UInt32) :
    readHost (showHost ip scopeId) = some (ip, scopeId) := by
  have hip : '%' ∉ showIpv6 ip := notMem_showIpv6 (by decide) (by decide)
  by_cases h : scopeId = 0
  · have hone : (List.intercalate ['%'] [showIpv6 ip]).splitOn '%' = [showIpv6 ip] :=
      List.splitOn_intercalate _ (by simpa using hip) (by simp)
    rw [List.intercalate_singleton] at hone
    simp only [readHost, showHost, if_pos h, hone]
    simp [readIpv6_showIpv6, h]
  · have hscope : '%' ∉ digits scopeId.toNat := notMem_digits (by decide)
    have htwo : (List.intercalate ['%'] [showIpv6 ip, digits scopeId.toNat]).splitOn '%'
        = [showIpv6 ip, digits scopeId.toNat] :=
      List.splitOn_intercalate _ (by simp [hip, hscope]) (by simp)
    simp only [readHost, showHost, if_neg h, htwo]
    simp [readIpv6_showIpv6, readScope_digits]

omit [Platform] in
theorem parseStd_v4 (ip : Ipv4Addr) (port : UInt16) :
    parseStd (displayStd (.v4 ip port)) = some (.v4 ip port) := by
  -- no dotted address begins with a bracket
  have hopen : '[' ∉ (display (.v4 ip port)).toList := by
    have hip : '[' ∉ showIp ip := notMem_showIp (by decide) (by decide)
    have hport : '[' ∉ digits port.toNat := notMem_digits (by decide)
    simp [display, List.intercalate, hip, hport]
  rw [displayStd, ← parse_display ip port, parseStd]
  split
  · rename_i rest h
    rw [h] at hopen
    exact absurd List.mem_cons_self hopen
  · rfl

omit [Platform] in
theorem parseStd_v6 (ip : Ipv6Addr) (port : UInt16) (flow scopeId : UInt32) :
    parseStd (displayStd (.v6 ip port flow scopeId)) = some (.v6 ip port 0 scopeId) := by
  have hhost : ']' ∉ showHost ip scopeId :=
    notMem_showHost (by decide) (by decide) (by decide) (by decide)
  have hport : ']' ∉ digits port.toNat := notMem_digits (by decide)
  simp only [parseStd, displayStd, String.toList_ofList]
  rw [List.splitOn_intercalate _ (by simp [hhost, hport]) (by simp)]
  simp [readHost_showHost, readPort_digits]

omit [Platform] in
theorem no_separatorStd (addr : SocketAddr) : '_' ∉ (displayStd addr).toList := by
  cases addr with
  | v4 ip port => exact no_separator ip port
  | v6 ip port flow scopeId =>
      have hhost : '_' ∉ showHost ip scopeId :=
        notMem_showHost (by decide) (by decide) (by decide) (by decide)
      have hport : '_' ∉ digits port.toNat := notMem_digits (by decide)
      simp [displayStd, List.intercalate, hhost, hport]

/-- The platform with these texts. -/
@[reducible] def platformStd : Platform where
  display := displayStd
  parse := parseStd
  debug _ := ""
  hash _ := 0
  ring := HashRing.sortedVec _

omit [Platform] in
theorem stdAddresses : @StdAddresses platformStd := by
  let _ : Platform := platformStd
  constructor
  · intro addr
    cases addr <;> rfl
  · intro addr h
    cases addr with
    | v4 ip port => exact parseStd_v4 ip port
    | v6 ip port flow scopeId =>
        cases h
        exact parseStd_v6 ip port 0 scopeId
  · exact no_separatorStd

/-- `[2001:db8:1:2:3:4:5:6%7]:8001`, with flow information. -/
def nodeV6 (flowinfo : UInt32) : GroupcachePeer :=
  ⟨.v6 ⟨0x2001, 0xdb8, 1, 2, 3, 4, 5, 6⟩ 8001 flowinfo 7⟩

end Concrete

omit [Platform] in
theorem faithful_sample :
    let _ : Platform := Concrete.platformStd
    FaithfulVNodes {Concrete.nodeV6 0, Concrete.node 8001} := by
  intro _
  refine (faithful_iff Concrete.stdAddresses _).mpr ?_
  rintro p (rfl | rfl) <;> rfl

omit [Platform] in
/-- **Flow information is lost.** A peer with some comes back from its vnodes
as another, which has the same vnodes. -/
theorem flowinfo_lost :
    let _ : Platform := Concrete.platformStd
    ¬ FaithfulVNodes Set.univ ∧
      (VNode.new (Concrete.nodeV6 5).socket 3).asPeer = .ok (Concrete.nodeV6 0) ∧
      VNode.new (Concrete.nodeV6 5).socket 3 = VNode.new (Concrete.nodeV6 0).socket 3 ∧
      Concrete.nodeV6 5 ≠ Concrete.nodeV6 0 := by
  intro _
  have hback := Concrete.stdAddresses.asPeer_new (Concrete.nodeV6 5) 3
  have hne : Concrete.nodeV6 5 ≠ Concrete.nodeV6 0 := by decide
  refine ⟨fun h => hne ?_, hback, Concrete.stdAddresses.new_eq_iff.mpr ⟨rfl, rfl⟩, hne⟩
  exact Except.ok.inj ((h.asPeer (Concrete.nodeV6 5) trivial 3).symm.trans hback)

end Groupcache
