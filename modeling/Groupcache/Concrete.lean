import Groupcache.Routing

/-!
# A platform

Routing is stated over any `Platform`. This one can be computed with: IPv4
addresses as `std` prints and parses them, a ring kept as a sorted vector,
and a hash that numbers the vnodes of a given list of peers in the order of
the list. Those peers are then `Addressable` (`Concrete.addressable`).
IPv6 addresses are not printed here, so no IPv6 peer is addressable on it.
-/

namespace Groupcache.Concrete

open ConsistentHashing

/-! ## Dotted addresses -/

/-- An octet or a port, in decimal. -/
def digits (n : Nat) : List Char := Nat.toDigits 10 n

def readNat (cs : List Char) : Option Nat :=
  if cs ≠ [] ∧ cs.all Char.isDigit then some (Nat.ofDigitChars 10 cs 0) else none

def readOctet (cs : List Char) : Option UInt8 :=
  (readNat cs).bind fun n => if n < 256 then some (UInt8.ofNat n) else none

def readPort (cs : List Char) : Option UInt16 :=
  (readNat cs).bind fun n => if n < 65536 then some (UInt16.ofNat n) else none

/-- `a.b.c.d` -/
def showIp (ip : Ipv4Addr) : List Char :=
  List.intercalate ['.']
    [digits ip.a.toNat, digits ip.b.toNat, digits ip.c.toNat, digits ip.d.toNat]

/-- `a.b.c.d:port` -/
def display : SocketAddr → String
  | .v4 ip port => String.ofList (List.intercalate [':'] [showIp ip, digits port.toNat])
  | .v6 .. => ""

def parse (s : String) : Option SocketAddr :=
  match s.toList.splitOn ':' with
  | [host, port] =>
      match host.splitOn '.' with
      | [a, b, c, d] => do
          let ip : Ipv4Addr := ⟨← readOctet a, ← readOctet b, ← readOctet c, ← readOctet d⟩
          return .v4 ip (← readPort port)
      | _ => none
  | _ => none

theorem isDigit_of_mem_digits {n : Nat} {c : Char} (h : c ∈ digits n) : c.isDigit = true :=
  Nat.isDigit_of_mem_toDigits (by decide) (by decide) h

theorem readNat_digits (n : Nat) : readNat (digits n) = some n := by
  have hne : digits n ≠ [] := Nat.toDigits_ne_nil
  have hall : (digits n).all Char.isDigit = true :=
    List.all_eq_true.mpr fun c hc => isDigit_of_mem_digits hc
  simp only [readNat, hne, hall, ne_eq, not_false_eq_true, and_self, if_true]
  rw [digits, Nat.ofDigitChars_ten_toDigits]

theorem readOctet_digits (n : UInt8) : readOctet (digits n.toNat) = some n := by
  simp [readOctet, readNat_digits, n.toNat_lt]

theorem readPort_digits (n : UInt16) : readPort (digits n.toNat) = some n := by
  simp [readPort, readNat_digits, n.toNat_lt]

/-- No separator is a digit. -/
theorem notMem_digits {n : Nat} {c : Char} (hc : c.isDigit = false) : c ∉ digits n := by
  intro h
  rw [isDigit_of_mem_digits h] at hc
  cases hc

theorem notMem_showIp {ip : Ipv4Addr} {c : Char} (hc : c.isDigit = false) (hdot : c ≠ '.') :
    c ∉ showIp ip := by
  simp [showIp, List.intercalate, notMem_digits hc, hdot]

theorem parse_display (ip : Ipv4Addr) (port : UInt16) :
    parse (display (.v4 ip port)) = some (.v4 ip port) := by
  have hcolon : ∀ l ∈ [showIp ip, digits port.toNat], ':' ∉ l := by
    intro l hl
    rcases List.mem_pair.mp hl with rfl | rfl
    · exact notMem_showIp (by decide) (by decide)
    · exact notMem_digits (by decide)
  have hdot : ∀ l ∈ [digits ip.a.toNat, digits ip.b.toNat, digits ip.c.toNat, digits ip.d.toNat],
      '.' ∉ l := by
    intro l hl
    simp only [List.mem_cons, List.not_mem_nil, or_false] at hl
    rcases hl with rfl | rfl | rfl | rfl <;> exact notMem_digits (by decide)
  simp only [parse, display, String.toList_ofList]
  rw [List.splitOn_intercalate _ hcolon (by simp)]
  simp only [showIp]
  rw [List.splitOn_intercalate _ hdot (by simp)]
  simp [readOctet_digits, readPort_digits]

theorem no_separator (ip : Ipv4Addr) (port : UInt16) :
    '_' ∉ (display (.v4 ip port)).toList := by
  have hip : '_' ∉ showIp ip := notMem_showIp (by decide) (by decide)
  have hport : '_' ∉ digits port.toNat := notMem_digits (by decide)
  simp [display, List.intercalate, hip, hport]

/-! ## A table of vnodes -/

/-- The texts of the vnodes of the peers. -/
def table (peers : List GroupcachePeer) : List String :=
  peers.flatMap fun p => (List.range 40).map fun i => display p.socket ++ "_" ++ i.repr

/-- The platform with the given hash. -/
@[reducible] def hashing (hash : String → UInt64) : Platform where
  display := display
  parse := parse
  debug _ := ""
  hash := hash
  ring := HashRing.sortedVec _

/-- The platform whose hash numbers the vnodes of `peers`. -/
@[reducible] def platform (peers : List GroupcachePeer) : Platform :=
  hashing fun text => UInt64.ofNat ((table peers).idxOf text)

/-- An IPv4 peer. -/
def IsV4 (p : GroupcachePeer) : Prop :=
  ∃ ip port, p.socket = .v4 ip port

theorem length_table (peers : List GroupcachePeer) : (table peers).length = 40 * peers.length := by
  induction peers with
  | nil => rfl
  | cons p ps ih =>
      simp only [table, List.flatMap_cons, List.length_append, List.length_map, List.length_range,
        List.length_cons] at ih ⊢
      omega

/-- **IPv4 peers are addressable** where the hash tells their vnodes apart. -/
theorem addressable_of_injOn {hash : String → UInt64} {peers : List GroupcachePeer}
    (hv4 : ∀ p ∈ peers, IsV4 p) (hinj : Set.InjOn hash {text | text ∈ table peers}) :
    @Addressable (hashing hash) {p | p ∈ peers} := by
  let _ : Platform := hashing hash
  constructor
  · intro p hp
    obtain ⟨ip, port, h⟩ := hv4 p hp
    rw [h]
    exact parse_display ip port
  · intro p hp
    obtain ⟨ip, port, h⟩ := hv4 p hp
    rw [h]
    exact no_separator ip port
  · intro p hp q hq v hv w hw hvw
    have hmem : ∀ p ∈ peers, ∀ v ∈ vnodes p, v.addrId ∈ table peers := by
      intro p hp v hv
      obtain ⟨i, hi, rfl⟩ := VNode.mem_vnodes.mp hv
      exact List.mem_flatMap.mpr ⟨p, hp, List.mem_map.mpr ⟨i, List.mem_range.mpr hi, rfl⟩⟩
    have htext := hinj (hmem p hp v hv) (hmem q hq w hw) hvw
    cases v
    cases w
    exact congrArg VNode.mk htext

/-- The peers of the list are addressable where the hash numbers their vnodes. -/
theorem addressable (peers : List GroupcachePeer) (hv4 : ∀ p ∈ peers, IsV4 p)
    (hsize : peers.length < 2 ^ 32) : @Addressable (platform peers) {p | p ∈ peers} := by
  refine addressable_of_injOn hv4 fun text htext text' htext' heq => ?_
  have hlt : ∀ text ∈ table peers, (table peers).idxOf text < 2 ^ 64 := by
    intro text htext
    have := List.idxOf_lt_length_of_mem htext
    rw [length_table] at this
    omega
  have h := congrArg UInt64.toNat heq
  simp only [UInt64.toNat_ofNat', Nat.mod_eq_of_lt (hlt _ htext),
    Nat.mod_eq_of_lt (hlt _ htext')] at h
  exact (List.idxOf_inj htext).mp h

/-! ## Nodes on one host -/

/-- `127.0.0.1:port` -/
def node (port : UInt16) : GroupcachePeer := ⟨.v4 ⟨127, 0, 0, 1⟩ port⟩

theorem addressable_nodes (ports : List UInt16) (hsize : ports.length < 2 ^ 32) :
    @Addressable (platform (ports.map node)) {p | p ∈ ports.map node} := by
  refine addressable _ (fun p hp => ?_) (by simpa using hsize)
  obtain ⟨port, _, rfl⟩ := List.mem_map.mp hp
  exact ⟨_, port, rfl⟩

/-- A node that knows no other owns every key. -/
theorem lookupPeer_own {ports : List UInt16} (hsize : ports.length < 2 ^ 32) {port : UInt16}
    (hport : port ∈ ports) (key : String) :
    let _ : Platform := platform (ports.map node)
    (RoutingState.withLocalPeer (node port)).lookupPeer key
      = .ok { peer := node port, client := none } := by
  intro _
  have hU := addressable_nodes ports hsize
  have hme : node port ∈ {p | p ∈ ports.map node} := List.mem_map_of_mem hport
  obtain ⟨_, p, _, _, _, hpos, hl⟩ :=
    (RoutingState.Copies.withLocalPeer hU hme).lookupPeer hU hme (by simp) key
  have hp : p = node port := by
    by_contra hne
    rw [Function.update_of_ne hne] at hpos
    exact Nat.lt_irrefl 0 hpos
  rw [hl, hp]
  rfl

theorem lookupPeer_alone (port : UInt16) (key : String) :
    let _ : Platform := platform [node port]
    (RoutingState.withLocalPeer (node port)).lookupPeer key
      = .ok { peer := node port, client := none } :=
  @lookupPeer_own [port] (by simp) port List.mem_cons_self key

/-! ## A hash to compute with

Looking a text up in the table of all vnodes takes long where whole runs are
evaluated; this hash reads the text once. -/

/-- The low halves of the bytes of the text. -/
def checksum (text : String) : UInt64 :=
  UInt64.ofNat (text.toByteArray.data.toList.foldl (fun sum byte => sum * 16 + byte.toNat % 16) 0)

/-- The platform that hashes with `checksum`. -/
@[reducible] def host : Platform := hashing checksum

theorem addressable_host : @Addressable host {p | p ∈ [8001, 8002].map node} := by
  refine addressable_of_injOn (fun p hp => ?_) ?_
  · obtain ⟨port, _, rfl⟩ := List.mem_map.mp hp
    exact ⟨_, port, rfl⟩
  · have hnodup : ((table ([8001, 8002].map node)).map checksum).Nodup := by decide +kernel
    exact fun text htext text' htext' => List.inj_on_of_nodup_map hnodup htext htext'

/-- Both of its nodes. -/
theorem mem_host : ∀ n ∈ ({node 8001, node 8002} : Finset GroupcachePeer),
    n ∈ {p | p ∈ [8001, 8002].map node} := by
  decide

end Groupcache.Concrete
