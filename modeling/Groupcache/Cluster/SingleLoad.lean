import Groupcache.Cluster.Provenance

/-!
# One load for a key

The doc of `Groupcache` promises that one load in one process of an entire
replicated set of processes populates the cache. The nodes that agree on the
members agree on the owner of a key, so only the owner loads it
(`SameMembers.owner_eq`); the flight keeps it to one load at a time, and what
it loads is in the main cache before it ends. What is left is a call that
missed the main cache before the insert and enters the single-flight group
after the flight has ended: it opens another flight, which loads again
(`second_load`). In every run in which no call does that there is one load at
most (`single_load`).
-/

namespace Groupcache

open ConsistentHashing Transition

variable [Platform] {Value : Type} [ValueBounds Value] {c c' : Cluster Value}
  {a : Action Value} {U : Set GroupcachePeer} {M : Finset GroupcachePeer}
  {routing : GroupcachePeer → RoutingState} {key : String}

/-! ## Nodes that know the same members -/

/-- The tables of the members come from topology calls on them, which may
have overlapped, and each has the members and no other peer. -/
structure SameMembers (U : Set GroupcachePeer) (M : Finset GroupcachePeer)
    (routing : GroupcachePeer → RoutingState) : Prop where
  addressable : ∀ n ∈ M, n ∈ U
  reached : ∀ n ∈ M, ∃ t, Reaches Topology.step (fun _ a => a.peers ⊆ U) (Topology.start n) t ∧
    t.routing = routing n
  members : ∀ n ∈ M, (routing n).members n = M

namespace SameMembers

variable {n m : GroupcachePeer} {p q : GroupcachePeerWithClient}

/-- **One owner.** Two members that each name themselves for a key are one. -/
theorem owner_eq (h : SameMembers U M routing) (hU : Addressable U) (hn : n ∈ M) (hm : m ∈ M)
    (hlp : (routing n).lookupPeer key = .ok p) (hp : p.peer = n)
    (hlq : (routing m).lookupPeer key = .ok q) (hq : q.peer = m) : n = m := by
  by_contra hne
  obtain ⟨t, ht, hrt⟩ := h.reached n hn
  obtain ⟨s, hs, hrs⟩ := h.reached m hm
  obtain ⟨i, C, hC⟩ := Topology.reaches_known hU (h.addressable n hn) ht
  obtain ⟨j, D, hD⟩ := Topology.reaches_known hU (h.addressable m hm) hs
  rw [hrt] at C hC
  rw [hrs] at D hD
  -- each of the two is a peer that the other knows
  have hmn : m ∈ (routing n).peers := by
    have := RoutingState.mem_members.mp (h.members n hn ▸ hm)
    exact this.resolve_left (Ne.symm hne)
  have hnm : n ∈ (routing m).peers := by
    have := RoutingState.mem_members.mp (h.members m hm ▸ hn)
    exact this.resolve_left hne
  obtain ⟨v, hv, hvp, hpU, _⟩ := C.of_lookupPeer hU hlp
  obtain ⟨w, hw, hwq, hqU, _⟩ := D.of_lookupPeer hU hlq
  rw [hp] at hvp hpU
  rw [hq] at hwq hqU
  have hvw := C.get_agree D hU.placement hv hpU hvp (hD n hnm).2 hw hqU hwq (hC m hmn).2
  exact hne (hU.placement.disjoint n hpU m hqU v hvp (hvw ▸ hwq))

/-- A member forwards to a member. -/
theorem client_mem (h : SameMembers U M routing) (hn : n ∈ M)
    (hl : (routing n).lookupPeer key = .ok p) {client : GroupcachePeerClient}
    (hc : p.client = some client) : client.peer ∈ M := by
  obtain ⟨t, ht, hrt⟩ := h.reached n hn
  have hdials : t.Dials := ht.invariant (I := Topology.Dials) .start fun _ _ _ hd _ hs => hd.step hs
  rw [RoutingState.lookupPeer_client hl] at hc
  rw [hdials.clients _ _ (hrt ▸ hc), ← h.members n hn]
  exact RoutingState.mem_members.mpr (.inr (Finmap.mem_of_lookup_eq_some hc))

end SameMembers

/-! ## Runs in which nothing fails -/

/-- The application calls `get` on members and does not call `remove`, the
tables do not change, every load succeeds, every request is answered with a
value, and nothing is evicted from a main cache. -/
def Undisturbed (M : Finset GroupcachePeer) (c : Cluster Value) : Action Value → Prop
  | .get n _ => n ∈ M
  | .remove .. => False
  | .runFlight f => ∀ fl request call result, c.flights[f]? = some fl →
      fl.phase = .awaiting request → c.gets[request]? = some call →
      call.phase = .returned result →
        ∃ loaded : Loaded Value, loadRemotely (respondGet result) = some (.ok loaded)
  | .load _ result => ∃ value, result = .ok value
  | .failGet .. => False
  | .evictMain .. => False
  | .topology .. => False
  | _ => True

/-- Every call for the key that opens a flight on the owner finds the main
cache without the key. -/
def OpensOnMiss (key : String) (c : Cluster Value) : Action Value → Prop
  | .runGet i => ∀ g peer, c.gets[i]? = some g → g.key = key → g.phase = .deduping peer →
      peer.peer = g.node → (c.node g.node).singleFlightGroup key = none →
      (c.node g.node).mainCache key = none
  | _ => True

/-! ## What such a run keeps -/

/-- A flight on a member, for the peer that the member's table names. It has
a load only on the owner, and once its load has been inserted the main cache
has the key. -/
structure Flight.Steady (M : Finset GroupcachePeer) (routing : GroupcachePeer → RoutingState)
    (c : Cluster Value) (fl : Flight Value) : Prop where
  node : fl.node ∈ M
  lookup : (routing fl.node).lookupPeer fl.key = .ok fl.peer
  owner : fl.load ≠ none → fl.peer.peer = fl.node
  stored : fl.load ≠ none → (∃ l, fl.phase = .loading l) ∨ (∃ x, fl.phase = .insertMain x) ∨
    (c.node fl.node).mainCache fl.key ≠ none
  reached : fl.phase ≠ .remoteFailed

structure Cluster.Steady (M : Finset GroupcachePeer) (routing : GroupcachePeer → RoutingState)
    (c : Cluster Value) : Prop where
  table : ∀ n, (c.node n).topology.routing = routing n
  removes : ∀ (i : Nat) (r : RemoveCall), c.removes[i]? ≠ some r
  gets : ∀ (i : Nat) (g : GetCall Value), c.gets[i]? = some g → g.node ∈ M ∧
    ∀ peer, g.phase = .deduping peer → (routing g.node).lookupPeer g.key = .ok peer
  flights : ∀ (f : Nat) (fl : Flight Value), c.flights[f]? = some fl → fl.Steady M routing c

/-- What the main caches have stays there. -/
theorem Cluster.Steady.main_stays (h : c.Steady M routing) (hguard : Undisturbed M c a)
    (m : Move c a c') {n : GroupcachePeer} (hmain : (c.node n).mainCache key ≠ none) :
    (c'.node n).mainCache key ≠ none := by
  rcases m.main_cases n key with hsame | ⟨f, fl, loaded, -, -, -, -, -, hins⟩ | ⟨-, hevict⟩
  · rwa [hsame]
  · simp [hins]
  · rcases hevict with rfl | ⟨i, r, _, hr, _⟩
    · exact absurd hguard id
    · exact absurd hr (h.removes i r)

omit [ValueBounds Value] in
theorem Flight.Steady.mono {fl : Flight Value} (h : fl.Steady M routing c)
    (hmain : (c.node fl.node).mainCache fl.key ≠ none →
      (c'.node fl.node).mainCache fl.key ≠ none) : fl.Steady M routing c' where
  node := h.node
  lookup := h.lookup
  owner := h.owner
  stored hl := (h.stored hl).imp_right fun h => h.imp_right hmain
  reached := h.reached

omit [ValueBounds Value] in
/-- A flight that goes on without a load to another phase. -/
theorem Flight.Steady.unloaded {fl : Flight Value} (h : fl.Steady M routing c)
    (hload : fl.load = none) {request : Option Nat} {phase : FlightPhase Value}
    (hp : phase ≠ .remoteFailed) : ({ fl with request, phase }).Steady M routing c where
  node := h.node
  lookup := h.lookup
  owner hl := absurd hload hl
  stored hl := absurd hload hl
  reached := hp

omit [ValueBounds Value] in
theorem Cluster.Steady.start : (Cluster.start routing : Cluster Value).Steady M routing where
  table _ := rfl
  removes i r hr := by simp [Cluster.start] at hr
  gets i g hg := by simp [Cluster.start] at hg
  flights f fl hf := by simp [Cluster.start] at hf

theorem Cluster.Steady.step_flights (h : c.Steady M routing) (hinv : c.Inv)
    (hguard : Undisturbed M c a) (m : Move c a c') (f : Nat) (fl : Flight Value)
    (hfl : c'.flights[f]? = some fl) : fl.Steady M routing c' := by
  have hold : ∀ {fl : Flight Value}, c.flights[f]? = some fl → fl.Steady M routing c' :=
    fun hfl => (h.flights f _ hfl).mono (h.main_stays hguard m)
  rcases m.flight_becomes hfl with hsame | ⟨i, call, _, hcall, hp, _, _, hnew⟩ | ⟨x, hx, hnext⟩
  · exact hold hsame
  · obtain ⟨hn, hl⟩ := h.gets i call hcall
    rw [hnew]
    exact ⟨hn, hl _ hp, fun hl => absurd rfl hl, fun hl => absurd rfl hl, nofun⟩
  · have hx' := hold hx
    have hph := (hinv.flights f x hx).phase
    unfold Flight.PhaseOk at hph
    cases hnext with
    | alone hs =>
        cases hs with
        | unreachable hp =>
            rw [hp] at hph
            exact hx'.unloaded hph.2 nofun
        | answered hp =>
            rw [hp] at hph
            exact hx'.unloaded hph.2 nofun
        | refused hp hcall hret hresp =>
            -- no request fails
            obtain ⟨loaded, hok⟩ := hguard x _ _ _ hx hp hcall hret
            cases hok.symm.trans hresp
    | lost => exact absurd hguard id
    | startLoad hp =>
        rcases hp with ⟨_, hown⟩ | hp
        · exact ⟨hx'.node, hx'.lookup, fun _ => hown, fun _ => .inl ⟨_, rfl⟩, nofun⟩
        · exact absurd hp hx'.reached
    | sendGet hp =>
        rw [hp] at hph
        exact hx'.unloaded hph.2 nofun
    | @finishLoad l result hp =>
        obtain ⟨value, rfl⟩ := hguard
        rw [hp] at hph
        have hown : x.peer.peer = x.node := hx'.owner (by rw [hph.1]; nofun)
        have hafter : x.afterLoad l (.ok value) = .insertMain { value, load := l } :=
          if_pos hown
        rw [hafter]
        exact ⟨hx'.node, hx'.lookup, hx'.owner, fun _ => .inr (.inl ⟨_, rfl⟩), nofun⟩
    | insertMain hp hins =>
        exact ⟨hx'.node, hx'.lookup, hx'.owner, fun _ => .inr (.inr (by rw [hins]; nofun)), nofun⟩
    | insertHot hp =>
        rw [hp] at hph
        exact hx'.unloaded hph.1 nofun
    | endFlight hp =>
        refine ⟨hx'.node, hx'.lookup, hx'.owner, fun hl => .inr (.inr ?_), nofun⟩
        rcases hx'.stored hl with ⟨l, hl⟩ | ⟨y, hy⟩ | hmain
        · cases hp.symm.trans hl
        · cases hp.symm.trans hy
        · exact hmain

/-- **The step**, while nothing fails. -/
theorem Cluster.Steady.step (h : c.Steady M routing) (hsame : SameMembers U M routing)
    (hinv : c.Inv) (hguard : Undisturbed M c a) (m : Move c a c') : c'.Steady M routing where
  table n := by
    rcases m.topology_cases n with heq | ⟨action, rfl, _⟩
    · rw [heq]
      exact h.table n
    · exact absurd hguard id
  removes i r hr := by
    rcases m.remove_cases hr with ⟨old, hold, _⟩ | ⟨rfl, _⟩ | ⟨j, caller, _, _, hcaller, _⟩
    · exact h.removes i old hold
    · exact hguard
    · exact h.removes j caller hcaller
  gets i g hg := by
    refine ⟨?_, fun peer hp => ?_⟩
    · rcases m.get_cases hg with ⟨old, hold, hn, _⟩ | rfl | ⟨f, fl, client, hf, _, hc, hn, _⟩
      · rw [hn]
        exact (h.gets i old hold).1
      · exact hguard
      · have hfl := h.flights f fl hf
        rw [hn]
        exact hsame.client_mem hfl.node hfl.lookup hc
    · rcases m.deduping_cases hg hp with hg | hl
      · exact (h.gets i g hg).2 peer hp
      · rw [← h.table]
        exact hl
  flights := h.step_flights hinv hguard m

/-! ## One load -/

/-- There is one load for the key at most, and a flight of the owner's that
is about to load finds no value in the main cache. -/
structure Cluster.Once (key : String) (c : Cluster Value) : Prop where
  opened : ∀ (f : Nat) (fl : Flight Value), c.flights[f]? = some fl → fl.key = key →
    fl.phase = .opened → fl.peer.peer = fl.node → (c.node fl.node).mainCache key = none
  loads : ∀ (i j : Nat) (x y : LoadCall Value), c.loads[i]? = some x → c.loads[j]? = some y →
    x.key = key → y.key = key → i = j

omit [ValueBounds Value] in
theorem Cluster.Once.start : (Cluster.start routing : Cluster Value).Once key where
  opened f fl hf := by simp [Cluster.start] at hf
  loads i j x y hx := by simp [Cluster.start] at hx

/-- A flight of the owner's that is about to load is the first for its key. -/
theorem Cluster.Once.no_load (h : c.Once key) (hU : Addressable U)
    (hsame : SameMembers U M routing) (hinv : c.Inv) (hsteady : c.Steady M routing) {f : Nat}
    {fl : Flight Value} (hf : c.flights[f]? = some fl) (hk : fl.key = key)
    (hp : fl.phase = .opened) (hown : fl.peer.peer = fl.node) {l : Nat} {load : LoadCall Value}
    (hl : c.loads[l]? = some load) : load.key ≠ key := by
  intro hlk
  obtain ⟨fl₀, hf₀, hload₀, hn₀, hk₀⟩ := hinv.loads l load hl
  have hfl := hsteady.flights f fl hf
  have hfl₀ := hsteady.flights _ fl₀ hf₀
  have hne : fl₀.load ≠ none := by simp [hload₀]
  have hkk : fl₀.key = fl.key := (hk₀.trans hlk).trans hk.symm
  -- both flights are on the owner of the key
  have hnode : fl.node = fl₀.node :=
    hsame.owner_eq hU hfl.node hfl₀.node hfl.lookup hown (hkk ▸ hfl₀.lookup) (hfl₀.owner hne)
  have hrunning : (∀ result, fl₀.phase ≠ .ended result) → fl₀.phase = .opened := by
    intro hend
    obtain ⟨_, rfl⟩ := hinv.flight_eq hf₀ hf hnode.symm hkk hend (by simp [hp])
    exact hp
  -- the flight of the earlier load is this one, or its value is in the main cache
  rcases hfl₀.stored hne with ⟨l', hloading⟩ | ⟨x, hinsert⟩ | hmain
  · cases hloading.symm.trans (hrunning (by simp [hloading]))
  · cases hinsert.symm.trans (hrunning (by simp [hinsert]))
  · rw [hkk, hk, ← hnode] at hmain
    exact hmain (h.opened f fl hf hk hp hown)

/-- **One load**, one step. -/
theorem Cluster.Once.step (h : c.Once key) (hU : Addressable U) (hsame : SameMembers U M routing)
    (hinv : c.Inv) (hsteady : c.Steady M routing) (hmiss : OpensOnMiss key c a)
    (m : Move c a c') : c'.Once key where
  opened f fl hf hk hp hown := by
    rcases m.flight_becomes hf with
      hold | ⟨i, g, rfl, hg, hgp, hnone, _, hnew⟩ | ⟨_, _, hnext⟩
    · have hmain := h.opened f fl hold hk hp hown
      rcases m.main_cases fl.node key with heq | ⟨f₁, fl₁, x, -, hf₁, hp₁, hn₁, hk₁, -⟩ | ⟨hnone, -⟩
      · rw [heq, hmain]
      · -- only the flight itself could have inserted the value
        obtain ⟨_, rfl⟩ := hinv.flight_eq hf₁ hold hn₁ (hk₁.trans hk.symm) (by simp [hp₁])
          (by simp [hp])
        cases hp.symm.trans hp₁
      · exact hnone
    · have hn : fl.node = g.node := by rw [hnew]
      have hgk : g.key = key := by rw [← hk, hnew]
      have hmain := hmiss g fl.peer hg hgk hgp (hown.trans hn) (hgk ▸ hnone)
      rcases m.main_cases fl.node key with heq | ⟨_, _, _, hact, _⟩ | ⟨hnone, -⟩
      · rw [heq, hn, hmain]
      · cases hact
      · exact hnone
    · exact absurd hp hnext.not_opened
  loads i j x y hx hy hxk hyk := by
    have hfirst : ∀ {l : Nat} {load : LoadCall Value}, c.loads[l]? = some load →
        load.key = key → ∀ (f : Nat) (fl : Flight Value), c.flights[f]? = some fl → fl.key = key →
          ¬ (fl.phase = .opened ∧ fl.peer.peer = fl.node ∨ fl.phase = .remoteFailed) := by
      rintro l load hl hlk f fl hf hk (⟨hp, hown⟩ | hp)
      · exact h.no_load hU hsame hinv hsteady hf hk hp hown hl hlk
      · exact (hsteady.flights f fl hf).reached hp
    rcases m.loads_cases hx with ⟨x₀, hx₀, hxk₀⟩ | ⟨hi, f, fl, hf, hfk, hp⟩
    · rcases m.loads_cases hy with ⟨y₀, hy₀, hyk₀⟩ | ⟨hj, f, fl, hf, hfk, hp⟩
      · exact h.loads i j x₀ y₀ hx₀ hy₀ (hxk₀.symm.trans hxk) (hyk₀.symm.trans hyk)
      · exact absurd hp (hfirst hx₀ (hxk₀.symm.trans hxk) f fl hf (hfk.symm.trans hyk))
    · rcases m.loads_cases hy with ⟨y₀, hy₀, hyk₀⟩ | ⟨hj, _⟩
      · exact absurd hp (hfirst hy₀ (hyk₀.symm.trans hyk) f fl hf (hfk.symm.trans hxk))
      · rw [hi, hj]

/-- **One load per key for the whole cluster**, in runs in which no call
opens a flight on the owner that has the value already. -/
theorem single_load (hU : Addressable U) (hsame : SameMembers U M routing)
    (h : Reaches Cluster.step (fun c a => Undisturbed M c a ∧ OpensOnMiss key c a)
      (.start routing) c) : (c.loads.filter fun load => load.key = key).length ≤ 1 := by
  have hinv : c.Inv ∧ c.Steady M routing ∧ c.Once key := by
    refine h.invariant (I := fun c => c.Inv ∧ c.Steady M routing ∧ c.Once key)
      ⟨.start routing, .start, .start⟩ ?_
    rintro s t a ⟨hinv, hsteady, honce⟩ ⟨hguard, hmiss⟩ hs
    have m := Cluster.step_move hs
    exact ⟨hinv.step hs, hsteady.step hsame hinv hguard m,
      honce.step hU hsame hinv hsteady hmiss m⟩
  obtain ⟨_, _, honce⟩ := hinv
  refine Table.length_filter_le_one fun i j x y hx hy hxk hyk => ?_
  exact honce.loads i j x y hx hy (of_decide_eq_true hxk) (of_decide_eq_true hyk)

/-! ## Two nodes -/

namespace Concrete

omit [Platform] in
theorem sameMembers_paired :
    let _ : Platform := platform [node 8001, node 8002]
    SameMembers {p | p ∈ [8001, 8002].map node} {node 8001, node 8002} paired := by
  intro _
  constructor
  · intro n hn
    rcases Finset.mem_insert.mp hn with rfl | hn
    · decide
    · obtain rfl := Finset.mem_singleton.mp hn
      decide
  · intro n hn
    rcases Finset.mem_insert.mp hn with rfl | hn
    · exact ⟨_, .head (a := .begin (.addPeer (node 8002)) fun _ => .connected 0)
        (by simp [TopologyAction.peers, TopologyOp.peers]) rfl <|
        .head (a := .advance 0 [] []) (Set.empty_subset _) rfl <|
        .head (a := .advance 0 [] []) (Set.empty_subset _) rfl <|
        .single (a := .advance 0 [] []) (Set.empty_subset _) rfl, rfl⟩
    · obtain rfl := Finset.mem_singleton.mp hn
      exact ⟨_, .head (a := .begin (.addPeer (node 8001)) fun _ => .connected 0)
        (by simp [TopologyAction.peers, TopologyOp.peers]) rfl <|
        .head (a := .advance 0 [] []) (Set.empty_subset _) rfl <|
        .head (a := .advance 0 [] []) (Set.empty_subset _) rfl <|
        .single (a := .advance 0 [] []) (Set.empty_subset _) rfl, rfl⟩
  · intro n hn
    rcases Finset.mem_insert.mp hn with rfl | hn
    · rfl
    · obtain rfl := Finset.mem_singleton.mp hn
      exact Finset.pair_comm _ _

end Concrete

omit [Platform] [ValueBounds Value] in
/-- The owner loads the value while the other node asks it for the value. -/
theorem single_load_sample :
    let _ : Platform := Concrete.platform [Concrete.node 8001, Concrete.node 8002]
    let _ : ValueBounds UInt8 := Concrete.messagePack
    ∃ c : Cluster UInt8,
      (c.loads.filter fun load => load.key = "127.0.0.1:8002_0").length ≤ 1 ∧
        c.gets.map GetCall.node =
          [Concrete.node 8002, Concrete.node 8001, Concrete.node 8002] := by
  intro _ _
  obtain ⟨hlA, hlB⟩ := Concrete.lookupPeer_paired
  have hA : Concrete.node 8001 ∈ ({Concrete.node 8001, Concrete.node 8002} : Finset _) := by decide
  have hB : Concrete.node 8002 ∈ ({Concrete.node 8001, Concrete.node 8002} : Finset _) := by decide
  refine ⟨_, single_load (Concrete.addressable_nodes [8001, 8002] (by decide))
    Concrete.sameMembers_paired <|
    .head (a := (.get (Concrete.node 8002) "127.0.0.1:8002_0" : Action UInt8)) ⟨hB, trivial⟩ rfl <|
    .head (a := .runGet 0) ⟨trivial, ?_⟩ rfl <|
    .head (a := .runGet 0) ⟨trivial, ?_⟩ rfl <|
    .head (a := .runGet 0) ⟨trivial, ?_⟩ rfl <|
    .head (a := .runGet 0) ⟨trivial, ?_⟩ (Cluster.step_routing rfl rfl hlB) <|
    .head (a := .runGet 0) ⟨trivial, ?_⟩ rfl <|
    .head (a := .runFlight 0) ⟨?_, trivial⟩ rfl <|
    .head (a := .get (Concrete.node 8001) "127.0.0.1:8002_0") ⟨hA, trivial⟩ rfl <|
    .head (a := .runGet 1) ⟨trivial, ?_⟩ rfl <|
    .head (a := .runGet 1) ⟨trivial, ?_⟩ rfl <|
    .head (a := .runGet 1) ⟨trivial, ?_⟩ rfl <|
    .head (a := .runGet 1) ⟨trivial, ?_⟩ (Cluster.step_routing rfl rfl hlA) <|
    .head (a := .runGet 1) ⟨trivial, ?_⟩ rfl <|
    .single (a := .runFlight 1) ⟨?_, trivial⟩ rfl, rfl⟩
  -- the main caches are empty throughout, and no flight has an answer yet
  case refine_6 | refine_12 =>
    intro fl request call result hf hp
    cases hf
    cases hp
  all_goals
    intro g peer hg hk hp hown hnone
    cases hg
    rfl

omit [Platform] [ValueBounds Value] in
/-- **A second load.** Two calls miss the main cache; one of them opens a
flight that loads and inserts the value and ends, and then the other opens
another flight, which loads again. -/
theorem second_load :
    let _ : Platform := Concrete.platform [Concrete.node 8001]
    let _ : ValueBounds UInt8 := Concrete.messagePack
    SameMembers {p | p ∈ [8001].map Concrete.node} {Concrete.node 8001} .withLocalPeer ∧
      ∃ c : Cluster UInt8,
        Reaches Cluster.step (Undisturbed {Concrete.node 8001}) (.start .withLocalPeer) c ∧
          (c.loads.filter fun load => load.key = "key").length = 2 := by
  intro _ _
  have hl : (RoutingState.withLocalPeer (Concrete.node 8001)).lookupPeer "key"
      = .ok { peer := Concrete.node 8001, client := none } := Concrete.lookupPeer_alone 8001 "key"
  have hA : Concrete.node 8001 ∈ ({Concrete.node 8001} : Finset _) := by decide
  constructor
  · constructor
    · intro n hn
      obtain rfl := Finset.mem_singleton.mp hn
      decide
    · intro n hn
      exact ⟨Topology.start n, .refl, rfl⟩
    · intro n hn
      obtain rfl := Finset.mem_singleton.mp hn
      rfl
  · refine ⟨_, .head (a := .get (Concrete.node 8001) "key") hA rfl <|
      .head (a := .get (Concrete.node 8001) "key") hA rfl <|
      .head (a := .runGet 0) trivial rfl <|
      .head (a := .runGet 0) trivial rfl <|
      .head (a := .runGet 0) trivial rfl <|
      .head (a := .runGet 0) trivial (Cluster.step_routing rfl rfl hl) <|
      .head (a := .runGet 1) trivial rfl <|
      .head (a := .runGet 1) trivial rfl <|
      .head (a := .runGet 1) trivial rfl <|
      .head (a := .runGet 1) trivial (Cluster.step_routing rfl rfl hl) <|
      .head (a := .runGet 0) trivial rfl <|
      .head (a := .runFlight 0) ?_ rfl <|
      .head (a := .load 0 (.ok 7)) ⟨7, rfl⟩ rfl <|
      .head (a := .runFlight 0) ?_ rfl <|
      .head (a := .runFlight 0) ?_ rfl <|
      .head (a := .runGet 1) trivial rfl <|
      .single (a := .runFlight 1) ?_ rfl, rfl⟩
    all_goals
      intro fl request call result hf hp
      cases hf
      cases hp

end Groupcache
