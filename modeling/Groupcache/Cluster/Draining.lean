import Groupcache.Cluster.Forwarding
import Groupcache.Cluster.Outcomes
import Groupcache.Cluster.RemovePath
import Groupcache.Cluster.Weights

/-!
# What has been called comes to an end

Nodes wait for each other: a call for its flight, a flight for the call it has
made at another node, a `remove` for the next one. As each request goes to a
node nearer to the key, these chains end, so while a call for a key has not
returned some piece of the work for that key can go on, or the loader is at
it. And there is only so much work: what is left of a call is bounded by the
number of peers that are nearer to the key than its node
(`everything_drains`).
-/

namespace Groupcache

open Transition

variable [Platform] {Value : Type} [ValueBounds Value] {U : Set GroupcachePeer}
  {peers : Finset GroupcachePeer} {c c' : Cluster Value} {a : Action Value} {key : String}

/-! ## Work -/

/-- Going on with what has been called; not new calls, evictions or topology
calls. -/
def Action.isWork : Action Value → Bool
  | .runGet _ => true
  | .runFlight _ => true
  | .runRemove _ => true
  | .load .. => true
  | .failGet .. => true
  | .failRemove .. => true
  | _ => false

def Action.isCall : Action Value → Bool
  | .get .. => true
  | .remove .. => true
  | _ => false

/-- A bound on how often a request for the key can be forwarded from a node. -/
def hops (peers : Finset GroupcachePeer) (key : String) (n : GroupcachePeer) : Nat :=
  Descent.rank peers (distance key) n

/-- What is left to do of a call from which a request can be forwarded so
often, the calls at other nodes included. -/
def GetPhase.work (hops : Nat) : GetPhase Value → Nat
  | .requested => 13 * hops + 13
  | .called => 13 * hops + 12
  | .mainLookup => 13 * hops + 11
  | .hotLookup => 13 * hops + 10
  | .routing => 13 * hops + 9
  | .deduping _ => 13 * hops + 8
  | .hit _ => 1
  | .waiting _ => 1
  | .returned _ => 0
  | .panicked _ => 0

def FlightPhase.work (hops : Nat) : FlightPhase Value → Nat
  | .opened => 13 * hops + 6
  | .awaiting _ => 5
  | .remoteFailed => 4
  | .loading _ => 3
  | .insertMain _ => 2
  | .insertHot _ => 2
  | .ending _ => 1
  | .ended _ => 0
  | .panicked _ => 0

def RemovePhase.work (hops : Nat) : RemovePhase → Nat
  | .requested => 4 * hops + 4
  | .called => 4 * hops + 3
  | .routing => 4 * hops + 2
  | .clearMain => 1
  | .awaiting _ => 1
  | .returned _ => 0
  | .panicked _ => 0

def GetCall.work (peers : Finset GroupcachePeer) (g : GetCall Value) : Nat :=
  g.phase.work (hops peers g.key g.node)

def Flight.work (peers : Finset GroupcachePeer) (fl : Flight Value) : Nat :=
  fl.phase.work (hops peers fl.key fl.node)

def RemoveCall.work (peers : Finset GroupcachePeer) (r : RemoveCall) : Nat :=
  r.phase.work (hops peers r.key r.node)

/-- All there is left to do. -/
def workLeft (peers : Finset GroupcachePeer) : Weights Value where
  get := GetCall.work peers
  flight := Flight.work peers
  remove := RemoveCall.work peers

omit [ValueBounds Value] in
theorem GetStep.work_lt {g g' : GetCall Value} (h : GetStep c g g') :
    g'.work peers < g.work peers := by
  cases h with
  | received hp => simp [GetCall.work, hp, GetPhase.work]
  | counted hp => simp [GetCall.work, hp, GetPhase.work]
  | mainHit hp => simp [GetCall.work, hp, GetPhase.work]
  | mainMiss hp => simp [GetCall.work, hp, GetPhase.work]
  | hotHit hp => simp [GetCall.work, hp, GetPhase.work]
  | hotMiss hp => simp [GetCall.work, hp, GetPhase.work]
  | hit hp => simp [GetCall.work, hp, GetPhase.work]
  | routed hp => simp [GetCall.work, hp, GetPhase.work]
  | unrouted hp => simp [GetCall.work, hp, GetPhase.work]
  | panicked hp => simp [GetCall.work, hp, GetPhase.work]
  | joined hp => simp [GetCall.work, hp, GetPhase.work]
  | shared hp => simp [GetCall.work, hp, GetPhase.work]

theorem FlightStep.work_lt {fl fl' : Flight Value} (h : FlightStep c fl fl') :
    fl'.work peers < fl.work peers := by
  cases h with
  | unreachable hp => simp [Flight.work, hp, FlightPhase.work]
  | answered hp => simp [Flight.work, hp, FlightPhase.work]
  | refused hp => simp [Flight.work, hp, FlightPhase.work]

omit [ValueBounds Value] in
theorem RemoveStep.work_lt {r r' : RemoveCall} (h : RemoveStep c r r') :
    r'.work peers < r.work peers := by
  cases h with
  | received hp => simp [RemoveCall.work, hp, RemovePhase.work]
  | owned hp => simp [RemoveCall.work, hp, RemovePhase.work]
  | unrouted hp => simp [RemoveCall.work, hp, RemovePhase.work]
  | panicked hp => simp [RemoveCall.work, hp, RemovePhase.work]
  | answered hp => simp [RemoveCall.work, hp, RemovePhase.work]

omit [ValueBounds Value] in
/-- What the loader returns leaves less to do. -/
theorem Flight.work_afterLoad {fl : Flight Value} {l : Nat} (hp : fl.phase = .loading l)
    (result : Except String Value) :
    ({ fl with phase := fl.afterLoad l result } : Flight Value).work peers < fl.work peers := by
  rw [Flight.work, Flight.work, hp]
  cases result with
  | error e => simp [Flight.afterLoad, FlightPhase.work]
  | ok value =>
      simp only [Flight.afterLoad]
      split <;> simp [FlightPhase.work]

/-- A request can be forwarded less often from the node it is for. -/
theorem Nearer.hops_lt {n : GroupcachePeer} {found : GroupcachePeerWithClient}
    {client : GroupcachePeerClient} (h : Nearer (peers : Set GroupcachePeer) n key found)
    (hne : found.peer ≠ n) (hc : found.client = some client) :
    hops peers key client.peer < hops peers key n := by
  obtain ⟨hmem, hlt⟩ := h hne client hc
  exact Descent.rank_lt (Finset.mem_coe.mp hmem) hlt

/-- **A step leaves less to do if it is work**, and no more if it is not a
new call. -/
theorem Move.work_le (m : Move c a c') (hU : Addressable (peers : Set GroupcachePeer))
    (h : c.Forwarding (peers : Set GroupcachePeer)) (hcall : a.isCall = false) :
    c'.total (workLeft peers) + (if a.isWork then 1 else 0) ≤ c.total (workLeft peers) := by
  cases m with
  | get => cases hcall
  | remove => cases hcall
  | getStep metrics hg hs => exact Cluster.total_of_gets hg hs.work_lt rfl rfl rfl
  | openFlight hg hp =>
      refine Cluster.total_of_openFlight hg ?_ rfl rfl rfl
      simp only [workLeft, GetCall.work, Flight.work, hp, GetPhase.work, FlightPhase.work,
        Action.isWork, if_true]
      omega
  | flightStep metrics hf hs => exact Cluster.total_of_flights hf hs.work_lt rfl rfl rfl
  | unwrapped message hf hp =>
      exact Cluster.total_of_flights hf
        (by simp [workLeft, Flight.work, hp, FlightPhase.work, Action.isWork]) rfl rfl rfl
  | lost metrics status hf hp =>
      exact Cluster.total_of_flights hf
        (by simp [workLeft, Flight.work, hp, FlightPhase.work, Action.isWork]) rfl rfl rfl
  | startLoad metrics hf hp =>
      refine Cluster.total_of_flights hf ?_ rfl rfl rfl
      simp only [workLeft, Action.isWork, if_true]
      rcases hp with ⟨hp, _⟩ | hp <;> simp only [Flight.work, hp, FlightPhase.work] <;> omega
  | sendGet metrics hf hp hne hc =>
      have hnear := (h.flights _ _ hf).hops_lt hne hc
      refine Cluster.total_of_sendGet hf ?_ rfl rfl rfl
      simp only [workLeft, GetCall.work, Flight.work, hp, GetPhase.work, FlightPhase.work,
        Action.isWork, if_true]
      omega
  | finishLoad metrics result hf hp =>
      exact Cluster.total_of_flights hf (Flight.work_afterLoad hp result) rfl rfl rfl
  | insertMain hf hp =>
      exact Cluster.total_of_flights hf
        (by simp [workLeft, Flight.work, hp, FlightPhase.work, Action.isWork]) rfl rfl rfl
  | insertHot hf hp =>
      exact Cluster.total_of_flights hf
        (by simp [workLeft, Flight.work, hp, FlightPhase.work, Action.isWork]) rfl rfl rfl
  | endFlight hf hp =>
      exact Cluster.total_of_flights hf
        (by simp [workLeft, Flight.work, hp, FlightPhase.work, Action.isWork]) rfl rfl rfl
  | removeStep hr hs => exact Cluster.total_of_removes hr hs.work_lt rfl rfl rfl
  | lostRemove status hr hp =>
      exact Cluster.total_of_removes hr
        (by simp [workLeft, RemoveCall.work, hp, RemovePhase.work, Action.isWork]) rfl rfl rfl
  | clearHot hr hp =>
      exact Cluster.total_of_removes hr
        (by simp [workLeft, RemoveCall.work, hp, RemovePhase.work, Action.isWork]) rfl rfl rfl
  | clearMain hr hp =>
      exact Cluster.total_of_removes hr
        (by simp [workLeft, RemoveCall.work, hp, RemovePhase.work, Action.isWork]) rfl rfl rfl
  | sendRemove hr hp hl hne hc =>
      have hnear := (h.lookup hU (h.removes _ _ hr).1 hl).hops_lt hne hc
      refine Cluster.total_of_sendRemove hr ?_ rfl rfl rfl
      simp only [workLeft, RemoveCall.work, hp, RemovePhase.work, Action.isWork, if_true]
      omega
  | evictMain => exact Nat.le_of_eq (Cluster.total_eq rfl rfl rfl)
  | evictHot => exact Nat.le_of_eq (Cluster.total_eq rfl rfl rfl)
  | topology => exact Nat.le_of_eq (Cluster.total_eq rfl rfl rfl)

/-! ## How much work there is -/

def FlightPhase.isEnded : FlightPhase Value → Bool
  | .ended _ => true
  | _ => false

def RemovePhase.isReturned : RemovePhase → Bool
  | .returned _ => true
  | _ => false

/-- How many calls and flights there are that have not come to an end. -/
def Cluster.unfinished (c : Cluster Value) : Nat :=
  (c.gets.filter fun g => !g.phase.isReturned).length
    + (c.flights.filter fun fl => !fl.phase.isEnded).length
    + (c.removes.filter fun r => !r.phase.isReturned).length

omit [Platform] [ValueBounds Value] in
theorem GetPhase.work_le (phase : GetPhase Value) (hops : Nat) :
    phase.work hops ≤ 13 * (hops + 1) := by
  cases phase <;> simp only [GetPhase.work] <;> omega

omit [Platform] [ValueBounds Value] in
theorem FlightPhase.work_le (phase : FlightPhase Value) (hops : Nat) :
    phase.work hops ≤ 13 * (hops + 1) := by
  cases phase <;> simp only [FlightPhase.work] <;> omega

omit [Platform] in
theorem RemovePhase.work_le (phase : RemovePhase) (hops : Nat) :
    phase.work hops ≤ 13 * (hops + 1) := by
  cases phase <;> simp only [RemovePhase.work] <;> omega

/-- From a node of the cluster a request is forwarded less often than there
are nodes. -/
theorem hops_lt_card (key : String) {n : GroupcachePeer} (hn : n ∈ peers) :
    hops peers key n + 1 ≤ peers.card :=
  Descent.rank_lt_card hn

/-- The flights run on nodes of the cluster, too: a call on the same node
waits for each. -/
theorem Cluster.Forwarding.flight_node (h : c.Forwarding U) (hinv : c.Inv)
    (hsharing : c.Sharing) {f : Nat} {fl : Flight Value} (hf : c.flights[f]? = some fl) :
    fl.node ∈ U := by
  obtain ⟨i, g, hg, hgf⟩ := hsharing.led f fl hf
  obtain ⟨x, hx, hn, _⟩ := (hinv.gets i g hg).flight f hgf
  obtain rfl : fl = x := Option.some.inj (hf.symm.trans hx)
  rw [hn]
  exact (h.gets i g hg).1

theorem Cluster.Forwarding.work_le (h : c.Forwarding (peers : Set GroupcachePeer)) (hinv : c.Inv)
    (hsharing : c.Sharing) : c.total (workLeft peers) ≤ 13 * peers.card * c.unfinished := by
  have hgets : (c.gets.map (GetCall.work peers)).sum
      ≤ 13 * peers.card * (c.gets.filter fun g => !g.phase.isReturned).length := by
    refine Table.sum_le_mul_length_filter (fun g hg _ => ?_) fun g _ hp => ?_
    · obtain ⟨i, hi⟩ := List.getElem?_of_mem hg
      have hcard := hops_lt_card g.key (Finset.mem_coe.mp (h.gets i g hi).1)
      have hwork := g.phase.work_le (hops peers g.key g.node)
      rw [GetCall.work]
      omega
    · rw [GetCall.work]
      cases hph : g.phase <;> rw [hph] at hp <;> first | rfl | cases hp
  have hflights : (c.flights.map (Flight.work peers)).sum
      ≤ 13 * peers.card * (c.flights.filter fun fl => !fl.phase.isEnded).length := by
    refine Table.sum_le_mul_length_filter (fun fl hfl _ => ?_) fun fl _ hp => ?_
    · obtain ⟨f, hf⟩ := List.getElem?_of_mem hfl
      have hcard := hops_lt_card fl.key
        (Finset.mem_coe.mp (h.flight_node hinv hsharing hf))
      have hwork := fl.phase.work_le (hops peers fl.key fl.node)
      rw [Flight.work]
      omega
    · rw [Flight.work]
      cases hph : fl.phase <;> rw [hph] at hp <;> first | rfl | cases hp
  have hremoves : (c.removes.map (RemoveCall.work peers)).sum
      ≤ 13 * peers.card * (c.removes.filter fun r => !r.phase.isReturned).length := by
    refine Table.sum_le_mul_length_filter (fun r hr _ => ?_) fun r _ hp => ?_
    · obtain ⟨i, hi⟩ := List.getElem?_of_mem hr
      have hcard := hops_lt_card r.key (Finset.mem_coe.mp (h.removes i r hi).1)
      have hwork := r.phase.work_le (hops peers r.key r.node)
      rw [RemoveCall.work]
      omega
    · rw [RemoveCall.work]
      cases hph : r.phase <;> rw [hph] at hp <;> first | rfl | cases hp
  simp only [Cluster.total, Cluster.unfinished, workLeft, Nat.mul_add]
  omega

/-! ## Lookups resolve -/

omit [ValueBounds Value] in
/-- A node whose topology calls do not overlap finds itself or a peer with a
client. -/
theorem Cluster.Forwarding.resolves (h : c.Forwarding U) (hU : Addressable U)
    {n : GroupcachePeer} (hn : n ∈ U) (key : String) :
    ∃ found, (c.node n).topology.routing.lookupPeer key = .ok found ∧ found.Resolves n := by
  have hinv := (h.topology n hn).reachable.inv hU hn
  obtain ⟨_, p, _, _, _, hp, hl⟩ := hinv.lookupPeer hU hn key
  refine ⟨_, hl, (RoutingState.mem_members.mp hp).imp_right fun hp => ?_⟩
  obtain ⟨client, hc⟩ := Finmap.mem_iff.mp hp
  exact Option.isSome_of_eq_some hc

omit [ValueBounds Value] in
theorem Cluster.Forwarding.lookupsResolve (h : c.Forwarding U) (hU : Addressable U)
    (a : Action Value) : LookupsResolveAll c a := by
  intro n
  cases a with
  | runGet i =>
      intro g hg hn _
      have hmem := (h.gets i g hg).1
      subst hn
      exact h.resolves hU hmem g.key
  | _ => trivial

/-- A call of `remove` does not panic, and the request that it awaits is that
of a call which knows it. -/
structure Cluster.RemovesWait (c : Cluster Value) : Prop where
  panicked : ∀ (i : Nat) (r : RemoveCall) message, c.removes[i]? = some r →
    r.phase ≠ .panicked message
  awaiting : ∀ (i : Nat) (r : RemoveCall) j, c.removes[i]? = some r → r.phase = .awaiting j →
    ∃ callee, c.removes[j]? = some callee ∧ callee.origin = some i

namespace Cluster.RemovesWait

omit [ValueBounds Value] in
theorem start {routing : GroupcachePeer → RoutingState} :
    (Cluster.start routing : Cluster Value).RemovesWait where
  panicked i r message hr := by simp [Cluster.start] at hr
  awaiting i r j hr := by simp [Cluster.start] at hr

theorem step_panicked (h : c.RemovesWait) (hU : Addressable U) (hfwd : c.Forwarding U)
    (hs : c.step a = some c') (i : Nat) (r : RemoveCall) (message : String)
    (hr : c'.removes[i]? = some r) : r.phase ≠ .panicked message := by
  intro hp
  cases Cluster.step_move hs with
  | remove node key =>
      rcases Table.append_cases hr with hr | ⟨_, rfl⟩
      · exact h.panicked i r message hr hp
      · cases hp
  | @removeStep j x x' hx hstep =>
      rcases Table.set_cases hr with ⟨rfl, rfl⟩ | ⟨_, hr⟩
      · cases hstep with
        | panicked hroute =>
            -- its lookup has resolved
            obtain ⟨found, hl, hres⟩ := hfwd.resolves hU (hfwd.removes i x hx).1 x.key
            rcases Cluster.step_resolved hx hroute hl hres hs (Table.set_self hx) with
              hp' | ⟨j, hp'⟩ <;> cases hp'
        | _ => cases hp
      · exact h.panicked i r message hr hp
  | lostRemove status hx =>
      rcases Table.set_cases hr with ⟨rfl, rfl⟩ | ⟨_, hr⟩
      · cases hp
      · exact h.panicked i r message hr hp
  | clearHot hx =>
      rcases Table.set_cases hr with ⟨rfl, rfl⟩ | ⟨_, hr⟩
      · cases hp
      · exact h.panicked i r message hr hp
  | clearMain hx =>
      rcases Table.set_cases hr with ⟨rfl, rfl⟩ | ⟨_, hr⟩
      · cases hp
      · exact h.panicked i r message hr hp
  | sendRemove hx =>
      rcases Table.append_cases hr with hr | ⟨_, rfl⟩
      · rcases Table.set_cases hr with ⟨rfl, rfl⟩ | ⟨_, hr⟩
        · cases hp
        · exact h.panicked i r message hr hp
      · cases hp
  | _ => exact h.panicked i r message hr hp

theorem step_awaiting (h : c.RemovesWait) (m : Move c a c') (i : Nat) (r : RemoveCall) (j : Nat)
    (hr : c'.removes[i]? = some r) (hp : r.phase = .awaiting j) :
    ∃ callee, c'.removes[j]? = some callee ∧ callee.origin = some i := by
  have set : ∀ {k : Nat} {x x' : RemoveCall}, c.removes[k]? = some x → x'.origin = x.origin →
      (∃ callee, c.removes[j]? = some callee ∧ callee.origin = some i) →
      ∃ callee, (c.removes.set k x')[j]? = some callee ∧ callee.origin = some i := by
    rintro k x x' hx ho ⟨callee, hcallee, horigin⟩
    by_cases hj : j = k
    · subst hj
      obtain rfl : x = callee := Option.some.inj (hx.symm.trans hcallee)
      exact ⟨x', Table.set_self hx, ho.trans horigin⟩
    · exact ⟨callee, Table.set_of_ne hj hcallee, horigin⟩
  have append : ∀ {rows : List RemoveCall} {x : RemoveCall},
      (∃ callee, rows[j]? = some callee ∧ callee.origin = some i) →
      ∃ callee, (rows ++ [x])[j]? = some callee ∧ callee.origin = some i := by
    rintro rows x ⟨callee, hcallee, horigin⟩
    exact ⟨callee, Table.append_of_some hcallee, horigin⟩
  cases m with
  | remove node key =>
      rcases Table.append_cases hr with hr | ⟨_, rfl⟩
      · exact append (h.awaiting i r j hr hp)
      · cases hp
  | removeStep hx hstep =>
      have ho : ∀ {x x' : RemoveCall}, RemoveStep c x x' → x'.origin = x.origin := by
        intro x x' hstep
        cases hstep <;> rfl
      rcases Table.set_cases hr with ⟨rfl, rfl⟩ | ⟨_, hr⟩
      · cases hstep <;> cases hp
      · exact set hx (ho hstep) (h.awaiting i r j hr hp)
  | lostRemove status hx =>
      rcases Table.set_cases hr with ⟨rfl, rfl⟩ | ⟨_, hr⟩
      · cases hp
      · exact set hx rfl (h.awaiting i r j hr hp)
  | clearHot hx =>
      rcases Table.set_cases hr with ⟨rfl, rfl⟩ | ⟨_, hr⟩
      · cases hp
      · exact set hx rfl (h.awaiting i r j hr hp)
  | clearMain hx =>
      rcases Table.set_cases hr with ⟨rfl, rfl⟩ | ⟨_, hr⟩
      · cases hp
      · exact set hx rfl (h.awaiting i r j hr hp)
  | @sendRemove k x peer client hx =>
      rcases Table.append_cases hr with hr | ⟨_, rfl⟩
      · rcases Table.set_cases hr with ⟨rfl, rfl⟩ | ⟨_, hr⟩
        · -- the request is the call that has just been made
          cases hp
          exact ⟨_, Table.set_concat_last, rfl⟩
        · exact append (set hx rfl (h.awaiting i r j hr hp))
      · cases hp
  | _ => exact h.awaiting i r j hr hp

end Cluster.RemovesWait

/-- What holds of a cluster whose topology calls do not overlap on a node. -/
structure Cluster.Live (U : Set GroupcachePeer) (c : Cluster Value) : Prop where
  forwarding : c.Forwarding U
  outcomes : c.Outcomes
  removes : c.RemovesWait

theorem Cluster.Live.step (h : c.Live U) (hU : Addressable U) (hguard : SerialTopology U c a)
    (hs : c.step a = some c') : c'.Live U :=
  have m := Cluster.step_move hs
  { forwarding := h.forwarding.step hU hguard m
    outcomes := h.outcomes.step (h.forwarding.lookupsResolve hU a) hs
    removes :=
      { panicked := h.removes.step_panicked hU h.forwarding hs
        awaiting := h.removes.step_awaiting m } }

theorem Cluster.reaches_live (hU : Addressable U)
    (h : Reaches Cluster.step (SerialTopology U) (.start .withLocalPeer) c) : c.Live U :=
  h.invariant (I := Cluster.Live U) ⟨.start, .start, .start⟩
    fun _ _ _ hi hg hs => hi.step hU hg hs

/-! ## Something goes on -/

/-- A piece of the work for the key can go on; or the loader is at it, and
its flight goes on with whatever it returns. -/
inductive Cluster.GoesOn (c : Cluster Value) (key : String) : Prop where
  | get {i : Nat} {g : GetCall Value} : c.gets[i]? = some g → g.key = key →
      (c.step (.runGet i)).isSome → GoesOn c key
  | flight {f : Nat} {fl : Flight Value} : c.flights[f]? = some fl → fl.key = key →
      (c.step (.runFlight f)).isSome → GoesOn c key
  | load {f : Nat} {fl : Flight Value} : c.flights[f]? = some fl → fl.key = key →
      (∀ result, (c.step (.load f result)).isSome) → GoesOn c key
  | remove {i : Nat} {r : RemoveCall} : c.removes[i]? = some r → r.key = key →
      (c.step (.runRemove i)).isSome → GoesOn c key

namespace Cluster.Live

/-- A flight goes on, or the call goes on that it has made at a nearer node. -/
theorem flight_goesOn (h : c.Live U) {f : Nat} {fl : Flight Value} (hf : c.flights[f]? = some fl)
    (hend : ∀ result, fl.phase ≠ .ended result)
    (nearer : ∀ (i : Nat) (g : GetCall Value), c.gets[i]? = some g → g.key = fl.key →
      distance fl.key g.node < distance fl.key fl.node →
      (∃ result, g.phase = .returned result) ∨ c.GoesOn fl.key) : c.GoesOn fl.key := by
  have hok := h.outcomes.inv.flights f fl hf
  have hph := hok.phase
  rw [Flight.PhaseOk] at hph
  cases hp : fl.phase with
  | opened =>
      refine .flight hf rfl ?_
      simp only [Cluster.step, hf, Option.bind_some, Cluster.runFlight, hp]
      split <;> rfl
  | loading l =>
      refine .load hf rfl fun result => ?_
      simp only [Cluster.step, hf, hp, Option.isSome_some]
  | insertMain loaded =>
      refine .flight hf rfl ?_
      simp only [Cluster.step, hf, Option.bind_some, Cluster.runFlight, hp, Option.isSome_some]
  | awaiting request =>
      rw [hp] at hph
      obtain ⟨_, g, _, hg, _, hk, _⟩ := hok.request request hph.1
      have hlt := (h.forwarding.nearing.request h.outcomes.inv hf hph.1 hg).2
      rcases nearer request g hg hk hlt with ⟨result, hret⟩ | hgoes
      · refine .flight hf rfl ?_
        simp only [Cluster.step, hf, Option.bind_some, Cluster.runFlight, hp, hg, hret,
          Option.isSome_some]
      · exact hgoes
  | remoteFailed =>
      refine .flight hf rfl ?_
      simp only [Cluster.step, hf, Option.bind_some, Cluster.runFlight, hp, Option.isSome_some]
  | insertHot loaded =>
      refine .flight hf rfl ?_
      simp only [Cluster.step, hf, Option.bind_some, Cluster.runFlight, hp, Option.isSome_some]
  | ending result =>
      refine .flight hf rfl ?_
      simp only [Cluster.step, hf, Option.bind_some, Cluster.runFlight, hp, Option.isSome_some]
  | ended result => exact absurd hp (hend result)
  | panicked message => exact absurd hp (h.outcomes.errors.panicked f fl message hf)

/-- **A call of `get` has returned, or something goes on for its key**; by
induction on how far its node is from the key. -/
theorem get_goesOn (h : c.Live U) (key : String) : ∀ (d i : Nat) (g : GetCall Value),
    c.gets[i]? = some g → g.key = key → distance key g.node = d →
    (∃ result, g.phase = .returned result) ∨ c.GoesOn key := by
  intro d
  induction d using Nat.strongRecOn with
  | _ d ih =>
      rintro i g hg rfl hd
      have hok := h.outcomes.inv.gets i g hg
      have runs : (c.step (.runGet i)).isSome → (∃ result, g.phase = .returned result) ∨
          c.GoesOn g.key := fun hs => .inr (.get hg rfl hs)
      cases hp : g.phase with
      | requested =>
          apply hp ▸ runs
          simp only [Cluster.step, hg, Option.bind_some, Cluster.runGet, hp, Option.isSome_some]
      | called =>
          apply hp ▸ runs
          simp only [Cluster.step, hg, Option.bind_some, Cluster.runGet, hp, Option.isSome_some]
      | mainLookup =>
          apply hp ▸ runs
          simp only [Cluster.step, hg, Option.bind_some, Cluster.runGet, hp]
          split <;> rfl
      | hotLookup =>
          apply hp ▸ runs
          simp only [Cluster.step, hg, Option.bind_some, Cluster.runGet, hp]
          split <;> rfl
      | hit loaded =>
          apply hp ▸ runs
          simp only [Cluster.step, hg, Option.bind_some, Cluster.runGet, hp, Option.isSome_some]
      | routing =>
          apply hp ▸ runs
          simp only [Cluster.step, hg, Option.bind_some, Cluster.runGet, hp]
          split <;> rfl
      | deduping peer =>
          apply hp ▸ runs
          simp only [Cluster.step, hg, Option.bind_some, Cluster.runGet, hp, Option.isSome_some]
      | waiting f =>
          have hph := hok.phase
          rw [GetCall.PhaseOk, hp] at hph
          obtain ⟨fl, hf, hn, hk⟩ := hok.flight f hph
          by_cases hend : ∃ result, fl.phase = .ended result
          · obtain ⟨result, hend⟩ := hend
            apply hp ▸ runs
            simp only [Cluster.step, hg, Option.bind_some, Cluster.runGet, hp, hf, hend,
              Option.isSome_some]
          · refine .inr (hk ▸ h.flight_goesOn hf (fun result hr => hend ⟨result, hr⟩) ?_)
            intro j x hx hxk hlt
            rw [hk] at hxk hlt ⊢
            rw [hn] at hlt
            exact ih _ (hd ▸ hlt) j x hx hxk rfl
      | returned result => exact .inl ⟨result, rfl⟩
      | panicked message =>
          have hres := (h.outcomes.resolved g.node).gets i g hg rfl
          rw [GetCall.Resolved, hp] at hres
          exact absurd hres id

/-- The same of a call of `remove`. -/
theorem remove_goesOn (h : c.Live U) (key : String) : ∀ (d i : Nat) (r : RemoveCall),
    c.removes[i]? = some r → r.key = key → distance key r.node = d →
    (∃ result, r.phase = .returned result) ∨ c.GoesOn key := by
  intro d
  induction d using Nat.strongRecOn with
  | _ d ih =>
      rintro i r hr rfl hd
      have runs : (c.step (.runRemove i)).isSome → (∃ result, r.phase = .returned result) ∨
          c.GoesOn r.key := fun hs => .inr (.remove hr rfl hs)
      cases hp : r.phase with
      | requested =>
          apply hp ▸ runs
          simp only [Cluster.step, hr, Option.bind_some, Cluster.runRemove, hp, Option.isSome_some]
      | called =>
          apply hp ▸ runs
          simp only [Cluster.step, hr, Option.bind_some, Cluster.runRemove, hp, Option.isSome_some]
      | routing =>
          apply hp ▸ runs
          simp only [Cluster.step, hr, Option.bind_some, Cluster.runRemove, hp]
          repeat' split
          all_goals rfl
      | clearMain =>
          apply hp ▸ runs
          simp only [Cluster.step, hr, Option.bind_some, Cluster.runRemove, hp, Option.isSome_some]
      | awaiting j =>
          -- the call that it awaits is at a nearer node
          obtain ⟨callee, hcallee, ho⟩ := h.removes.awaiting i r j hr hp
          obtain ⟨x, hx, hk, hlt⟩ := (h.forwarding.removes j callee hcallee).2 i ho
          obtain rfl : r = x := Option.some.inj (hr.symm.trans hx)
          rcases ih _ (hd ▸ hlt) j callee hcallee hk rfl with ⟨result, hret⟩ | hgoes
          · apply hp ▸ runs
            simp only [Cluster.step, hr, Option.bind_some, Cluster.runRemove, hp, hcallee, hret,
              Option.isSome_some]
          · exact .inr hgoes
      | returned result => exact .inl ⟨result, rfl⟩
      | panicked message => exact absurd hp (h.removes.panicked i r message hr)

end Cluster.Live

/-! ## It comes to an end -/

/-- There are no new calls of `get` and `remove`. -/
def NoNewCalls (U : Set GroupcachePeer) (c : Cluster Value) (a : Action Value) : Prop :=
  SerialTopology U c a ∧ a.isCall = false

/-- What has been called is worked off. -/
structure Cluster.Drains (peers : Finset GroupcachePeer) (c : Cluster Value) : Prop where
  /-- However the work is ordered, and whatever is evicted and however the
  tables change meanwhile, there is only so much of it. -/
  bounded : ∀ c' k, Reaches (counting Cluster.step fun _ a => a.isWork)
    (fun s => NoNewCalls (peers : Set GroupcachePeer) s.1) (c, 0) (c', k) →
    k ≤ 13 * peers.card * c.unfinished
  /-- It does not stop before: a key waits for nothing but the loader, and not
  for other keys. -/
  gets : ∀ (i : Nat) (g : GetCall Value), c.gets[i]? = some g →
    (∃ result, g.phase = .returned result) ∨ c.GoesOn g.key
  flights : ∀ (f : Nat) (fl : Flight Value), c.flights[f]? = some fl →
    (∃ result, fl.phase = .ended result) ∨ c.GoesOn fl.key
  removes : ∀ (i : Nat) (r : RemoveCall), c.removes[i]? = some r →
    (∃ result, r.phase = .returned result) ∨ c.GoesOn r.key
  /-- Where nothing goes on for a key no group has a flight for it. -/
  groups : ∀ n key, ¬ c.GoesOn key → (c.node n).singleFlightGroup key = none

/-- **Every call comes to an end**, in a cluster whose topology calls do not
overlap on a node. -/
theorem everything_drains (hU : Addressable (peers : Set GroupcachePeer))
    (h : Reaches Cluster.step (SerialTopology (peers : Set GroupcachePeer))
      (.start .withLocalPeer) c) : c.Drains peers := by
  have hlive := Cluster.reaches_live hU h
  have flights : ∀ (f : Nat) (fl : Flight Value), c.flights[f]? = some fl →
      (∃ result, fl.phase = .ended result) ∨ c.GoesOn fl.key := by
    intro f fl hf
    by_cases hend : ∃ result, fl.phase = .ended result
    · exact .inl hend
    · exact .inr (hlive.flight_goesOn hf (fun result hr => hend ⟨result, hr⟩)
        fun i g hg hk _ => hlive.get_goesOn fl.key _ i g hg hk rfl)
  constructor
  case bounded =>
    intro c' k hrun
    have hcount : k ≤ c.total (workLeft peers) := by
      refine hrun.count_le (I := Cluster.Live (peers : Set GroupcachePeer))
        (Cluster.total · (workLeft peers)) hlive ?_
      rintro s t a hi ⟨hguard, hcall⟩ hs
      exact ⟨hi.step hU hguard hs, (Cluster.step_move hs).work_le hU hi.forwarding hcall⟩
    exact hcount.trans (hlive.forwarding.work_le hlive.outcomes.inv hlive.outcomes.sharing)
  case gets => exact fun i g hg => hlive.get_goesOn g.key _ i g hg rfl rfl
  case flights => exact flights
  case removes => exact fun i r hr => hlive.remove_goesOn r.key _ i r hr rfl rfl
  case groups =>
    intro n key hidle
    cases hgroup : (c.node n).singleFlightGroup key with
    | none => rfl
    | some f =>
        obtain ⟨fl, hf, _, rfl, hend⟩ := (hlive.outcomes.inv.group n key f).mp hgroup
        rcases flights f fl hf with ⟨result, hr⟩ | hgoes
        · exact absurd hr (hend result)
        · exact absurd hgoes hidle

omit [Platform] [ValueBounds Value] in
/-- A call, its flight and the call that the flight has made at the other
node are under way. -/
theorem everything_drains_sample :
    let _ : Platform := Concrete.platform [Concrete.node 8001, Concrete.node 8002]
    let _ : ValueBounds UInt8 := Concrete.messagePack
    let peers : Finset GroupcachePeer := {Concrete.node 8001, Concrete.node 8002}
    ∃ c : Cluster UInt8, c.Drains peers ∧ c.unfinished = 3 := by
  intro _ _ peers
  have hU := Concrete.addressable_nodes [8001, 8002] (by decide)
  have hset : {p | p ∈ [8001, 8002].map Concrete.node} = (peers : Set GroupcachePeer) := by
    ext p
    simp [peers]
  have hA : Concrete.node 8001 ∈ {p | p ∈ [8001, 8002].map Concrete.node} := by decide
  have hB : Concrete.node 8002 ∈ {p | p ∈ [8001, 8002].map Concrete.node} := by decide
  obtain ⟨hlookup, -⟩ := Concrete.lookupPeer_paired
  rw [hset] at hU hA hB
  refine ⟨_, everything_drains hU <|
    .head (a := .topology (Concrete.node 8001)
      (.begin (.addPeer (Concrete.node 8002)) fun _ => .connected 0)) ⟨hA, ?_, ?_⟩ rfl <|
    .head (a := .topology (Concrete.node 8001) (.advance 0 [] [])) ⟨hA, trivial⟩ rfl <|
    .head (a := .topology (Concrete.node 8001) (.advance 0 [] [])) ⟨hA, trivial⟩ rfl <|
    .head (a := .topology (Concrete.node 8001) (.advance 0 [] [])) ⟨hA, trivial⟩ rfl <|
    .head (a := .get (Concrete.node 8001) "127.0.0.1:8002_0") hA rfl <|
    .head (a := .runGet 0) trivial rfl <| .head (a := .runGet 0) trivial rfl <|
    .head (a := .runGet 0) trivial rfl <|
    .head (a := .runGet 0) trivial (Cluster.step_routing rfl rfl hlookup) <|
    .head (a := .runGet 0) trivial rfl <|
    .single (a := .runFlight 0) trivial rfl, rfl⟩
  · simpa [TopologyOp.peers] using hB
  · intro call hcall
    cases hcall

end Groupcache
