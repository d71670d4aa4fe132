import Groupcache.Cluster.Outcomes
import Mathlib.Algebra.BigOperators.Ring.Finset
import Mathlib.Algebra.Order.BigOperators.Group.Finset

/-!
# The counters of all nodes

Each node counts its own calls, loads and requests. Added up over the nodes
the requests cancel out: what one node counts as sent another has counted as
received, but for the requests that no handler has taken up. What is left is a
law of the calls of the application: each has hit a cache, joined a flight or
led to a load, and every request that was taken up and then failed has led to
one load more (`cluster_accounting`).
-/

namespace Groupcache

open Transition

variable [Platform] {Value : Type} [ValueBounds Value] {c c' : Cluster Value}
  {a : Action Value} {S : Finset GroupcachePeer}

/-! ## The counters together -/

namespace Metrics

def calls : Metrics →+ ℕ where
  toFun := getTotal
  map_zero' := rfl
  map_add' _ _ := rfl

def requestsSent : Metrics →+ ℕ where
  toFun := remoteLoadTotal
  map_zero' := rfl
  map_add' _ _ := rfl

def requestsTaken : Metrics →+ ℕ where
  toFun := getServerRequestsTotal
  map_zero' := rfl
  map_add' _ _ := rfl

def requestsFailed : Metrics →+ ℕ where
  toFun := remoteLoadErrors
  map_zero' := rfl
  map_add' _ _ := rfl

end Metrics

namespace Cluster

/-- The counters of the nodes of `S`, added up. -/
def metricsOver (c : Cluster Value) (S : Finset GroupcachePeer) : Metrics :=
  ∑ n ∈ S, c.metrics n

/-- All calls there have been were on nodes of `S`. -/
def Within (c : Cluster Value) (S : Finset GroupcachePeer) : Prop :=
  ∀ g ∈ c.gets, g.node ∈ S

/-- How many calls of `get` the application has made. -/
def asked (c : Cluster Value) : Nat :=
  c.gets.countP fun g => g.origin.isNone

/-- How many requests no handler has taken up, yet or ever. -/
def untaken (c : Cluster Value) : Nat :=
  c.gets.countP fun g => !g.phase.isReceived

/-- No call of `get` is in progress on any node. -/
def Finished (c : Cluster Value) : Prop :=
  ∀ n, c.Idle n

omit [ValueBounds Value] in
theorem Within.of_extends (h : c'.Within S) (hext : c.Extends c') : c.Within S := by
  intro g hg
  obtain ⟨i, hi⟩ := List.getElem?_of_mem hg
  obtain ⟨g', hg', hb⟩ := hext.gets i g hi
  rw [← hb.node]
  exact h g' (List.mem_of_getElem? hg')

/-- A flight is on a node of the calls that share it. -/
theorem Within.flights (h : c.Within S) (hinv : c.Inv) (hsharing : c.Sharing) :
    ∀ fl ∈ c.flights, fl.node ∈ S := by
  intro fl hfl
  obtain ⟨f, hf⟩ := List.getElem?_of_mem hfl
  obtain ⟨i, g, hg, hgf⟩ := hsharing.led f fl hf
  obtain ⟨x, hx, hn, _⟩ := (hinv.gets i g hg).flight f hgf
  obtain rfl : fl = x := Option.some.inj (hf.symm.trans hx)
  rw [hn]
  exact h g (List.mem_of_getElem? hg)

/-- The counters are the sums over all calls and flights. -/
theorem Accounted.metricsOver_eq (h : c.Accounted) (hinv : c.Inv) (hsharing : c.Sharing)
    (hS : c.Within S) :
    c.metricsOver S = (c.gets.map GetCall.tally).sum + (c.flights.map Flight.tally).sum := by
  have hsum : c.metricsOver S = ∑ n ∈ S, (getsTally n c.gets + flightsTally n c.flights) :=
    Finset.sum_congr rfl fun n _ => h.metrics n
  rw [hsum, Finset.sum_add_distrib]
  congr 1
  · exact Table.sum_groups hS
  · exact Table.sum_groups (hS.flights hinv hsharing)

end Cluster

omit [Platform] [ValueBounds Value] in
/-- A counter that only calls count. -/
theorem Metrics.sum_of_gets {φ : Metrics →+ ℕ} {p : GetCall Value → Bool}
    {gets : List (GetCall Value)} {flights : List (Flight Value)}
    (hgets : ∀ g : GetCall Value, φ g.tally = (p g).toNat)
    (hflights : ∀ fl : Flight Value, φ fl.tally = 0) :
    φ ((gets.map GetCall.tally).sum + (flights.map Flight.tally).sum) = gets.countP p := by
  rw [map_add, map_list_sum, map_list_sum, List.map_map, List.map_map, Table.countP_eq_sum]
  simp [Function.comp_def, hgets, hflights]

omit [Platform] [ValueBounds Value] in
/-- A counter that only flights count. -/
theorem Metrics.sum_of_flights {φ : Metrics →+ ℕ} {p : Flight Value → Bool}
    {gets : List (GetCall Value)} {flights : List (Flight Value)}
    (hgets : ∀ g : GetCall Value, φ g.tally = 0)
    (hflights : ∀ fl : Flight Value, φ fl.tally = (p fl).toNat) :
    φ ((gets.map GetCall.tally).sum + (flights.map Flight.tally).sum) = flights.countP p := by
  rw [map_add, map_list_sum, map_list_sum, List.map_map, List.map_map, Table.countP_eq_sum]
  simp [Function.comp_def, hgets, hflights]

/-! ## Requests cancel out -/

/-- Each request of a flight is a call with an origin, and the other way round. -/
theorem Cluster.Inv.requests_eq (hinv : c.Inv) :
    (c.flights.countP fun fl => fl.request.isSome) = c.gets.countP fun g => g.origin.isSome := by
  apply Nat.le_antisymm
  · refine Table.countP_le_countP (R := fun f i => ∃ g, c.gets[i]? = some g ∧ g.origin = some f)
      ?_ ?_
    · intro f fl hf hreq
      obtain ⟨i, hi⟩ := Option.isSome_iff_exists.mp hreq
      obtain ⟨_, g, _, hg, horigin, _⟩ := (hinv.flights f fl hf).request i hi
      exact ⟨i, g, hg, by simp [horigin], g, hg, horigin⟩
    · rintro f f' i ⟨g, hg, ho⟩ ⟨g', hg', ho'⟩
      obtain rfl : g = g' := Option.some.inj (hg.symm.trans hg')
      exact Option.some.inj (ho.symm.trans ho')
  · refine Table.countP_le_countP (R := fun i f => ∃ fl, c.flights[f]? = some fl ∧
      fl.request = some i) ?_ ?_
    · intro i g hg horigin
      obtain ⟨f, hf⟩ := Option.isSome_iff_exists.mp horigin
      obtain ⟨fl, _, hfl, hreq, _⟩ := (hinv.gets i g hg).origin f hf
      exact ⟨f, fl, hfl, by simp [hreq], fl, hfl, hreq⟩
    · rintro i i' f ⟨fl, hfl, hreq⟩ ⟨fl', hfl', hreq'⟩
      obtain rfl : fl = fl' := Option.some.inj (hfl.symm.trans hfl')
      exact Option.some.inj (hreq.symm.trans hreq')

/-- **What is sent is taken up or not.** -/
theorem Cluster.Accounted.sent_eq (h : c.Accounted) (hinv : c.Inv) (hsharing : c.Sharing)
    (hS : c.Within S) : (c.metricsOver S).remoteLoadTotal
      = (c.metricsOver S).getServerRequestsTotal + c.untaken := by
  have hsent : (c.metricsOver S).remoteLoadTotal = c.flights.countP fun fl => fl.request.isSome :=
    (congrArg Metrics.requestsSent (h.metricsOver_eq hinv hsharing hS)).trans
      (Metrics.sum_of_flights (fun _ => rfl) fun _ => rfl)
  have htaken : (c.metricsOver S).getServerRequestsTotal
      = c.gets.countP fun g => g.origin.isSome && g.phase.isReceived :=
    (congrArg Metrics.requestsTaken (h.metricsOver_eq hinv hsharing hS)).trans
      (Metrics.sum_of_gets (fun _ => rfl) fun _ => rfl)
  rw [hsent, hinv.requests_eq, htaken, Cluster.untaken]
  refine (Table.countP_add fun g hg => ?_).symm
  obtain ⟨i, hi⟩ := List.getElem?_of_mem hg
  have horigin := h.requested i g hi
  cases hp : g.phase <;> simp_all

/-- The calls counted are those that the application has made and those taken
up from a peer. -/
theorem Cluster.Accounted.calls_le (h : c.Accounted) (hinv : c.Inv) (hsharing : c.Sharing)
    (hS : c.Within S) : (c.metricsOver S).getTotal
        ≤ c.asked + (c.metricsOver S).getServerRequestsTotal ∧
      (c.Finished → (c.metricsOver S).getTotal
        = c.asked + (c.metricsOver S).getServerRequestsTotal) := by
  have hcalls : (c.metricsOver S).getTotal = c.gets.countP fun g => g.phase.isCounted :=
    (congrArg Metrics.calls (h.metricsOver_eq hinv hsharing hS)).trans
      (Metrics.sum_of_gets (fun _ => rfl) fun _ => rfl)
  have htaken : (c.metricsOver S).getServerRequestsTotal
      = c.gets.countP fun g => g.origin.isSome && g.phase.isReceived :=
    (congrArg Metrics.requestsTaken (h.metricsOver_eq hinv hsharing hS)).trans
      (Metrics.sum_of_gets (fun _ => rfl) fun _ => rfl)
  rw [hcalls, htaken, Cluster.asked]
  constructor
  · refine Table.countP_le_add fun g _ => ?_
    cases g.origin <;> cases g.phase <;> simp
  · intro hquiet
    refine (Table.countP_add fun g hg => ?_).symm
    obtain ⟨i, hi⟩ := List.getElem?_of_mem hg
    rcases hquiet g.node i g hi rfl with hp | ⟨result, hp⟩
    · have horigin := h.requested i g hi hp
      cases ho : g.origin <;> simp_all
    · cases g.origin <;> simp [hp]

/-! ## Requests that no handler takes up -/

omit [ValueBounds Value] in
/-- In a cluster at rest all flights have ended. -/
theorem Cluster.Sharing.ended_of_quiet (h : c.Sharing) (hquiet : c.Finished) {f : Nat}
    {fl : Flight Value} (hf : c.flights[f]? = some fl) : ∃ result, fl.phase = .ended result := by
  obtain ⟨i, g, hg, hgf⟩ := h.led f fl hf
  obtain ⟨x, hx, _, _, hwait | ⟨result, hend, _⟩⟩ := h.shared i g f hg hgf
  · rcases hquiet g.node i g hg rfl with hp | ⟨_, hp⟩ <;> cases hwait.symm.trans hp
  · obtain rfl : fl = x := Option.some.inj (hf.symm.trans hx)
    exact ⟨result, hend⟩

/-- At rest a flight whose request was not taken up has loaded the value. -/
theorem Cluster.Outcomes.loaded_of_untaken (h : c.Outcomes) (hquiet : c.Finished) {i f : Nat}
    {g : GetCall Value} {fl : Flight Value} (hg : c.gets[i]? = some g)
    (hp : g.phase = .requested) (hf : c.flights[f]? = some fl) (hreq : fl.request = some i) :
    fl.load.isSome := by
  obtain ⟨result, hend⟩ := h.sharing.ended_of_quiet hquiet hf
  cases result with
  | error e =>
      obtain ⟨_, _, l, _, hl, _⟩ := h.errors.failed f fl e hf (by rw [hend]; rfl)
      simp [hl]
  | ok loaded =>
      have hph := (h.inv.flights f fl hf).phase
      rw [Flight.PhaseOk, hend] at hph
      obtain ⟨_, hload | ⟨_, request, hrequest, g', _, hg', hret, _⟩⟩ := hph loaded rfl
      · simp [hload]
      · -- the request was not answered
        obtain rfl : i = request := Option.some.inj (hreq.symm.trans hrequest)
        obtain rfl : g = g' := Option.some.inj (hg.symm.trans hg')
        cases hp.symm.trans hret

theorem Cluster.Outcomes.untaken_le (h : c.Outcomes) (hacc : c.Accounted) (hquiet : c.Finished)
    (hS : c.Within S) : c.untaken ≤ (c.metricsOver S).remoteLoadErrors := by
  have hfailed : (c.metricsOver S).remoteLoadErrors = c.flights.countP fun fl =>
      fl.request.isSome && (fl.load.isSome || fl.phase.isRemoteFailed) :=
    (congrArg Metrics.requestsFailed (hacc.metricsOver_eq h.inv h.sharing hS)).trans
      (Metrics.sum_of_flights (fun _ => rfl) fun _ => rfl)
  rw [hfailed]
  refine Table.countP_le_countP (R := fun i f => ∃ fl, c.flights[f]? = some fl ∧
    fl.request = some i) ?_ ?_
  · intro i g hg huntaken
    have hp : g.phase = .requested := by
      cases hp : g.phase <;> simp_all
    obtain ⟨f, hgf⟩ := Option.isSome_iff_exists.mp (hacc.requested i g hg hp)
    obtain ⟨fl, _, hfl, hreq, _⟩ := (h.inv.gets i g hg).origin f hgf
    have hload := h.loaded_of_untaken hquiet hg hp hfl hreq
    exact ⟨f, fl, hfl, by simp [hreq, hload], fl, hfl, hreq⟩
  · rintro i i' f ⟨fl, hfl, hreq⟩ ⟨fl', hfl', hreq'⟩
    obtain rfl : fl = fl' := Option.some.inj (hfl.symm.trans hfl')
    exact Option.some.inj (hreq.symm.trans hreq')

/-! ## Joined flights, on all nodes -/

/-- In this step a call joins the flight of another. -/
def Cluster.joinsFlight (c : Cluster Value) : Action Value → Bool
  | .runGet i =>
      match c.gets[i]? with
      | none => false
      | some call => c.joins call.node (.runGet i)
  | _ => false

omit [ValueBounds Value] in
/-- It does so on one node. -/
theorem Cluster.joins_eq (n : GroupcachePeer) {i : Nat} {call : GetCall Value}
    (hcall : c.gets[i]? = some call) : c.joins n (.runGet i)
      = (decide (call.node = n) && c.joinsFlight (.runGet i)) := by
  simp only [Cluster.joinsFlight, Cluster.joins, hcall]
  cases call.phase <;> simp

omit [ValueBounds Value] in
theorem Cluster.sum_joins (hS : c.Within S) (a : Action Value) :
    (∑ n ∈ S, if c.joins n a then 1 else 0) = if c.joinsFlight a then 1 else 0 := by
  cases a with
  | runGet i =>
      cases hcall : c.gets[i]? with
      | none => simp [Cluster.joins, Cluster.joinsFlight, hcall]
      | some call =>
          have hmem := hS call (List.mem_of_getElem? hcall)
          simp only [Cluster.joins_eq _ hcall]
          cases c.joinsFlight (.runGet i) with
          | false => simp
          | true =>
              simp only [Bool.and_true, decide_eq_true_eq, if_true]
              rw [Finset.sum_ite_eq, if_pos hmem]
  | _ => simp [Cluster.joins, Cluster.joinsFlight]

/-- The ledgers of all nodes, with `joined` calls that have joined flights. -/
structure Cluster.Ledgers (c : Cluster Value) (joined : Nat) : Prop where
  outcomes : c.Outcomes
  accounted : c.Accounted
  nodes : ∃ onNode : GroupcachePeer → Nat, (∀ n, c.Ledger n (onNode n)) ∧
    ∀ S, c.Within S → ∑ n ∈ S, onNode n = joined

namespace Cluster.Ledgers

variable {joined : Nat}

theorem start {routing : GroupcachePeer → RoutingState} :
    (Cluster.start routing : Cluster Value).Ledgers 0 where
  outcomes := .start
  accounted := .start
  nodes := ⟨fun _ => 0, fun _ => ⟨.start routing, .start, .start, .start, rfl⟩, fun _ _ => by simp⟩

theorem step (h : c.Ledgers joined) (hguard : LookupsResolveAll c a) (hs : c.step a = some c') :
    c'.Ledgers (joined + if c.joinsFlight a then 1 else 0) where
  outcomes := h.outcomes.step hguard hs
  accounted := h.accounted.step h.outcomes.inv hs
  nodes := by
    obtain ⟨onNode, hledger, hsum⟩ := h.nodes
    refine ⟨fun n => onNode n + if c.joins n a then 1 else 0,
      fun n => (hledger n).step (hguard n) hs, fun S hS => ?_⟩
    have hS' : c.Within S := hS.of_extends ((Cluster.step_move hs).extends h.outcomes.inv)
    rw [Finset.sum_add_distrib, hsum S hS', Cluster.sum_joins hS']

/-- Over all nodes, the calls counted and not answered for are those that have
joined a flight, and those in progress. -/
theorem balance (h : c.Ledgers joined) (hS : c.Within S) :
    (joined : ℤ) ≤ (c.metricsOver S).balance ∧
      (c.Finished → (c.metricsOver S).balance = joined) := by
  obtain ⟨onNode, hledger, hsum⟩ := h.nodes
  have hbalance : (c.metricsOver S).balance = ∑ n ∈ S, (c.metrics n).balance :=
    map_sum Metrics.balance _ _
  rw [hbalance, ← hsum S hS, Nat.cast_sum]
  constructor
  · refine Finset.sum_le_sum fun n _ => ?_
    have hle := h.accounted.le_balance h.outcomes.inv n
    rw [(hledger n).calls] at hle
    omega
  · intro hquiet
    refine Finset.sum_congr rfl fun n _ => ?_
    have heq := h.accounted.balance_eq_of_idle h.outcomes.inv h.outcomes.sharing
      (h.outcomes.resolved n) (hquiet n)
    rw [(hledger n).calls] at heq
    omega

end Cluster.Ledgers

/-! ## The law -/

/-- The laws of the counters of all nodes together, where `joined` calls have
joined the flight of another. -/
structure Cluster.AccountingOver (S : Finset GroupcachePeer) (joined : Nat)
    (c : Cluster Value) : Prop where
  sent : (c.metricsOver S).remoteLoadTotal
    = (c.metricsOver S).getServerRequestsTotal + c.untaken
  bound : (c.metricsOver S).localCacheHitTotal + (c.metricsOver S).localLoadTotal + joined
      + c.untaken ≤ c.asked + (c.metricsOver S).remoteLoadErrors
  untaken : c.Finished → c.untaken ≤ (c.metricsOver S).remoteLoadErrors
  balance : c.Finished → c.asked + ((c.metricsOver S).remoteLoadErrors - c.untaken)
    = (c.metricsOver S).localCacheHitTotal + (c.metricsOver S).localLoadTotal + joined

/-- **The counters of all nodes account for the calls of the application**, in
every state of every run in which the lookups resolve. -/
theorem cluster_accounting {routing : GroupcachePeer → RoutingState} {joined : Nat}
    (hS : c.Within S)
    (h : Reaches (counting Cluster.step Cluster.joinsFlight) (fun s => LookupsResolveAll s.1)
      (.start routing, 0) (c, joined)) : c.AccountingOver S joined := by
  have hledgers : c.Ledgers joined :=
    h.counting_invariant (I := Cluster.Ledgers) .start fun _ _ _ _ hi hg hs => hi.step hg hs
  obtain ⟨hle, heq⟩ := hledgers.balance hS
  obtain ⟨hout, hacc, _⟩ := hledgers
  have hsent := hacc.sent_eq hout.inv hout.sharing hS
  obtain ⟨hcalls, hcallsEq⟩ := hacc.calls_le hout.inv hout.sharing hS
  have hbalance : (c.metricsOver S).balance
      = (c.metricsOver S).getTotal + (c.metricsOver S).remoteLoadErrors
        - (c.metricsOver S).localCacheHitTotal - (c.metricsOver S).localLoadTotal
        - (c.metricsOver S).remoteLoadTotal := rfl
  constructor
  case sent => exact hsent
  case bound => omega
  case untaken => exact fun hquiet => hout.untaken_le hacc hquiet hS
  case balance =>
    intro hquiet
    have huntaken := hout.untaken_le hacc hquiet hS
    have := heq hquiet
    have := hcallsEq hquiet
    omega

omit [Platform] [ValueBounds Value] in
/-- The request is lost before it is taken up, and leads to a load. -/
theorem cluster_accounting_sample :
    let _ : Platform := Concrete.platform [Concrete.node 8001, Concrete.node 8002]
    let _ : ValueBounds UInt8 := Concrete.messagePack
    ∃ c : Cluster UInt8,
      c.AccountingOver {Concrete.node 8001, Concrete.node 8002} 0 ∧
        c.asked = 1 ∧ c.untaken = 1 := by
  intro _ _
  obtain ⟨hl, -⟩ := Concrete.lookupPeer_paired
  refine ⟨_, @cluster_accounting _ UInt8 _ _ _ Concrete.paired 0 ?_ <|
    .head (a := .get (Concrete.node 8001) "127.0.0.1:8002_0") (fun _ => trivial)
      (counting_skip rfl rfl) <|
    .head (a := .runGet 0) (fun _ => .of_phase rfl rfl) (counting_skip rfl rfl) <|
    .head (a := .runGet 0) (fun _ => .of_phase rfl rfl) (counting_skip rfl rfl) <|
    .head (a := .runGet 0) (fun _ => .of_phase rfl rfl) (counting_skip rfl rfl) <|
    .head (a := .runGet 0) (.of_lookup rfl hl (.inr rfl))
      (counting_skip (Cluster.step_routing rfl rfl hl) rfl) <|
    .head (a := .runGet 0) (fun _ => .of_phase rfl rfl) (counting_skip rfl rfl) <|
    .head (a := .runFlight 0) (fun _ => trivial) (counting_skip rfl rfl) <|
    .head (a := .failGet 0 (.transport "timed out")) (fun _ => trivial)
      (counting_skip rfl rfl) <|
    .head (a := .runFlight 0) (fun _ => trivial) (counting_skip rfl rfl) <|
    .head (a := .load 0 (.ok 7)) (fun _ => trivial) (counting_skip rfl rfl) <|
    .head (a := .runFlight 0) (fun _ => trivial) (counting_skip rfl rfl) <|
    .single (a := .runGet 0) (fun _ => .of_phase rfl rfl) (counting_skip rfl rfl), rfl, rfl⟩
  intro g hg
  have hnode : g.node ∈ [Concrete.node 8001, Concrete.node 8002] :=
    List.mem_map_of_mem (f := GetCall.node) hg
  simpa using hnode

end Groupcache
