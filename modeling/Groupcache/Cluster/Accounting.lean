import Groupcache.Cluster.Sharing
import Mathlib.Algebra.Order.BigOperators.Group.List
import Mathlib.Algebra.Ring.Int.Defs

/-!
# The counters of `get` (`metrics.rs`)

A node's counters are bumped all over `get`, but each bump belongs to one call
or one flight, and the record tells which ones it has made: `GetCall.tally`
and `Flight.tally`. The counters are the sums of these (`Cluster.Accounted`),
whatever the order of the steps. So a law of the counters is one of each call
and each flight; `Metrics.balance` is that of `get_accounting`, with the calls
that join a flight on one side and those that open one on the other.
-/

namespace Groupcache

open Transition

/-! ## Adding up counters -/

attribute [ext] Metrics

namespace Metrics

instance : Add Metrics where
  add a b :=
    { getTotal := a.getTotal + b.getTotal
      getServerRequestsTotal := a.getServerRequestsTotal + b.getServerRequestsTotal
      localCacheHitTotal := a.localCacheHitTotal + b.localCacheHitTotal
      localLoadTotal := a.localLoadTotal + b.localLoadTotal
      localLoadErrors := a.localLoadErrors + b.localLoadErrors
      remoteLoadTotal := a.remoteLoadTotal + b.remoteLoadTotal
      remoteLoadErrors := a.remoteLoadErrors + b.remoteLoadErrors }

instance : Zero Metrics where
  zero := {}

instance : AddCommMonoid Metrics where
  add_assoc a b c := by ext <;> exact Nat.add_assoc ..
  zero_add a := by ext <;> exact Nat.zero_add _
  add_zero a := by ext <;> rfl
  add_comm a b := by ext <;> exact Nat.add_comm ..
  nsmul := nsmulRec

/-- How many calls were counted beyond those that hit a cache and those whose
load, of their own or at a peer, is counted and has not failed over. -/
def balance : Metrics →+ ℤ where
  toFun m := m.getTotal + m.remoteLoadErrors - m.localCacheHitTotal - m.localLoadTotal
    - m.remoteLoadTotal
  map_zero' := rfl
  map_add' a b := by
    show ((a.getTotal + b.getTotal : ℕ) : ℤ) + (a.remoteLoadErrors + b.remoteLoadErrors : ℕ)
      - (a.localCacheHitTotal + b.localCacheHitTotal : ℕ)
      - (a.localLoadTotal + b.localLoadTotal : ℕ)
      - (a.remoteLoadTotal + b.remoteLoadTotal : ℕ) = _
    omega

/-- No more errors than loads. -/
def ErrorsLe (m : Metrics) : Prop :=
  m.localLoadErrors ≤ m.localLoadTotal ∧ m.remoteLoadErrors ≤ m.remoteLoadTotal

theorem ErrorsLe.add {a b : Metrics} (ha : a.ErrorsLe) (hb : b.ErrorsLe) : (a + b).ErrorsLe :=
  ⟨Nat.add_le_add ha.1 hb.1, Nat.add_le_add ha.2 hb.2⟩

end Metrics

/-! ## What a record has counted -/

section Tally

variable {Value : Type}

@[simp] def GetPhase.isReceived : GetPhase Value → Bool
  | .requested => false
  | _ => true

@[simp] def GetPhase.isCounted : GetPhase Value → Bool
  | .requested => false
  | .called => false
  | _ => true

@[simp] def GetPhase.isOk : GetPhase Value → Bool
  | .returned (.ok _) => true
  | _ => false

/-- What a call has counted: that it was received, that it was made, and that
it hit a cache. -/
def GetCall.tally (g : GetCall Value) : Metrics where
  getServerRequestsTotal := (g.origin.isSome && g.phase.isReceived).toNat
  getTotal := g.phase.isCounted.toNat
  localCacheHitTotal := (g.flight.isNone && g.phase.isOk).toNat

@[simp] def FlightPhase.isFailed : FlightPhase Value → Bool
  | .ending (.error _) => true
  | .ended (.error _) => true
  | _ => false

@[simp] def FlightPhase.isRemoteFailed : FlightPhase Value → Bool
  | .remoteFailed => true
  | _ => false

/-- What a flight has counted: its load and its request, and what failed of
the two. It makes both only if the request has failed. -/
def Flight.tally (fl : Flight Value) : Metrics where
  localLoadTotal := fl.load.isSome.toNat
  localLoadErrors := (fl.load.isSome && fl.phase.isFailed).toNat
  remoteLoadTotal := fl.request.isSome.toNat
  remoteLoadErrors := (fl.request.isSome && (fl.load.isSome || fl.phase.isRemoteFailed)).toNat

theorem Flight.tally_phase {fl : Flight Value} {phase : FlightPhase Value}
    (hfailed : phase.isFailed = fl.phase.isFailed)
    (hremote : phase.isRemoteFailed = fl.phase.isRemoteFailed) :
    { fl with phase }.tally = fl.tally := by
  simp only [Flight.tally, hfailed, hremote]

theorem GetCall.errorsLe_tally (g : GetCall Value) : g.tally.ErrorsLe :=
  ⟨Nat.zero_le 0, Nat.zero_le 0⟩

theorem Flight.errorsLe_tally (fl : Flight Value) : fl.tally.ErrorsLe :=
  ⟨Bool.toNat_le_toNat (Bool.and_le_left _ _), Bool.toNat_le_toNat (Bool.and_le_left _ _)⟩

theorem GetCall.balance_tally (g : GetCall Value) : g.tally.balance
    = g.phase.isCounted.toNat - (g.flight.isNone && g.phase.isOk).toNat := by
  show (g.phase.isCounted.toNat : ℤ) + (0 : ℕ) - (g.flight.isNone && g.phase.isOk).toNat
    - (0 : ℕ) - (0 : ℕ) = _
  omega

/-- A flight has made the load or the request that gets it a value, or it is
still to do so. -/
theorem Flight.balance_tally (fl : Flight Value) : fl.tally.balance
    = if fl.load.isSome || fl.request.isSome && !fl.phase.isRemoteFailed then -1 else 0 := by
  show ((0 : ℕ) : ℤ) + (fl.request.isSome && (fl.load.isSome || fl.phase.isRemoteFailed)).toNat
    - (0 : ℕ) - fl.load.isSome.toNat - fl.request.isSome.toNat = _
  cases fl.load <;> cases fl.request <;> cases fl.phase.isRemoteFailed <;> simp

def getsTally (n : GroupcachePeer) (gets : List (GetCall Value)) : Metrics :=
  (gets.map fun g => if g.node = n then g.tally else 0).sum

def flightsTally (n : GroupcachePeer) (flights : List (Flight Value)) : Metrics :=
  (flights.map fun fl => if fl.node = n then fl.tally else 0).sum

variable {n : GroupcachePeer} {i : Nat} {d : Metrics}

theorem getsTally_set {gets : List (GetCall Value)} {g g' : GetCall Value}
    (hg : gets[i]? = some g) (hn : g'.node = g.node) (hd : g'.tally = g.tally + d) :
    getsTally n (gets.set i g') = getsTally n gets + if g.node = n then d else 0 := by
  apply Table.sum_set hg
  rw [hn]
  split
  · exact hd
  · rfl

theorem getsTally_concat {gets : List (GetCall Value)} {g : GetCall Value} (hg : g.tally = 0) :
    getsTally n (gets ++ [g]) = getsTally n gets := by
  rw [getsTally, Table.sum_concat, hg, ite_self, add_zero]
  rfl

theorem flightsTally_set {flights : List (Flight Value)} {fl fl' : Flight Value}
    (hf : flights[i]? = some fl) (hn : fl'.node = fl.node) (hd : fl'.tally = fl.tally + d) :
    flightsTally n (flights.set i fl') = flightsTally n flights + if fl.node = n then d else 0 := by
  apply Table.sum_set hf
  rw [hn]
  split
  · exact hd
  · rfl

theorem flightsTally_concat {flights : List (Flight Value)} {fl : Flight Value}
    (hf : fl.tally = 0) : flightsTally n (flights ++ [fl]) = flightsTally n flights := by
  rw [flightsTally, Table.sum_concat, hf, ite_self, add_zero]
  rfl

end Tally

variable [Platform] {Value : Type} [ValueBounds Value] {c c' : Cluster Value}
  {a : Action Value} {n : GroupcachePeer}

/-! ## The counters are the sums -/

structure Cluster.Accounted (c : Cluster Value) : Prop where
  metrics : ∀ n, c.metrics n = getsTally n c.gets + flightsTally n c.flights
  requested : ∀ (i : Nat) (g : GetCall Value), c.gets[i]? = some g → g.phase = .requested →
    g.origin.isSome

omit [ValueBounds Value] in
theorem Cluster.metrics_count {m : GroupcachePeer} (d : Metrics) :
    (c.count m (· + d)).metrics n = c.metrics n + if m = n then d else 0 := by
  simp only [Cluster.count, Function.update_apply]
  by_cases h : n = m
  · rw [if_pos h, if_pos h.symm, h]
  · rw [if_neg h, if_neg (Ne.symm h), add_zero]

namespace Cluster.Accounted

omit [ValueBounds Value] in
theorem start {routing : GroupcachePeer → RoutingState} :
    (Cluster.start routing : Cluster Value).Accounted where
  metrics _ := rfl
  requested i g hg := by simp [Cluster.start] at hg

omit [ValueBounds Value] in
/-- A call that goes on, and counts `d`. -/
private theorem post_get (h : c.Accounted) {i : Nat} {g : GetCall Value}
    (hg : c.gets[i]? = some g) (g' : GetCall Value) (d : Metrics) (hn : g'.node = g.node)
    (hd : g'.tally = g.tally + d) (n : GroupcachePeer) :
    (c.count g.node (· + d)).metrics n
      = getsTally n (c.gets.set i g') + flightsTally n c.flights := by
  rw [getsTally_set hg hn hd, add_right_comm, ← h.metrics]
  exact Cluster.metrics_count d

omit [ValueBounds Value] in
/-- A call that goes on, and counts nothing. -/
private theorem keep_get (h : c.Accounted) {i : Nat} {g : GetCall Value}
    (hg : c.gets[i]? = some g) (g' : GetCall Value) (hn : g'.node = g.node)
    (hd : g'.tally = g.tally) (n : GroupcachePeer) :
    c.metrics n = getsTally n (c.gets.set i g') + flightsTally n c.flights := by
  rw [getsTally_set hg hn (hd.trans (add_zero _).symm), ite_self, add_zero]
  exact h.metrics n

theorem runGet (h : c.Accounted) (hinv : c.Inv) {i : Nat} {call : GetCall Value}
    (hcall : c.gets[i]? = some call) (hs : c.runGet i call = some c') (n : GroupcachePeer) :
    c'.metrics n = getsTally n c'.gets + flightsTally n c'.flights := by
  have hph := (hinv.gets i call hcall).phase
  unfold Cluster.runGet at hs
  unfold GetCall.PhaseOk at hph
  cases hp : call.phase with
  | requested =>
      simp only [hp] at hs
      cases hs
      refine h.post_get hcall { call with phase := .called } { getServerRequestsTotal := 1 } rfl
        ?_ n
      simp only [GetCall.tally, hp, h.requested i call hcall hp]
      rfl
  | called =>
      simp only [hp] at hs
      cases hs
      refine h.post_get hcall { call with phase := .mainLookup } { getTotal := 1 } rfl ?_ n
      simp only [GetCall.tally, hp]
      rfl
  | mainLookup =>
      simp only [hp] at hs
      split at hs <;> cases hs <;> refine h.keep_get hcall _ ?_ ?_ n <;> simp [GetCall.tally, hp]
  | hotLookup =>
      simp only [hp] at hs
      split at hs <;> cases hs <;> refine h.keep_get hcall _ ?_ ?_ n <;> simp [GetCall.tally, hp]
  | hit loaded =>
      simp only [hp] at hs hph
      cases hs
      refine h.post_get hcall { call with phase := .returned (.ok loaded) }
        { localCacheHitTotal := 1 } rfl ?_ n
      simp only [GetCall.tally, hp, hph.1]
      rfl
  | routing =>
      simp only [hp] at hs
      split at hs <;> cases hs <;> refine h.keep_get hcall _ ?_ ?_ n <;> simp [GetCall.tally, hp]
  | deduping peer =>
      simp only [hp, Cluster.getDeduped] at hs
      split at hs <;> cases hs
      · refine h.keep_get hcall _ ?_ ?_ n <;> simp [GetCall.tally, hp]
      · show c.metrics n = getsTally n (c.gets.set i _) + flightsTally n (c.flights ++ [_])
        rw [flightsTally_concat rfl]
        refine h.keep_get hcall _ ?_ ?_ n <;> simp [GetCall.tally, hp]
  | waiting f =>
      simp only [hp] at hs hph
      split at hs
      · cases hs
      · split at hs <;> cases hs
        -- what it has waited for is no cache hit
        refine h.keep_get hcall _ ?_ ?_ n
        · rfl
        · rename_i result _
          cases result <;> simp [GetCall.tally, hp, hph, Except.mapError]
  | returned result => simp [hp] at hs
  | panicked message => simp [hp] at hs

omit [ValueBounds Value] in
/-- A flight that goes on, and counts `d`. -/
private theorem post_flight (h : c.Accounted) {f : Nat} {fl : Flight Value}
    (hf : c.flights[f]? = some fl) (fl' : Flight Value) (d : Metrics) (hn : fl'.node = fl.node)
    (hd : fl'.tally = fl.tally + d) (n : GroupcachePeer) :
    (c.count fl.node (· + d)).metrics n
      = getsTally n c.gets + flightsTally n (c.flights.set f fl') := by
  rw [flightsTally_set hf hn hd, ← add_assoc, ← h.metrics]
  exact Cluster.metrics_count d

omit [ValueBounds Value] in
/-- A flight that goes on, and counts nothing. -/
private theorem keep_flight (h : c.Accounted) {f : Nat} {fl : Flight Value}
    (hf : c.flights[f]? = some fl) (phase : FlightPhase Value)
    (hd : { fl with phase }.tally = fl.tally) (n : GroupcachePeer) :
    c.metrics n = getsTally n c.gets + flightsTally n (c.flights.set f { fl with phase }) := by
  have hset : flightsTally n (c.flights.set f { fl with phase })
      = flightsTally n c.flights + if fl.node = n then 0 else 0 :=
    flightsTally_set hf rfl (hd.trans (add_zero _).symm)
  rw [hset, ite_self, add_zero]
  exact h.metrics n

theorem receiveGet (h : c.Accounted) (hinv : c.Inv) {f request : Nat} {fl : Flight Value}
    (hf : c.flights[f]? = some fl) (hp : fl.phase = .awaiting request)
    (response : Except Status GetResponse) (n : GroupcachePeer) :
    (c.receiveGet f fl response).metrics n
      = getsTally n (c.receiveGet f fl response).gets
        + flightsTally n (c.receiveGet f fl response).flights := by
  have hph := (hinv.flights f fl hf).phase
  rw [Flight.PhaseOk, hp] at hph
  unfold Cluster.receiveGet
  split
  · rename_i loaded _
    refine h.keep_flight hf (.insertHot loaded) ?_ n
    simp [Flight.tally, hp, hph, FlightPhase.isRemoteFailed]
  · refine h.post_flight hf { fl with phase := .remoteFailed } { remoteLoadErrors := 1 } rfl ?_ n
    simp [Flight.tally, hp, hph]
    rfl
  · refine h.keep_flight hf (.panicked _) ?_ n
    simp [Flight.tally, hp, hph, FlightPhase.isRemoteFailed]

theorem startLoad (h : c.Accounted) (hinv : c.Inv) {f : Nat} {fl : Flight Value}
    (hf : c.flights[f]? = some fl) (hp : fl.phase = .opened ∨ fl.phase = .remoteFailed)
    (n : GroupcachePeer) :
    (c.startLoad f fl).metrics n
      = getsTally n c.gets + flightsTally n (c.startLoad f fl).flights := by
  have hph := (hinv.flights f fl hf).phase
  rw [Flight.PhaseOk] at hph
  refine h.post_flight hf { fl with load := some c.loads.length, phase := .loading c.loads.length }
    { localLoadTotal := 1 } rfl ?_ n
  rcases hp with hp | hp <;> rw [hp] at hph <;> simp [Flight.tally, hp, hph] <;> rfl

theorem runFlight (h : c.Accounted) (hinv : c.Inv) {f : Nat} {fl : Flight Value}
    (hf : c.flights[f]? = some fl) (hs : c.runFlight f fl = some c') (n : GroupcachePeer) :
    c'.metrics n = getsTally n c'.gets + flightsTally n c'.flights := by
  have hph := (hinv.flights f fl hf).phase
  unfold Cluster.runFlight at hs
  rw [Flight.PhaseOk] at hph
  cases hp : fl.phase with
  | opened =>
      simp only [hp] at hs hph
      split at hs <;> cases hs
      · exact h.startLoad hinv hf (.inl hp) n
      · show (c.count fl.node (· + { remoteLoadTotal := 1 })).metrics n
          = getsTally n (c.gets ++ [_]) + flightsTally n (c.flights.set f _)
        rw [getsTally_concat rfl]
        refine h.post_flight hf
          { fl with request := some c.gets.length, phase := .awaiting c.gets.length } _ rfl ?_ n
        simp [Flight.tally, hp, hph]
        rfl
      · refine h.keep_flight hf (.ending _) ?_ n
        simp [Flight.tally, hph]
  | loading load => simp [hp] at hs
  | insertMain loaded =>
      simp only [hp] at hs
      cases hs
      refine h.keep_flight hf (.ending (.ok loaded)) ?_ n
      apply Flight.tally_phase <;> rw [hp] <;> rfl
  | awaiting request =>
      simp only [hp] at hs
      split at hs
      · cases hs
      · split at hs <;> cases hs
        exact h.receiveGet hinv hf hp _ n
  | remoteFailed =>
      simp only [hp] at hs
      cases hs
      exact h.startLoad hinv hf (.inr hp) n
  | insertHot loaded =>
      simp only [hp] at hs
      cases hs
      refine h.keep_flight hf (.ending (.ok loaded)) ?_ n
      apply Flight.tally_phase <;> rw [hp] <;> rfl
  | ending result =>
      simp only [hp] at hs
      cases hs
      refine h.keep_flight hf (.ended result) ?_ n
      apply Flight.tally_phase <;> rw [hp] <;> cases result <;> rfl
  | ended result => simp [hp] at hs
  | panicked message => simp [hp] at hs

theorem finishLoad (h : c.Accounted) (hinv : c.Inv) {f load : Nat} {fl : Flight Value}
    (hf : c.flights[f]? = some fl) (hp : fl.phase = .loading load)
    (result : Except String Value) (n : GroupcachePeer) :
    (c.finishLoad f fl load result).metrics n = getsTally n (c.finishLoad f fl load result).gets
      + flightsTally n (c.finishLoad f fl load result).flights := by
  have hph := (hinv.flights f fl hf).phase
  rw [Flight.PhaseOk, hp] at hph
  cases result with
  | ok value =>
      refine h.keep_flight hf (fl.afterLoad load (.ok value)) ?_ n
      simp only [Flight.afterLoad]
      split <;> apply Flight.tally_phase <;> rw [hp] <;> rfl
  | error e =>
      refine h.post_flight hf { fl with phase := fl.afterLoad load (.error e) }
        { localLoadErrors := 1 } rfl ?_ n
      simp [Flight.tally, Flight.afterLoad, hp, hph]
      rfl

/-- **The step.** -/
theorem step (h : c.Accounted) (hinv : c.Inv) (hs : c.step a = some c') : c'.Accounted := by
  constructor
  case requested =>
    intro i g hg hp
    have m := Cluster.step_move hs
    cases m with
    | get node key =>
        rcases Table.append_cases hg with hg | ⟨_, rfl⟩
        · exact h.requested i g hg hp
        · cases hp
    | getStep metrics hcall hstep =>
        rcases Table.set_cases hg with ⟨_, rfl⟩ | ⟨_, hg⟩
        · cases hstep <;> cases hp
        · exact h.requested i g hg hp
    | openFlight hcall =>
        rcases Table.set_cases hg with ⟨_, rfl⟩ | ⟨_, hg⟩
        · cases hp
        · exact h.requested i g hg hp
    | sendGet metrics hf =>
        rcases Table.append_cases hg with hg | ⟨_, rfl⟩
        · exact h.requested i g hg hp
        · rfl
    | _ => exact h.requested i g hg hp
  case metrics =>
    intro n
    cases a with
    | get node key =>
        cases hs
        show c.metrics n = getsTally n (c.gets ++ [_]) + flightsTally n c.flights
        rw [getsTally_concat rfl]
        exact h.metrics n
    | remove node key => cases hs; exact h.metrics n
    | runGet i =>
        obtain ⟨call, hcall, hs⟩ := Option.bind_eq_some_iff.mp hs
        exact h.runGet hinv hcall hs n
    | runFlight f =>
        obtain ⟨fl, hf, hs⟩ := Option.bind_eq_some_iff.mp hs
        exact h.runFlight hinv hf hs n
    | runRemove i =>
        obtain ⟨call, hcall, hs⟩ := Option.bind_eq_some_iff.mp hs
        cases Cluster.runRemove_move hcall hs <;> exact h.metrics n
    | load f result =>
        simp only [Cluster.step] at hs
        split at hs
        · cases hs
        · split at hs <;> cases hs
          rename_i fl hf _ load hp
          exact h.finishLoad hinv hf hp result n
    | failGet f status =>
        simp only [Cluster.step] at hs
        split at hs
        · cases hs
        · split at hs <;> cases hs
          rename_i fl hf _ request hp
          exact h.receiveGet hinv hf hp _ n
    | failRemove i status =>
        simp only [Cluster.step] at hs
        split at hs
        · cases hs
        · split at hs <;> cases hs
          exact h.metrics n
    | evictMain node key => cases hs; exact h.metrics n
    | evictHot node key => cases hs; exact h.metrics n
    | topology node action =>
        obtain ⟨topology, _, rfl⟩ := Option.map_eq_some_iff.mp hs
        exact h.metrics n

end Cluster.Accounted

/-! ## Calls in the group -/

/-- The calls on node `n` that have entered the group. -/
def callsInGroup (n : GroupcachePeer) (gets : List (GetCall Value)) : ℤ :=
  (gets.map fun g => if g.node = n ∧ g.flight.isSome then 1 else 0).sum

/-- The flights that calls on node `n` have opened. -/
def flightsOpened (n : GroupcachePeer) (flights : List (Flight Value)) : ℤ :=
  (flights.map fun fl => if fl.node = n then 1 else 0).sum

/-- In this step a call on node `n` joins the flight of another. -/
def Cluster.joins (n : GroupcachePeer) (c : Cluster Value) : Action Value → Bool
  | .runGet i =>
      match c.gets[i]? with
      | none => false
      | some call =>
          match call.phase with
          | .deduping _ => call.node = n && ((c.node call.node).singleFlightGroup call.key).isSome
          | _ => false
  | _ => false

section Group

variable {gets : List (GetCall Value)} {flights : List (Flight Value)} {i : Nat}

omit [Platform] [ValueBounds Value] in
theorem flightsOpened_set {fl fl' : Flight Value} (hf : flights[i]? = some fl)
    (hn : fl'.node = fl.node) :
    flightsOpened n (flights.set i fl') = flightsOpened n flights := by
  rw [flightsOpened, Table.sum_set (d := 0) hf (by rw [hn, add_zero]), add_zero]
  rfl

omit [Platform] [ValueBounds Value] in
theorem callsInGroup_set {g g' : GetCall Value} (hg : gets[i]? = some g)
    (hn : g'.node = g.node) (hfl : g'.flight = g.flight) :
    callsInGroup n (gets.set i g') = callsInGroup n gets := by
  rw [callsInGroup, Table.sum_set (d := 0) hg (by rw [hn, hfl, add_zero]), add_zero]
  rfl

omit [Platform] [ValueBounds Value] in
theorem callsInGroup_enter {g : GetCall Value} (hg : gets[i]? = some g) (hfl : g.flight = none)
    (f : Nat) :
    callsInGroup n (gets.set i { g with flight := some f, phase := .waiting f })
      = callsInGroup n gets + if g.node = n then 1 else 0 := by
  apply Table.sum_set hg
  split <;> simp_all

omit [Platform] [ValueBounds Value] in
theorem callsInGroup_concat {g : GetCall Value} (hfl : g.flight = none) :
    callsInGroup n (gets ++ [g]) = callsInGroup n gets := by
  rw [callsInGroup, Table.sum_concat, hfl, if_neg (by simp), add_zero]
  rfl

end Group

omit [ValueBounds Value] in
/-- A call that is not about to enter the group joins no flight. -/
theorem Cluster.joins_eq_false {i : Nat} {call : GetCall Value} (hcall : c.gets[i]? = some call)
    (hp : ∀ peer, call.phase ≠ .deduping peer) : c.joins n (.runGet i) = false := by
  simp only [Cluster.joins, hcall]

/-- **Every call in the group has opened its flight or joined it.** -/
theorem Move.callsInGroup_eq (m : Move c a c') (hinv : c.Inv) {joined : Nat}
    (h : callsInGroup n c.gets = flightsOpened n c.flights + joined) :
    callsInGroup n c'.gets = flightsOpened n c'.flights
      + (joined + if c.joins n a then 1 else 0 : ℕ) := by
  have same : ∀ {f : Nat} {fl fl' : Flight Value}, c.flights[f]? = some fl →
      fl'.node = fl.node →
      callsInGroup n c.gets = flightsOpened n (c.flights.set f fl') + joined := by
    intro f fl fl' hf hn
    rw [flightsOpened_set hf hn]
    exact h
  cases m with
  | get node key => exact (callsInGroup_concat rfl).trans h
  | @getStep i call call' metrics hcall hs =>
      have hph := (hinv.gets i call hcall).phase
      rw [GetCall.PhaseOk] at hph
      cases hs with
      | joined hp hf =>
          rw [hp] at hph
          refine (callsInGroup_enter hcall hph _).trans ?_
          simp only [Cluster.joins, hcall, hp, hf, h]
          by_cases hn : call.node = n <;> simp [hn, add_assoc]
      | _ =>
          refine Eq.trans (callsInGroup_set hcall ?_ ?_) ?_ <;> try rfl
          rw [Cluster.joins_eq_false hcall (by simp_all)]
          exact h
  | @openFlight i call peer hcall hp hnone =>
      have hph := (hinv.gets i call hcall).phase
      rw [GetCall.PhaseOk, hp] at hph
      refine (callsInGroup_enter hcall hph _).trans ?_
      rw [flightsOpened, Table.sum_concat, h]
      simp only [Cluster.joins, hcall, hp, hnone]
      by_cases hn : call.node = n <;> simp [hn, flightsOpened, add_right_comm]
  | flightStep metrics hf hs =>
      refine same hf ?_
      cases hs <;> rfl
  | sendGet metrics hf =>
      refine (callsInGroup_concat rfl).trans (same hf ?_)
      rfl
  | unwrapped message hf => refine same hf ?_; rfl
  | lost metrics status hf => refine same hf ?_; rfl
  | startLoad metrics hf => refine same hf ?_; rfl
  | finishLoad metrics result hf => refine same hf ?_; rfl
  | insertMain hf => refine same hf ?_; rfl
  | insertHot hf => refine same hf ?_; rfl
  | endFlight hf => refine same hf ?_; rfl
  | _ => exact h

/-! ## Lookups that find a peer to load from -/

def GetPhase.isRouting : GetPhase Value → Bool
  | .routing => true
  | _ => false

omit [Platform] [ValueBounds Value] in
theorem GetPhase.isRouting_iff {p : GetPhase Value} : p.isRouting = true ↔ p = .routing := by
  cases p <;> simp [GetPhase.isRouting]

/-- Lookups of calls on node `n` find the node itself or a peer with a client. -/
def LookupsResolve (n : GroupcachePeer) (c : Cluster Value) : Action Value → Prop
  | .runGet i => ∀ call, c.gets[i]? = some call → call.node = n → call.phase = .routing →
      ∃ found, (c.node n).topology.routing.lookupPeer call.key = .ok found ∧ found.Resolves n
  | _ => True

omit [ValueBounds Value] in
/-- A step of a call that looks nothing up. -/
theorem LookupsResolve.of_phase {i : Nat} {call : GetCall Value}
    (hcall : c.gets[i]? = some call) (hp : call.phase.isRouting = false) :
    LookupsResolve n c (.runGet i) := by
  intro x hx _ hrouting
  cases hcall.symm.trans hx
  rw [hrouting] at hp
  cases hp

/-- What a call whose lookup has resolved can have come to: an error is that
of the flight. -/
def GetCall.Resolved (g : GetCall Value) : Prop :=
  match g.phase with
  | .deduping found => found.Resolves g.node
  | .returned (.error _) => g.flight.isSome
  | .panicked _ => False
  | _ => True

structure Cluster.Resolved (n : GroupcachePeer) (c : Cluster Value) : Prop where
  gets : ∀ (i : Nat) (g : GetCall Value), c.gets[i]? = some g → g.node = n → g.Resolved
  flights : ∀ (f : Nat) (fl : Flight Value), c.flights[f]? = some fl → fl.node = n →
    fl.peer.Resolves n ∧ (fl.phase ≠ .opened → fl.load.isSome ∨ fl.request.isSome)

namespace Cluster.Resolved

omit [ValueBounds Value] in
theorem start {routing : GroupcachePeer → RoutingState} :
    (Cluster.start routing : Cluster Value).Resolved n where
  gets i g hg := by simp [Cluster.start] at hg
  flights f fl hf := by simp [Cluster.start] at hf

theorem step_gets (h : c.Resolved n) (hinv : c.Inv) (hguard : LookupsResolve n c a)
    (m : Move c a c') (i : Nat) (g : GetCall Value) (hg : c'.gets[i]? = some g)
    (hn : g.node = n) : g.Resolved := by
  cases m with
  | get node key =>
      rcases Table.append_cases hg with hg | ⟨_, rfl⟩
      · exact h.gets i g hg hn
      · trivial
  | getStep metrics hcall hs =>
      rcases Table.set_cases hg with ⟨rfl, rfl⟩ | ⟨_, hg⟩
      · have hlookup := hguard _ hcall (hs.same.1.symm.trans hn)
        have hph := (hinv.gets i _ hcall).phase
        rw [GetCall.PhaseOk] at hph
        cases hs with
        | routed hp hl =>
            obtain ⟨found, hfound, hres⟩ := hlookup hp
            subst hn
            cases hl.symm.trans hfound
            exact hres
        | unrouted hp hl =>
            obtain ⟨found, hfound, _⟩ := hlookup hp
            subst hn
            cases hl.symm.trans hfound
        | panicked hp hl =>
            obtain ⟨found, hfound, _⟩ := hlookup hp
            subst hn
            cases hl.symm.trans hfound
        | @shared f fl result hp =>
            rw [hp] at hph
            cases result with
            | error e => exact Option.isSome_of_eq_some hph
            | ok loaded => trivial
        | _ => trivial
      · exact h.gets i g hg hn
  | openFlight hcall =>
      rcases Table.set_cases hg with ⟨_, rfl⟩ | ⟨_, hg⟩
      · trivial
      · exact h.gets i g hg hn
  | sendGet metrics hf =>
      rcases Table.append_cases hg with hg | ⟨_, rfl⟩
      · exact h.gets i g hg hn
      · trivial
  | _ => exact h.gets i g hg hn

theorem step_flights (h : c.Resolved n) (m : Move c a c') (f : Nat) (fl : Flight Value)
    (hf : c'.flights[f]? = some fl) (hn : fl.node = n) :
    fl.peer.Resolves n ∧ (fl.phase ≠ .opened → fl.load.isSome ∨ fl.request.isSome) := by
  rcases m.flight_becomes hf with hsame | ⟨i, call, _, hcall, hp, _, _, hnew⟩ | ⟨old, hold, hnext⟩
  · exact h.flights f fl hsame hn
  · have hres := h.gets i call hcall
    rw [GetCall.Resolved, hp] at hres
    rw [hnew] at hn ⊢
    exact ⟨hn ▸ hres hn, fun hne => absurd rfl hne⟩
  · obtain ⟨hnode, _, hpeer⟩ := hnext.same
    obtain ⟨hres, hmade⟩ := h.flights f old hold (hnode.symm.trans hn)
    refine ⟨hpeer ▸ hres, fun _ => ?_⟩
    cases hnext with
    | alone hs =>
        cases hs with
        | unreachable hp hd => exact absurd hd ((hn ▸ hres).dispatch_ne_error _)
        | answered hp => exact hmade (by simp [hp])
        | refused hp => exact hmade (by simp [hp])
    | startLoad => exact .inl rfl
    | sendGet => exact .inr rfl
    | lost status hp => exact hmade (by simp [hp])
    | finishLoad result hp => exact hmade (by simp [hp])
    | insertMain hp => exact hmade (by simp [hp])
    | insertHot hp => exact hmade (by simp [hp])
    | endFlight hp => exact hmade (by simp [hp])

end Cluster.Resolved

/-! ## The laws of one record -/

/-- A call in the group is counted, and hits no cache. -/
theorem GetCall.le_balance_tally {i : Nat} {g : GetCall Value} (hok : g.Ok c i) :
    (if g.flight.isSome then 1 else 0) ≤ g.tally.balance := by
  have hph := hok.phase
  rw [GetCall.PhaseOk] at hph
  rw [GetCall.balance_tally]
  cases hp : g.phase with
  | hit loaded => simp_all
  | waiting f => simp_all
  | returned result => cases result <;> cases g.flight <;> simp
  | panicked message => cases g.flight <;> simp
  | _ => simp_all

/-- A call that is through with it is in the group or has hit a cache. -/
theorem GetCall.balance_tally_eq {i : Nat} {g : GetCall Value} (hok : g.Ok c i)
    (hres : g.Resolved) (hidle : g.phase = .requested ∨ ∃ result, g.phase = .returned result) :
    g.tally.balance = if g.flight.isSome then 1 else 0 := by
  have hph := hok.phase
  rw [GetCall.PhaseOk] at hph
  rw [GetCall.Resolved] at hres
  rw [GetCall.balance_tally]
  rcases hidle with hp | ⟨result, hp⟩
  · simp_all
  · cases result with
    | error e => simp_all
    | ok loaded => cases hfl : g.flight <;> simp [hp]

/-! ## The laws of a node's counters -/

/-- No call of `get` is in progress on node `n`; requests that its handler has
not taken up may be there. -/
def Cluster.Idle (n : GroupcachePeer) (c : Cluster Value) : Prop :=
  ∀ (i : Nat) (g : GetCall Value), c.gets[i]? = some g → g.node = n →
    g.phase = .requested ∨ ∃ result, g.phase = .returned result

/-- The laws of the counters of node `n`, where `joined` calls on it have
joined the flight of another. -/
structure Cluster.Accounting (n : GroupcachePeer) (joined : Nat) (c : Cluster Value) : Prop where
  localErrors : (c.metrics n).localLoadErrors ≤ (c.metrics n).localLoadTotal
  remoteErrors : (c.metrics n).remoteLoadErrors ≤ (c.metrics n).remoteLoadTotal
  bound : (c.metrics n).localCacheHitTotal + (c.metrics n).localLoadTotal
      + (c.metrics n).remoteLoadTotal
    ≤ (c.metrics n).getTotal + (c.metrics n).remoteLoadErrors
  balance : c.Idle n → (c.metrics n).getTotal = (c.metrics n).localCacheHitTotal
    + (c.metrics n).localLoadTotal
    + ((c.metrics n).remoteLoadTotal - (c.metrics n).remoteLoadErrors) + joined
  server : c.Idle n → (c.metrics n).getServerRequestsTotal ≤ (c.metrics n).getTotal

namespace Cluster.Accounted

omit [ValueBounds Value] in
/-- What holds of sums holds of the counters if it does of every record. -/
theorem induction (h : c.Accounted) (n : GroupcachePeer) {P : Metrics → Prop} (h₀ : P 0)
    (hadd : ∀ a b, P a → P b → P (a + b))
    (hgets : ∀ (i : Nat) (g : GetCall Value), c.gets[i]? = some g → g.node = n → P g.tally)
    (hflights : ∀ fl : Flight Value, P fl.tally) : P (c.metrics n) := by
  rw [h.metrics]
  apply hadd
  · refine List.sum_induction P hadd h₀ fun m hm => ?_
    obtain ⟨g, hg, rfl⟩ := List.mem_map.mp hm
    obtain ⟨i, hi⟩ := List.getElem?_of_mem hg
    split
    · exact hgets i g hi ‹_›
    · exact h₀
  · refine List.sum_induction P hadd h₀ fun m hm => ?_
    obtain ⟨fl, _, rfl⟩ := List.mem_map.mp hm
    split
    · exact hflights fl
    · exact h₀

omit [ValueBounds Value] in
theorem errorsLe (h : c.Accounted) (n : GroupcachePeer) : (c.metrics n).ErrorsLe :=
  h.induction n ⟨Nat.le_refl 0, Nat.le_refl 0⟩ (fun _ _ => Metrics.ErrorsLe.add)
    (fun _ g _ _ => g.errorsLe_tally) Flight.errorsLe_tally

omit [ValueBounds Value] in
theorem balance_eq (h : c.Accounted) (n : GroupcachePeer) : (c.metrics n).balance
    = (c.gets.map fun g => if g.node = n then g.tally.balance else 0).sum
      + (c.flights.map fun fl => if fl.node = n then fl.tally.balance else 0).sum := by
  rw [h.metrics, map_add, getsTally, flightsTally, map_list_sum, map_list_sum, List.map_map,
    List.map_map]
  simp only [Function.comp_def, apply_ite Metrics.balance, map_zero]

/-- The calls counted and not answered for are in the group at least, without
those that have opened its flights. -/
theorem le_balance (h : c.Accounted) (hinv : c.Inv) (n : GroupcachePeer) :
    callsInGroup n c.gets - flightsOpened n c.flights ≤ (c.metrics n).balance := by
  have hgets : callsInGroup n c.gets
      ≤ (c.gets.map fun g => if g.node = n then g.tally.balance else 0).sum := by
    refine List.sum_le_sum fun g hg => ?_
    obtain ⟨i, hi⟩ := List.getElem?_of_mem hg
    have hle := GetCall.le_balance_tally (hinv.gets i g hi)
    by_cases hn : g.node = n <;> simp [hn, hle]
  have hflights : 0 ≤ (c.flights.map fun fl => if fl.node = n then fl.tally.balance else 0).sum
      + flightsOpened n c.flights := by
    rw [flightsOpened, ← List.sum_map_add]
    refine List.sum_nonneg fun x hx => ?_
    obtain ⟨fl, _, rfl⟩ := List.mem_map.mp hx
    rw [Flight.balance_tally]
    split_ifs <;> decide
  rw [h.balance_eq]
  omega

omit [ValueBounds Value] in
/-- The flights of an idle node have ended. -/
private theorem ended_of_idle (hsharing : c.Sharing) (hidle : c.Idle n) {f : Nat}
    {fl : Flight Value} (hf : c.flights[f]? = some fl) (hn : fl.node = n) :
    ∃ result, fl.phase = .ended result := by
  obtain ⟨i, g, hg, hgf⟩ := hsharing.led f fl hf
  obtain ⟨x, hx, hgn, _, hshare⟩ := hsharing.shared i g f hg hgf
  obtain rfl : fl = x := Option.some.inj (hf.symm.trans hx)
  rcases hshare with hwait | ⟨result, hend, _⟩
  · rcases hidle i g hg (hgn.symm.trans hn) with hp | ⟨_, hp⟩ <;> cases hwait.symm.trans hp
  · exact ⟨result, hend⟩

/-- On an idle node whose lookups have resolved there are no others. -/
theorem balance_eq_of_idle (h : c.Accounted) (hinv : c.Inv) (hsharing : c.Sharing)
    (hres : c.Resolved n) (hidle : c.Idle n) :
    (c.metrics n).balance = callsInGroup n c.gets - flightsOpened n c.flights := by
  have hgets : (c.gets.map fun g => if g.node = n then g.tally.balance else 0).sum
      = callsInGroup n c.gets := by
    refine congrArg List.sum (List.map_congr_left fun g hg => ?_)
    obtain ⟨i, hi⟩ := List.getElem?_of_mem hg
    by_cases hn : g.node = n
    · simp [hn, GetCall.balance_tally_eq (hinv.gets i g hi) (hres.gets i g hi hn) (hidle i g hi hn)]
    · simp [hn]
  have hflights : (c.flights.map fun fl => if fl.node = n then fl.tally.balance else 0).sum
      + flightsOpened n c.flights = 0 := by
    rw [flightsOpened, ← List.sum_map_add]
    refine List.sum_eq_zero fun x hx => ?_
    obtain ⟨fl, hfl, rfl⟩ := List.mem_map.mp hx
    obtain ⟨f, hf⟩ := List.getElem?_of_mem hfl
    by_cases hn : fl.node = n
    · obtain ⟨result, hp⟩ := ended_of_idle hsharing hidle hf hn
      have hmade := (hres.flights f fl hf hn).2 (by simp [hp])
      simp [hn, Flight.balance_tally, hp, hmade]
    · simp [hn]
  rw [h.balance_eq, hgets]
  omega

end Cluster.Accounted

/-- What the laws follow from. -/
structure Cluster.Ledger (n : GroupcachePeer) (c : Cluster Value) (joined : Nat) : Prop where
  inv : c.Inv
  sharing : c.Sharing
  accounted : c.Accounted
  resolved : c.Resolved n
  calls : callsInGroup n c.gets = flightsOpened n c.flights + joined

theorem Cluster.Ledger.step {joined : Nat} (h : c.Ledger n joined) (hguard : LookupsResolve n c a)
    (hs : c.step a = some c') : c'.Ledger n (joined + if c.joins n a then 1 else 0) :=
  have m := Cluster.step_move hs
  { inv := h.inv.step hs
    sharing := h.sharing.step h.inv hs
    accounted := h.accounted.step h.inv hs
    resolved :=
      { gets := h.resolved.step_gets h.inv hguard m
        flights := h.resolved.step_flights m }
    calls := m.callsInGroup_eq h.inv h.calls }

/-- **The counters of a node account for its calls**, in every state of every
run. Nothing is asked of the other nodes, of what loads and requests come to,
or of the tables beyond the lookups. -/
theorem get_accounting {routing : GroupcachePeer → RoutingState} {joined : Nat}
    (h : Reaches (counting Cluster.step (Cluster.joins n)) (fun s => LookupsResolve n s.1)
      (.start routing, 0) (c, joined)) : c.Accounting n joined := by
  have hledger : c.Ledger n joined :=
    h.counting_invariant (I := Cluster.Ledger n)
      ⟨.start routing, .start, .start, .start, rfl⟩ fun _ _ _ _ hi hg hs => hi.step hg hs
  obtain ⟨hlocal, hremote⟩ := hledger.accounted.errorsLe n
  have hle := hledger.accounted.le_balance hledger.inv n
  have hbalance : (c.metrics n).balance = (c.metrics n).getTotal + (c.metrics n).remoteLoadErrors
    - (c.metrics n).localCacheHitTotal - (c.metrics n).localLoadTotal
    - (c.metrics n).remoteLoadTotal := rfl
  rw [hledger.calls] at hle
  constructor
  case localErrors => exact hlocal
  case remoteErrors => exact hremote
  case bound => omega
  case balance =>
    intro hidle
    have heq := hledger.accounted.balance_eq_of_idle hledger.inv hledger.sharing
      hledger.resolved hidle
    rw [hledger.calls] at heq
    omega
  case server =>
    intro hidle
    refine hledger.accounted.induction n (P := fun m => m.getServerRequestsTotal ≤ m.getTotal)
      (Nat.le_refl 0) (fun a b => Nat.add_le_add) (fun i g hg hn => ?_) fun fl => Nat.le_refl 0
    rcases hidle i g hg hn with hp | ⟨result, hp⟩
    · simp [GetCall.tally, hp]
    · simp only [GetCall.tally, hp, GetPhase.isReceived, GetPhase.isCounted]
      exact Bool.toNat_le_toNat (Bool.and_le_right _ _)

omit [Platform] [ValueBounds Value] in
/-- Two calls share one load. -/
theorem get_accounting_sample :
    let _ : Platform := Concrete.platform [Concrete.node 8001]
    let _ : ValueBounds UInt8 := Concrete.messagePack
    ∃ c : Cluster UInt8, c.Accounting (Concrete.node 8001) 1 ∧
      c.metrics (Concrete.node 8001) = { getTotal := 2, localLoadTotal := 1 } := by
  intro _ _
  have hl := Concrete.lookupPeer_alone 8001 "key"
  refine ⟨_, @get_accounting _ UInt8 _ _ (Concrete.node 8001) .withLocalPeer 1 <|
    .head (a := .get (Concrete.node 8001) "key") trivial (counting_skip rfl rfl) <|
    .head (a := .get (Concrete.node 8001) "key") trivial (counting_skip rfl rfl) <|
    .head (a := .runGet 0) (.of_phase rfl rfl) (counting_skip rfl rfl) <|
    .head (a := .runGet 0) (.of_phase rfl rfl) (counting_skip rfl rfl) <|
    .head (a := .runGet 0) (.of_phase rfl rfl) (counting_skip rfl rfl) <|
    .head (a := .runGet 0) ?_ (counting_skip (Cluster.step_routing rfl rfl hl) rfl) <|
    .head (a := .runGet 0) (.of_phase rfl rfl) (counting_skip rfl rfl) <|
    .head (a := .runGet 1) (.of_phase rfl rfl) (counting_skip rfl rfl) <|
    .head (a := .runGet 1) (.of_phase rfl rfl) (counting_skip rfl rfl) <|
    .head (a := .runGet 1) (.of_phase rfl rfl) (counting_skip rfl rfl) <|
    .head (a := .runGet 1) ?_ (counting_skip (Cluster.step_routing rfl rfl hl) rfl) <|
    .head (a := .runGet 1) (.of_phase rfl rfl) (counting_count rfl rfl) <|
    .head (a := .runFlight 0) trivial (counting_skip rfl rfl) <|
    .head (a := .load 0 (.ok 7)) trivial (counting_skip rfl rfl) <|
    .head (a := .runFlight 0) trivial (counting_skip rfl rfl) <|
    .head (a := .runFlight 0) trivial (counting_skip rfl rfl) <|
    .head (a := .runGet 0) (.of_phase rfl rfl) (counting_skip rfl rfl) <|
    .single (a := .runGet 1) (.of_phase rfl rfl) (counting_skip rfl rfl), rfl⟩
  all_goals
    intro call hcall _ _
    cases hcall
    exact ⟨_, hl, .inl rfl⟩

end Groupcache
