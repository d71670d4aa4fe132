import Groupcache.Cluster.Provenance
import Groupcache.Topology.Overlap

/-!
# Shared flights (`get_deduped_instrumented`)

The single-flight group runs one future at a time for a key, and the calls
that find it running wait for what it ends with. A flight is one future from
its request to the load it falls back to, so a node never has two of these in
progress for one key (`no_thundering_herd`). The flight goes by the peer that
the call which opened it had looked up; a call that joins has looked up a
peer of its own, and nothing reads that one any more.
-/

namespace Groupcache

open Transition

/-! ## What is in progress for a key -/

def FlightPhase.isAwaiting {Value : Type} : FlightPhase Value → Bool
  | .awaiting _ => true
  | _ => false

theorem FlightPhase.ne_ended {Value : Type} {phase : FlightPhase Value}
    (h : phase.isAwaiting = true) (result : GetResult Value) : phase ≠ .ended result := by
  rintro rfl
  cases h

namespace Cluster

variable [Platform] {Value : Type}

/-- The loads for the key that run on node `n`. -/
def loading (c : Cluster Value) (n : GroupcachePeer) (key : String) : List (LoadCall Value) :=
  c.loads.filter fun load => load.node = n ∧ load.key = key ∧ load.result.isNone

/-- The flights for the key on node `n` that have a request on its way. -/
def requesting (c : Cluster Value) (n : GroupcachePeer) (key : String) : List (Flight Value) :=
  c.flights.filter fun fl => fl.node = n ∧ fl.key = key ∧ fl.phase.isAwaiting

end Cluster

variable [Platform] {Value : Type} [ValueBounds Value] {c c' : Cluster Value}
  {a : Action Value}

/-- A call that has entered the group waits for its flight, or has returned
what the flight has ended with. -/
def GetCall.Shares (c : Cluster Value) (g : GetCall Value) (f : Nat) : Prop :=
  ∃ fl, c.flights[f]? = some fl ∧ fl.node = g.node ∧ fl.key = g.key ∧
    (g.phase = .waiting f ∨
      ∃ result, fl.phase = .ended result ∧ g.phase = .returned (result.mapError .deduped))

/-! ## The invariant -/

/-- Loads run inside flights, flights inside the calls that have opened them,
and each call in the group goes by its flight. -/
structure Cluster.Sharing (c : Cluster Value) : Prop where
  loading : ∀ (l : Nat) (load : LoadCall Value), c.loads[l]? = some load →
    load.result = none → ∃ fl, c.flights[load.flight]? = some fl ∧ fl.phase = .loading l
  shared : ∀ (i : Nat) (g : GetCall Value) f, c.gets[i]? = some g → g.flight = some f →
    g.Shares c f
  led : ∀ (f : Nat) (fl : Flight Value), c.flights[f]? = some fl →
    ∃ (i : Nat) (g : GetCall Value), c.gets[i]? = some g ∧ g.flight = some f

/-- A flight that has ended stays as it is. -/
theorem Move.ended (m : Move c a c') (hinv : c.Inv) {f : Nat} {fl : Flight Value}
    (hf : c.flights[f]? = some fl) {result : GetResult Value} (hp : fl.phase = .ended result) :
    c'.flights[f]? = some fl := by
  obtain ⟨fl', hf', _⟩ := (m.extends hinv).flights f fl hf
  rcases m.flight_becomes hf' with hsame | ⟨_, _, _, _, _, _, rfl, _⟩ | ⟨x, hx, hnext⟩
  · rw [hf', ← hsame, hf]
  · exact absurd (Table.lt_of_getElem? hf) (Nat.lt_irrefl _)
  · obtain rfl : fl = x := Option.some.inj (hf.symm.trans hx)
    cases hnext with
    | alone hs => cases hs <;> simp_all
    | _ => simp_all

omit [Platform] [ValueBounds Value] in
/-- The flight of a load in progress is not one that goes on otherwise. -/
private theorem loading_set {flights : List (Flight Value)} {f j l : Nat}
    {fl fl' : Flight Value} (hf : flights[f]? = some fl) (hp : ∀ l, fl.phase ≠ .loading l)
    (h : ∃ x, flights[j]? = some x ∧ x.phase = .loading l) :
    ∃ x, (flights.set f fl')[j]? = some x ∧ x.phase = .loading l := by
  obtain ⟨x, hx, hpx⟩ := h
  have hne : j ≠ f := by
    rintro rfl
    obtain rfl : fl = x := Option.some.inj (hf.symm.trans hx)
    exact hp l hpx
  exact ⟨x, Table.set_of_ne hne hx, hpx⟩

namespace Cluster.Sharing

omit [ValueBounds Value] in
theorem start {routing : GroupcachePeer → RoutingState} :
    (Cluster.start routing : Cluster Value).Sharing where
  loading l load hl := by simp [Cluster.start] at hl
  shared i g f hg := by simp [Cluster.start] at hg
  led f fl hf := by simp [Cluster.start] at hf

theorem step_loading (h : c.Sharing) (m : Move c a c') (l : Nat)
    (load : LoadCall Value) (hl : c'.loads[l]? = some load) (hres : load.result = none) :
    ∃ fl, c'.flights[load.flight]? = some fl ∧ fl.phase = .loading l := by
  cases m with
  | openFlight =>
      obtain ⟨fl, hf, hp⟩ := h.loading l load hl hres
      exact ⟨fl, Table.append_of_some hf, hp⟩
  | flightStep metrics hf hs =>
      apply loading_set hf _ (h.loading l load hl hres)
      cases hs <;> simp_all
  | unwrapped message hf hp => exact loading_set hf (by simp [hp]) (h.loading l load hl hres)
  | lost metrics status hf hp => exact loading_set hf (by simp [hp]) (h.loading l load hl hres)
  | startLoad metrics hf hp =>
      rcases Table.append_cases hl with hl | ⟨rfl, rfl⟩
      · apply loading_set hf _ (h.loading l load hl hres)
        rcases hp with ⟨hp, _⟩ | hp <;> simp [hp]
      · exact ⟨_, Table.set_self hf, rfl⟩
  | sendGet metrics hf hp => exact loading_set hf (by simp [hp]) (h.loading l load hl hres)
  | @finishLoad f l' fl metrics result hf hp =>
      -- the flight that goes on is the one of the load that has a result now
      rcases Table.modify_cases hl with ⟨rfl, old, hold, rfl⟩ | ⟨hne, hl⟩
      · cases hres
      · obtain ⟨x, hx, hpx⟩ := h.loading l load hl hres
        have hff : load.flight ≠ f := by
          rintro rfl
          obtain rfl : fl = x := Option.some.inj (hf.symm.trans hx)
          rw [hp] at hpx
          cases hpx
          exact hne rfl
        exact ⟨x, Table.set_of_ne hff hx, hpx⟩
  | insertMain hf hp => exact loading_set hf (by simp [hp]) (h.loading l load hl hres)
  | insertHot hf hp => exact loading_set hf (by simp [hp]) (h.loading l load hl hres)
  | endFlight hf hp => exact loading_set hf (by simp [hp]) (h.loading l load hl hres)
  | _ => exact h.loading l load hl hres

theorem step_shared (h : c.Sharing) (hinv : c.Inv) (hinv' : c'.Inv) (m : Move c a c') (i : Nat)
    (g : GetCall Value) (f : Nat) (hg : c'.gets[i]? = some g) (hgf : g.flight = some f) :
    g.Shares c' f := by
  rcases m.get_becomes hg with hsame | hnew | ⟨old, hold, hs | ⟨peer, _, hp, _, rfl, hfl⟩⟩
  · obtain ⟨fl, hf, hn, hk, hwait | ⟨result, hp, hret⟩⟩ := h.shared i g f hsame hgf
    · obtain ⟨fl', hf', hb⟩ := (m.extends hinv).flights f fl hf
      exact ⟨fl', hf', hb.node.trans hn, hb.key.trans hk, .inl hwait⟩
    · exact ⟨fl, m.ended hinv hf hp, hn, hk, .inr ⟨result, hp, hret⟩⟩
  · -- it has not entered the group yet
    have hph := (hinv'.gets i g hg).phase
    rw [GetCall.PhaseOk] at hph
    rcases hnew with hp | hp <;> rw [hp] at hph <;> rw [hgf] at hph <;> cases hph
  · have hph := (hinv.gets i old hold).phase
    rw [GetCall.PhaseOk] at hph
    cases hs with
    | joined hp hgroup =>
        cases hgf
        obtain ⟨fl, hf, hn, hk, _⟩ := (hinv.group _ _ f).mp hgroup
        obtain ⟨fl', hf', hb⟩ := (m.extends hinv).flights f fl hf
        exact ⟨fl', hf', hb.node.trans hn, hb.key.trans hk, .inl rfl⟩
    | @shared f' fl result hp hf hended =>
        rw [hp] at hph
        obtain rfl : f' = f := Option.some.inj (hph.symm.trans hgf)
        obtain ⟨x, hx, hn, hk⟩ := (hinv.gets i old hold).flight f' hph
        obtain rfl : fl = x := Option.some.inj (hf.symm.trans hx)
        exact ⟨fl, m.ended hinv hf hended, hn, hk, .inr ⟨result, hended, rfl⟩⟩
    | _ => simp_all
  · cases hgf
    exact ⟨_, by rw [hfl, List.getElem?_concat_length], rfl, rfl, .inl rfl⟩

theorem step_led (h : c.Sharing) (hinv : c.Inv) (m : Move c a c') (f : Nat) (fl : Flight Value)
    (hf : c'.flights[f]? = some fl) :
    ∃ (i : Nat) (g : GetCall Value), c'.gets[i]? = some g ∧ g.flight = some f := by
  have keep : ∀ old : Flight Value, c.flights[f]? = some old →
      ∃ (i : Nat) (g : GetCall Value), c'.gets[i]? = some g ∧ g.flight = some f := by
    intro old hold
    obtain ⟨i, g, hg, hgf⟩ := h.led f old hold
    obtain ⟨g', hg', hb⟩ := (m.extends hinv).gets i g hg
    exact ⟨i, g', hg', hb.flight f hgf⟩
  rcases m.flight_becomes hf with hsame | ⟨i, call, rfl, _, _, _, rfl, _⟩ | ⟨old, hold, _⟩
  · exact keep fl hsame
  · cases m with
    | openFlight hcall => exact ⟨i, _, Table.set_self hcall, rfl⟩
    | getStep => exact absurd (Table.lt_of_getElem? hf) (Nat.lt_irrefl _)
  · exact keep old hold

theorem step (h : c.Sharing) (hinv : c.Inv) (hs : c.step a = some c') : c'.Sharing :=
  have m := Cluster.step_move hs
  { loading := h.step_loading m
    shared := h.step_shared hinv (hinv.step hs) m
    led := h.step_led hinv m }

end Cluster.Sharing

theorem Cluster.reaches_sharing {routing : GroupcachePeer → RoutingState}
    {guard : Cluster Value → Action Value → Prop}
    (h : Reaches Cluster.step guard (.start routing) c) : c.Inv ∧ c.Sharing :=
  h.invariant (I := fun c => c.Inv ∧ c.Sharing) ⟨.start routing, .start⟩
    fun _ _ _ hi _ hs => ⟨hi.1.step hs, hi.2.step hi.1 hs⟩

/-! ## One at a time -/

variable {n : GroupcachePeer} {key : String}

/-- A load in progress is the one its flight is at. -/
theorem Cluster.Sharing.of_loading (h : c.Sharing) (hinv : c.Inv) {l : Nat}
    {load : LoadCall Value} (hl : c.loads[l]? = some load) (hn : load.node = n)
    (hk : load.key = key) (hres : load.result.isNone) :
    ∃ (f : Nat) (fl : Flight Value), c.flights[f]? = some fl ∧ fl.node = n ∧ fl.key = key ∧
      fl.phase = .loading l := by
  obtain ⟨fl, hf, hp⟩ := h.loading l load hl (by simpa using hres)
  obtain ⟨x, hx, _, hxn, hxk⟩ := hinv.loads l load hl
  obtain rfl : fl = x := Option.some.inj (hf.symm.trans hx)
  exact ⟨_, fl, hf, hxn.trans hn, hxk.trans hk, hp⟩

/-- **At most one load or request for a key is in progress on a node.** -/
theorem Cluster.Sharing.one (h : c.Sharing) (hinv : c.Inv) (n : GroupcachePeer)
    (key : String) : (c.loading n key).length + (c.requesting n key).length ≤ 1 := by
  have hloading : (c.loading n key).length ≤ 1 := by
    apply Table.length_filter_le_one
    intro i j load₁ load₂ hi hj h₁ h₂
    obtain ⟨hn₁, hk₁, hres₁⟩ := of_decide_eq_true h₁
    obtain ⟨hn₂, hk₂, hres₂⟩ := of_decide_eq_true h₂
    obtain ⟨f₁, fl₁, hf₁, hn₁, hk₁, hp₁⟩ := h.of_loading hinv hi hn₁ hk₁ hres₁
    obtain ⟨f₂, fl₂, hf₂, hn₂, hk₂, hp₂⟩ := h.of_loading hinv hj hn₂ hk₂ hres₂
    obtain ⟨rfl, rfl⟩ := hinv.flight_eq hf₁ hf₂ (hn₁.trans hn₂.symm) (hk₁.trans hk₂.symm)
      (by simp [hp₁]) (by simp [hp₂])
    rw [hp₁] at hp₂
    cases hp₂
    rfl
  have hrequesting : (c.requesting n key).length ≤ 1 := by
    apply Table.length_filter_le_one
    intro f₁ f₂ fl₁ fl₂ hf₁ hf₂ h₁ h₂
    obtain ⟨hn₁, hk₁, hp₁⟩ := of_decide_eq_true h₁
    obtain ⟨hn₂, hk₂, hp₂⟩ := of_decide_eq_true h₂
    exact (hinv.flight_eq hf₁ hf₂ (hn₁.trans hn₂.symm) (hk₁.trans hk₂.symm)
      (FlightPhase.ne_ended hp₁) (FlightPhase.ne_ended hp₂)).1
  rcases Nat.eq_zero_or_pos (c.loading n key).length with hzero | hpos
  · omega
  -- the flight of a load in progress is the one that runs, and it awaits no answer
  have hnone : c.requesting n key = [] := by
    obtain ⟨load, hmem⟩ := List.length_pos_iff_exists_mem.mp hpos
    obtain ⟨hmem, hload⟩ := List.mem_filter.mp hmem
    obtain ⟨l, hl⟩ := List.getElem?_of_mem hmem
    obtain ⟨hn, hk, hres⟩ := of_decide_eq_true hload
    obtain ⟨f, fl, hf, hn, hk, hp⟩ := h.of_loading hinv hl hn hk hres
    refine List.filter_eq_nil_iff.mpr fun x hx hrequest => ?_
    obtain ⟨j, hj⟩ := List.getElem?_of_mem hx
    obtain ⟨hxn, hxk, hawaits⟩ := of_decide_eq_true hrequest
    obtain ⟨-, rfl⟩ := hinv.flight_eq hf hj (hn.trans hxn.symm) (hk.trans hxk.symm) (by simp [hp])
      (FlightPhase.ne_ended hawaits)
    rw [hp] at hawaits
    cases hawaits
  rw [hnone]
  exact hloading

/-- Calls for one key on one node do not repeat each other's work. -/
structure Cluster.Deduplicates (c : Cluster Value) : Prop where
  one : ∀ n key, (c.loading n key).length + (c.requesting n key).length ≤ 1
  /-- A call that comes to the group while a flight runs joins it, whatever
  peer it has looked up itself. -/
  joins : ∀ (i : Nat) (g : GetCall Value) (peer : GroupcachePeerWithClient) (f : Nat),
    c.gets[i]? = some g → g.phase = .deduping peer →
    (c.node g.node).singleFlightGroup g.key = some f →
    c.step (.runGet i) = some (c.setGet i { g with flight := some f, phase := .waiting f })
  shares : ∀ (i : Nat) (g : GetCall Value) f, c.gets[i]? = some g → g.flight = some f →
    g.Shares c f
  /-- What its flight has ended with is what a call that waits returns next. -/
  answers : ∀ (i : Nat) (g : GetCall Value) (f : Nat) (fl : Flight Value)
    (result : GetResult Value), c.gets[i]? = some g → g.phase = .waiting f →
    c.flights[f]? = some fl → fl.phase = .ended result →
    c.step (.runGet i)
      = some (c.setGet i { g with phase := .returned (result.mapError .deduped) })

/-- **No thundering herd**, whatever the tables say and whatever fails. -/
theorem no_thundering_herd {routing : GroupcachePeer → RoutingState}
    (h : Reaches Cluster.step (fun _ _ => True) (.start routing) c) : c.Deduplicates := by
  obtain ⟨hinv, hsharing⟩ := Cluster.reaches_sharing h
  constructor
  case one => exact hsharing.one hinv
  case joins =>
    intro i g peer f hg hp hgroup
    simp only [Cluster.step, hg, Option.bind_some, Cluster.runGet, hp, Cluster.getDeduped, hgroup]
  case shares => exact hsharing.shared
  case answers =>
    intro i g f fl result hg hp hf hend
    simp only [Cluster.step, hg, Option.bind_some, Cluster.runGet, hp, hf, hend]

omit [Platform] [ValueBounds Value] in
/-- A call that has looked up the other node joins a flight that was opened
for its own node before the two were paired. -/
theorem no_thundering_herd_sample :
    let _ : Platform := Concrete.platform [Concrete.node 8001, Concrete.node 8002]
    let _ : ValueBounds UInt8 := Concrete.messagePack
    ∃ c : Cluster UInt8, c.Deduplicates ∧
      c.gets.map GetCall.phase = [.waiting 0, .returned (.ok { value := 7, load := 0 })] ∧
      c.flights.map Flight.peer = [{ peer := Concrete.node 8001, client := none }] := by
  intro _ _
  have hown := @Concrete.lookupPeer_own [8001, 8002] (by decide) 8001 (by decide)
    "127.0.0.1:8002_0"
  obtain ⟨hpaired, -⟩ := Concrete.lookupPeer_paired
  refine ⟨_, @no_thundering_herd _ UInt8 _ _ .withLocalPeer <|
    .head (a := .get (Concrete.node 8001) "127.0.0.1:8002_0") trivial rfl <|
    .head (a := .runGet 0) trivial rfl <|
    .head (a := .runGet 0) trivial rfl <|
    .head (a := .runGet 0) trivial rfl <|
    .head (a := .runGet 0) trivial (Cluster.step_routing rfl rfl hown) <|
    .head (a := .runGet 0) trivial rfl <|
    .head (a := .runFlight 0) trivial rfl <|
    .head (a := .topology (Concrete.node 8001)
      (.begin (.addPeer (Concrete.node 8002)) fun _ => .connected 0)) trivial rfl <|
    .head (a := .topology (Concrete.node 8001) (.advance 0 [] [])) trivial rfl <|
    .head (a := .topology (Concrete.node 8001) (.advance 0 [] [])) trivial rfl <|
    .head (a := .topology (Concrete.node 8001) (.advance 0 [] [])) trivial rfl <|
    .head (a := .get (Concrete.node 8001) "127.0.0.1:8002_0") trivial rfl <|
    .head (a := .runGet 1) trivial rfl <|
    .head (a := .runGet 1) trivial rfl <|
    .head (a := .runGet 1) trivial rfl <|
    .head (a := .runGet 1) trivial (Cluster.step_routing rfl rfl hpaired) <|
    .head (a := .runGet 1) trivial rfl <|
    .head (a := .load 0 (.ok 7)) trivial rfl <|
    .head (a := .runFlight 0) trivial rfl <|
    .head (a := .runFlight 0) trivial rfl <|
    .single (a := .runGet 1) trivial rfl, rfl, rfl⟩

end Groupcache
