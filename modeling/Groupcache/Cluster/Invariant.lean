import Groupcache.Cluster.Step
import Groupcache.Lib.Transition

/-!
# What every cluster keeps

`Cluster.Inv` holds in every state a cluster can reach, whatever its tables
and whatever fails. It says for each call and each flight, by its phase, what
it has done so far: which load and which request a flight has made, what a
value was produced by, and which flight wrote a cache entry. The group has
exactly the flights that have not ended.

The records only grow (`Cluster.Extends`), so what is said of a call or a
flight stays true while others run, and a step has to be checked for what it
changes alone.
-/

namespace Groupcache

variable {Value : Type}

/-! ## The records grow -/

/-- A result, once the flight has one. -/
def FlightPhase.result? : FlightPhase Value → Option (GetResult Value)
  | .ending result => some result
  | .ended result => some result
  | _ => none

/-- What a call has become. -/
structure GetCall.Becomes (g g' : GetCall Value) : Prop where
  node : g'.node = g.node
  key : g'.key = g.key
  origin : g'.origin = g.origin
  flight : ∀ f, g.flight = some f → g'.flight = some f
  returned : ∀ result, g.phase = .returned result → g' = g

structure Flight.Becomes (fl fl' : Flight Value) : Prop where
  node : fl'.node = fl.node
  key : fl'.key = fl.key
  peer : fl'.peer = fl.peer
  request : ∀ i, fl.request = some i → fl'.request = some i
  load : ∀ l, fl.load = some l → fl'.load = some l
  result : ∀ result, fl.phase.result? = some result →
    fl'.phase.result? = some result ∧ fl'.request = fl.request ∧ fl'.load = fl.load

structure LoadCall.Becomes (l l' : LoadCall Value) : Prop where
  node : l'.node = l.node
  key : l'.key = l.key
  flight : l'.flight = l.flight
  result : ∀ result, l.result = some result → l'.result = some result

theorem GetCall.Becomes.refl (g : GetCall Value) : g.Becomes g := by
  constructor <;> intros <;> trivial

theorem Flight.Becomes.refl (fl : Flight Value) : fl.Becomes fl := by
  constructor <;> intros <;> simp_all

theorem LoadCall.Becomes.refl (l : LoadCall Value) : l.Becomes l := by
  constructor <;> intros <;> trivial

variable [Platform]

structure Cluster.Extends (c c' : Cluster Value) : Prop where
  gets : Table.Grows GetCall.Becomes c.gets c'.gets
  flights : Table.Grows Flight.Becomes c.flights c'.flights
  loads : Table.Grows LoadCall.Becomes c.loads c'.loads

/-! ## Where values come from -/

variable [ValueBounds Value]

/-- A peer that is sent the one value receives the other. -/
def Resends (v w : Value) : Prop :=
  ∃ bytes, ValueBounds.toVec v = .ok bytes ∧ ValueBounds.fromRead bytes = .ok w

/-- A load for the key produced the value, which has been sent on from peer
to peer since. -/
def Produced (c : Cluster Value) (key : String) (loaded : Loaded Value) : Prop :=
  ∃ load v, c.loads[loaded.load]? = some load ∧ load.key = key ∧ load.result = some (.ok v) ∧
    Relation.ReflTransGen Resends v loaded.value

/-- The call has returned, and its answer carries the value. -/
def Answered (c : Cluster Value) (request : Nat) (loaded : Loaded Value) : Prop :=
  ∃ call result, c.gets[request]? = some call ∧ call.phase = .returned result ∧
    loadRemotely (respondGet result) = some (.ok loaded)

theorem loadRemotely_respondGet {result : GetResult Value} {loaded : Loaded Value}
    (h : loadRemotely (respondGet result) = some (.ok loaded)) :
    ∃ sent, result = .ok sent ∧ Resends sent.value loaded.value ∧ loaded.load = sent.load := by
  cases result with
  | error e => simp [respondGet, loadRemotely] at h
  | ok sent =>
      cases hb : ValueBounds.toVec sent.value with
      | error e => simp [respondGet, hb, loadRemotely] at h
      | ok bytes =>
          simp only [respondGet, hb, loadRemotely] at h
          split at h <;> cases h
          exact ⟨sent, rfl, ⟨bytes, hb, by assumption⟩, rfl⟩

variable {c c' : Cluster Value} {a : Action Value} {key : String} {loaded : Loaded Value}

theorem Produced.mono (h : Produced c key loaded) (hext : c.Extends c') :
    Produced c' key loaded := by
  obtain ⟨load, v, hl, hk, hr, hv⟩ := h
  obtain ⟨load', hl', hb⟩ := hext.loads _ _ hl
  exact ⟨load', v, hl', hb.key.trans hk, hb.result _ hr, hv⟩

theorem Answered.mono {request : Nat} (h : Answered c request loaded) (hext : c.Extends c') :
    Answered c' request loaded := by
  obtain ⟨call, result, hc, hp, hr⟩ := h
  obtain ⟨call', hc', hb⟩ := hext.gets _ _ hc
  rw [hb.returned _ hp] at hc'
  exact ⟨call, result, hc', hp, hr⟩

/-! ## The invariant -/

/-- What a call of `get` has come to, by its phase. -/
def GetCall.PhaseOk (c : Cluster Value) (g : GetCall Value) : Prop :=
  match g.phase with
  | .hit loaded => g.flight = none ∧ Produced c g.key loaded
  | .waiting f => g.flight = some f
  | .returned result => ∀ loaded, result = .ok loaded → Produced c g.key loaded
  | .panicked _ => True
  | _ => g.flight = none

structure GetCall.Ok (c : Cluster Value) (i : Nat) (g : GetCall Value) : Prop where
  flight : ∀ f, g.flight = some f →
    ∃ fl, c.flights[f]? = some fl ∧ fl.node = g.node ∧ fl.key = g.key
  origin : ∀ f, g.origin = some f → ∃ fl client, c.flights[f]? = some fl ∧
    fl.request = some i ∧ fl.key = g.key ∧ fl.peer.client = some client ∧ g.node = client.peer
  phase : g.PhaseOk c

/-- The flight has loaded the value itself, or its request was answered with
it and it has loaded none. -/
def Flight.Obtained (c : Cluster Value) (fl : Flight Value) (loaded : Loaded Value) : Prop :=
  Produced c fl.key loaded ∧ (fl.load = some loaded.load ∨
    fl.load = none ∧ ∃ request, fl.request = some request ∧ Answered c request loaded)

/-- What a flight has come to, by its phase. -/
def Flight.PhaseOk (c : Cluster Value) (fl : Flight Value) : Prop :=
  match fl.phase with
  | .opened => fl.request = none ∧ fl.load = none
  | .loading l => fl.load = some l ∧ ∀ load, c.loads[l]? = some load → load.result = none
  | .insertMain loaded => fl.peer.peer = fl.node ∧ fl.load = some loaded.load ∧
      Produced c fl.key loaded
  | .awaiting request => fl.request = some request ∧ fl.load = none
  | .remoteFailed => fl.request.isSome ∧ fl.load = none
  | .insertHot loaded => fl.load = none ∧ Produced c fl.key loaded ∧
      ∃ request, fl.request = some request ∧ Answered c request loaded
  | .ending result => ∀ loaded, result = .ok loaded → fl.Obtained c loaded
  | .ended result => ∀ loaded, result = .ok loaded → fl.Obtained c loaded
  | .panicked _ => True

structure Flight.Ok (c : Cluster Value) (f : Nat) (fl : Flight Value) : Prop where
  request : ∀ i, fl.request = some i → fl.peer.peer ≠ fl.node ∧ ∃ g client,
    c.gets[i]? = some g ∧ g.origin = some f ∧ g.key = fl.key ∧
      fl.peer.client = some client ∧ g.node = client.peer
  load : ∀ l, fl.load = some l →
    ∃ load, c.loads[l]? = some load ∧ load.node = fl.node ∧ load.key = fl.key ∧ load.flight = f
  phase : fl.PhaseOk c

/-- An entry of a main cache: the owner's own load. -/
def MainOk (c : Cluster Value) (n : GroupcachePeer) (key : String) (e : Entry Value) : Prop :=
  Produced c key e.loaded ∧ ∃ fl, c.flights[e.flight]? = some fl ∧ fl.node = n ∧ fl.key = key ∧
    fl.peer.peer = n ∧ fl.load = some e.loaded.load

/-- An entry of a hot cache: the answer of a peer, from a flight that has
ended without a load of its own. -/
def HotOk (c : Cluster Value) (n : GroupcachePeer) (key : String) (e : Entry Value) : Prop :=
  Produced c key e.loaded ∧ ∃ fl request, c.flights[e.flight]? = some fl ∧ fl.node = n ∧
    fl.key = key ∧ fl.request = some request ∧ fl.load = none ∧
    fl.phase.result? = some (.ok e.loaded) ∧ Answered c request e.loaded

structure Cluster.Inv (c : Cluster Value) : Prop where
  gets : ∀ (i : Nat) (g : GetCall Value), c.gets[i]? = some g → g.Ok c i
  flights : ∀ (f : Nat) (fl : Flight Value), c.flights[f]? = some fl → fl.Ok c f
  loads : ∀ (l : Nat) (load : LoadCall Value), c.loads[l]? = some load →
    ∃ fl, c.flights[load.flight]? = some fl ∧ fl.load = some l ∧ fl.node = load.node ∧
      fl.key = load.key
  group : ∀ n key f, (c.node n).singleFlightGroup key = some f ↔
    ∃ fl, c.flights[f]? = some fl ∧ fl.node = n ∧ fl.key = key ∧
      ∀ result, fl.phase ≠ .ended result
  main : ∀ n key e, (c.node n).mainCache key = some e → MainOk c n key e
  hot : ∀ n key e, (c.node n).hotCache key = some e → HotOk c n key e

/-- What a call has returned was produced by a load for its key. -/
theorem Cluster.Inv.returned (h : c.Inv) {i : Nat} {g : GetCall Value}
    (hg : c.gets[i]? = some g) (hp : g.phase = .returned (.ok loaded)) :
    Produced c g.key loaded := by
  have hph := (h.gets i g hg).phase
  rw [GetCall.PhaseOk, hp] at hph
  exact hph loaded rfl

/-- One flight at a time runs for a key on a node. -/
theorem Cluster.Inv.flight_eq (h : c.Inv) {f f' : Nat} {fl fl' : Flight Value}
    (hf : c.flights[f]? = some fl) (hf' : c.flights[f']? = some fl')
    (hn : fl.node = fl'.node) (hk : fl.key = fl'.key)
    (hp : ∀ result, fl.phase ≠ .ended result) (hp' : ∀ result, fl'.phase ≠ .ended result) :
    f = f' ∧ fl = fl' := by
  have hgroup := (h.group fl'.node fl'.key f).mpr ⟨fl, hf, hn, hk, hp⟩
  have hgroup' := (h.group fl'.node fl'.key f').mpr ⟨fl', hf', rfl, rfl, hp'⟩
  obtain rfl : f = f' := Option.some.inj (hgroup.symm.trans hgroup')
  exact ⟨rfl, Option.some.inj (hf.symm.trans hf')⟩

theorem MainOk.mono {n : GroupcachePeer} {e : Entry Value} (h : MainOk c n key e)
    (hext : c.Extends c') : MainOk c' n key e := by
  obtain ⟨hp, fl, hf, hn, hk, hpeer, hl⟩ := h
  obtain ⟨fl', hf', hb⟩ := hext.flights _ _ hf
  exact ⟨hp.mono hext, fl', hf', hb.node.trans hn, hb.key.trans hk,
    by rw [hb.peer, hpeer], hb.load _ hl⟩

theorem HotOk.mono {n : GroupcachePeer} {e : Entry Value} (h : HotOk c n key e)
    (hext : c.Extends c') : HotOk c' n key e := by
  obtain ⟨hp, fl, request, hf, hn, hk, hreq, hl, hres, ha⟩ := h
  obtain ⟨fl', hf', hb⟩ := hext.flights _ _ hf
  obtain ⟨hres', hreq', hl'⟩ := hb.result _ hres
  exact ⟨hp.mono hext, fl', request, hf', hb.node.trans hn, hb.key.trans hk,
    hreq'.trans hreq, hl'.trans hl, hres', ha.mono hext⟩

theorem GetCall.Ok.mono {i : Nat} {g : GetCall Value} (h : g.Ok c i) (hext : c.Extends c') :
    g.Ok c' i where
  flight f hf := by
    obtain ⟨fl, hfl, hn, hk⟩ := h.flight f hf
    obtain ⟨fl', hfl', hb⟩ := hext.flights _ _ hfl
    exact ⟨fl', hfl', hb.node.trans hn, hb.key.trans hk⟩
  origin f hf := by
    obtain ⟨fl, client, hfl, hreq, hk, hc, hn⟩ := h.origin f hf
    obtain ⟨fl', hfl', hb⟩ := hext.flights _ _ hfl
    exact ⟨fl', client, hfl', hb.request _ hreq, hb.key.trans hk, by rw [hb.peer, hc], hn⟩
  phase := by
    have hp := h.phase
    unfold GetCall.PhaseOk at hp ⊢
    cases hph : g.phase <;> simp only [hph] at hp ⊢ <;> try exact hp
    · exact ⟨hp.1, hp.2.mono hext⟩
    · exact fun loaded hl => (hp loaded hl).mono hext

theorem Flight.Obtained.mono {fl : Flight Value} (h : fl.Obtained c loaded)
    (hext : c.Extends c') : fl.Obtained c' loaded := by
  obtain ⟨hprod, hown | ⟨hl, request, hreq, ha⟩⟩ := h
  · exact ⟨hprod.mono hext, .inl hown⟩
  · exact ⟨hprod.mono hext, .inr ⟨hl, request, hreq, ha.mono hext⟩⟩

/-- The loads in progress are still in progress. -/
theorem Flight.Ok.mono {f : Nat} {fl : Flight Value} (h : fl.Ok c f) (hext : c.Extends c')
    (hload : ∀ l, fl.phase = .loading l →
      ∀ load, c'.loads[l]? = some load → load.result = none) :
    fl.Ok c' f where
  request i hi := by
    obtain ⟨hne, g, client, hg, ho, hk, hc, hn⟩ := h.request i hi
    obtain ⟨g', hg', hb⟩ := hext.gets _ _ hg
    exact ⟨hne, g', client, hg', hb.origin.trans ho, hb.key.trans hk, hc, hb.node.trans hn⟩
  load l hl := by
    obtain ⟨load, hload, hn, hk, hf⟩ := h.load l hl
    obtain ⟨load', hload', hb⟩ := hext.loads _ _ hload
    exact ⟨load', hload', hb.node.trans hn, hb.key.trans hk, hb.flight.trans hf⟩
  phase := by
    have hp := h.phase
    unfold Flight.PhaseOk at hp ⊢
    cases hph : fl.phase <;> simp only [hph] at hp ⊢ <;> try exact hp
    · exact ⟨hp.1, hload _ hph⟩
    · exact ⟨hp.1, hp.2.1, hp.2.2.mono hext⟩
    · obtain ⟨hl, hprod, request, hreq, ha⟩ := hp
      exact ⟨hl, hprod.mono hext, request, hreq, ha.mono hext⟩
    · exact fun loaded hl => (hp loaded hl).mono hext
    · exact fun loaded hl => (hp loaded hl).mono hext

/-! ## What a step keeps -/

omit [Platform] [ValueBounds Value] in
/-- A flight goes on to another phase; a result it has stays. -/
theorem Flight.becomes_phase {fl : Flight Value} {phase : FlightPhase Value}
    (h : ∀ result, fl.phase.result? = some result → phase.result? = some result) :
    fl.Becomes { fl with phase } where
  node := rfl
  key := rfl
  peer := rfl
  request _ h := h
  load _ h := h
  result result hr := ⟨h result hr, rfl, rfl⟩

namespace GetStep

variable {call call' : GetCall Value}

theorem becomes (h : GetStep c call call') (hok : call.PhaseOk c) : call.Becomes call' := by
  have hnone : ∀ peer, call.phase = .deduping peer → call.flight = none := by
    intro peer hp
    simpa [GetCall.PhaseOk, hp] using hok
  cases h <;> constructor <;> intros <;> simp_all

/-- A call that changes alone is in order if it was. -/
theorem ok (h : GetStep c call call') (hinv : c.Inv) {i : Nat}
    (hcall : c.gets[i]? = some call) : call'.Ok c i := by
  have hok := hinv.gets i call hcall
  have hph := hok.phase
  unfold GetCall.PhaseOk at hph
  cases h with
  | received hp =>
      rw [hp] at hph
      exact ⟨hok.flight, hok.origin, hph⟩
  | counted hp =>
      rw [hp] at hph
      exact ⟨hok.flight, hok.origin, hph⟩
  | mainHit hp he =>
      rw [hp] at hph
      exact ⟨hok.flight, hok.origin, hph, (hinv.main _ _ _ he).1⟩
  | mainMiss hp =>
      rw [hp] at hph
      exact ⟨hok.flight, hok.origin, hph⟩
  | hotHit hp he =>
      rw [hp] at hph
      exact ⟨hok.flight, hok.origin, hph, (hinv.hot _ _ _ he).1⟩
  | hotMiss hp =>
      rw [hp] at hph
      exact ⟨hok.flight, hok.origin, hph⟩
  | hit hp =>
      rw [hp] at hph
      refine ⟨hok.flight, hok.origin, fun loaded hl => ?_⟩
      cases hl
      exact hph.2
  | routed hp =>
      rw [hp] at hph
      exact ⟨hok.flight, hok.origin, hph⟩
  | unrouted hp => exact ⟨hok.flight, hok.origin, nofun⟩
  | panicked hp => exact ⟨hok.flight, hok.origin, trivial⟩
  | joined hp hf =>
      refine ⟨fun f hf' => ?_, hok.origin, rfl⟩
      cases hf'
      obtain ⟨fl, hfl, hn, hk, _⟩ := (hinv.group _ _ _).mp hf
      exact ⟨fl, hfl, hn, hk⟩
  | @shared f fl result hp hf hfp =>
      refine ⟨hok.flight, hok.origin, fun loaded hl => ?_⟩
      rw [hp] at hph
      obtain ⟨fl', hfl', _, hk⟩ := hok.flight f hph
      obtain rfl : fl = fl' := Option.some.inj (hf.symm.trans hfl')
      have hflp := (hinv.flights f fl hf).phase
      rw [Flight.PhaseOk, hfp] at hflp
      cases result with
      | error e => cases hl
      | ok sent =>
          cases hl
          exact hk ▸ (hflp _ rfl).1

end GetStep

namespace FlightStep

variable {fl fl' : Flight Value}

theorem becomes (h : FlightStep c fl fl') : fl.Becomes fl' := by
  cases h with
  | unreachable hp => exact Flight.becomes_phase (by simp [hp, FlightPhase.result?])
  | answered hp => exact Flight.becomes_phase (by simp [hp, FlightPhase.result?])
  | refused hp => exact Flight.becomes_phase (by simp [hp, FlightPhase.result?])

/-- A flight that changes alone is in order if it was. -/
theorem ok (h : FlightStep c fl fl') (hinv : c.Inv) {f : Nat} (hf : c.flights[f]? = some fl) :
    fl'.Ok c f := by
  have hok := hinv.flights f fl hf
  have hph := hok.phase
  unfold Flight.PhaseOk at hph
  cases h with
  | unreachable hp => exact ⟨hok.request, hok.load, nofun⟩
  | @answered request call result loaded hp hcall hret hresp =>
      rw [hp] at hph
      obtain ⟨hne, g, client, hg, ho, hk, hc, hn⟩ := hok.request request hph.1
      obtain rfl : call = g := Option.some.inj (hcall.symm.trans hg)
      obtain ⟨sent, rfl, hsend, hload⟩ := loadRemotely_respondGet hresp
      obtain ⟨load, v, hl, hlk, hlr, hv⟩ := hinv.returned hcall hret
      exact ⟨hok.request, hok.load, hph.2,
        ⟨load, v, by rw [hload]; exact hl, hlk.trans hk, hlr, hv.tail hsend⟩,
        request, hph.1, call, .ok sent, hcall, hret, hresp⟩
  | refused hp =>
      rw [hp] at hph
      exact ⟨hok.request, hok.load, by simp [hph.1], hph.2⟩

end FlightStep

/-- **The records only grow.** -/
theorem Move.extends (m : Move c a c') (h : c.Inv) : c.Extends c' where
  gets := by
    cases m with
    | get node key => exact .append GetCall.Becomes.refl _ _
    | getStep metrics hcall hs =>
        exact .set GetCall.Becomes.refl hcall (hs.becomes (h.gets _ _ hcall).phase)
    | openFlight hcall hp hnone =>
        refine .set GetCall.Becomes.refl hcall ⟨rfl, rfl, rfl, fun f hf => ?_, by simp [hp]⟩
        have := (h.gets _ _ hcall).phase
        rw [GetCall.PhaseOk, hp] at this
        rw [this] at hf
        cases hf
    | sendGet metrics hf hp hne hc => exact .append GetCall.Becomes.refl _ _
    | _ => exact .refl GetCall.Becomes.refl _
  flights := by
    cases m with
    | openFlight hcall hp hnone => exact .append Flight.Becomes.refl _ _
    | flightStep metrics hf hs => exact .set Flight.Becomes.refl hf hs.becomes
    | unwrapped message hf hp =>
        exact .set Flight.Becomes.refl hf
          (Flight.becomes_phase (by simp [hp, FlightPhase.result?]))
    | lost metrics status hf hp =>
        exact .set Flight.Becomes.refl hf
          (Flight.becomes_phase (by simp [hp, FlightPhase.result?]))
    | @startLoad f fl metrics hf hp =>
        have hnone : fl.load = none ∧ fl.phase.result? = none := by
          have hok := (h.flights f fl hf).phase
          unfold Flight.PhaseOk at hok
          rcases hp with ⟨hp, _⟩ | hp <;> rw [hp] at hok ⊢ <;> exact ⟨hok.2, rfl⟩
        exact .set Flight.Becomes.refl hf
          ⟨rfl, rfl, rfl, fun _ h => h, by simp [hnone.1], by simp [hnone.2]⟩
    | @sendGet f fl client metrics hf hp hne hc =>
        have hnone : fl.request = none := by
          have hok := (h.flights f fl hf).phase
          rw [Flight.PhaseOk, hp] at hok
          exact hok.1
        exact .set Flight.Becomes.refl hf
          ⟨rfl, rfl, rfl, by simp [hnone], fun _ h => h, by simp [hp, FlightPhase.result?]⟩
    | finishLoad metrics result hf hp =>
        exact .set Flight.Becomes.refl hf
          (Flight.becomes_phase (by simp [hp, FlightPhase.result?]))
    | insertMain hf hp =>
        exact .set Flight.Becomes.refl hf
          (Flight.becomes_phase (by simp [hp, FlightPhase.result?]))
    | insertHot hf hp =>
        exact .set Flight.Becomes.refl hf
          (Flight.becomes_phase (by simp [hp, FlightPhase.result?]))
    | endFlight hf hp =>
        exact .set Flight.Becomes.refl hf
          (Flight.becomes_phase (by simp [hp, FlightPhase.result?]))
    | _ => exact .refl Flight.Becomes.refl _
  loads := by
    cases m with
    | startLoad metrics hf hp => exact .append LoadCall.Becomes.refl _ _
    | @finishLoad f l fl metrics result hf hp =>
        refine .modify LoadCall.Becomes.refl fun load hload => ⟨rfl, rfl, rfl, fun r hr => ?_⟩
        have hok := (h.flights f fl hf).phase
        rw [Flight.PhaseOk, hp] at hok
        rw [hok.2 load hload] at hr
        cases hr
    | _ => exact .refl LoadCall.Becomes.refl _

namespace Cluster.Inv

/-! ### One step, record by record -/

theorem step_gets (h : c.Inv) (m : Move c a c') (i : Nat) (g : GetCall Value)
    (hg : c'.gets[i]? = some g) : g.Ok c' i := by
  have hext := m.extends h
  have keep : ∀ (j : Nat) (g : GetCall Value), c.gets[j]? = some g → g.Ok c' j :=
    fun j g hg => (h.gets j g hg).mono hext
  cases m with
  | get node key =>
      rcases Table.append_cases hg with hg | ⟨rfl, rfl⟩
      · exact keep i g hg
      · exact ⟨nofun, nofun, rfl⟩
  | getStep metrics hcall hs =>
      rcases Table.set_cases hg with ⟨rfl, rfl⟩ | ⟨_, hg⟩
      · exact (hs.ok h hcall).mono hext
      · exact keep i g hg
  | openFlight hcall hp hnone =>
      rcases Table.set_cases hg with ⟨rfl, rfl⟩ | ⟨_, hg⟩
      · refine ⟨fun f hf => ?_, (keep i _ hcall).origin, rfl⟩
        cases hf
        exact ⟨_, List.getElem?_concat_length, rfl, rfl⟩
      · exact keep i g hg
  | sendGet metrics hf hp hne hc =>
      rcases Table.append_cases hg with hg | ⟨rfl, rfl⟩
      · exact keep i g hg
      · refine ⟨nofun, fun f' hf' => ?_, rfl⟩
        cases hf'
        exact ⟨_, _, Table.set_self hf, rfl, rfl, hc, rfl⟩
  | _ => exact keep i g hg

theorem step_flights (h : c.Inv) (m : Move c a c') (f : Nat) (fl : Flight Value)
    (hfl : c'.flights[f]? = some fl) : fl.Ok c' f := by
  have hext := m.extends h
  -- where the loads stay as they are, so do the other flights
  have keep : c'.loads = c.loads → ∀ (j : Nat) (fl : Flight Value), c.flights[j]? = some fl →
      fl.Ok c' j := by
    intro hloads j fl hfl
    refine (h.flights j fl hfl).mono hext fun l hp load hload => ?_
    have hph := (h.flights j fl hfl).phase
    rw [Flight.PhaseOk, hp] at hph
    exact hph.2 load (hloads ▸ hload)
  cases m with
  | openFlight hcall hp hnone =>
      rcases Table.append_cases hfl with hfl | ⟨rfl, rfl⟩
      · exact keep rfl f fl hfl
      · exact ⟨nofun, nofun, rfl, rfl⟩
  | flightStep metrics hf hs =>
      rcases Table.set_cases hfl with ⟨rfl, rfl⟩ | ⟨_, hfl⟩
      · refine (hs.ok h hf).mono hext fun l hp => ?_
        cases hs <;> cases hp
      · exact keep rfl f fl hfl
  | unwrapped message hf hp =>
      rcases Table.set_cases hfl with ⟨rfl, rfl⟩ | ⟨_, hfl⟩
      · have hok := keep rfl f _ hf
        exact ⟨hok.request, hok.load, trivial⟩
      · exact keep rfl f fl hfl
  | lost metrics status hf hp =>
      rcases Table.set_cases hfl with ⟨rfl, rfl⟩ | ⟨_, hfl⟩
      · have hok := keep rfl f _ hf
        have hph := hok.phase
        rw [Flight.PhaseOk, hp] at hph
        exact ⟨hok.request, hok.load, by simp [hph.1], hph.2⟩
      · exact keep rfl f fl hfl
  | @startLoad f' fl' metrics hf hp =>
      rcases Table.set_cases hfl with ⟨rfl, rfl⟩ | ⟨_, hfl⟩
      · refine ⟨fun i hi => ?_, fun l hl => ?_, rfl, fun load hload => ?_⟩
        · exact ((h.flights f fl' hf).request i hi)
        · cases hl
          exact ⟨_, List.getElem?_concat_length, rfl, rfl, rfl⟩
        · rw [List.getElem?_concat_length] at hload
          cases hload
          rfl
      · refine (h.flights f fl hfl).mono hext fun l hp' load hload => ?_
        have hok := h.flights f fl hfl
        have hph := hok.phase
        rw [Flight.PhaseOk, hp'] at hph
        rcases Table.append_cases hload with hload | ⟨rfl, rfl⟩
        · exact hph.2 load hload
        · rfl
  | sendGet metrics hf hp hne hc =>
      rcases Table.set_cases hfl with ⟨rfl, rfl⟩ | ⟨_, hfl⟩
      · have hok := keep rfl f _ hf
        have hph := hok.phase
        rw [Flight.PhaseOk, hp] at hph
        refine ⟨fun i hi => ?_, hok.load, rfl, hph.2⟩
        cases hi
        exact ⟨hne, _, _, List.getElem?_concat_length, rfl, rfl, hc, rfl⟩
      · exact keep rfl f fl hfl
  | @finishLoad f' l fl' metrics result hf hp =>
      -- the load is the flight's own, and gets the result that the flight goes on with
      have hok' := h.flights f' fl' hf
      have hph' := hok'.phase
      rw [Flight.PhaseOk, hp] at hph'
      obtain ⟨load, hload, hn, hk, hfload⟩ := hok'.load l hph'.1
      rcases Table.set_cases hfl with ⟨rfl, rfl⟩ | ⟨hne, hfl⟩
      · have hmod : (c.loads.modify l fun l => { l with result := some result })[l]?
            = some { load with result := some result } := by simp [hload]
        have hprod : ∀ v, result = .ok v →
            Produced { c with
              metrics
              loads := c.loads.modify l fun l => { l with result := some result }
              flights := c.flights.set f { fl' with phase := fl'.afterLoad l result } }
              fl'.key { value := v, load := l } := by
          rintro v rfl
          exact ⟨_, v, hmod, hk, rfl, .refl⟩
        refine ⟨fun i hi => hok'.request i hi, fun j hj => ?_, ?_⟩
        · obtain rfl : l = j := Option.some.inj (hph'.1.symm.trans hj)
          exact ⟨_, hmod, hn, hk, hfload⟩
        · unfold Flight.PhaseOk
          cases result with
          | error e => exact nofun
          | ok v =>
              by_cases hpeer : fl'.peer.peer = fl'.node
              · simp only [Flight.afterLoad, if_pos hpeer]
                exact ⟨hpeer, hph'.1, hprod v rfl⟩
              · simp only [Flight.afterLoad, if_neg hpeer]
                rintro loaded hl
                cases hl
                exact ⟨hprod v rfl, .inl hph'.1⟩
      · -- a load in progress belongs to one flight
        refine (h.flights f fl hfl).mono hext fun j hp' load₂ hload₂ => ?_
        have hok := h.flights f fl hfl
        have hph := hok.phase
        rw [Flight.PhaseOk, hp'] at hph
        rcases Table.modify_cases hload₂ with ⟨rfl, _⟩ | ⟨_, hload₂⟩
        · obtain ⟨load₃, hload₃, _, _, hf₃⟩ := hok.load j hph.1
          obtain rfl : load = load₃ := Option.some.inj (hload.symm.trans hload₃)
          exact absurd (hf₃.symm.trans hfload) hne
        · exact hph.2 load₂ hload₂
  | insertMain hf hp =>
      rcases Table.set_cases hfl with ⟨rfl, rfl⟩ | ⟨_, hfl⟩
      · have hok := keep rfl f _ hf
        have hph := hok.phase
        rw [Flight.PhaseOk, hp] at hph
        refine ⟨hok.request, hok.load, fun loaded hl => ?_⟩
        cases hl
        exact ⟨hph.2.2, .inl hph.2.1⟩
      · exact keep rfl f fl hfl
  | insertHot hf hp =>
      rcases Table.set_cases hfl with ⟨rfl, rfl⟩ | ⟨_, hfl⟩
      · have hok := keep rfl f _ hf
        have hph := hok.phase
        rw [Flight.PhaseOk, hp] at hph
        refine ⟨hok.request, hok.load, fun loaded hl => ?_⟩
        cases hl
        exact ⟨hph.2.1, .inr ⟨hph.1, hph.2.2⟩⟩
      · exact keep rfl f fl hfl
  | endFlight hf hp =>
      rcases Table.set_cases hfl with ⟨rfl, rfl⟩ | ⟨_, hfl⟩
      · have hok := keep rfl f _ hf
        have hph := hok.phase
        rw [Flight.PhaseOk, hp] at hph
        exact ⟨hok.request, hok.load, hph⟩
      · exact keep rfl f fl hfl
  | _ => exact keep rfl f fl hfl

theorem step_loads (h : c.Inv) (m : Move c a c') (l : Nat) (load : LoadCall Value)
    (hl : c'.loads[l]? = some load) : ∃ fl, c'.flights[load.flight]? = some fl ∧
      fl.load = some l ∧ fl.node = load.node ∧ fl.key = load.key := by
  have hext := m.extends h
  have keep : ∀ load : LoadCall Value, c.loads[l]? = some load →
      ∃ fl, c'.flights[load.flight]? = some fl ∧
        fl.load = some l ∧ fl.node = load.node ∧ fl.key = load.key := by
    intro load hl
    obtain ⟨fl, hf, hload, hn, hk⟩ := h.loads l load hl
    obtain ⟨fl', hf', hb⟩ := hext.flights _ _ hf
    exact ⟨fl', hf', hb.load _ hload, hb.node.trans hn, hb.key.trans hk⟩
  cases m with
  | startLoad metrics hf hp =>
      rcases Table.append_cases hl with hl | ⟨rfl, rfl⟩
      · exact keep load hl
      · exact ⟨_, Table.set_self hf, rfl, rfl, rfl⟩
  | finishLoad metrics result hf hp =>
      rcases Table.modify_cases hl with ⟨rfl, old, hold, rfl⟩ | ⟨_, hl⟩
      · exact keep old hold
      · exact keep load hl
  | _ => exact keep load hl

omit [ValueBounds Value] in
/-- A flight that goes on without ending stays in the group. -/
private theorem group_set (h : ∀ n key f, (c.node n).singleFlightGroup key = some f ↔
      ∃ fl, c.flights[f]? = some fl ∧ fl.node = n ∧ fl.key = key ∧
        ∀ result, fl.phase ≠ .ended result)
    {f₀ : Nat} {fl fl' : Flight Value} (hf : c.flights[f₀]? = some fl)
    (hnode : fl'.node = fl.node) (hkey : fl'.key = fl.key)
    (hend : ∀ result, fl.phase ≠ .ended result) (hend' : ∀ result, fl'.phase ≠ .ended result)
    (n : GroupcachePeer) (key : String) (f : Nat) :
    (c.node n).singleFlightGroup key = some f ↔
      ∃ x, (c.flights.set f₀ fl')[f]? = some x ∧ x.node = n ∧ x.key = key ∧
        ∀ result, x.phase ≠ .ended result := by
  rw [h n key f]
  constructor
  · rintro ⟨x, hx, hn, hk, hp⟩
    by_cases hff : f = f₀
    · subst hff
      obtain rfl : fl = x := Option.some.inj (hf.symm.trans hx)
      exact ⟨fl', Table.set_self hf, hnode.trans hn, hkey.trans hk, hend'⟩
    · exact ⟨x, Table.set_of_ne hff hx, hn, hk, hp⟩
  · rintro ⟨x, hx, hn, hk, hp⟩
    rcases Table.set_cases hx with ⟨rfl, rfl⟩ | ⟨_, hx⟩
    · exact ⟨fl, hf, hnode.symm.trans hn, hkey.symm.trans hk, hend⟩
    · exact ⟨x, hx, hn, hk, hp⟩

theorem step_group (h : c.Inv) (m : Move c a c') (n : GroupcachePeer) (key : String) (f : Nat) :
    (c'.node n).singleFlightGroup key = some f ↔
      ∃ fl, c'.flights[f]? = some fl ∧ fl.node = n ∧ fl.key = key ∧
        ∀ result, fl.phase ≠ .ended result := by
  cases m with
  | @openFlight i call peer hcall hp hnone =>
      simp only [Cluster.setFlightOf, Cluster.setNode]
      show ((c.setFlightOf call.node call.key (some c.flights.length)).node n).singleFlightGroup
        key = some f ↔ _
      rw [Cluster.singleFlightGroup_setFlightOf]
      constructor
      · split
        · rename_i hnk
          rintro hf
          cases hf
          exact ⟨_, List.getElem?_concat_length, hnk.1.symm, hnk.2.symm, by simp⟩
        · intro hf
          obtain ⟨fl, hfl, hrest⟩ := (h.group n key f).mp hf
          exact ⟨fl, Table.append_of_some hfl, hrest⟩
      · rintro ⟨fl, hfl, hn, hk, hend⟩
        rcases Table.append_cases hfl with hfl | ⟨rfl, rfl⟩
        · -- no flight ran for the key of the one that has been opened
          have hgroup := (h.group n key f).mpr ⟨fl, hfl, hn, hk, hend⟩
          split
          · rename_i hnk
            obtain ⟨rfl, rfl⟩ := hnk
            rw [hnone] at hgroup
            cases hgroup
          · exact hgroup
        · rw [if_pos ⟨hn.symm, hk.symm⟩]
  | @endFlight f₀ fl₀ result hf hp =>
      show ((c.setFlightOf fl₀.node fl₀.key none).node n).singleFlightGroup key = some f ↔
        ∃ fl, (c.flights.set f₀ { fl₀ with phase := .ended result })[f]? = some fl ∧ _
      rw [Cluster.singleFlightGroup_setFlightOf]
      have hgroup₀ : (c.node fl₀.node).singleFlightGroup fl₀.key = some f₀ :=
        (h.group _ _ _).mpr ⟨fl₀, hf, rfl, rfl, by simp [hp]⟩
      constructor
      · split
        · intro hgroup
          cases hgroup
        · rename_i hnk
          intro hgroup
          obtain ⟨fl, hfl, hn, hk, hend⟩ := (h.group n key f).mp hgroup
          -- the flight that ends was the group's for its key
          have hne : f ≠ f₀ := by
            rintro rfl
            obtain rfl : fl₀ = fl := Option.some.inj (hf.symm.trans hfl)
            exact hnk ⟨hn.symm, hk.symm⟩
          exact ⟨fl, Table.set_of_ne hne hfl, hn, hk, hend⟩
      · rintro ⟨fl, hfl, hn, hk, hend⟩
        rcases Table.set_cases hfl with ⟨rfl, rfl⟩ | ⟨hne, hfl⟩
        · exact absurd rfl (hend result)
        · have hgroup := (h.group n key f).mpr ⟨fl, hfl, hn, hk, hend⟩
          split
          · rename_i hnk
            obtain ⟨rfl, rfl⟩ := hnk
            exact absurd (Option.some.inj (hgroup.symm.trans hgroup₀)) hne
          · exact hgroup
  | flightStep metrics hf hs =>
      refine group_set h.group hf ?_ ?_ ?_ ?_ n key f <;> cases hs <;> simp_all
  | unwrapped message hf hp =>
      refine group_set h.group hf ?_ ?_ (by simp [hp]) ?_ n key f <;> first | rfl | simp
  | lost metrics status hf hp =>
      refine group_set h.group hf ?_ ?_ (by simp [hp]) ?_ n key f <;> first | rfl | simp
  | @startLoad f₀ fl₀ metrics hf hp =>
      have hend : ∀ result, fl₀.phase ≠ .ended result := by
        rcases hp with ⟨hp, _⟩ | hp <;> simp [hp]
      refine group_set h.group hf ?_ ?_ hend ?_ n key f <;> first | rfl | simp
  | sendGet metrics hf hp =>
      refine group_set h.group hf ?_ ?_ (by simp [hp]) ?_ n key f <;> first | rfl | simp
  | @finishLoad f₀ l fl₀ metrics result hf hp =>
      refine group_set h.group hf ?_ ?_ (by simp [hp]) (fun r => ?_) n key f
      · rfl
      · rfl
      cases result with
      | error e => simp [Flight.afterLoad]
      | ok v =>
          simp only [Flight.afterLoad]
          split <;> simp
  | insertMain hf hp =>
      show ((c.setMainCache _ _ _).node n).singleFlightGroup key = some f ↔ _
      rw [Cluster.singleFlightGroup_setMainCache]
      refine group_set h.group hf ?_ ?_ (by simp [hp]) ?_ n key f <;> first | rfl | simp
  | insertHot hf hp =>
      show ((c.setHotCache _ _ _).node n).singleFlightGroup key = some f ↔ _
      rw [Cluster.singleFlightGroup_setHotCache]
      refine group_set h.group hf ?_ ?_ (by simp [hp]) ?_ n key f <;> first | rfl | simp
  | clearHot hc hp =>
      show ((c.setHotCache _ _ _).node n).singleFlightGroup key = some f ↔ _
      rw [Cluster.singleFlightGroup_setHotCache]
      exact h.group n key f
  | clearMain hc hp =>
      show ((c.setMainCache _ _ _).node n).singleFlightGroup key = some f ↔ _
      rw [Cluster.singleFlightGroup_setMainCache]
      exact h.group n key f
  | evictMain => rw [Cluster.singleFlightGroup_setMainCache]; exact h.group n key f
  | evictHot => rw [Cluster.singleFlightGroup_setHotCache]; exact h.group n key f
  | topology => rw [Cluster.singleFlightGroup_setTopology]; exact h.group n key f
  | _ => exact h.group n key f

theorem step_main (h : c.Inv) (m : Move c a c') (n : GroupcachePeer) (key : String)
    (e : Entry Value) (he : (c'.node n).mainCache key = some e) : MainOk c' n key e := by
  have hext := m.extends h
  rcases m.main_cases n key with hsame | ⟨f, fl, loaded, -, hf, hp, rfl, rfl, hins⟩ | ⟨hnone, -⟩
  · rw [hsame] at he
    exact (h.main n key e he).mono hext
  · rw [hins] at he
    cases he
    have hph := (h.flights f fl hf).phase
    rw [Flight.PhaseOk, hp] at hph
    obtain ⟨fl', hf', hb⟩ := hext.flights f fl hf
    exact ⟨hph.2.2.mono hext, fl', hf', hb.node, hb.key, hb.peer ▸ hph.1, hb.load _ hph.2.1⟩
  · rw [hnone] at he
    cases he

theorem step_hot (h : c.Inv) (m : Move c a c') (n : GroupcachePeer) (key : String)
    (e : Entry Value) (he : (c'.node n).hotCache key = some e) : HotOk c' n key e := by
  have hext := m.extends h
  rcases m.hot_cases n key with hsame | hnone | ⟨f, fl, loaded, -, hf, hp, rfl, rfl, hins, hf'⟩
  · rw [hsame] at he
    exact (h.hot n key e he).mono hext
  · rw [hnone] at he
    cases he
  · rw [hins] at he
    cases he
    have hph := (h.flights f fl hf).phase
    rw [Flight.PhaseOk, hp] at hph
    obtain ⟨hload, hprod, request, hreq, ha⟩ := hph
    exact ⟨hprod.mono hext, _, request, hf', rfl, rfl, hreq, hload, rfl, ha.mono hext⟩

theorem start (routing : GroupcachePeer → RoutingState) :
    (Cluster.start routing : Cluster Value).Inv where
  gets i g hg := by simp [Cluster.start] at hg
  flights f fl hf := by simp [Cluster.start] at hf
  loads l load hl := by simp [Cluster.start] at hl
  group n key f := by simp [Cluster.start]
  main n key e he := by simp [Cluster.start] at he
  hot n key e he := by simp [Cluster.start] at he

/-- **The step.** -/
theorem step (h : c.Inv) (hs : c.step a = some c') : c'.Inv :=
  have m := Cluster.step_move hs
  { gets := h.step_gets m
    flights := h.step_flights m
    loads := h.step_loads m
    group := h.step_group m
    main := h.step_main m
    hot := h.step_hot m }

end Cluster.Inv

open Transition in
/-- **Every state a cluster reaches is in order**, whatever its tables. -/
theorem Cluster.reaches_inv {routing : GroupcachePeer → RoutingState}
    {guard : Cluster Value → Action Value → Prop}
    (h : Reaches Cluster.step guard (.start routing) c) : c.Inv :=
  h.invariant (I := Cluster.Inv) (.start routing) fun _ _ _ hi _ hs => hi.step hs

end Groupcache
