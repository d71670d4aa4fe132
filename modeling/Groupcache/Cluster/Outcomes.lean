import Groupcache.Cluster.Accounting

/-!
# What a `get` fails with (`errors.rs`)

A node answers a request that has failed by loading the value itself, so the
error of a peer, of the transport or of the decoder never gets to a caller.
While lookups resolve, every error of a `get` is one that the loader has
returned on the node itself, to the flight that the call had entered
(`fails_locally`), and nothing panics.
-/

namespace Groupcache

open Transition

def GetPhase.isReturned {Value : Type} : GetPhase Value → Bool
  | .returned _ => true
  | _ => false

variable [Platform] {Value : Type} [ValueBounds Value] {c c' : Cluster Value}
  {a : Action Value}

/-- Lookups of the calls of every node resolve. -/
def LookupsResolveAll (c : Cluster Value) (a : Action Value) : Prop :=
  ∀ n, LookupsResolve n c a

omit [ValueBounds Value] in
/-- A step of a call whose lookup resolves. -/
theorem LookupsResolveAll.of_lookup {i : Nat} {call : GetCall Value}
    {found : GroupcachePeerWithClient} (hcall : c.gets[i]? = some call)
    (hl : (c.node call.node).topology.routing.lookupPeer call.key = .ok found)
    (hres : found.Resolves call.node) : LookupsResolveAll c (.runGet i) := by
  intro n x hx hn _
  cases hcall.symm.trans hx
  subst hn
  exact ⟨found, hl, hres⟩

instance {P : GroupcachePeerWithClient → Prop} [DecidablePred P]
    (answer : Except Fault GroupcachePeerWithClient) :
    Decidable (∃ found, answer = .ok found ∧ P found) :=
  match answer with
  | .ok found => decidable_of_iff (P found)
      ⟨fun h => ⟨found, rfl, h⟩, fun ⟨_, heq, h⟩ => Except.ok.inj heq ▸ h⟩
  | .error _ => isFalse nofun

instance (c : Cluster Value) (a : Action Value) : Decidable (LookupsResolveAll c a) :=
  match a with
  | .runGet i => decidable_of_iff
      (∀ call ∈ c.gets[i]?, call.phase.isRouting = true →
        ∃ found, (c.node call.node).topology.routing.lookupPeer call.key = .ok found ∧
          found.Resolves call.node)
      ⟨fun h _ call hcall hn hp => hn ▸ h call hcall (by rw [hp, GetPhase.isRouting]),
        fun h call hcall hp => h call.node call hcall rfl (GetPhase.isRouting_iff.mp hp)⟩
  | .get .. | .remove .. | .runFlight _ | .runRemove _ | .load .. | .failGet .. | .failRemove ..
  | .evictMain .. | .evictHot .. | .topology .. => isTrue fun _ => trivial

/-! ## What flights fail with -/

/-- The flight's load has returned the error. -/
def Flight.FailedBy (c : Cluster Value) (fl : Flight Value) (message : String) : Prop :=
  ∃ l load, fl.load = some l ∧ c.loads[l]? = some load ∧ load.result = some (.error message)

omit [ValueBounds Value] in
theorem Flight.FailedBy.mono {fl fl' : Flight Value} {message : String}
    (h : fl.FailedBy c message) (hext : c.Extends c') (hl : fl'.load = fl.load) :
    fl'.FailedBy c' message := by
  obtain ⟨l, load, hload, hget, hres⟩ := h
  obtain ⟨load', hget', hb⟩ := hext.loads l load hget
  exact ⟨l, load', hl.trans hload, hget', hb.result _ hres⟩

/-- A flight fails with the error of its load, and does not panic. -/
structure Cluster.LoaderErrors (c : Cluster Value) : Prop where
  failed : ∀ (f : Nat) (fl : Flight Value) e, c.flights[f]? = some fl →
    fl.phase.result? = some (.error e) → ∃ message, e = .localLoader message ∧
      fl.FailedBy c message
  panicked : ∀ (f : Nat) (fl : Flight Value) message, c.flights[f]? = some fl →
    fl.phase ≠ .panicked message

/-- The load that returns has the result. -/
theorem Move.load_result {f l : Nat} {result : Except String Value} {fl : Flight Value}
    {load : LoadCall Value} (m : Move c (.load f result) c') (hf : c.flights[f]? = some fl)
    (hp : fl.phase = .loading l) (hl : c.loads[l]? = some load) :
    c'.loads[l]? = some { load with result := some result } := by
  cases m with
  | finishLoad metrics _ hx hpx =>
      obtain rfl := Option.some.inj (hf.symm.trans hx)
      cases hp.symm.trans hpx
      simp [hl]

namespace Cluster.LoaderErrors

omit [ValueBounds Value] in
theorem start {routing : GroupcachePeer → RoutingState} :
    (Cluster.start routing : Cluster Value).LoaderErrors where
  failed f fl e hf := by simp [Cluster.start] at hf
  panicked f fl message hf := by simp [Cluster.start] at hf

theorem step_failed (h : c.LoaderErrors) (hinv : c.Inv) (hres : ∀ n, c.Resolved n)
    (m : Move c a c') (f : Nat) (fl : Flight Value) (e : InternalGroupcacheError)
    (hf : c'.flights[f]? = some fl) (hp : fl.phase.result? = some (.error e)) :
    ∃ message, e = .localLoader message ∧ fl.FailedBy c' message := by
  have hext := m.extends hinv
  rcases m.flight_becomes hf with hsame | ⟨_, _, _, _, _, _, _, hnew⟩ | ⟨old, hold, hnext⟩
  · obtain ⟨message, he, hby⟩ := h.failed f fl e hsame hp
    exact ⟨message, he, hby.mono hext rfl⟩
  · rw [hnew] at hp
    cases hp
  · cases hnext with
    | alone hs =>
        cases hs with
        | unreachable _ hd =>
            exact absurd hd (((hres old.node).flights f old hold rfl).1.dispatch_ne_error _)
        | answered => cases hp
        | refused => cases hp
    | @finishLoad l result hload =>
        have hph := (hinv.flights f old hold).phase
        rw [Flight.PhaseOk, hload] at hph
        obtain ⟨load, hget, _⟩ := (hinv.flights f old hold).load l hph.1
        cases result with
        | error message =>
            cases hp
            exact ⟨message, rfl, l, _, hph.1, m.load_result hold hload hget, rfl⟩
        | ok value =>
            simp only [Flight.afterLoad] at hp
            split at hp <;> cases hp
    | endFlight hend =>
        cases hp
        obtain ⟨message, he, hby⟩ := h.failed f old e hold (by rw [hend]; rfl)
        exact ⟨message, he, hby.mono hext rfl⟩
    | lost => cases hp
    | startLoad => cases hp
    | sendGet => cases hp
    | insertMain => cases hp
    | insertHot => cases hp

theorem step (h : c.LoaderErrors) (hinv : c.Inv) (hres : ∀ n, c.Resolved n)
    (m : Move c a c') : c'.LoaderErrors where
  failed := h.step_failed hinv hres m
  panicked f fl message hf := by
    rcases m.flight_becomes hf with hsame | ⟨_, _, _, _, _, _, _, hnew⟩ | ⟨old, hold, hnext⟩
    · exact h.panicked f fl message hsame
    · rw [hnew]
      simp
    · cases hnext with
      | alone hs => cases hs <;> simp
      | @finishLoad l result _ =>
          cases result with
          | error e => simp [Flight.afterLoad]
          | ok value =>
              simp only [Flight.afterLoad]
              split <;> simp
      | _ => simp

end Cluster.LoaderErrors

/-! ## What calls fail with -/

/-- What is known of a run in which all lookups resolve. -/
structure Cluster.Outcomes (c : Cluster Value) : Prop where
  inv : c.Inv
  sharing : c.Sharing
  resolved : ∀ n, c.Resolved n
  errors : c.LoaderErrors

namespace Cluster.Outcomes

theorem start {routing : GroupcachePeer → RoutingState} :
    (Cluster.start routing : Cluster Value).Outcomes :=
  ⟨.start routing, .start, fun _ => .start, .start⟩

theorem step (h : c.Outcomes) (hguard : LookupsResolveAll c a) (hs : c.step a = some c') :
    c'.Outcomes :=
  have m := Cluster.step_move hs
  { inv := h.inv.step hs
    sharing := h.sharing.step h.inv hs
    resolved := fun n =>
      { gets := (h.resolved n).step_gets h.inv (hguard n) m
        flights := (h.resolved n).step_flights m }
    errors := h.errors.step h.inv h.resolved m }

end Cluster.Outcomes

theorem Cluster.reaches_outcomes {routing : GroupcachePeer → RoutingState}
    (h : Reaches Cluster.step LookupsResolveAll (.start routing) c) : c.Outcomes :=
  h.invariant (I := Cluster.Outcomes) .start fun _ _ _ hi hg hs => hi.step hg hs

/-- The loader has returned the error to the flight that the call had entered,
on the node of the call and for its key. -/
structure GetCall.LoaderFailed (c : Cluster Value) (g : GetCall Value) (l : Nat)
    (load : LoadCall Value) (message : String) : Prop where
  started : c.loads[l]? = some load
  node : load.node = g.node
  key : load.key = g.key
  flight : g.flight = some load.flight
  result : load.result = some (.error message)

theorem Cluster.Outcomes.failed (h : c.Outcomes) {i : Nat} {g : GetCall Value}
    {e : InternalGroupcacheError} (hg : c.gets[i]? = some g)
    (hp : g.phase = .returned (.error e)) : ∃ l load message,
      g.LoaderFailed c l load message ∧ e = .deduped (.localLoader message) := by
  have hres := (h.resolved g.node).gets i g hg rfl
  rw [GetCall.Resolved, hp] at hres
  obtain ⟨f, hgf⟩ := Option.isSome_iff_exists.mp hres
  -- the call has returned what its flight has ended with
  obtain ⟨fl, hf, hn, hk, hwait | ⟨result, hend, hret⟩⟩ := h.sharing.shared i g f hg hgf
  · cases hp.symm.trans hwait
  · cases result with
    | ok loaded => cases hp.symm.trans hret
    | error inner =>
        cases hp.symm.trans hret
        obtain ⟨message, rfl, l, load, hload, hget, hresult⟩ :=
          h.errors.failed f fl inner hf (by rw [hend]; rfl)
        obtain ⟨load', hget', hln, hlk, hlf⟩ := (h.inv.flights f fl hf).load l hload
        obtain rfl : load = load' := Option.some.inj (hget.symm.trans hget')
        exact ⟨l, load, message, ⟨hget, hln.trans hn, hlk.trans hk, hlf ▸ hgf, hresult⟩, rfl⟩

/-- What a `get` can fail with. -/
structure Cluster.FailsLocally (c : Cluster Value) : Prop where
  gets : ∀ (i : Nat) (g : GetCall Value) e, c.gets[i]? = some g →
    g.phase = .returned (.error e) → ∃ l load message, g.LoaderFailed c l load message ∧
      e.display Platform.debug = s!"Loading error: '{message}'"
  /-- What the handler answers with then. -/
  answers : ∀ (i : Nat) (g : GetCall Value) result status, c.gets[i]? = some g →
    g.phase = .returned result → respondGet result = .error status →
    (∃ l load message, g.LoaderFailed c l load message ∧
      status = .internal s!"Loading error: '{message}'") ∨
    ∃ loaded message, result = .ok loaded ∧ ValueBounds.toVec loaded.value = .error message ∧
      status = .internal message
  panics : ∀ (i : Nat) (g : GetCall Value) message, c.gets[i]? = some g →
    g.phase ≠ .panicked message
  flightPanics : ∀ (f : Nat) (fl : Flight Value) message, c.flights[f]? = some fl →
    fl.phase ≠ .panicked message

/-- **Errors of `get` are the node's own loader's**, whatever fails anywhere
else. -/
theorem fails_locally {routing : GroupcachePeer → RoutingState}
    (h : Reaches Cluster.step LookupsResolveAll (.start routing) c) : c.FailsLocally := by
  have hout := Cluster.reaches_outcomes h
  constructor
  case gets =>
    intro i g e hg hp
    obtain ⟨l, load, message, hfailed, rfl⟩ := hout.failed hg hp
    exact ⟨l, load, message, hfailed, rfl⟩
  case answers =>
    intro i g result status hg hp hresp
    cases result with
    | error e =>
        obtain ⟨l, load, message, hfailed, rfl⟩ := hout.failed hg hp
        cases hresp
        exact .inl ⟨l, load, message, hfailed, rfl⟩
    | ok loaded =>
        cases hb : ValueBounds.toVec loaded.value with
        | ok bytes => simp [respondGet, hb] at hresp
        | error message =>
            simp only [respondGet, hb] at hresp
            cases hresp
            exact .inr ⟨loaded, message, rfl, hb, rfl⟩
  case panics =>
    intro i g message hg hp
    have hres := (hout.resolved g.node).gets i g hg rfl
    rw [GetCall.Resolved, hp] at hres
    exact hres
  case flightPanics => exact hout.errors.panicked

omit [Platform] [ValueBounds Value] in
/-- The request is lost, and then the node's own loader fails as well. -/
theorem fails_locally_sample :
    let _ : Platform := Concrete.platform [Concrete.node 8001, Concrete.node 8002]
    let _ : ValueBounds UInt8 := Concrete.messagePack
    ∃ c : Cluster UInt8, c.FailsLocally ∧
      c.gets.map GetCall.phase
        = [.returned (.error (.deduped (.localLoader "boom"))), .requested] := by
  intro _ _
  obtain ⟨hl, -⟩ := Concrete.lookupPeer_paired
  exact ⟨_, @fails_locally _ UInt8 _ _ Concrete.paired <|
    .head (a := .get (Concrete.node 8001) "127.0.0.1:8002_0") (fun _ => trivial) rfl <|
    .head (a := .runGet 0) (fun _ => .of_phase rfl rfl) rfl <|
    .head (a := .runGet 0) (fun _ => .of_phase rfl rfl) rfl <|
    .head (a := .runGet 0) (fun _ => .of_phase rfl rfl) rfl <|
    .head (a := .runGet 0) (.of_lookup rfl hl (.inr rfl)) (Cluster.step_routing rfl rfl hl) <|
    .head (a := .runGet 0) (fun _ => .of_phase rfl rfl) rfl <|
    .head (a := .runFlight 0) (fun _ => trivial) rfl <|
    .head (a := .failGet 0 (.transport "timed out")) (fun _ => trivial) rfl <|
    .head (a := .runFlight 0) (fun _ => trivial) rfl <|
    .head (a := .load 0 (.error "boom")) (fun _ => trivial) rfl <|
    .head (a := .runFlight 0) (fun _ => trivial) rfl <|
    .single (a := .runGet 0) (fun _ => .of_phase rfl rfl) rfl, rfl⟩

end Groupcache
