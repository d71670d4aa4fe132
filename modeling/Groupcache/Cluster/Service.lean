import Groupcache.Cluster.Outcomes
import Groupcache.Lib.Simulation

/-!
# The cluster as a service (`Groupcache::get`)

What the application sees of a cluster are its calls of `get` and what they
return. `Service` is a machine that has no caches, no peers and no flights: a
call is answered once, with what a load for its key returns. A cluster refines
it (`refines_service`), whatever the tables say, however calls share loads and
whatever is lost, removed or evicted, as long as lookups resolve and decoding
undoes encoding.

The loader is a relation, so it may fail now and then, differ between nodes or
change its mind. If it is a function of the key, so is `get`.
-/

namespace Groupcache

open Concrete Transition

/-! ## The service -/

/-- What `ValueLoader::load` may return on a node for a key. -/
abbrev Loads (Value : Type) := GroupcachePeer → String → Except String Value → Prop

/-- The calls and returns of `get` in the application. An error is known by
its text. -/
inductive ServiceEvent (Value : Type) where
  | called (id : Nat) (node : GroupcachePeer) (key : String)
  | answered (id : Nat) (result : Except String Value)
  deriving DecidableEq

/-- A call of the application, and whether it has been answered. -/
structure ServiceCall where
  node : GroupcachePeer
  key : String
  done : Bool

namespace Service

variable {Value : Type}

abbrev State := Nat → Option ServiceCall

def start : State := fun _ => none

/-- The answers to a call: a value that a load for the key returns, on
whichever node, or the error of a load on the node of the call. -/
inductive Answer (loads : Loads Value) (node : GroupcachePeer) (key : String) :
    Except String Value → Prop where
  | value {owner : GroupcachePeer} {v : Value} : loads owner key (.ok v) →
      Answer loads node key (.ok v)
  | error {message : String} : loads node key (.error message) →
      Answer loads node key (.error s!"Loading error: '{message}'")

inductive Next (loads : Loads Value) : State → ServiceEvent Value → State → Prop where
  | called {s : State} {id : Nat} (node : GroupcachePeer) (key : String) : s id = none →
      Next loads s (.called id node key)
        (Function.update s id (some { node, key, done := false }))
  | answered {s : State} {id : Nat} {node : GroupcachePeer} {key : String}
      {result : Except String Value} : s id = some { node, key, done := false } →
      Answer loads node key result →
      Next loads s (.answered id result) (Function.update s id (some { node, key, done := true }))

end Service

/-! ## What is seen of a cluster -/

section Events

variable [Platform] {Value : Type}

/-- What the application gets. -/
def GetResult.seen : GetResult Value → Except String Value
  | .ok loaded => .ok loaded.value
  | .error e => .error (e.display Platform.debug)

namespace GetCall

/-- A call as the application knows it; a peer's request is none of its. -/
def view (g : GetCall Value) : Option ServiceCall :=
  if g.origin.isNone then some { node := g.node, key := g.key, done := g.phase.isReturned }
  else none

/-- What a call that has just gone on returns to the application. -/
def answer (id : Nat) (g : GetCall Value) : Option (ServiceEvent Value) :=
  match g.origin, g.phase with
  | none, .returned result => some (.answered id (GetResult.seen result))
  | _, _ => none

omit [Platform] in
theorem view_eq {g g' : GetCall Value} (hn : g'.node = g.node) (hk : g'.key = g.key)
    (ho : g'.origin = g.origin) (hp : g'.phase.isReturned = g.phase.isReturned) :
    g'.view = g.view := by
  rw [view, view, hn, hk, ho, hp]

theorem answer_eq_none {g : GetCall Value} {id : Nat} (hp : g.phase.isReturned = false) :
    g.answer id = none := by
  unfold answer
  split
  · rename_i hret
    rw [hret] at hp
    cases hp
  · rfl

end GetCall

def viewOf (gets : List (GetCall Value)) : Service.State :=
  fun i => (gets[i]?).bind GetCall.view

namespace Cluster

/-- The calls of the application. -/
def view (c : Cluster Value) : Service.State := viewOf c.gets

/-- What the application sees of a step. -/
def emit (c : Cluster Value) : Action Value → Cluster Value → Option (ServiceEvent Value)
  | .get node key, _ => some (.called c.gets.length node key)
  | .runGet i, c' => (c'.gets[i]?).bind (GetCall.answer i)
  | _, _ => none

end Cluster

end Events

variable [Platform] {Value : Type} [ValueBounds Value] {c c' : Cluster Value}
  {a : Action Value} {loads : Loads Value}

/-! ## The calls, step by step -/

section View

variable {i : Nat} {g g' : GetCall Value} {gets gets' : List (GetCall Value)}

omit [Platform] [ValueBounds Value] in
/-- A call goes on: only its own entry can change. -/
theorem viewOf_set (hg : gets[i]? = some g) :
    viewOf (gets.set i g') = Function.update (viewOf gets) i g'.view := by
  funext j
  by_cases hj : j = i
  · subst hj
    rw [viewOf, Table.set_self hg, Function.update_self]
    rfl
  · rw [viewOf, List.getElem?_set_ne (Ne.symm hj), Function.update_of_ne hj, viewOf]

omit [Platform] [ValueBounds Value] in
theorem viewOf_set_same (hg : gets[i]? = some g) (hv : g'.view = g.view) :
    viewOf (gets.set i g') = viewOf gets := by
  rw [viewOf_set hg, hv]
  refine Function.update_eq_self_iff.mpr ?_
  rw [viewOf, hg]
  rfl

omit [Platform] [ValueBounds Value] in
theorem viewOf_concat (gets : List (GetCall Value)) (g : GetCall Value) :
    viewOf (gets ++ [g]) = Function.update (viewOf gets) gets.length g.view := by
  funext j
  rcases Nat.lt_trichotomy j gets.length with hlt | rfl | hgt
  · rw [viewOf, List.getElem?_append_left hlt, Function.update_of_ne (Nat.ne_of_lt hlt), viewOf]
  · rw [viewOf, List.getElem?_concat_length, Function.update_self]
    rfl
  · have hnone : ∀ rows : List (GetCall Value), rows.length ≤ j → viewOf rows j = none := by
      intro rows h
      rw [viewOf, List.getElem?_eq_none h]
      rfl
    rw [Function.update_of_ne (Nat.ne_of_gt hgt), hnone gets (Nat.le_of_lt hgt)]
    apply hnone
    rw [List.length_append, List.length_singleton]
    omega

omit [ValueBounds Value] in
theorem Cluster.view_length (c : Cluster Value) : c.view c.gets.length = none := by
  rw [Cluster.view, viewOf, List.getElem?_eq_none (Nat.le_refl _)]
  rfl

end View

omit [ValueBounds Value] in
/-- A call goes on and returns, or shows nothing of it. -/
theorem GetStep.view_cases {g g' : GetCall Value} (h : GetStep c g g') :
    (∃ result, g'.phase = .returned result) ∨
      (g'.view = g.view ∧ ∀ i, g'.answer i = none) := by
  have quiet : ∀ phase : GetPhase Value, ∀ flight, phase.isReturned = false →
      g.phase.isReturned = false →
      ({ g with flight, phase } : GetCall Value).view = g.view ∧
        ∀ i, ({ g with flight, phase } : GetCall Value).answer i = none := by
    intro phase flight hp hg
    exact ⟨GetCall.view_eq rfl rfl rfl (hp.trans hg.symm), fun i => GetCall.answer_eq_none hp⟩
  cases h with
  | hit => exact .inl ⟨_, rfl⟩
  | unrouted => exact .inl ⟨_, rfl⟩
  | shared => exact .inl ⟨_, rfl⟩
  | received hp => exact .inr (quiet _ g.flight rfl (by rw [hp]; rfl))
  | counted hp => exact .inr (quiet _ g.flight rfl (by rw [hp]; rfl))
  | mainHit hp => exact .inr (quiet _ g.flight rfl (by rw [hp]; rfl))
  | mainMiss hp => exact .inr (quiet _ g.flight rfl (by rw [hp]; rfl))
  | hotHit hp => exact .inr (quiet _ g.flight rfl (by rw [hp]; rfl))
  | hotMiss hp => exact .inr (quiet _ g.flight rfl (by rw [hp]; rfl))
  | routed hp => exact .inr (quiet _ g.flight rfl (by rw [hp]; rfl))
  | panicked hp => exact .inr (quiet _ g.flight rfl (by rw [hp]; rfl))
  | joined hp => exact .inr (quiet _ _ rfl (by rw [hp]; rfl))

omit [ValueBounds Value] in
/-- Only a call that has not returned goes on. -/
theorem GetStep.unreturned {g g' : GetCall Value} (h : GetStep c g g') :
    g.phase.isReturned = false ∧ g'.origin = g.origin := by
  cases h <;> refine ⟨?_, rfl⟩ <;> simp only [GetPhase.isReturned, *]

/-- **What a step shows of the calls**: nothing, or the event that it emits. -/
theorem Move.view_cases (m : Move c a c') :
    (c'.view = c.view ∧ c.emit a c' = none) ∨
    (∃ node key, a = .get node key ∧
      c'.view = Function.update c.view c.gets.length (some { node, key, done := false })) ∨
    ∃ (i : Nat) (g g' : GetCall Value) (result : GetResult Value), a = .runGet i ∧
      c.gets[i]? = some g ∧ c'.gets[i]? = some g' ∧ g.origin = none ∧
      g.phase.isReturned = false ∧ g'.origin = none ∧ g'.node = g.node ∧ g'.key = g.key ∧
      g'.phase = .returned result ∧
      c'.view = Function.update c.view i (some { node := g.node, key := g.key, done := true }) := by
  have same : c'.gets = c.gets → c.emit a c' = none → c'.view = c.view ∧ c.emit a c' = none := by
    intro hgets he
    exact ⟨by rw [Cluster.view, Cluster.view, hgets], he⟩
  cases m with
  | get node key => exact .inr (.inl ⟨node, key, rfl, viewOf_concat c.gets _⟩)
  | @getStep i g g' metrics hg hs =>
      obtain ⟨hgp, ho⟩ := hs.unreturned
      obtain ⟨hn, hk⟩ := hs.same
      have hset : (c.gets.set i g')[i]? = some g' := Table.set_self hg
      rcases hs.view_cases with ⟨result, hp⟩ | ⟨hv, ha⟩
      · cases hog : g.origin with
        | none =>
            have hview : g'.view = some { node := g.node, key := g.key, done := true } := by
              rw [GetCall.view, ho, hog, hn, hk, hp]
              rfl
            refine .inr (.inr ⟨i, g, g', result, rfl, hg, hset, hog, hgp, ho.trans hog, hn, hk,
              hp, ?_⟩)
            rw [← hview]
            exact viewOf_set hg
        | some f =>
            refine .inl ⟨viewOf_set_same hg ?_, ?_⟩
            · rw [GetCall.view, GetCall.view, ho, hog]
              rfl
            · simp only [Cluster.emit, hset, Option.bind_some, GetCall.answer, ho, hog]
      · refine .inl ⟨viewOf_set_same hg hv, ?_⟩
        simp only [Cluster.emit, hset, Option.bind_some, ha]
  | @openFlight i g peer hg hp =>
      have hset : ∀ g' : GetCall Value, (c.gets.set i g')[i]? = some g' :=
        fun _ => Table.set_self hg
      refine .inl ⟨viewOf_set_same hg (GetCall.view_eq rfl rfl rfl (by rw [hp]; rfl)), ?_⟩
      simp only [Cluster.emit, hset, Option.bind_some]
      exact GetCall.answer_eq_none rfl
  | sendGet metrics hf =>
      refine .inl ⟨?_, rfl⟩
      refine (viewOf_concat c.gets _).trans (Function.update_eq_self_iff.mpr ?_)
      exact (c.view_length).symm
  | _ => exact .inl (same rfl rfl)

/-! ## The refinement -/

/-- The loader returns what it may. -/
def LoadsBy (loads : Loads Value) (c : Cluster Value) : Action Value → Prop
  | .load f result => ∀ fl, c.flights[f]? = some fl → loads fl.node fl.key result
  | _ => True

instance (loads : Loads Value) [∀ n key result, Decidable (loads n key result)]
    (c : Cluster Value) (a : Action Value) : Decidable (LoadsBy loads c a) :=
  match a with
  | .load f result => inferInstanceAs (Decidable
      (∀ fl ∈ c.flights[f]?, loads fl.node fl.key result))
  | .get .. | .remove .. | .runGet _ | .runFlight _ | .runRemove _ | .failGet .. | .failRemove ..
  | .evictMain .. | .evictHot .. | .topology .. => isTrue trivial

/-- Every load has returned what it may. -/
def Cluster.LoadedBy (loads : Loads Value) (c : Cluster Value) : Prop :=
  ∀ (l : Nat) load result, c.loads[l]? = some load → load.result = some result →
    loads load.node load.key result

theorem Cluster.LoadedBy.step (h : c.LoadedBy loads) (hinv : c.Inv) (hguard : LoadsBy loads c a)
    (m : Move c a c') : c'.LoadedBy loads := by
  intro l load result hl hr
  cases m with
  | startLoad metrics hf hp =>
      rcases Table.append_cases hl with hl | ⟨_, rfl⟩
      · exact h l load result hl hr
      · cases hr
  | @finishLoad f j fl metrics res hf hp =>
      rcases Table.modify_cases hl with ⟨rfl, old, hold, rfl⟩ | ⟨_, hl⟩
      · -- the load is the flight's own
        have hph := (hinv.flights f fl hf).phase
        rw [Flight.PhaseOk, hp] at hph
        obtain ⟨own, hown, hn, hk, _⟩ := (hinv.flights f fl hf).load l hph.1
        obtain rfl : old = own := Option.some.inj (hold.symm.trans hown)
        cases hr
        have hby := hguard fl hf
        rwa [← hn, ← hk] at hby
      · exact h l load result hl hr
  | _ => exact h l load result hl hr

/-- What a call has returned is an answer of the service. -/
theorem Cluster.Outcomes.answer (h : c.Outcomes) (hround : ValueBounds.RoundTrips Value)
    (hloads : c.LoadedBy loads) {i : Nat} {g : GetCall Value} {result : GetResult Value}
    (hg : c.gets[i]? = some g) (hp : g.phase = .returned result) :
    Service.Answer loads g.node g.key (GetResult.seen result) := by
  cases result with
  | ok loaded =>
      obtain ⟨load, hl, hk, hr⟩ := (h.inv.returned hg hp).loadedFor hround
      have hby := hloads _ load _ hl hr
      rw [hk] at hby
      exact .value hby
  | error e =>
      obtain ⟨l, load, message, hfailed, rfl⟩ := h.failed hg hp
      have hby := hloads l load _ hfailed.started hfailed.result
      rw [hfailed.node, hfailed.key] at hby
      exact .error hby

theorem Cluster.simulates_service (hround : ValueBounds.RoundTrips Value) (loads : Loads Value) :
    Simulates Cluster.step (fun c a => LookupsResolveAll c a ∧ LoadsBy loads c a) Cluster.emit
      (Service.Next loads) fun c t => (c.Outcomes ∧ c.LoadedBy loads) ∧ t = c.view := by
  have keep : ∀ {c c' : Cluster Value} {a : Action Value}, c.Outcomes ∧ c.LoadedBy loads →
      LookupsResolveAll c a ∧ LoadsBy loads c a → c.step a = some c' →
      c'.Outcomes ∧ c'.LoadedBy loads := by
    intro c c' a h hg hs
    exact ⟨h.1.step hg.1 hs, h.2.step h.1.inv hg.2 (Cluster.step_move hs)⟩
  constructor
  case silent =>
    rintro c c' _ a ⟨h, rfl⟩ hg hs he
    refine ⟨keep h hg hs, ?_⟩
    rcases (Cluster.step_move hs).view_cases with ⟨hv, _⟩ | ⟨node, key, rfl, _⟩ |
      ⟨i, g, g', result, rfl, _, hg', _, _, ho', _, _, hp, _⟩
    · exact hv.symm
    · cases he
    · simp only [Cluster.emit, hg', Option.bind_some, GetCall.answer, ho', hp] at he
      cases he
  case event =>
    rintro c c' _ a e ⟨h, rfl⟩ hg hs he
    have h' := keep h hg hs
    refine ⟨c'.view, ?_, h', rfl⟩
    rcases (Cluster.step_move hs).view_cases with ⟨_, hnone⟩ | ⟨node, key, rfl, hv⟩ |
      ⟨i, g, g', result, rfl, hget, hg', ho, hret, ho', hn, hk, hp, hv⟩
    · cases hnone.symm.trans he
    · cases he
      rw [hv]
      exact .called node key c.view_length
    · simp only [Cluster.emit, hg', Option.bind_some, GetCall.answer, ho', hp] at he
      cases he
      rw [hv]
      refine .answered ?_ (hn ▸ hk ▸ h'.1.answer hround h'.2 hg' hp)
      simp only [Cluster.view, viewOf, hget, Option.bind_some, GetCall.view, ho, hret]
      rfl

/-- **A cluster refines the service.** -/
theorem refines_service {routing : GroupcachePeer → RoutingState}
    (hround : ValueBounds.RoundTrips Value) {events : List (ServiceEvent Value)}
    (h : Emits Cluster.step (fun c a => LookupsResolveAll c a ∧ LoadsBy loads c a) Cluster.emit
      (.start routing) events c) :
    ∃ t, Runs (Service.Next loads) Service.start events t := by
  obtain ⟨t, hrun, _⟩ := (Cluster.simulates_service hround loads).runs
    ⟨⟨.start, fun l load result hl => by simp [Cluster.start] at hl⟩, rfl⟩ h
  exact ⟨t, hrun⟩

/-- Two calls on one node share the flight that asks the other node. Then each
node is called again, and has the value. -/
def asksOnce : List (Action UInt8) :=
  let key := "127.0.0.1:8002_0"
  .get (node 8001) key :: .get (node 8001) key :: enters 0 ++ enters 1 ++
    [.runFlight 0, .runGet 2] ++ Concrete.loads 2 1 7 ++ List.replicate 3 (.runFlight 0) ++
    [.runGet 0, .runGet 1] ++
  .get (node 8001) key :: List.replicate 4 (.runGet 3) ++
  .get (node 8002) key :: List.replicate 3 (.runGet 4)

omit [Platform] [ValueBounds Value] in
/-- The loader returns 7 for any key. -/
theorem refines_service_sample :
    let _ : Platform := host
    let _ : ValueBounds UInt8 := messagePack
    let loads : Loads UInt8 := fun _ _ result => result = .ok 7
    let A := node 8001
    let B := node 8002
    let key := "127.0.0.1:8002_0"
    ∃ events t, Runs (Service.Next loads) Service.start events t ∧
      events = [.called 0 A key, .called 1 A key, .answered 0 (.ok 7), .answered 1 (.ok 7),
        .called 3 A key, .answered 3 (.ok 7), .called 4 B key, .answered 4 (.ok 7)] := by
  intro _ _ loads A B key
  obtain ⟨x, hx, hevents⟩ : ∃ x ∈ replay (recording Cluster.step Cluster.emit)
      (fun x a => LookupsResolveAll x.1 a ∧ LoadsBy loads x.1 a) (.start paired, []) asksOnce,
      x.2 = [.called 0 A key, .called 1 A key, .answered 0 (.ok 7), .answered 1 (.ok 7),
        .called 3 A key, .answered 3 (.ok 7), .called 4 B key, .answered 4 (.ok 7)] := by
    decide +kernel +revert
  obtain ⟨t, hrun⟩ := refines_service messagePack_roundTrips (.of_recording (.of_replay hx))
  exact ⟨x.2, t, hrun, hevents⟩

end Groupcache
