import Groupcache.Cluster.Freshness
import Groupcache.Cluster.Provenance
import Groupcache.Topology.Overlap

/-!
# Invalidation on the owner

`remove` clears the caches and leaves the flight that runs for the key alone.
The doc of `Groupcache::remove` says that the value is removed from the
owner's main cache, and that other nodes' hot caches alone may still have it
for a while. On a node that owns the key this is so (`fresh_after_remove`)
unless it clears main_cache while a flight that started its load before the
`remove` is still there: the flight goes on to insert its value, and calls
that come after the `remove` join it (`stale_after_remove`).
-/

namespace Groupcache

open Concrete Transition

variable [Platform] {Value : Type} [ValueBounds Value] {c c' c₁ c₂ : Cluster Value}
  {a : Action Value} {n : GroupcachePeer} {key : String} {b : Nat}

/-! ## A node that owns a key -/

/-- Node `n` makes no topology calls. -/
def Unchanging (n : GroupcachePeer) (_ : Cluster Value) : Action Value → Prop
  | .topology m _ => m ≠ n
  | _ => True

/-- The node's table names the node itself for the key, and so it has done
for every call and flight for the key on the node. -/
structure Cluster.Owned (n : GroupcachePeer) (key : String) (c : Cluster Value) : Prop where
  lookup : ∃ found, (c.node n).topology.routing.lookupPeer key = .ok found ∧ found.peer = n
  gets : ∀ (i : Nat) (g : GetCall Value) peer, c.gets[i]? = some g → g.node = n → g.key = key →
    g.phase = .deduping peer → peer.peer = n
  flights : ∀ (f : Nat) (fl : Flight Value), c.flights[f]? = some fl → fl.node = n →
    fl.key = key → fl.peer.peer = n
  removes : ∀ (i : Nat) (r : RemoveCall), c.removes[i]? = some r → r.node = n → r.key = key →
    ∀ request, r.phase ≠ .awaiting request
  hot : (c.node n).hotCache key = none

namespace Cluster.Owned

omit [ValueBounds Value] in
theorem start {routing : GroupcachePeer → RoutingState} {found : GroupcachePeerWithClient}
    (hl : (routing n).lookupPeer key = .ok found) (hown : found.peer = n) :
    (Cluster.start routing : Cluster Value).Owned n key where
  lookup := ⟨found, hl, hown⟩
  gets i g peer hg := by simp [Cluster.start] at hg
  flights f fl hf := by simp [Cluster.start] at hf
  removes i r hr := by simp [Cluster.start] at hr
  hot := rfl

omit [ValueBounds Value] in
theorem peer_eq (h : c.Owned n key) {peer : GroupcachePeerWithClient}
    (hl : (c.node n).topology.routing.lookupPeer key = .ok peer) : peer.peer = n := by
  obtain ⟨found, hfound, hown⟩ := h.lookup
  cases hl.symm.trans hfound
  exact hown

/-- The flights for the key make no requests. -/
theorem no_request (h : c.Owned n key) (hinv : c.Inv) {f : Nat} {fl : Flight Value}
    (hf : c.flights[f]? = some fl) (hn : fl.node = n) (hk : fl.key = key) :
    fl.request = none := by
  cases hreq : fl.request with
  | none => rfl
  | some i =>
      have hne := ((hinv.flights f fl hf).request i hreq).1
      exact absurd ((h.flights f fl hf hn hk).trans hn.symm) hne

/-- What a flight for the key has returned it has loaded itself. -/
theorem load_eq (h : c.Owned n key) (hinv : c.Inv) {f : Nat} {fl : Flight Value}
    (hf : c.flights[f]? = some fl) (hn : fl.node = n) (hk : fl.key = key)
    {loaded : Loaded Value} (hres : fl.phase.result? = some (.ok loaded)) :
    fl.load = some loaded.load := by
  have hobtained : fl.Obtained c loaded := by
    have hph := (hinv.flights f fl hf).phase
    unfold Flight.PhaseOk at hph
    cases hp : fl.phase <;> rw [hp] at hres hph <;> cases hres <;> exact hph loaded rfl
  obtain ⟨_, hload | ⟨_, request, hreq, _⟩⟩ := hobtained
  · exact hload
  · rw [h.no_request hinv hf hn hk] at hreq
    cases hreq

theorem topology_eq (hguard : Unchanging n c a) (m : Move c a c') :
    (c'.node n).topology = (c.node n).topology := by
  rcases m.topology_cases n with heq | ⟨action, rfl, _⟩
  · exact heq
  · exact absurd rfl hguard

theorem step (h : c.Owned n key) (hinv : c.Inv) (hguard : Unchanging n c a)
    (m : Move c a c') : c'.Owned n key := by
  constructor
  case lookup =>
    rw [topology_eq hguard m]
    exact h.lookup
  case gets =>
    intro i g peer hg hn hk hp
    rcases m.deduping_cases hg hp with hg | hl
    · exact h.gets i g peer hg hn hk hp
    · subst hn hk
      exact h.peer_eq hl
  case flights =>
    intro f fl hf hn hk
    rcases m.flight_cases hf with ⟨old, hold, hn', hk', hp⟩ | ⟨i, call, hcall, hp, hn', hk'⟩
    · rw [hp]
      exact h.flights f old hold (hn'.symm.trans hn) (hk'.symm.trans hk)
    · exact h.gets i call _ hcall (hn'.symm.trans hn) (hk'.symm.trans hk) hp
  case removes =>
    intro i r hr hn hk request hp
    rcases m.remove_becomes hr with hr | ⟨_, hp' | hp'⟩ | ⟨old, hold, hn', hk', _, hsend, _⟩
    · exact h.removes i r hr hn hk request hp
    · cases hp.symm.trans hp'
    · cases hp.symm.trans hp'
    · obtain ⟨peer, hl, hne⟩ := hsend request hp
      rw [← hn', ← hk', hn, hk] at hl
      exact hne ((h.peer_eq hl).trans (hn.symm.trans hn'))
  case hot =>
    rcases m.hot_cases n key with hsame | hnone | ⟨f, fl, loaded, -, hf, hp, hn, hk, -, -⟩
    · rw [hsame]
      exact h.hot
    · exact hnone
    · -- an insert into the hot cache takes a request
      have hph := (hinv.flights f fl hf).phase
      rw [Flight.PhaseOk, hp] at hph
      obtain ⟨_, _, request, hreq, _⟩ := hph
      rw [h.no_request hinv hf hn hk] at hreq
      cases hreq

end Cluster.Owned

/-! ## What is left of earlier loads -/

/-- The flight has a load older than `b` and has not failed. -/
def Flight.Stale (fl : Flight Value) (b : Nat) : Prop :=
  (∃ l, fl.load = some l ∧ l < b) ∧ ∀ e, fl.phase.result? ≠ some (.error e)

/-- The step of remove `r` that clears the main cache finds no flight for its
key with a load from before the call, unless that one has failed. Node `n`
makes no topology calls. -/
def ClearsSettled (n : GroupcachePeer) (r : Nat) (c : Cluster Value) : Action Value → Prop
  | .topology m _ => m ≠ n
  | .runRemove i => i = r → ∀ call, c.removes[i]? = some call → call.phase = .clearMain →
      ∀ f fl, (c.node call.node).singleFlightGroup call.key = some f →
        c.flights[f]? = some fl → ¬ fl.Stale call.began
  | _ => True

section Decidable

instance (result : Option (GetResult Value)) : Decidable (∀ e, result ≠ some (.error e)) :=
  match result with
  | none => isTrue nofun
  | some (.ok _) => isTrue nofun
  | some (.error e) => isFalse fun h => h e rfl

instance (fl : Flight Value) (b : Nat) : Decidable (fl.Stale b) :=
  inferInstanceAs (Decidable
    ((∃ l ∈ fl.load, l < b) ∧ ∀ e, fl.phase.result? ≠ some (.error e)))

instance (p : RemovePhase) : Decidable (p = .clearMain) :=
  match p with
  | .clearMain => isTrue rfl
  | .requested | .called | .routing | .awaiting _ | .returned _ | .panicked _ => isFalse nofun

instance (n : GroupcachePeer) (r : Nat) (c : Cluster Value) (a : Action Value) :
    Decidable (ClearsSettled n r c a) :=
  match a with
  | .topology m _ => inferInstanceAs (Decidable (m ≠ n))
  | .runRemove i => decidable_of_iff
      (i = r → ∀ call ∈ c.removes[i]?, call.phase = .clearMain →
        ∀ f ∈ (c.node call.node).singleFlightGroup call.key, ∀ fl ∈ c.flights[f]?,
          ¬ fl.Stale call.began)
      ⟨fun h hi call hcall hp f fl hf => h hi call hcall hp f hf fl,
        fun h hi call hcall hp f hf fl => h hi call hcall hp f fl hf⟩
  | .get .. | .remove .. | .runGet _ | .runFlight _ | .load .. | .failGet .. | .failRemove ..
  | .evictMain .. | .evictHot .. => isTrue trivial

instance (n : GroupcachePeer) (c : Cluster Value) (a : Action Value) :
    Decidable (Unchanging n c a) :=
  match a with
  | .topology m _ => inferInstanceAs (Decidable (m ≠ n))
  | .get .. | .remove .. | .runGet _ | .runFlight _ | .runRemove _ | .load .. | .failGet ..
  | .failRemove .. | .evictMain .. | .evictHot .. => isTrue trivial

end Decidable

/-- A flight for the key that is not stale is late. -/
theorem Cluster.Owned.late (h : c.Owned n key) (hinv : c.Inv) {f : Nat} {fl : Flight Value}
    (hf : c.flights[f]? = some fl) (hn : fl.node = n) (hk : fl.key = key)
    (hstale : ¬ fl.Stale b) : fl.Late {n} b fun _ => False := by
  have hown := h.flights f fl hf hn hk
  refine ⟨fun hne => absurd (hown.trans hn.symm) hne, ?_⟩
  have hle : ∀ l, fl.load = some l → (∀ e, fl.phase.result? ≠ some (.error e)) → b ≤ l := by
    intro l hl hres
    by_contra hlt
    exact hstale ⟨⟨l, hl, Nat.lt_of_not_le hlt⟩, hres⟩
  have hnone := h.no_request hinv hf hn hk
  have hph := (hinv.flights f fl hf).phase
  unfold Flight.PhaseOk at hph
  -- what it has, or waits for, is its own load
  cases hp : fl.phase with
  | loading l =>
      rw [hp] at hph
      exact hle l hph.1 (by simp [hp, FlightPhase.result?])
  | insertMain loaded =>
      rw [hp] at hph
      exact hle loaded.load hph.2.1 (by simp [hp, FlightPhase.result?])
  | awaiting request =>
      rw [hp] at hph
      cases hnone.symm.trans hph.1
  | insertHot loaded =>
      rw [hp] at hph
      obtain ⟨_, _, request, hreq, _⟩ := hph
      cases hnone.symm.trans hreq
  | ending result =>
      cases result with
      | error e => trivial
      | ok loaded =>
          have hres : fl.phase.result? = some (.ok loaded) := by rw [hp]; rfl
          exact hle loaded.load (h.load_eq hinv hf hn hk hres) (by simp [hres])
  | ended result =>
      cases result with
      | error e => trivial
      | ok loaded =>
          have hres : fl.phase.result? = some (.ok loaded) := by rw [hp]; rfl
          exact hle loaded.load (h.load_eq hinv hf hn hk hres) (by simp [hres])
  | _ => trivial

/-- Once the main cache has been cleared nothing older is left, if no flight
is stale. -/
theorem Cluster.Owned.cleared (h : c.Owned n key) (hinv : c.Inv) (hb : b ≤ c.loads.length)
    (hmain : (c.node n).mainCache key = none)
    (hstale : ∀ f fl, (c.node n).singleFlightGroup key = some f → c.flights[f]? = some fl →
      ¬ fl.Stale b) : c.Late {n} key b fun _ => False where
  bound := hb
  closed m hm peer hl := by
    obtain rfl : m = n := hm
    exact fun hne => absurd (h.peer_eq hl) hne
  main m hm e he := by
    obtain rfl : m = n := hm
    rw [hmain] at he
    cases he
  hot m hm e he := by
    obtain rfl : m = n := hm
    rw [h.hot] at he
    cases he
  routed i g peer hg hm hk hp := by
    have hn : g.node = n := hm
    exact fun hne => absurd ((h.gets i g peer hg hn hk hp).trans hn.symm) hne
  running m hm f fl hgroup hf := by
    obtain rfl : m = n := hm
    obtain ⟨fl', hf', hn, hk, _⟩ := (hinv.group m key f).mp hgroup
    obtain rfl : fl = fl' := Option.some.inj (hf.symm.trans hf')
    exact h.late hinv hf hn hk (hstale f fl hgroup hf)
  gets _ _ _ hi := hi.elim

/-- The flights for the key on its owner make no requests, so `Cluster.Late`
is kept whatever calls are new. -/
theorem Cluster.Owned.late_step (h : c.Owned n key) (hinv : c.Inv) {new : Nat → Prop}
    (hguard : Unchanging n c a) (m : Move c a c') (hlate : c.Late {n} key b new) :
    c'.Late {n} key b new := by
  refine hlate.step hinv m (fun n' hn' => ?_) fun f fl hf hn hk hne => ?_
  · obtain rfl : n' = n := hn'
    exact topology_eq hguard m
  · have hn : fl.node = n := hn
    exact absurd ((h.flights f fl hf hn hk).trans hn.symm) hne

/-! ## After a `remove` -/

/-- Once remove `r` has returned Ok for the key on the node, nothing for the
key from a load older than the call is left. -/
structure Cluster.Removed (n : GroupcachePeer) (key : String) (r : Nat) (c : Cluster Value) :
    Prop where
  began : ∀ call, c.removes[r]? = some call → call.began ≤ c.loads.length
  late : ∀ call, c.removes[r]? = some call → call.node = n → call.key = key →
    call.phase = .returned (.ok ()) → c.Late {n} key call.began fun _ => False

omit [ValueBounds Value] in
theorem Cluster.Removed.start {routing : GroupcachePeer → RoutingState} {r : Nat} :
    (Cluster.start routing : Cluster Value).Removed n key r where
  began call hr := by simp [Cluster.start] at hr
  late call hr := by simp [Cluster.start] at hr

omit [ValueBounds Value] in
theorem ClearsSettled.unchanging {r : Nat} (h : ClearsSettled n r c a) : Unchanging n c a := by
  cases a <;> trivial

theorem Cluster.Removed.step {r : Nat} (h : c.Removed n key r) (hinv : c.Inv)
    (howned : c.Owned n key) (hguard : ClearsSettled n r c a) (hs : c.step a = some c') :
    c'.Removed n key r where
  began call hr := by
    have m := Cluster.step_move hs
    have hle : c.loads.length ≤ c'.loads.length := (m.extends hinv).loads.length_le
    rcases m.remove_becomes hr with hr | ⟨hb, _⟩ | ⟨old, hold, _, _, hb, _⟩
    · exact (h.began call hr).trans hle
    · exact hb ▸ hle
    · exact hb ▸ (h.began old hold).trans hle
  late call hr hn hk hp := by
    have m := Cluster.step_move hs
    rcases m.remove_becomes hr with hr | ⟨_, hp' | hp'⟩ | ⟨old, hold, hn', hk', hb, _, hok⟩
    · exact howned.late_step hinv hguard.unchanging m (h.late call hr hn hk hp)
    · cases hp.symm.trans hp'
    · cases hp.symm.trans hp'
    · rw [hn] at hn'
      rw [hk] at hk'
      rcases hok hp with ⟨request, hwait⟩ | ⟨hclear, rfl, hc'⟩
      · exact absurd hwait (howned.removes r old hold hn'.symm hk'.symm request)
      · -- the step that clears the main cache finds no stale flight
        have hstale := hguard rfl old hold hclear
        rw [← hn', ← hk'] at hc' hstale
        refine (howned.step hinv hguard.unchanging m).cleared (hinv.step hs) ?_ ?_ ?_
        · rw [hb, hc']
          exact h.began old hold
        · rw [hc']
          show ((c.setMainCache n key none).node n).mainCache key = none
          rw [Cluster.mainCache_setMainCache, if_pos ⟨rfl, rfl⟩]
        · rw [hb, hc']
          show ∀ f fl, ((c.setMainCache n key none).node n).singleFlightGroup key = some f → _
          rw [Cluster.singleFlightGroup_setMainCache]
          exact hstale

/-! ## Calls of `get` that begin later -/

omit [Platform] in
/-- The call is made: one that a peer has requested begins when the handler
takes it up. -/
def Cluster.Begun (c : Cluster Value) (i : Nat) : Prop :=
  ∃ g, c.gets[i]? = some g ∧ g.phase ≠ .requested

/-- **Invalidation is not undone**, where the call of `remove` does not clear
the main cache under a flight with an older load. Whatever is evicted, fails
or happens on other nodes, a call of `get` that begins once the `remove` has
returned Ok returns the value of a load that started after the `remove` was
called. -/
theorem fresh_after_remove {routing : GroupcachePeer → RoutingState}
    {found : GroupcachePeerWithClient} (hl : (routing n).lookupPeer key = .ok found)
    (hown : found.peer = n) {r : Nat}
    (h₁ : Reaches Cluster.step (ClearsSettled n r) (.start routing) c₁)
    {call : RemoveCall} (hr : c₁.removes[r]? = some call) (hrn : call.node = n)
    (hrk : call.key = key) (hret : call.phase = .returned (.ok ()))
    (h₂ : Reaches Cluster.step (Unchanging n) c₁ c₂) {i : Nat} (hi : ¬ c₁.Begun i)
    {g : GetCall Value} (hg : c₂.gets[i]? = some g) (hgn : g.node = n) (hgk : g.key = key)
    {loaded : Loaded Value} (hgp : g.phase = .returned (.ok loaded)) :
    Produced c₂ key loaded ∧ call.began ≤ loaded.load := by
  -- up to the return of `remove`
  have hfirst : c₁.Inv ∧ c₁.Owned n key ∧ c₁.Removed n key r := by
    refine h₁.invariant (I := fun c => c.Inv ∧ c.Owned n key ∧ c.Removed n key r)
      ⟨.start routing, .start hl hown, .start⟩ ?_
    rintro s t a ⟨hinv, howned, hrem⟩ hg hs
    exact ⟨hinv.step hs, howned.step hinv hg.unchanging (Cluster.step_move hs),
      hrem.step hinv howned hg hs⟩
  obtain ⟨hinv₁, howned₁, hrem⟩ := hfirst
  have hlate : c₁.Late {n} key call.began fun i => ¬ c₁.Begun i := by
    refine (hrem.late call hr hrn hrk hret).renew fun i g hg hi => ?_
    by_contra hp
    exact hi ⟨g, hg, hp⟩
  -- and from there on
  have hsecond : c₂.Inv ∧ c₂.Owned n key ∧ c₂.Late {n} key call.began fun i => ¬ c₁.Begun i := by
    refine h₂.invariant (I := fun c => c.Inv ∧ c.Owned n key ∧
      c.Late {n} key call.began fun i => ¬ c₁.Begun i) ⟨hinv₁, howned₁, hlate⟩ ?_
    rintro s t a ⟨hinv, howned, hlate⟩ hg hs
    have m := Cluster.step_move hs
    exact ⟨hinv.step hs, howned.step hinv hg m, howned.late_step hinv hg m hlate⟩
  obtain ⟨hinv₂, _, hlate₂⟩ := hsecond
  exact hlate₂.returned hinv₂ hg hi hgn hgk hgp

/-- Two calls on the owner miss its main cache. One loads the value, and then
the other opens a flight of its own. -/
def missedTwice : List (Action UInt8) :=
  let key := "127.0.0.1:8002_0"
  .get (node 8002) key :: .get (node 8002) key :: List.replicate 4 (.runGet 1) ++
    loads 0 0 7 ++ [.runGet 1]

omit [Platform] [ValueBounds Value] in
/-- The value is cached before a `remove`. A later call joins the flight that
was opened before the `remove` and starts its load after it. -/
theorem fresh_after_remove_sample :
    let _ : Platform := host
    let _ : ValueBounds UInt8 := messagePack
    let key := "127.0.0.1:8002_0"
    ∃ (c₀ c : Cluster UInt8) (call : RemoveCall),
      (Produced c key { value := 9, load := 1 } ∧ call.began ≤ 1) ∧
        ((c₀.node (node 8002)).mainCache key).map Entry.loaded = some { value := 7, load := 0 } ∧
        (c₀.node (node 8002)).singleFlightGroup key = some 1 ∧
        call.began = 1 ∧ call.phase = .returned (.ok ()) ∧
        c.Returned 2 (node 8002) { value := 9, load := 1 } := by
  intro _ _ key
  have hl : (paired (node 8002)).lookupPeer key = .ok { peer := node 8002, client := none } := by
    decide +kernel +revert
  obtain ⟨c₀, hc₀, c₁, hc₁, c, hc, hcached, hgroup, hlength,
      ⟨call, hr, hrn, hrk, hok, hbegan⟩, ⟨g, hg, hgn, hgk, hgv⟩⟩ :
      ∃ c₀ ∈ replay Cluster.step (ClearsSettled (node 8002) 0) (.start paired) missedTwice,
      ∃ c₁ ∈ replay Cluster.step (ClearsSettled (node 8002) 0) c₀
        (.remove (node 8002) key :: List.replicate 3 (.runRemove 0)),
      ∃ c ∈ replay Cluster.step (Unchanging (node 8002)) c₁
        (.get (node 8002) key :: enters 2 ++
          [.runFlight 1, .load 1 (.ok 9), .runFlight 1, .runFlight 1, .runGet 2]),
      ((c₀.node (node 8002)).mainCache key).map Entry.loaded = some { value := 7, load := 0 } ∧
      (c₀.node (node 8002)).singleFlightGroup key = some 1 ∧ c₁.gets.length = 2 ∧
      (∃ call ∈ c₁.removes[0]?, call.node = node 8002 ∧ call.key = key ∧ call.isOk ∧
        call.began = 1) ∧
      ∃ g ∈ c.gets[2]?, g.node = node 8002 ∧ g.key = key ∧
        g.value? = some { value := 9, load := 1 } := by
    clear hl
    set_option synthInstance.maxSize 1000 in
    decide +kernel +revert
  have hlater : ¬ c₁.Begun 2 := by
    rintro ⟨g, hg, _⟩
    simp [hlength] at hg
  have hret := RemoveCall.isOk_iff.mp hok
  have h₁ := Reaches.trans (.of_replay hc₀) (.of_replay hc₁)
  exact ⟨c₀, c, call, fresh_after_remove hl rfl h₁ hr hrn hrk hret (.of_replay hc) hlater hg hgn hgk
    (GetCall.value?_eq_some.mp hgv), hcached, hgroup, hbegan, hret, g, hg, hgn, hgv⟩

omit [Platform] [ValueBounds Value] in
/-- **An old load outlives a `remove`.** A call of `get` that begins after
`remove` has returned joins the flight that was running, and returns what the
load from before the `remove` returned. -/
theorem stale_after_remove :
    let _ : Platform := Concrete.platform [Concrete.node 8001]
    let _ : ValueBounds UInt8 := Concrete.messagePack
    ∃ c₁ c₂ : Cluster UInt8,
      Reaches Cluster.step (Unchanging (Concrete.node 8001)) (.start .withLocalPeer) c₁ ∧
      Reaches Cluster.step (Unchanging (Concrete.node 8001)) c₁ c₂ ∧
      c₁.removes = [{ node := Concrete.node 8001, key := "key", origin := none, began := 1
                      phase := .returned (.ok ()) }] ∧
      ¬ c₁.Begun 1 ∧
      c₂.gets[1]? = some { node := Concrete.node 8001, key := "key", origin := none
                           flight := some 0
                           phase := .returned (.ok { value := 7, load := 0 }) } := by
  intro _ _
  have hl := Concrete.lookupPeer_alone 8001 "key"
  refine ⟨_, _,
    .head (a := .get (Concrete.node 8001) "key") trivial rfl <|
    .head (a := .runGet 0) trivial rfl <|
    .head (a := .runGet 0) trivial rfl <|
    .head (a := .runGet 0) trivial rfl <|
    .head (a := .runGet 0) trivial (Cluster.step_routing rfl rfl hl) <|
    .head (a := .runGet 0) trivial rfl <|
    .head (a := .runFlight 0) trivial rfl <|
    .head (a := .remove (Concrete.node 8001) "key") trivial rfl <|
    .head (a := .runRemove 0) trivial rfl <|
    .head (a := .runRemove 0) trivial (Cluster.step_owned rfl rfl hl rfl) <|
    .single (a := .runRemove 0) trivial rfl,
    .head (a := .get (Concrete.node 8001) "key") trivial rfl <|
    .head (a := .runGet 1) trivial rfl <|
    .head (a := .runGet 1) trivial rfl <|
    .head (a := .runGet 1) trivial rfl <|
    .head (a := .runGet 1) trivial (Cluster.step_routing rfl rfl hl) <|
    .head (a := .runGet 1) trivial rfl <|
    .head (a := .load 0 (.ok 7)) trivial rfl <|
    .head (a := .runFlight 0) trivial rfl <|
    .head (a := .runFlight 0) trivial rfl <|
    .single (a := .runGet 1) trivial rfl, rfl, ?_, rfl⟩
  rintro ⟨g, hg, _⟩
  cases hg

end Groupcache
