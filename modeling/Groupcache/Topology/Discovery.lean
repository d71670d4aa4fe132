import Groupcache.Lib.Table
import Groupcache.Topology.SetPeers

/-!
# Service discovery (`service_discovery.rs`)

The loop that pulls the instances and hands them to `set_peers`. A pull can
fail, and so can each connection; what the node knows after any number of
turns is `KnownAfter`: the peers that have connected at some turn and have
been in every set pulled since.
-/

namespace Groupcache

variable [Platform]

/-- What a turn of the loop meets: what `pull_instances` returns, and what an
attempt to connect to each peer comes to. -/
structure Tick where
  pull : Except String (Finset GroupcachePeer)
  attempt : GroupcachePeer → ConnectOutcome
  attempt_ends : ∀ p, attempt p ≠ .panicked

/-- The body of the loop of `run_service_discovery`, after the interval: the
table afterwards and what is logged. `setPeers` is how the call of `set_peers` goes. -/
def discoveryTurn (s : RoutingState) (pull : Except String (Finset GroupcachePeer))
    (setPeers : Finset GroupcachePeer → RoutingState × CallResult) :
    RoutingState × Option String :=
  match pull with
  | .ok instances =>
      match setPeers instances with
      | (s', some (.error e)) =>
          (s', some s!"Error connecting to refreshed instances: {e.display Platform.debug}")
      | (s', _) => (s', none)
  | .error e => (s, some s!"Error during when refreshing instances: {e}")

/-- The loop of a node, while the cache is there, with the attempts that each
turn has made. -/
inductive DiscoveryRun (me : GroupcachePeer) :
    List Tick → RoutingState → List (List GroupcachePeer) → Prop where
  | start : DiscoveryRun me [] (.withLocalPeer me) []
  | pulled {ticks : List Tick} {s : RoutingState} {attempts : List (List GroupcachePeer)}
      {tick : Tick} {instances : Finset GroupcachePeer} (r : SetPeersRun s instances) :
      DiscoveryRun me ticks s attempts → tick.pull = .ok instances →
      DiscoveryRun me (ticks ++ [tick])
        (discoveryTurn s tick.pull fun _ => r.outcome tick.attempt).1 (attempts ++ [r.attempted])
  | failed {ticks : List Tick} {s : RoutingState} {attempts : List (List GroupcachePeer)}
      {tick : Tick} {e : String} (setPeers : Finset GroupcachePeer → RoutingState × CallResult) :
      DiscoveryRun me ticks s attempts → tick.pull = .error e →
      DiscoveryRun me (ticks ++ [tick]) (discoveryTurn s tick.pull setPeers).1 (attempts ++ [[]])

theorem discoveryTurn_ok {s : RoutingState} {instances : Finset GroupcachePeer}
    {setPeers : Finset GroupcachePeer → RoutingState × CallResult} :
    (discoveryTurn s (.ok instances) setPeers).1 = (setPeers instances).1 := by
  simp only [discoveryTurn]
  split
  · rename_i h
    rw [h]
  · rename_i h
    rw [h]

/-! ## What is known -/

/-- The tick pulls a set that has the peer. -/
def Tick.Lists (tick : Tick) (p : GroupcachePeer) : Prop :=
  ∃ instances, tick.pull = .ok instances ∧ p ∈ instances

/-- A tick has listed the peer and connected to it, and every set pulled from
then on has it. -/
def KnownAfter (ticks : List Tick) (p : GroupcachePeer) : Prop :=
  ∃ (j : Nat) (tick : Tick), ticks[j]? = some tick ∧ tick.Lists p ∧
    (tick.attempt p).succeeds = true ∧
    ∀ (i : Nat) (tick' : Tick) (instances : Finset GroupcachePeer), j ≤ i →
      ticks[i]? = some tick' → tick'.pull = .ok instances → p ∈ instances

omit [Platform] in
/-- After one more tick: a failed pull changes nothing, and of a set pulled
the peers are known that were or that connect. -/
theorem knownAfter_concat {ticks : List Tick} {tick : Tick} {p : GroupcachePeer} :
    KnownAfter (ticks ++ [tick]) p ↔
      (∀ instances, tick.pull = .ok instances → p ∈ instances) ∧
        (KnownAfter ticks p ∨ tick.Lists p ∧ (tick.attempt p).succeeds = true) := by
  constructor
  · rintro ⟨j, tick₀, hj, hlists, hsucc, hall⟩
    have hlast : (ticks ++ [tick])[ticks.length]? = some tick := List.getElem?_concat_length
    rcases Table.append_cases hj with hj' | ⟨rfl, rfl⟩
    · have hlt := Table.lt_of_getElem? hj'
      refine ⟨fun S hS => hall _ tick S (Nat.le_of_lt hlt) hlast hS, .inl ?_⟩
      exact ⟨j, tick₀, hj', hlists, hsucc, fun i tick' S hji hi hS =>
        hall i tick' S hji (Table.append_of_some hi) hS⟩
    · exact ⟨fun S hS => hall _ _ S (Nat.le_refl _) hlast hS, .inr ⟨hlists, hsucc⟩⟩
  · rintro ⟨hnow, ⟨j, tick₀, hj, hlists, hsucc, hall⟩ | ⟨hlists, hsucc⟩⟩
    · refine ⟨j, tick₀, Table.append_of_some hj, hlists, hsucc, fun i tick' S hji hi hS => ?_⟩
      rcases Table.append_cases hi with hi | ⟨_, rfl⟩
      · exact hall i tick' S hji hi hS
      · exact hnow S hS
    · refine ⟨ticks.length, tick, List.getElem?_concat_length, hlists, hsucc,
        fun i tick' S hi hget hS => ?_⟩
      rcases Table.append_cases hget with hget | ⟨_, rfl⟩
      · exact absurd (Table.lt_of_getElem? hget) (Nat.not_lt_of_le hi)
      · exact hnow S hS

omit [Platform] in
theorem Tick.not_lists {tick : Tick} {e : String} (h : tick.pull = .error e) (p : GroupcachePeer) :
    ¬ tick.Lists p := by
  rintro ⟨S, hS, _⟩
  rw [h] at hS
  cases hS

omit [Platform] in
theorem knownAfter_append_failed {before after : List Tick} {p : GroupcachePeer}
    (h : ∀ x ∈ after, ∃ e, x.pull = .error e) :
    KnownAfter (before ++ after) p ↔ KnownAfter before p := by
  induction after using List.reverseRecOn with
  | nil => rw [List.append_nil]
  | append_singleton after x ih =>
      obtain ⟨e, he⟩ := h x (List.mem_append_right after List.mem_cons_self)
      rw [← List.append_assoc, knownAfter_concat, ih fun y hy => h y (List.mem_append_left _ hy)]
      simp [he, Tick.not_lists he]

omit [Platform] in
/-- A peer that is not known does not become so while all attempts on it fail. -/
theorem not_knownAfter_of_fails {ticks : List Tick} {j k : Nat} {p : GroupcachePeer} (hjk : j ≤ k)
    (hj : ¬ KnownAfter (ticks.take j) p)
    (hfails : ∀ (i : Nat) x, j ≤ i → i < k → ticks[i]? = some x → x.Lists p →
      (x.attempt p).succeeds = false) : ¬ KnownAfter (ticks.take k) p := by
  rintro ⟨i, x, hi, hlists, hsucc, hall⟩
  obtain ⟨hik, hx⟩ := Table.take_iff.mp hi
  rcases Nat.lt_or_ge i j with hij | hji
  · -- it was known by turn j already
    refine hj ⟨i, x, Table.take_iff.mpr ⟨hij, hx⟩, hlists, hsucc, fun l y S hil hy hS => ?_⟩
    obtain ⟨hlj, hy⟩ := Table.take_iff.mp hy
    exact hall l y S hil (Table.take_iff.mpr ⟨Nat.lt_of_lt_of_le hlj hjk, hy⟩) hS
  · rw [hfails i x hji hik hx hlists] at hsucc
    cases hsucc

variable {me : GroupcachePeer} {ticks : List Tick} {s : RoutingState}
  {attempts : List (List GroupcachePeer)} {p : GroupcachePeer}

/-- **What the loop knows.** -/
theorem DiscoveryRun.mem_iff (h : DiscoveryRun me ticks s attempts) (p : GroupcachePeer) :
    p ∈ s.peers ↔ KnownAfter ticks p := by
  induction h with
  | start =>
      refine iff_of_false Finmap.notMem_empty ?_
      rintro ⟨j, tick, hj, _⟩
      simp at hj
  | @pulled ticks s attempts tick instances r _ hpull ih =>
      have hnone : ∀ p ∈ s.newPeers instances, tick.attempt p ≠ .panicked :=
        fun p _ => tick.attempt_ends p
      rw [knownAfter_concat, ← ih, hpull, discoveryTurn_ok, ← RoutingState.mem_peerSet,
        r.peerSet_ended hnone]
      simp only [Finset.mem_union, Finset.mem_inter, Finset.mem_filter, RoutingState.newPeers,
        Finset.mem_sdiff, RoutingState.mem_peerSet, Tick.Lists, hpull, Except.ok.injEq,
        forall_eq', exists_eq_left']
      tauto
  | @failed ticks s attempts tick e setPeers _ hpull ih =>
      rw [knownAfter_concat, ← ih, hpull]
      simp [discoveryTurn, Tick.not_lists hpull]

/-! ## What is attempted -/

theorem DiscoveryRun.length_attempts (h : DiscoveryRun me ticks s attempts) :
    attempts.length = ticks.length := by
  induction h with
  | start => rfl
  | pulled r _ _ ih => simp [ih]
  | failed setPeers _ _ ih => simp [ih]

/-- **A turn attempts to connect to the peers listed that are not known**, once
each. -/
theorem DiscoveryRun.attempted (h : DiscoveryRun me ticks s attempts) {k : Nat} {tick : Tick}
    {made : List GroupcachePeer} (hk : ticks[k]? = some tick) (hmade : attempts[k]? = some made) :
    made.Nodup ∧ ∀ p, p ∈ made ↔ tick.Lists p ∧ ¬ KnownAfter (ticks.take k) p := by
  induction h with
  | start => simp at hk
  | @pulled ticks s attempts tick' instances r hrun hpull ih =>
      rcases Table.append_cases₂ hrun.length_attempts hk hmade with
        ⟨hk', hmade'⟩ | ⟨rfl, rfl, rfl⟩
      · rw [List.take_append_of_le_length (Nat.le_of_lt (Table.lt_of_getElem? hk'))]
        exact ih hk' hmade'
      · refine ⟨r.enumerates_attempted.1, fun p => ?_⟩
        rw [List.take_left', ← hrun.mem_iff p, r.enumerates_attempted.mem_iff, Finset.mem_sdiff,
          RoutingState.mem_peerSet]
        · simp [Tick.Lists, hpull]
        · rfl
  | @failed ticks s attempts tick' e setPeers hrun hpull ih =>
      rcases Table.append_cases₂ hrun.length_attempts hk hmade with
        ⟨hk', hmade'⟩ | ⟨rfl, rfl, rfl⟩
      · rw [List.take_append_of_le_length (Nat.le_of_lt (Table.lt_of_getElem? hk'))]
        exact ih hk' hmade'
      · simp [Tick.Lists, hpull]

/-! ## The loop as a whole -/

/-- What a node knows and does by its discovery loop. -/
structure Discovered (me : GroupcachePeer) (ticks : List Tick) (s : RoutingState)
    (attempts : List (List GroupcachePeer)) : Prop where
  known : ∀ p, p ∈ s.peers ↔ KnownAfter ticks p
  /-- Each turn attempts to connect to the peers listed that are not known. -/
  attempted : ∀ (k : Nat) tick made, ticks[k]? = some tick → attempts[k]? = some made →
    made.Nodup ∧ ∀ p, p ∈ made ↔ tick.Lists p ∧ ¬ KnownAfter (ticks.take k) p
  /-- A failed pull changes nothing. -/
  failedPull : ∀ ticks' tick e, ticks = ticks' ++ [tick] → tick.pull = .error e →
    ∃ attempts', attempts = attempts' ++ [[]] ∧ DiscoveryRun me ticks' s attempts'
  /-- A peer that has failed is attempted again at each later pull that lists
  it, until it connects. -/
  retried : ∀ (j k : Nat) tick tick' made made' p, j < k → ticks[j]? = some tick →
    attempts[j]? = some made → p ∈ made → (tick.attempt p).succeeds = false →
    ticks[k]? = some tick' → attempts[k]? = some made' → tick'.Lists p →
    (∀ (i : Nat) x, j < i → i < k → ticks[i]? = some x → x.Lists p →
      (x.attempt p).succeeds = false) → p ∈ made'
  /-- Whether a peer is known does not depend on what the attempts on others
  come to. -/
  independent : ∀ me' ticks' s' attempts' p, DiscoveryRun me' ticks' s' attempts' →
    List.Forall₂ (fun x y : Tick => x.pull = y.pull ∧ x.attempt p = y.attempt p) ticks ticks' →
    (p ∈ s.peers ↔ p ∈ s'.peers)
  /-- If all attempts of the last successful pull succeed, the known peers are
  those pulled. -/
  lastPull : ∀ before tick after instances made, ticks = before ++ tick :: after →
    tick.pull = .ok instances → (∀ x ∈ after, ∃ e, x.pull = .error e) →
    attempts[before.length]? = some made → (∀ p ∈ made, (tick.attempt p).succeeds = true) →
    s.peerSet = instances

omit [Platform] in
private theorem KnownAfter.congr {ticks ticks' : List Tick}
    (h : List.Forall₂ (fun x y : Tick => x.pull = y.pull ∧ x.attempt p = y.attempt p) ticks ticks')
    (hk : KnownAfter ticks p) : KnownAfter ticks' p := by
  obtain ⟨j, tick, hj, ⟨S, hS, hp⟩, hsucc, hall⟩ := hk
  obtain ⟨hlen, hrow⟩ := List.forall₂_iff_get.mp h
  have hat : ∀ (i : Nat) (y : Tick), ticks'[i]? = some y → ∃ x, ticks[i]? = some x ∧
      x.pull = y.pull ∧ x.attempt p = y.attempt p := by
    intro i y hy
    have hi' := Table.lt_of_getElem? hy
    have hi : i < ticks.length := hlen ▸ hi'
    refine ⟨ticks[i], List.getElem?_eq_getElem hi, ?_⟩
    obtain rfl : ticks'[i] = y := Option.some.inj ((List.getElem?_eq_getElem hi').symm.trans hy)
    exact hrow i hi hi'
  have hj' : j < ticks'.length := hlen ▸ Table.lt_of_getElem? hj
  obtain ⟨x, hx, hpull, hattempt⟩ := hat j _ (List.getElem?_eq_getElem hj')
  obtain rfl : tick = x := Option.some.inj (hj.symm.trans hx)
  refine ⟨j, ticks'[j], List.getElem?_eq_getElem hj', ⟨S, hpull ▸ hS, hp⟩, hattempt ▸ hsucc, ?_⟩
  intro i y S' hji hy hS'
  obtain ⟨x, hx, hpull, _⟩ := hat i y hy
  exact hall i x S' hji hx (hpull.trans hS')

/-- **Service discovery.** After any ticks the node knows the peers that have
connected at a pull that listed them and that every pull since has listed. -/
theorem service_discovery (h : DiscoveryRun me ticks s attempts) :
    Discovered me ticks s attempts := by
  constructor
  case known => exact h.mem_iff
  case attempted => exact fun k tick made hk hmade => h.attempted hk hmade
  case failedPull =>
    intro ticks' tick e hticks hpull
    cases h with
    | start => simp at hticks
    | pulled r hrun hpull' =>
        obtain ⟨rfl, htick⟩ := List.append_inj' hticks rfl
        cases htick
        rw [hpull] at hpull'
        cases hpull'
    | failed setPeers hrun hpull' =>
        obtain ⟨rfl, htick⟩ := List.append_inj' hticks rfl
        cases htick
        rw [hpull']
        exact ⟨_, rfl, hrun⟩
  case retried =>
    intro j k tick tick' made made' p hjk hj hmade hp hfail hk hmade' hlists hbetween
    refine ((h.attempted hk hmade').2 p).mpr ⟨hlists, ?_⟩
    refine not_knownAfter_of_fails (Nat.le_of_lt hjk) ((h.attempted hj hmade).2 p |>.mp hp).2 ?_
    intro i x hji hik hx hxlists
    rcases Nat.eq_or_lt_of_le hji with rfl | hji
    · obtain rfl : tick = x := Option.some.inj (hj.symm.trans hx)
      exact hfail
    · exact hbetween i x hji hik hx hxlists
  case independent =>
    intro me' ticks' s' attempts' p h' hsame
    rw [h.mem_iff, h'.mem_iff]
    refine ⟨KnownAfter.congr hsame, KnownAfter.congr ?_⟩
    exact hsame.flip.imp fun _ _ hxy => ⟨hxy.1.symm, hxy.2.symm⟩
  case lastPull =>
    rintro before tick after instances made rfl hpull hfailed hmade hall
    have htick : (before ++ tick :: after)[before.length]? = some tick := by simp
    have hmade := (h.attempted htick hmade).2
    rw [List.take_left'] at hmade
    · ext p
      rw [RoutingState.mem_peerSet, h.mem_iff, List.append_cons,
        knownAfter_append_failed hfailed, knownAfter_concat]
      simp only [Tick.Lists, hpull, Except.ok.injEq, forall_eq', exists_eq_left'] at hmade ⊢
      refine ⟨And.left, fun hp => ⟨hp, ?_⟩⟩
      by_cases hknown : KnownAfter before p
      · exact .inl hknown
      · exact .inr ⟨hp, hall p ((hmade p).mpr ⟨hp, hknown⟩)⟩
    · rfl

omit [Platform] in
/-- A peer that fails, is listed again and connects, and a pull that fails. -/
theorem service_discovery_sample :
    let _ : Platform := Concrete.platform []
    let me := Concrete.node 8001
    let p := Concrete.node 8002
    let down : Tick :=
      { pull := .ok {p}, attempt := fun _ => .failed "refused", attempt_ends := by simp }
    let up : Tick := { pull := .ok {p}, attempt := fun _ => .connected 0, attempt_ends := by simp }
    let lost : Tick := { pull := .error "timeout", attempt := fun _ => .connected 0
                         attempt_ends := by simp }
    ∃ s, Discovered me [down, up, lost] s [[p], [p], []] ∧ p ∈ s.peers := by
  intro _ me p down up lost
  let r : ∀ s : RoutingState, s.peerSet = ∅ → SetPeersRun s {p} := fun s hs =>
    { updatedIter := [p]
      currentIter := []
      finished := [p]
      updatedIter_enumerates := ⟨List.nodup_singleton p, rfl⟩
      currentIter_enumerates := ⟨List.nodup_nil, by rw [hs]; rfl⟩
      finished_perm := by rw [hs]; rfl }
  have hdown : DiscoveryRun me ([] ++ [down]) _ ([] ++ [[p]]) := .pulled (r _ rfl) .start rfl
  have hup : DiscoveryRun me (([] ++ [down]) ++ [up]) _ (([] ++ [[p]]) ++ [[p]]) :=
    .pulled (r _ rfl) hdown rfl
  have hlost : DiscoveryRun me ((([] ++ [down]) ++ [up]) ++ [lost]) _
      ((([] ++ [[p]]) ++ [[p]]) ++ [[]]) :=
    .failed (fun _ => (.withLocalPeer me, none)) hup rfl
  refine ⟨_, service_discovery hlost, (hlost.mem_iff p).mpr ?_⟩
  refine (knownAfter_append_failed fun x hx => ⟨"timeout", ?_⟩).mpr
    (knownAfter_concat.mpr ⟨fun S hS => ?_, .inr ⟨⟨{p}, rfl, Finset.mem_singleton_self p⟩, rfl⟩⟩)
  · rw [List.mem_singleton.mp hx]
  · cases hS
    exact Finset.mem_singleton_self p

end Groupcache
