import Groupcache.Cluster.Forwarding

/-!
# What a node loads as a fallback

A node that falls back to a load of its own returns the value and caches it
nowhere. But whoever asked the node may cache the value, and could answer the
node's own request with it later. That cannot be as long as the nodes stand
on their own rings: requests then only go to nodes nearer to the key, so a
value in a hot cache was loaded by a node nearer to the key than the one that
holds it (`Cluster.Descending`). It is the condition under which
`LocalVNodesPresent` holds of every table, and `fallback_load_cached` is a
run without it.
-/

namespace Groupcache

open Concrete ConsistentHashing Transition

variable [Platform] {Value : Type} [ValueBounds Value] {U : Set GroupcachePeer}
  {c c' : Cluster Value} {a : Action Value}

/-! ## The condition -/

/-- The peers of `U` run nodes, which call each other by them, and a removal
of a node's own address from its table leaves a copy of it there. -/
def LeavesLocalCopies (U : Set GroupcachePeer) (c : Cluster Value) : Action Value → Prop
  | .get n _ => n ∈ U
  | .topology n action =>
      n ∈ U ∧ action.peers ⊆ U ∧ LeavesLocalCopy n (c.node n).topology action
  | _ => True

instance (U : Set GroupcachePeer) [DecidablePred (· ∈ U)] (c : Cluster Value)
    (a : Action Value) : Decidable (LeavesLocalCopies U c a) :=
  match a with
  | .get n _ => inferInstanceAs (Decidable (n ∈ U))
  | .topology n action => inferInstanceAs (Decidable
      (n ∈ U ∧ action.peers ⊆ U ∧ LeavesLocalCopy n (c.node n).topology action))
  | .remove .. | .runGet _ | .runFlight _ | .runRemove _ | .load .. | .failGet ..
  | .failRemove .. | .evictMain .. | .evictHot .. => isTrue trivial

/-! ## The invariant -/

/-- The value was loaded by the node, or by one nearer to the key. -/
def LoadedWithin (c : Cluster Value) (key : String) (n : GroupcachePeer)
    (loaded : Loaded Value) : Prop :=
  ∃ load, c.loads[loaded.load]? = some load ∧ distance key load.node ≤ distance key n

/-- The value was loaded by a node nearer to the key. -/
def LoadedNearer (c : Cluster Value) (key : String) (n : GroupcachePeer)
    (loaded : Loaded Value) : Prop :=
  ∃ load, c.loads[loaded.load]? = some load ∧ distance key load.node < distance key n

/-- Every node stands on its own ring, and the values that calls of `get` have
come to were loaded on their way. -/
structure Cluster.Descending (U : Set GroupcachePeer) (c : Cluster Value) : Prop where
  topology : ∀ n ∈ U, (c.node n).topology.Inv U ∧
    LocalVNodesPresent n (c.node n).topology.routing
  nearing : c.Nearing U
  values : ∀ (i : Nat) (g : GetCall Value) loaded, c.gets[i]? = some g →
    g.phase = .hit loaded ∨ g.phase = .returned (.ok loaded) → LoadedWithin c g.key g.node loaded

variable {key : String} {n : GroupcachePeer} {loaded : Loaded Value}

omit [ValueBounds Value] in
theorem LoadedNearer.within (h : LoadedNearer c key n loaded) : LoadedWithin c key n loaded := by
  obtain ⟨load, hl, hlt⟩ := h
  exact ⟨load, hl, Nat.le_of_lt hlt⟩

omit [ValueBounds Value] in
theorem LoadedWithin.mono (h : LoadedWithin c key n loaded) (hext : c.Extends c') :
    LoadedWithin c' key n loaded := by
  obtain ⟨load, hl, hle⟩ := h
  obtain ⟨load', hl', hb⟩ := hext.loads _ _ hl
  exact ⟨load', hl', hb.node ▸ hle⟩

/-- What a flight has loaded itself. -/
theorem Cluster.Inv.loadedWithin (hinv : c.Inv) {f : Nat} {fl : Flight Value}
    (hf : c.flights[f]? = some fl) (hl : fl.load = some loaded.load) :
    LoadedWithin c fl.key fl.node loaded := by
  obtain ⟨load, hload, hn, _⟩ := (hinv.flights f fl hf).load _ hl
  exact ⟨load, hload, by rw [hn]⟩

namespace Cluster.Descending

omit [ValueBounds Value] in
theorem start (hU : Addressable U) :
    (Cluster.start .withLocalPeer : Cluster Value).Descending U where
  topology _ hn := ⟨.start hU hn, localVNodesPresent_start hU hn⟩
  nearing := ⟨fun i g hg => by simp [Cluster.start] at hg,
    fun f fl hf => by simp [Cluster.start] at hf⟩
  values i g loaded hg := by simp [Cluster.start] at hg

/-- **An answer comes from a node nearer to the key**, and so does the value
in it. -/
theorem answered (h : c.Descending U) (hinv : c.Inv) {f request : Nat} {fl : Flight Value}
    (hf : c.flights[f]? = some fl) (hreq : fl.request = some request)
    (ha : Answered c request loaded) : LoadedNearer c fl.key fl.node loaded := by
  obtain ⟨call, result, hcall, hp, hresp⟩ := ha
  obtain ⟨sent, rfl, _, hsame⟩ := loadRemotely_respondGet hresp
  obtain ⟨hk, hlt⟩ := h.nearing.request hinv hf hreq hcall
  obtain ⟨load, hl, hle⟩ := h.values request call sent hcall (.inr hp)
  rw [hk] at hle
  exact ⟨load, hsame ▸ hl, Nat.lt_of_le_of_lt hle hlt⟩

theorem obtained (h : c.Descending U) (hinv : c.Inv) {f : Nat} {fl : Flight Value}
    (hf : c.flights[f]? = some fl) (ho : fl.Obtained c loaded) :
    LoadedWithin c fl.key fl.node loaded := by
  obtain ⟨_, hown | ⟨_, request, hreq, ha⟩⟩ := ho
  · exact hinv.loadedWithin hf hown
  · exact (h.answered hinv hf hreq ha).within

theorem main (hinv : c.Inv) {e : Entry Value} (he : (c.node n).mainCache key = some e) :
    LoadedWithin c key n e.loaded := by
  obtain ⟨_, fl, hf, rfl, rfl, _, hl⟩ := hinv.main n key e he
  exact hinv.loadedWithin hf hl

theorem hot (h : c.Descending U) (hinv : c.Inv) {e : Entry Value}
    (he : (c.node n).hotCache key = some e) : LoadedNearer c key n e.loaded := by
  obtain ⟨_, fl, request, hf, rfl, rfl, hreq, _, _, ha⟩ := hinv.hot n key e he
  exact h.answered hinv hf hreq ha

/-- What a call of `get` comes to by a step of its own. -/
theorem getStep (h : c.Descending U) (hinv : c.Inv) {i : Nat} {old g : GetCall Value}
    (hold : c.gets[i]? = some old) (hs : GetStep c old g)
    (hp : g.phase = .hit loaded ∨ g.phase = .returned (.ok loaded)) :
    LoadedWithin c g.key g.node loaded := by
  cases hs with
  | mainHit _ he =>
      obtain hp | hp := hp <;> cases hp
      exact main hinv he
  | hotHit _ he =>
      obtain hp | hp := hp <;> cases hp
      exact (h.hot hinv he).within
  | hit hphase =>
      obtain hp | hp := hp <;> cases hp
      exact h.values i old loaded hold (.inl hphase)
  | @shared f fl result hphase hf hended =>
      obtain hp | hp := hp <;> try cases hp
      cases result with
      | error e => cases hp
      | ok found =>
          cases hp
          obtain ⟨fl', hf', hn, hk⟩ := (hinv.gets i old hold).flight f
            (by simpa [GetCall.PhaseOk, hphase] using (hinv.gets i old hold).phase)
          obtain rfl : fl = fl' := Option.some.inj (hf.symm.trans hf')
          have hph := (hinv.flights f fl hf).phase
          rw [Flight.PhaseOk, hended] at hph
          have := h.obtained hinv hf (hph loaded rfl)
          rwa [hk, hn] at this
  | _ => obtain hp | hp := hp <;> cases hp

theorem step (h : c.Descending U) (hU : Addressable U) (hinv : c.Inv) (hdials : c.Dials)
    (hguard : LeavesLocalCopies U c a) (m : Move c a c') : c'.Descending U where
  topology n hn := by
    obtain ⟨hi, hlocal⟩ := h.topology n hn
    rcases m.topology_cases n with heq | ⟨action, rfl, hs⟩
    · rw [heq]
      exact ⟨hi, hlocal⟩
    · exact ⟨hi.step hU hguard.2.1 hs,
        (localVNodesPresent_step hU hn hi hlocal hs).mpr hguard.2.2⟩
  nearing := by
    refine h.nearing.step m (fun n key ha => ?_) fun n hn key found hl => ?_
    · subst ha
      exact hguard
    · obtain ⟨hi, hlocal⟩ := h.topology n hn
      obtain ⟨copies, C⟩ := hi.copies
      exact C.nearer hU hn ((C.localVNodesPresent_iff hU hn).mp hlocal)
        (hdials.topology n).clients hl
  values i g loaded hg hp := by
    have hext := m.extends hinv
    rcases m.get_becomes hg with hold | hnew | ⟨old, hold, hs | ⟨peer, _, _, _, rfl, _⟩⟩
    · exact (h.values i g loaded hold hp).mono hext
    · rcases hnew with hnew | hnew <;> rw [hnew] at hp <;> obtain hp | hp := hp <;> cases hp
    · exact (h.getStep hinv hold hs hp).mono hext
    · obtain hp | hp := hp <;> cases hp

end Cluster.Descending

theorem Cluster.reaches_descending (hU : Addressable U)
    (h : Reaches Cluster.step (LeavesLocalCopies U) (.start .withLocalPeer) c) :
    c.Descending U := by
  have hall : c.Inv ∧ c.Dials ∧ c.Descending U := by
    refine h.invariant (I := fun c => c.Inv ∧ c.Dials ∧ c.Descending U)
      ⟨.start _, .start, .start hU⟩ ?_
    rintro s t a ⟨hinv, hdials, hd⟩ hg hs
    have m := Cluster.step_move hs
    exact ⟨hinv.step hs, hdials.step m, hd.step hU hinv hdials hg m⟩
  exact hall.2.2

/-! ## Provenance -/

/-- No node caches a value that it has loaded as a fallback. -/
def Cluster.FallbacksUncached (c : Cluster Value) : Prop :=
  ∀ n key e load, (c.node n).Caches key e → c.loads[e.loaded.load]? = some load →
    load.node = n → ¬ load.Fallback c

theorem Cluster.Descending.fallbacksUncached (h : c.Descending U) (hinv : c.Inv) :
    c.FallbacksUncached := by
  rintro n key e load (he | he) hload hn ⟨fl, hf, hne⟩
  · -- the flight that wrote the entry made the load, for the node itself
    obtain ⟨_, fl', hf', _, _, hpeer, hl⟩ := hinv.main n key e he
    obtain ⟨load', hload', _, _, hflight⟩ := (hinv.flights _ fl' hf').load _ hl
    obtain rfl : load = load' := Option.some.inj (hload.symm.trans hload')
    obtain rfl : fl = fl' := Option.some.inj (hf.symm.trans (hflight ▸ hf'))
    exact hne (hpeer.trans hn.symm)
  · obtain ⟨load', hload', hlt⟩ := h.hot hinv he
    obtain rfl : load = load' := Option.some.inj (hload.symm.trans hload')
    rw [hn] at hlt
    exact Nat.lt_irrefl _ hlt

/-- **Provenance.** Where cached and returned values come from holds in every
state that a cluster reaches, whatever is done to it and whatever fails. That
no node caches what it has loaded as a fallback holds as long as removals of
a node's own address leave it on its ring. -/
theorem provenance (hround : ValueBounds.RoundTrips Value) :
    (∀ c : Cluster Value,
      Reaches Cluster.step (fun _ _ => True) (.start .withLocalPeer) c → c.Provenance) ∧
    ∀ (U : Set GroupcachePeer) (c : Cluster Value), Addressable U →
      Reaches Cluster.step (LeavesLocalCopies U) (.start .withLocalPeer) c →
        c.FallbacksUncached := by
  refine ⟨fun c h => Cluster.reaches_provenance hround h, fun U c hU h => ?_⟩
  exact (Cluster.reaches_descending hU h).fallbacksUncached (Cluster.reaches_inv h)

/-- A gets a key of B, and loads another when the request is lost. It has
added and removed its own address before. -/
def answeredAndLost : List (Action UInt8) :=
  let A := node 8001
  let B := node 8002
  adds A 0 A ++ .topology A (.begin (.removePeer A) fun _ => .panicked) ::
    List.replicate 2 (.topology A (.advance 1 [] [])) ++ adds A 2 B ++ adds B 0 A ++
  .get A "127.0.0.1:8002_0" :: asks 0 0 7 ++
  .get A "127.0.0.1:8002_1" :: enters 2 ++
    [.runFlight 2, .failGet 2 (.transport "h2"), .runFlight 2, .load 2 (.ok 9)]

omit [Platform] [ValueBounds Value] in
theorem provenance_sample :
    let _ : Platform := host
    let _ : ValueBounds UInt8 := messagePack
    ∃ c : Cluster UInt8, c.Provenance ∧ c.FallbacksUncached ∧
      ((c.node (node 8001)).hotCache "127.0.0.1:8002_0").map Entry.loaded
        = some { value := 7, load := 0 } ∧
      ∃ load ∈ c.loads[1]?, load.node = node 8001 ∧ load.Fallback c := by
  intro _ _
  obtain ⟨c, hc, hobs⟩ : ∃ c ∈ replay Cluster.step
      (LeavesLocalCopies {p | p ∈ [8001, 8002].map node}) (.start .withLocalPeer) answeredAndLost,
      ((c.node (node 8001)).hotCache "127.0.0.1:8002_0").map Entry.loaded
        = some { value := 7, load := 0 } ∧
      ∃ load ∈ c.loads[1]?, load.node = node 8001 ∧ load.Fallback c := by
    decide +kernel +revert
  have h := Reaches.of_replay hc
  obtain ⟨hall, hcond⟩ := provenance messagePack_roundTrips
  exact ⟨c, hall c (h.mono fun _ _ _ => trivial), hcond _ c addressable_host h, hobs⟩

/-- A takes itself off its ring by two overlapping removals, and adds B. B
asks A for a key of A, and A asks B, in vain. Then A wants the key again. -/
def throughAnother : List (Action UInt8) :=
  let A := node 8001
  let B := node 8002
  (overlappingRemovals A).map (.topology A) ++ adds A 3 B ++ adds B 0 A ++
  .get B "127.0.0.1:8001_0" :: enters 0 ++ [.runFlight 0, .runGet 1] ++ enters 1 ++
    [.runFlight 1, .failGet 1 (.transport "h2"), .runFlight 1, .load 1 (.ok 7), .runFlight 1,
      .runGet 1, .runFlight 0, .runFlight 0] ++
  .get A "127.0.0.1:8001_0" :: enters 3 ++ .runFlight 2 :: List.replicate 5 (.runGet 4) ++
    [.runFlight 2, .runFlight 2]

omit [Platform] [ValueBounds Value] in
/-- What A has loaded as a fallback comes back to it from B's hot cache. -/
theorem fallback_load_cached :
    let _ : Platform := host
    let _ : ValueBounds UInt8 := messagePack
    ∃ c : Cluster UInt8,
      Reaches Cluster.step (fun _ _ => True) (.start .withLocalPeer) c ∧
      ((c.node (node 8001)).hotCache "127.0.0.1:8001_0").map Entry.loaded
        = some { value := 7, load := 0 } ∧
      (∃ load ∈ c.loads[0]?, load.node = node 8001 ∧ load.Fallback c) ∧
      ¬ c.FallbacksUncached := by
  intro _ _
  obtain ⟨c, hc, hhot, load, hload, hn, hfallback⟩ : ∃ c ∈ replay Cluster.step
      (fun _ _ => True) (.start .withLocalPeer) throughAnother,
      ((c.node (node 8001)).hotCache "127.0.0.1:8001_0").map Entry.loaded
        = some { value := 7, load := 0 } ∧
      ∃ load ∈ c.loads[0]?, load.node = node 8001 ∧ load.Fallback c := by
    decide +kernel +revert
  refine ⟨c, .of_replay hc, hhot, ⟨load, hload, hn, hfallback⟩, fun h => ?_⟩
  obtain ⟨e, he, heq⟩ := Option.map_eq_some_iff.mp hhot
  exact h _ _ e load (.inr he) (by rw [heq]; exact hload) hn hfallback

end Groupcache
