import Groupcache.Cluster.Freshness
import Groupcache.Cluster.Staleness

/-!
# Reads do not go back

What a node has of a key came from the owner, one value after the other: the
flights of a node come one after another, and so do those of the owner, which
inserts what each has loaded before the next begins. So once a call of `get`
has returned a value of the owner's, a call that begins later on the same node
or on the owner returns no value of an older load (`monotonic_reads`). This is
about the values that the owner has loaded: what a node loads itself, when the
owner did not answer, is newer than all it had, but it is not cached, and a
later call can get an older value from the owner.

What is ahead is said by `Cluster.Late`, of the node and the owner.
-/

namespace Groupcache

open Concrete Transition

variable [Platform] {Value : Type} [ValueBounds Value] {U : Set GroupcachePeer}
  {M : Finset GroupcachePeer} {owner n : GroupcachePeer} {key : String}
  {c₀ c₁ c c' : Cluster Value} {a : Action Value} {b l : Nat} {new new' : Nat → Prop}

/-! ## What a node has shown -/

/-- A value of load `l` is or has been shown on node `n`: by a cache, by a call
that has found or returned it, or by a flight that is done. -/
inductive Cluster.Shows (c : Cluster Value) (n : GroupcachePeer) (key : String) (l : Nat) :
    Prop where
  | main {e : Entry Value} : (c.node n).mainCache key = some e → e.loaded.load = l →
      c.Shows n key l
  | hot {e : Entry Value} : (c.node n).hotCache key = some e → e.loaded.load = l →
      c.Shows n key l
  | get {i : Nat} {g : GetCall Value} {loaded : Loaded Value} : c.gets[i]? = some g →
      g.node = n → g.key = key → g.phase = .hit loaded ∨ g.phase = .returned (.ok loaded) →
      loaded.load = l → c.Shows n key l
  | flight {f : Nat} {fl : Flight Value} {loaded : Loaded Value} : c.flights[f]? = some fl →
      fl.node = n → fl.key = key → fl.phase.result? = some (.ok loaded) → loaded.load = l →
      c.Shows n key l

/-- The load was made on the owner. -/
def LoadedOn (c : Cluster Value) (owner : GroupcachePeer) (l : Nat) : Prop :=
  ∃ load, c.loads[l]? = some load ∧ load.node = owner

theorem Cluster.Shows.load (h : c.Shows n key l) (hinv : c.Inv) :
    ∃ load, c.loads[l]? = some load := by
  have hmade : ∀ {k : String} {loaded : Loaded Value}, Produced c k loaded →
      loaded.load = l → ∃ load, c.loads[l]? = some load := by
    rintro k loaded ⟨load, _, hload, _⟩ rfl
    exact ⟨load, hload⟩
  cases h with
  | main he hl => exact hmade (hinv.main _ _ _ he).1 hl
  | hot he hl => exact hmade (hinv.hot _ _ _ he).1 hl
  | @get i g loaded hg _ _ hp hl =>
      have hph := (hinv.gets i g hg).phase
      rw [GetCall.PhaseOk] at hph
      rcases hp with hp | hp <;> rw [hp] at hph
      · exact hmade hph.2 hl
      · exact hmade (hph loaded rfl) hl
  | @flight f fl loaded hf _ _ hres hl =>
      have hph := (hinv.flights f fl hf).phase
      rw [Flight.PhaseOk] at hph
      cases hp : fl.phase <;> rw [hp] at hres hph <;> cases hres
      · exact hmade (hph loaded rfl).1 hl
      · exact hmade (hph loaded rfl).1 hl

omit [ValueBounds Value] in
theorem LoadedOn.back (h : LoadedOn c' owner l) (hext : c.Extends c')
    (hmade : ∃ load, c.loads[l]? = some load) : LoadedOn c owner l := by
  obtain ⟨load', hload', hn⟩ := h
  obtain ⟨load, hload⟩ := hmade
  obtain ⟨x, hx, hb⟩ := hext.loads l load hload
  obtain rfl : load' = x := Option.some.inj (hload'.symm.trans hx)
  exact ⟨load, hload, hb.node.symm.trans hn⟩

/-- A flight is about to show a value of load `l`. -/
inductive Flight.Showing (c' : Cluster Value) (f l : Nat) (fl : Flight Value) : Prop where
  | insertMain {loaded : Loaded Value} : fl.phase = .insertMain loaded → loaded.load = l →
      (c'.node fl.node).mainCache fl.key = some { loaded, flight := f } → fl.Showing c' f l
  | insertHot {loaded : Loaded Value} : fl.phase = .insertHot loaded → loaded.load = l →
      (c'.node fl.node).hotCache fl.key = some { loaded, flight := f } → fl.Showing c' f l
  | fallback : fl.phase = .loading l → fl.peer.peer ≠ fl.node → fl.Showing c' f l

/-- What a node shows after a step it has shown before, or a flight shows it:
the owner's own value, an answer, or what it has loaded as the owner did not
answer. -/
theorem Cluster.Shows.cases_step (h : c'.Shows n key l) (hinv : c.Inv)
    (hs : c.step a = some c') : c.Shows n key l ∨ ∃ (f : Nat) (fl : Flight Value),
      c.flights[f]? = some fl ∧ fl.node = n ∧ fl.key = key ∧ fl.Showing c' f l := by
  have m := Cluster.step_move hs
  cases h with
  | main he hl =>
      rcases m.main_cases n key with hsame | ⟨f, fl, x, _, hf, hp, rfl, rfl, hins⟩ | ⟨hnone, _⟩
      · exact .inl (.main (hsame ▸ he) hl)
      · cases hins.symm.trans he
        exact .inr ⟨f, fl, hf, rfl, rfl, .insertMain hp hl hins⟩
      · cases hnone.symm.trans he
  | hot he hl =>
      rcases m.hot_cases n key with hsame | hnone | ⟨f, fl, x, _, hf, hp, rfl, rfl, hins, _⟩
      · exact .inl (.hot (hsame ▸ he) hl)
      · cases hnone.symm.trans he
      · cases hins.symm.trans he
        exact .inr ⟨f, fl, hf, rfl, rfl, .insertHot hp hl hins⟩
  | get hg hn hk hp hl =>
      obtain ⟨old, hold, hon, hok, hfrom⟩ := m.hit_cases hg hp
      refine .inl ?_
      rcases hfrom with hp | ⟨e, he, rfl⟩ | ⟨_, e, he, rfl⟩ | ⟨f, fl, hwait, hf, hend⟩
      · exact .get hold (hon ▸ hn) (hok ▸ hk) hp hl
      · exact .main (by rwa [← hn, ← hk, hon, hok]) hl
      · exact .hot (by rwa [← hn, ← hk, hon, hok]) hl
      · have hph := (hinv.gets _ old hold).phase
        rw [GetCall.PhaseOk, hwait] at hph
        obtain ⟨x, hx, hxn, hxk⟩ := (hinv.gets _ old hold).flight f hph
        obtain rfl : fl = x := Option.some.inj (hf.symm.trans hx)
        exact .flight hf (by rw [hxn, ← hon, hn]) (by rw [hxk, ← hok, hk])
          (by rw [hend]; rfl) hl
  | @flight f fl loaded hf hn hk hres hl =>
      rcases m.flight_becomes hf with hsame | ⟨_, _, _, _, _, _, _, hopen⟩ | ⟨old, hold, hnext⟩
      · exact .inl (.flight hsame hn hk hres hl)
      · rw [hopen] at hres
        cases hres
      · cases hnext with
        | alone hstep => cases hstep <;> cases hres
        | @finishLoad load result hp =>
            refine .inr ⟨f, old, hold, hn, hk, ?_⟩
            cases result with
            | error e => cases hres
            | ok value =>
                simp only [Flight.afterLoad] at hres
                split at hres
                · cases hres
                · cases hres
                  exact .fallback (hl ▸ hp) ‹_›
        | insertMain hp hins =>
            cases hres
            exact .inr ⟨f, old, hold, hn, hk, .insertMain hp hl hins⟩
        | insertHot hp =>
            cases hres
            refine .inr ⟨f, old, hold, hn, hk, .insertHot hp hl ?_⟩
            simp only [Cluster.step, hold, Option.bind_some, Cluster.runFlight, hp] at hs
            cases hs
            show ((c.setHotCache old.node old.key _).node old.node).hotCache old.key = _
            rw [Cluster.hotCache_setHotCache, if_pos ⟨rfl, rfl⟩]
        | endFlight hp =>
            cases hres
            exact .inl (.flight hold hn hk (by rw [hp]; rfl) hl)
        | _ => cases hres

/-! ## What is ahead -/

/-- The calls to come, and the request that node `n` has under way. -/
def Cluster.ToCome (c : Cluster Value) (n : GroupcachePeer) (key : String) (i : Nat) : Prop :=
  c.gets.length ≤ i ∨ ∃ f fl, (c.node n).singleFlightGroup key = some f ∧
    c.flights[f]? = some fl ∧ fl.request = some i

/-- Neither node `n` nor the owner has anything ahead that is older than load
`l`. -/
def Cluster.Ahead (c : Cluster Value) (n owner : GroupcachePeer) (key : String) (l : Nat) :
    Prop :=
  c.Late {n, owner} key l (c.ToCome n key)

omit [Platform] [ValueBounds Value] in
theorem FlightPhase.Late.mono {phase : FlightPhase Value} (h : phase.Late b new)
    (hnew : ∀ i, phase = .awaiting i → new i → new' i) : phase.Late b new' := by
  cases phase with
  | awaiting i => exact hnew i rfl h
  | ending result => cases result <;> exact h
  | ended result => cases result <;> exact h
  | _ => exact h

/-- Fewer calls may be new, as long as those are that a flight waits for. -/
theorem Cluster.Late.shrink {S : Set GroupcachePeer} (h : c.Late S key b new) (hinv : c.Inv)
    (hsub : ∀ i, new' i → new i)
    (hrun : ∀ n ∈ S, ∀ (f : Nat) (fl : Flight Value) i,
      (c.node n).singleFlightGroup key = some f → c.flights[f]? = some fl →
      fl.phase = .awaiting i → new' i) : c.Late S key b new' where
  bound := h.bound
  closed := h.closed
  main := h.main
  hot := h.hot
  routed := h.routed
  running n hn f fl hgroup hf := by
    obtain ⟨hwithin, hph⟩ := h.running n hn f fl hgroup hf
    exact ⟨hwithin, hph.mono fun i hp _ => hrun n hn f fl i hgroup hf hp⟩
  gets i g hg hi hn hk := by
    have hlate := h.gets i g hg (hsub i hi) hn hk
    have hok := hinv.gets i g hg
    have hph := hok.phase
    unfold GetCall.Late at hlate ⊢
    cases hp : g.phase with
    | waiting f =>
        rw [hp] at hlate
        rw [GetCall.PhaseOk, hp] at hph
        intro fl hf
        obtain ⟨hwithin, hflight⟩ := hlate fl hf
        refine ⟨hwithin, hflight.mono fun j hj _ => ?_⟩
        -- the flight waits, so it is the one that runs
        obtain ⟨x, hx, hxn, hxk⟩ := hok.flight f hph
        obtain rfl : fl = x := Option.some.inj (hf.symm.trans hx)
        have hgroup := (hinv.group g.node key f).mpr ⟨fl, hf, hxn, hxk.trans hk, by simp [hj]⟩
        exact hrun g.node hn f fl j hgroup hf hj
    | returned result =>
        rw [hp] at hlate
        cases result <;> exact hlate
    | _ =>
        rw [hp] at hlate
        exact hlate

omit [Platform] in
theorem ToOwner.within {m : GroupcachePeer} {peer : GroupcachePeerWithClient}
    (h : ToOwner owner m peer) : Groupcache.Within {n, owner} m peer := by
  intro hne client hc
  exact .inr (h.dials (h.names ▸ hne) client hc)

namespace Cluster.KeepsTo

omit [ValueBounds Value] in
theorem mem_of_pair (howner : Owner M key owner) (hn : n ∈ M) {m : GroupcachePeer}
    (hm : m ∈ ({n, owner} : Set GroupcachePeer)) : m ∈ M := by
  rcases hm with rfl | rfl
  · exact hn
  · exact howner.mem

theorem closed (h : c.KeepsTo U M key owner c₀) (hU : Addressable U) (hM : ∀ n ∈ M, n ∈ U)
    (howner : Owner M key owner) (hn : n ∈ M) (m : GroupcachePeer)
    (hm : m ∈ ({n, owner} : Set GroupcachePeer)) (peer : GroupcachePeerWithClient)
    (hl : (c.node m).topology.routing.lookupPeer key = .ok peer) :
    Groupcache.Within {n, owner} m peer :=
  ((finds h.forwarding h.agrees hU hM howner (mem_of_pair howner hn hm)).toOwner hl).within

theorem routed (h : c.KeepsTo U M key owner c₀) {i : Nat} {g : GetCall Value}
    {peer : GroupcachePeerWithClient} (hg : c.gets[i]? = some g) (hk : g.key = key)
    (hp : g.phase = .deduping peer) : Groupcache.Within {n, owner} g.node peer :=
  ((h.gets i g (h.new_get hg hk (by simp [hp])) hg hk).routed peer hp).within

/-- The owner sends no request. -/
theorem no_request (h : c.KeepsTo U M key owner c₀) {f i : Nat} {fl : Flight Value}
    (hf : c.flights[f]? = some fl) (hn : fl.node = owner) (hk : fl.key = key)
    (hp : ∀ result, fl.phase ≠ .ended result) : fl.request ≠ some i := fun hreq =>
  (h.request (h.new_flight hf hk hp) hf hk hreq).1 hn

/-- **What is late stays late**, also where tables change that leave the
members as they are. -/
theorem late_step (h : c.KeepsTo U M key owner c₀) (h' : c'.KeepsTo U M key owner c₀)
    (hU : Addressable U) (hM : ∀ n ∈ M, n ∈ U) (howner : Owner M key owner) (hn : n ∈ M)
    (hlate : c.Late {n, owner} key b new) (m : Move c a c') (hnew : new c.gets.length) :
    c'.Late {n, owner} key b new := by
  by_cases hsame : ∀ x, (c'.node x).topology = (c.node x).topology
  · exact hlate.step h.inv m (fun x _ => hsame x) fun _ _ _ _ _ _ => hnew
  · have hclosed := h'.closed hU hM howner hn
    obtain ⟨x, hx⟩ := not_forall.mp hsame
    obtain ⟨action, rfl, _⟩ := (m.topology_cases x).resolve_left hx
    cases m with
    | topology _ htop =>
        exact {
          bound := hlate.bound
          closed := hclosed
          main := fun y hy e he => hlate.main y hy e (by simpa using he)
          hot := fun y hy e he => hlate.hot y hy e (by simpa using he)
          routed := hlate.routed
          running := fun y hy f fl hgroup hf =>
            hlate.running y hy f fl (by simpa using hgroup) hf
          gets := hlate.gets }

/-- What is ahead, said node by node. -/
theorem ahead (h : c.KeepsTo U M key owner c₀) (hU : Addressable U) (hM : ∀ n ∈ M, n ∈ U)
    (howner : Owner M key owner) (hn : n ∈ M) (hbound : l ≤ c.loads.length)
    (hmain : ∀ m ∈ ({n, owner} : Set GroupcachePeer), ∀ e, (c.node m).mainCache key = some e →
      l ≤ e.loaded.load)
    (hhot : ∀ m ∈ ({n, owner} : Set GroupcachePeer), ∀ e, (c.node m).hotCache key = some e →
      l ≤ e.loaded.load)
    (hrun : ∀ (f : Nat) (fl : Flight Value), c.flights[f]? = some fl →
      fl.node ∈ ({n, owner} : Set GroupcachePeer) → fl.key = key →
      (∀ result, fl.phase ≠ .ended result) → fl.phase.Late l fun _ => True)
    (hasks : ∀ (f : Nat) (fl : Flight Value) i g, c.flights[f]? = some fl → fl.node = n →
      fl.key = key → (∀ result, fl.phase ≠ .ended result) → fl.request = some i →
      c.gets[i]? = some g → g.Late {n, owner} l (c.ToCome n key) c) :
    c.Ahead n owner key l where
  bound := hbound
  closed := h.closed hU hM howner hn
  main := hmain
  hot := hhot
  routed _ _ _ hg _ hk hp := h.routed hg hk hp
  running m hm f fl hgroup hf := by
    obtain ⟨x, hx, hxn, hxk, hend⟩ := (h.inv.group m key f).mp hgroup
    obtain rfl : fl = x := Option.some.inj (hf.symm.trans hx)
    have hnew := h.new_flight hf hxk hend
    refine ⟨(h.flights f fl hnew hf hxk).peer.within, ?_⟩
    refine (hrun f fl hf (hxn.symm ▸ hm) hxk hend).mono fun i hp _ => ?_
    have hph := (h.inv.flights f fl hf).phase
    rw [Flight.PhaseOk, hp] at hph
    rcases hm with rfl | rfl
    · exact .inr ⟨f, fl, hgroup, hf, hph.1⟩
    · exact absurd hph.1 (h.no_request hf hxn hxk hend)
  gets i g hg hi _ _ := by
    rcases hi with hi | ⟨f, fl, hgroup, hf, hreq⟩
    · exact absurd (Table.lt_of_getElem? hg) (Nat.not_lt_of_le hi)
    · obtain ⟨x, hx, hxn, hxk, hend⟩ := (h.inv.group n key f).mp hgroup
      obtain rfl : fl = x := Option.some.inj (hf.symm.trans hx)
      exact hasks f fl i g hf hxn hxk hend hreq hg

/-- A flight that has not ended after a step had not before. -/
theorem running_before (h : c.KeepsTo U M key owner c₀) (m : Move c a c') {f : Nat}
    {old fl : Flight Value} (hold : c.flights[f]? = some old) (hf : c'.flights[f]? = some fl)
    (hp : ∀ result, fl.phase ≠ .ended result) : ∀ result, old.phase ≠ .ended result := by
  intro result hend
  obtain rfl : fl = old := Option.some.inj (hf.symm.trans (m.ended h.inv hold hend))
  exact hp result hend

end Cluster.KeepsTo

theorem Cluster.Ahead.step (h : c.Ahead n owner key l) (hkeeps : c.KeepsTo U M key owner c₀)
    (hkeeps' : c'.KeepsTo U M key owner c₀) (hU : Addressable U) (hM : ∀ n ∈ M, n ∈ U)
    (howner : Owner M key owner) (hn : n ∈ M) (m : Move c a c') : c'.Ahead n owner key l := by
  refine (hkeeps.late_step hkeeps' hU hM howner hn h m (.inl (Nat.le_refl _))).shrink
    hkeeps'.inv ?_ ?_
  · rintro i (hi | ⟨f, fl, hgroup, hf, hreq⟩)
    · exact .inl ((m.extends hkeeps.inv).gets.length_le.trans hi)
    · obtain ⟨x, hx, hxn, hxk, hend⟩ := (hkeeps'.inv.group n key f).mp hgroup
      obtain rfl : fl = x := Option.some.inj (hf.symm.trans hx)
      have before : ∀ old, c.flights[f]? = some old → old.node = n → old.key = key →
          old.request = some i → c.ToCome n key i := by
        intro old hold hon hok hreq
        have hrun := hkeeps.running_before m hold hf hend
        exact .inr ⟨f, old, (hkeeps.inv.group n key f).mpr ⟨old, hold, hon, hok, hrun⟩, hold, hreq⟩
      rcases m.flight_becomes hf with hsame | ⟨_, _, _, _, _, _, _, hopen⟩ | ⟨old, hold, hnext⟩
      · exact before fl hsame hxn hxk hreq
      · rw [hopen] at hreq
        cases hreq
      · have hbefore := before old hold (hnext.same.1.symm.trans hxn)
          (hnext.same.2.1.symm.trans hxk)
        cases hnext with
        | alone hs => cases hs <;> exact hbefore hreq
        | sendGet =>
            cases hreq
            exact .inl (Nat.le_refl _)
        | _ => exact hbefore hreq
  · intro x hx f fl i hgroup hf hp
    have hph := (hkeeps'.inv.flights f fl hf).phase
    rw [Flight.PhaseOk, hp] at hph
    rcases hx with rfl | rfl
    · exact .inr ⟨f, fl, hgroup, hf, hph.1⟩
    · obtain ⟨x, hx, hxn, hxk, hend⟩ := (hkeeps'.inv.group _ _ _).mp hgroup
      obtain rfl : fl = x := Option.some.inj (hf.symm.trans hx)
      exact absurd hph.1 (hkeeps'.no_request hf hxn hxk hend)

/-! ## What has been shown -/

/-- The flight that inserts a value, the one that runs on its node, is done
with it then. -/
theorem Move.inserting_late (m : Move c a c') (hinv : c.Inv) {f f' : Nat}
    {fl fl' : Flight Value} {loaded : Loaded Value} (hf : c.flights[f]? = some fl)
    (hp : fl.phase = .insertMain loaded ∨ fl.phase = .insertHot loaded)
    (hf' : c'.flights[f']? = some fl') (hn : fl'.node = fl.node) (hk : fl'.key = fl.key)
    (hend' : ∀ result, fl'.phase ≠ .ended result) :
    fl'.phase.Late loaded.load new ∧ (fl'.request = none ∨ fl'.request = fl.request) := by
  have hend : ∀ result, fl.phase ≠ .ended result := by
    rcases hp with hp | hp <;> simp [hp]
  have heq : ∀ old, c.flights[f']? = some old → old.node = fl.node → old.key = fl.key →
      (∀ result, old.phase ≠ .ended result) → old = fl := fun old hold hon hok ho =>
    (hinv.flight_eq hold hf hon hok ho hend).2
  rcases m.flight_becomes hf' with hsame | ⟨_, _, _, _, _, _, _, hopen⟩ | ⟨old, hold, hnext⟩
  · obtain rfl := heq fl' hsame hn hk hend'
    refine ⟨?_, .inr rfl⟩
    rcases hp with hp | hp <;> rw [hp] <;> exact Nat.le_refl _
  · rw [hopen]
    exact ⟨trivial, .inl rfl⟩
  · have hold' : ∀ result, old.phase ≠ .ended result := by
      intro result ho
      obtain rfl : fl' = old := Option.some.inj (hf'.symm.trans (m.ended hinv hold ho))
      exact hend' result ho
    obtain rfl := heq old hold (hnext.same.1.symm.trans hn) (hnext.same.2.1.symm.trans hk) hold'
    cases hnext with
    | alone hs => cases hs <;> rcases hp with hp | hp <;> simp_all
    | startLoad hphase => rcases hp with hp | hp <;> simp_all
    | insertMain hphase | insertHot hphase =>
        refine ⟨?_, .inr rfl⟩
        rcases hp with hp | hp <;> cases hphase.symm.trans hp
        exact Nat.le_refl _
    | _ => rcases hp with hp | hp <;> simp_all

/-- What a member has shown of the owner's values, is behind it and the owner. -/
def Cluster.Monotone (M : Finset GroupcachePeer) (key : String) (owner : GroupcachePeer)
    (c : Cluster Value) : Prop :=
  ∀ n ∈ M, ∀ l, c.Shows n key l → LoadedOn c owner l → c.Ahead n owner key l

namespace Cluster.KeepsTo

theorem main_owner (h : c.KeepsTo U M key owner c₀) (hclear : ∀ n ∈ M, c₀.Cleared n key)
    (hn : n ∈ M) {e : Entry Value} (he : (c.node n).mainCache key = some e) : n = owner := by
  rcases h.main n e he with he | ⟨hown, _⟩
  · cases (hclear n hn).1.symm.trans he
  · exact hown

theorem hot_other (h : c.KeepsTo U M key owner c₀) (hclear : ∀ n ∈ M, c₀.Cleared n key)
    (hn : n ∈ M) {e : Entry Value} (he : (c.node n).hotCache key = some e) : n ≠ owner := by
  rcases h.hot n e he with he | ⟨hother, _⟩
  · cases (hclear n hn).2.symm.trans he
  · exact hother

end Cluster.KeepsTo

namespace Cluster.Monotone

/-- Where there are no copies, there is nothing to go back to. -/
theorem start (hkeeps : c.KeepsTo U M key owner c) (hU : Addressable U) (hM : ∀ n ∈ M, n ∈ U)
    (howner : Owner M key owner) (hidle : c.IdleFor key) (hclear : ∀ n ∈ M, c.Cleared n key) :
    c.Monotone M key owner := by
  intro n hn l hshow _
  have hmem := fun m hm => Cluster.KeepsTo.mem_of_pair (m := m) howner hn hm
  obtain ⟨load, hload⟩ := hshow.load hkeeps.inv
  refine hkeeps.ahead hU hM howner hn (Table.lt_of_getElem? hload).le ?_ ?_ ?_ ?_
  · intro m hm e he
    cases (hclear m (hmem m hm)).1.symm.trans he
  · intro m hm e he
    cases (hclear m (hmem m hm)).2.symm.trans he
  · intro f fl hf _ hk hend
    obtain ⟨result, hp⟩ := hidle.flights f fl hf hk
    exact absurd hp (hend result)
  · intro f fl i g hf _ hk hend
    obtain ⟨result, hp⟩ := hidle.flights f fl hf hk
    exact absurd hp (hend result)

/-- The owner shows a value that it has loaded. -/
theorem step_main (hkeeps : c.KeepsTo U M key owner c₀) (hkeeps' : c'.KeepsTo U M key owner c₀)
    (hU : Addressable U) (hM : ∀ n ∈ M, n ∈ U) (howner : Owner M key owner)
    (hclear : ∀ n ∈ M, c₀.Cleared n key) (m : Move c a c') {f : Nat} {fl : Flight Value}
    {loaded : Loaded Value} (hf : c.flights[f]? = some fl) (hk : fl.key = key)
    (hp : fl.phase = .insertMain loaded)
    (hins : (c'.node fl.node).mainCache fl.key = some { loaded, flight := f }) :
    c'.Ahead fl.node owner key loaded.load := by
  have hph := (hkeeps.inv.flights f fl hf).phase
  rw [Flight.PhaseOk, hp] at hph
  obtain ⟨_, _, ⟨load, _, hload, _⟩⟩ := hph
  have hn := (hkeeps.flights f fl (hkeeps.new_flight hf hk (by simp [hp])) hf hk).node
  have hown := hkeeps'.main_owner hclear hn (hk ▸ hins)
  have hpair : ∀ x ∈ ({fl.node, owner} : Set GroupcachePeer), x = fl.node := by
    rintro x (rfl | rfl)
    · rfl
    · exact hown.symm
  refine hkeeps'.ahead hU hM howner hn ?_ ?_ ?_ ?_ ?_
  · exact (Table.lt_of_getElem? hload).le.trans (m.extends hkeeps.inv).loads.length_le
  · intro x hx e he
    rw [hpair x hx, ← hk, hins] at he
    cases he
    exact Nat.le_refl _
  · intro x hx e he
    exact absurd ((hpair x hx).trans hown)
      (hkeeps'.hot_other hclear (Cluster.KeepsTo.mem_of_pair howner hn hx) he)
  · intro f' fl' hf' hx hk' hend'
    exact (m.inserting_late hkeeps.inv hf (.inl hp) hf' (hpair _ hx)
      (hk'.trans hk.symm) hend').1
  · intro f' fl' i g hf' hx hk' hend' hreq
    exact absurd hreq (hkeeps'.no_request hf' (hx.trans hown) hk' hend')

/-- Another node shows the owner's answer, which the owner has shown before. -/
theorem step_hot (h : c.Monotone M key owner) (hkeeps : c.KeepsTo U M key owner c₀)
    (hkeeps' : c'.KeepsTo U M key owner c₀) (hU : Addressable U) (hM : ∀ n ∈ M, n ∈ U)
    (howner : Owner M key owner) (hclear : ∀ n ∈ M, c₀.Cleared n key) (m : Move c a c')
    (hby : LoadedOn c owner l) {f : Nat} {fl : Flight Value} {loaded : Loaded Value}
    (hf : c.flights[f]? = some fl) (hk : fl.key = key) (hp : fl.phase = .insertHot loaded)
    (hl : loaded.load = l)
    (hins : (c'.node fl.node).hotCache fl.key = some { loaded, flight := f }) :
    c'.Ahead fl.node owner key l := by
  have hph := (hkeeps.inv.flights f fl hf).phase
  rw [Flight.PhaseOk, hp] at hph
  obtain ⟨_, _, request, hreq, call, result, hcall, hret, hresp⟩ := hph
  obtain ⟨sent, rfl, _, hload⟩ := loadRemotely_respondGet hresp
  have hsent : sent.load = l := hload.symm.trans hl
  have hnew := hkeeps.new_flight hf hk (by simp [hp])
  have hn := (hkeeps.flights f fl hnew hf hk).node
  obtain ⟨hother, x, hx, hxn, hxk⟩ := hkeeps.request hnew hf hk hreq
  obtain rfl : call = x := Option.some.inj (hcall.symm.trans hx)
  have howns := (h owner howner.mem l (.get hcall hxn hxk (.inr hret) hsent) hby).step hkeeps
    hkeeps' hU hM howner howner.mem m
  refine hkeeps'.ahead hU hM howner hn howns.bound ?_ ?_ ?_ ?_
  · rintro y (rfl | rfl) e he
    · exact absurd (hkeeps'.main_owner hclear hn he) hother
    · exact howns.main _ (.inl rfl) e he
  · rintro y (rfl | rfl) e he
    · rw [← hk, hins] at he
      cases he
      exact hl.ge
    · exact howns.hot _ (.inl rfl) e he
  · rintro f' fl' hf' (hy | hy) hk' hend'
    · exact hl ▸ (m.inserting_late hkeeps.inv hf (.inr hp) hf' hy
        (hk'.trans hk.symm) hend').1
    · have hgroup := (hkeeps'.inv.group owner key f').mpr ⟨fl', hf', hy, hk', hend'⟩
      exact (howns.running owner (.inl rfl) f' fl' hgroup hf').phase.mono fun _ _ _ => trivial
  · intro f' fl' i g hf' hy hk' hend' hreq' hg
    obtain ⟨-, hnone | hsame⟩ := (m.inserting_late hkeeps.inv hf (.inr hp) hf' hy
      (hk'.trans hk.symm) hend' : fl'.phase.Late _ (fun _ => True) ∧ _)
    · cases hnone.symm.trans hreq'
    · -- it is the request that has been answered
      obtain rfl : request = i := Option.some.inj (hreq.symm.trans (hsame.symm.trans hreq'))
      obtain ⟨x, hx, hb⟩ := (m.extends hkeeps.inv).gets request call hcall
      obtain rfl : g = x := Option.some.inj (hg.symm.trans hx)
      rw [hb.returned _ hret, GetCall.Late, hret]
      exact hsent.ge

theorem step (h : c.Monotone M key owner) (hkeeps : c.KeepsTo U M key owner c₀)
    (hkeeps' : c'.KeepsTo U M key owner c₀) (hU : Addressable U) (hM : ∀ n ∈ M, n ∈ U)
    (howner : Owner M key owner) (hclear : ∀ n ∈ M, c₀.Cleared n key) (hs : c.step a = some c') :
    c'.Monotone M key owner := by
  intro n hn l hshow hby
  have m := Cluster.step_move hs
  have hext := m.extends hkeeps.inv
  rcases hshow.cases_step hkeeps.inv hs with hold | ⟨f, fl, hf, rfl, hk, hnew⟩
  · exact (h n hn l hold (hby.back hext (hold.load hkeeps.inv))).step hkeeps hkeeps' hU hM howner
      hn m
  · have hph := (hkeeps.inv.flights f fl hf).phase
    rw [Flight.PhaseOk] at hph
    cases hnew with
    | insertMain hp hl hins =>
        exact hl ▸ step_main hkeeps hkeeps' hU hM howner hclear m hf hk hp hins
    | insertHot hp hl hins =>
        rw [hp] at hph
        obtain ⟨load, _, hload, _⟩ := hph.2.1
        have hby := hby.back hext ⟨load, hl ▸ hload⟩
        exact h.step_hot hkeeps hkeeps' hU hM howner hclear m hby hf hk hp hl hins
    | fallback hp hne =>
        -- it has not been loaded by the owner
        rw [hp] at hph
        obtain ⟨load, hload, hln, _⟩ := (hkeeps.inv.flights f fl hf).load l hph.1
        obtain ⟨x, hx, hxn⟩ := hby.back hext ⟨load, hload⟩
        obtain rfl : load = x := Option.some.inj (hload.symm.trans hx)
        have hto := (hkeeps.flights f fl (hkeeps.new_flight hf hk (by simp [hp])) hf hk).peer
        exact absurd (hto.names.trans (hxn.symm.trans hln)) hne

end Cluster.Monotone

/-! ## The result -/

/-- Where a call has returned a value that the owner had loaded, a call that
begins after `c₁` on the same node or on the owner returns none of an older
load. -/
def Cluster.ReadsFollow (M : Finset GroupcachePeer) (key : String) (owner : GroupcachePeer)
    (c c₁ : Cluster Value) : Prop :=
  ∀ (i j : Nat) (g g' : GetCall Value) loaded loaded', c₁.gets[i]? = some g → g.node ∈ M →
    g.key = key → g.phase = .returned (.ok loaded) → LoadedOn c₁ owner loaded.load →
    c₁.gets.length ≤ j → c.gets[j]? = some g' → g'.node = g.node ∨ g'.node = owner →
    g'.key = key → g'.phase = .returned (.ok loaded') → loaded.load ≤ loaded'.load

/-- **Reads are monotonic.** From where the members know each other, nothing is
in progress for the key and none of them has a copy: in every run that leaves
them the members they know, once a call of `get` has returned a value of the
owner's, no call that begins later on its node, or on the owner, returns one of
an older load. -/
theorem monotonic_reads (hU : Addressable U) (hM : ∀ n ∈ M, n ∈ U) (hne : M.Nonempty)
    (h₀ : Reaches Cluster.step (SerialTopology U) (.start .withLocalPeer) c₀)
    (hagrees : c₀.Agrees M) (hidle : c₀.IdleFor key) (hclear : ∀ n ∈ M, c₀.Cleared n key)
    (h₁ : Reaches Cluster.step (Settled U M) c₀ c₁)
    (h : Reaches Cluster.step (Settled U M) c₁ c) :
    ∃ owner, Owner M key owner ∧ c.ReadsFollow M key owner c₁ := by
  have hforwarding := Cluster.reaches_forwarding hU h₀
  obtain ⟨owner, howner⟩ := hforwarding.has_owner hagrees hU hM hne key
  have hstart : c₀.KeepsTo U M key owner c₀ :=
    .start (Cluster.reaches_inv h₀) hforwarding hagrees hidle
  obtain ⟨hkeeps₁, hmono⟩ : c₁.KeepsTo U M key owner c₀ ∧ c₁.Monotone M key owner := by
    refine h₁.invariant (I := fun c => c.KeepsTo U M key owner c₀ ∧ c.Monotone M key owner)
      ⟨hstart, .start hstart hU hM howner hidle hclear⟩ ?_
    intro c c' a hi hg hs
    have hkeeps' := hi.1.step hU hM howner hg hs
    exact ⟨hkeeps', hi.2.step hi.1 hkeeps' hU hM howner hclear hs⟩
  refine ⟨owner, howner, ?_⟩
  intro i j g g' loaded loaded' hg hn hk hret hby hj hg' hn' hk' hret'
  have hahead := hmono g.node hn loaded.load (.get hg rfl hk (.inr hret) rfl) hby
  -- what is ahead in `c₁` is so to the end, for the calls to come in `c₁`
  obtain ⟨hkeeps, _, hlate⟩ : c.KeepsTo U M key owner c₀ ∧ c₁.gets.length ≤ c.gets.length ∧
      c.Late {g.node, owner} key loaded.load (c₁.ToCome g.node key) := by
    refine h.invariant (I := fun c => c.KeepsTo U M key owner c₀ ∧
      c₁.gets.length ≤ c.gets.length ∧
      c.Late {g.node, owner} key loaded.load (c₁.ToCome g.node key))
      ⟨hkeeps₁, Nat.le_refl _, hahead⟩ ?_
    intro c c' a hi hguard hs
    have m := Cluster.step_move hs
    have hkeeps' := hi.1.step hU hM howner hguard hs
    refine ⟨hkeeps', hi.2.1.trans (m.extends hi.1.inv).gets.length_le, ?_⟩
    exact hi.1.late_step hkeeps' hU hM howner hn hi.2.2 m (.inl hi.2.1)
  exact (hlate.returned hkeeps.inv hg' (.inl hj) hn' hk' hret').2

/-- The owner removes the key and loads it again, the other node loses its copy
and asks for it once more. -/
def loadedAgain : List (Action UInt8) :=
  let key := "127.0.0.1:8002_0"
  .remove (node 8002) key :: List.replicate 3 (.runRemove 0) ++
    .get (node 8002) key :: loads 2 2 9 ++ .evictHot (node 8001) key ::
    .get (node 8001) key :: enters 3 ++ .runFlight 3 :: List.replicate 4 (.runGet 4) ++
    List.replicate 3 (.runFlight 3) ++ [.runGet 3]

omit [Platform] [ValueBounds Value] in
/-- A node is asked for a key of another before and after the owner has loaded
it a second time. -/
theorem monotonic_reads_sample :
    let _ : Platform := host
    let _ : ValueBounds UInt8 := messagePack
    let M : Finset GroupcachePeer := {node 8001, node 8002}
    let key := "127.0.0.1:8002_0"
    ∃ c₁ c : Cluster UInt8, (∃ owner, Owner M key owner ∧ c.ReadsFollow M key owner c₁) ∧
      c₁.Returned 0 (node 8001) { value := 7, load := 0 } ∧
      c.Returned 2 (node 8002) { value := 9, load := 1 } ∧
      c.Returned 3 (node 8001) { value := 9, load := 1 } := by
  intro _ _ M key
  obtain ⟨c₀, h₀, c₁, h₁, c, h, hagrees, hidle, hclear, hobs⟩ :
      let U : Set GroupcachePeer := {p | p ∈ [8001, 8002].map node}
      ∃ c₀ ∈ replay Cluster.step (SerialTopology U) (.start .withLocalPeer) introduce,
      ∃ c₁ ∈ replay Cluster.step (Settled U M) c₀ (.get (node 8001) key :: asks 0 0 7),
      ∃ c ∈ replay Cluster.step (Settled U M) c₁ loadedAgain,
      c₀.Agrees M ∧ c₀.IdleFor key ∧ (∀ n ∈ M, c₀.Cleared n key) ∧
      c₁.Returned 0 (node 8001) { value := 7, load := 0 } ∧
      c.Returned 2 (node 8002) { value := 9, load := 1 } ∧
      c.Returned 3 (node 8001) { value := 9, load := 1 } := by
    decide +kernel +revert
  exact ⟨c₁, c, monotonic_reads addressable_host mem_host (Finset.insert_nonempty _ _)
    (.of_replay h₀) hagrees hidle hclear (.of_replay h₁) (.of_replay h), hobs⟩

end Groupcache
