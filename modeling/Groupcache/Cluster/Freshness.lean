import Groupcache.Cluster.Invariant

/-!
# Late loads

`Cluster.Late` says of some nodes and a key that no value from a load older
than load `b` is left there: none in a cache, none that a flight is about to
insert or to return, and none on its way to a call that is NEW. It takes
nodes that forward the key to each other alone, and tables that do not
change. Every step keeps it (`Cluster.Late.step`), as a load that starts now
is a late one.

Which calls are new is up to the use: those that began after some `remove`.
-/

namespace Groupcache

variable [Platform] {Value : Type} [ValueBounds Value] {c c' : Cluster Value}
  {a : Action Value} {S : Set GroupcachePeer} {key : String} {b : Nat} {new : Nat → Prop}

omit [Platform] in
/-- What node `n` has looked up is the node itself, or a client of a node in
`S`. -/
def Within (S : Set GroupcachePeer) (n : GroupcachePeer) (peer : GroupcachePeerWithClient) :
    Prop :=
  peer.peer ≠ n → ∀ client, peer.client = some client → client.peer ∈ S

/-- The value the flight has, or the load or request it waits for, is late. -/
def FlightPhase.Late (b : Nat) (new : Nat → Prop) : FlightPhase Value → Prop
  | .loading l => b ≤ l
  | .insertMain loaded => b ≤ loaded.load
  | .awaiting request => new request
  | .insertHot loaded => b ≤ loaded.load
  | .ending (.ok loaded) => b ≤ loaded.load
  | .ended (.ok loaded) => b ≤ loaded.load
  | _ => True

structure Flight.Late (S : Set GroupcachePeer) (b : Nat) (new : Nat → Prop)
    (fl : Flight Value) : Prop where
  within : Within S fl.node fl.peer
  phase : fl.phase.Late b new

/-- The value the call has, or the flight it waits for, is late. -/
def GetCall.Late (S : Set GroupcachePeer) (b : Nat) (new : Nat → Prop) (c : Cluster Value)
    (g : GetCall Value) : Prop :=
  match g.phase with
  | .hit loaded => b ≤ loaded.load
  | .waiting f => ∀ fl, c.flights[f]? = some fl → fl.Late S b new
  | .returned (.ok loaded) => b ≤ loaded.load
  | _ => True

structure Cluster.Late (S : Set GroupcachePeer) (key : String) (b : Nat) (new : Nat → Prop)
    (c : Cluster Value) : Prop where
  bound : b ≤ c.loads.length
  closed : ∀ n ∈ S, ∀ peer, (c.node n).topology.routing.lookupPeer key = .ok peer →
    Within S n peer
  main : ∀ n ∈ S, ∀ e, (c.node n).mainCache key = some e → b ≤ e.loaded.load
  hot : ∀ n ∈ S, ∀ e, (c.node n).hotCache key = some e → b ≤ e.loaded.load
  routed : ∀ (i : Nat) (g : GetCall Value) peer, c.gets[i]? = some g → g.node ∈ S →
    g.key = key → g.phase = .deduping peer → Within S g.node peer
  running : ∀ n ∈ S, ∀ f fl, (c.node n).singleFlightGroup key = some f →
    c.flights[f]? = some fl → fl.Late S b new
  gets : ∀ (i : Nat) (g : GetCall Value), c.gets[i]? = some g → new i → g.node ∈ S →
    g.key = key → g.Late S b new c

/-! ## One flight -/

/-- **A late flight stays late.** A request it makes is a new call. -/
theorem Flight.Late.next {f : Nat} {fl fl' : Flight Value} (h : fl.Late S b new)
    (hc : c.Late S key b new) (hinv : c.Inv) (hf : c.flights[f]? = some fl)
    (hk : fl.key = key) (hsend : fl.peer.peer ≠ fl.node → new c.gets.length)
    (hnext : FlightNext c c' f fl a fl') : fl'.Late S b new := by
  obtain ⟨hn', _, hpeer'⟩ := hnext.same
  refine ⟨by rw [hn', hpeer']; exact h.within, ?_⟩
  have hph := h.phase
  cases hnext with
  | alone hs =>
      cases hs with
      | @answered i call result loaded hp hcall hret hresp =>
          rw [hp] at hph
          -- the answer comes from a new call on a node of `S`
          have hreq := (hinv.flights f fl hf).phase
          rw [Flight.PhaseOk, hp] at hreq
          obtain ⟨hne, g, client, hg, _, hgk, hclient, hgn⟩ :=
            (hinv.flights f fl hf).request i hreq.1
          obtain rfl : call = g := Option.some.inj (hcall.symm.trans hg)
          have hmem : call.node ∈ S := hgn ▸ h.within hne client hclient
          have hlate := hc.gets i call hcall hph hmem (hgk.trans hk)
          obtain ⟨sent, rfl, _, hload⟩ := loadRemotely_respondGet hresp
          rw [GetCall.Late, hret] at hlate
          show b ≤ loaded.load
          rw [hload]
          exact hlate
      | _ => trivial
  | startLoad => exact hc.bound
  | sendGet _ hne => exact hsend hne
  | @finishLoad l result hp =>
      rw [hp] at hph
      cases result with
      | error e => trivial
      | ok value =>
          simp only [Flight.afterLoad]
          split <;> exact hph
  | insertMain hp =>
      rw [hp] at hph
      exact hph
  | insertHot hp =>
      rw [hp] at hph
      exact hph
  | @endFlight result hp =>
      rw [hp] at hph
      cases result <;> exact hph
  | _ => trivial

namespace Cluster.Late

/-- The flight a late one has become. -/
theorem flight (h : c.Late S key b new) (hinv : c.Inv) (m : Move c a c') {f : Nat}
    {fl fl' : Flight Value} (hf : c.flights[f]? = some fl) (hf' : c'.flights[f]? = some fl')
    (hk : fl.key = key) (hsend : fl.peer.peer ≠ fl.node → new c.gets.length)
    (hlate : fl.Late S b new) : fl'.Late S b new := by
  rcases m.flight_becomes hf' with hsame | ⟨_, _, _, _, _, _, rfl, _⟩ | ⟨x, hx, hnext⟩
  · obtain rfl : fl = fl' := Option.some.inj (hf.symm.trans hsame)
    exact hlate
  · exact absurd (Table.lt_of_getElem? hf) (Nat.lt_irrefl _)
  · obtain rfl : fl = x := Option.some.inj (hf.symm.trans hx)
    exact hlate.next h hinv hf hk hsend hnext

/-- The flight of an entry that a step puts into a cache is late. -/
theorem inserted (h : c.Late S key b new) (hinv : c.Inv) {f : Nat} {fl : Flight Value}
    (hf : c.flights[f]? = some fl) (hn : fl.node ∈ S) (hk : fl.key = key)
    (hend : ∀ result, fl.phase ≠ .ended result) : fl.Late S b new := by
  have hgroup := (hinv.group fl.node key f).mpr ⟨fl, hf, rfl, hk, hend⟩
  exact h.running fl.node hn f fl hgroup hf

/-! ## One step -/

theorem step_get (h : c.Late S key b new) (hinv : c.Inv) (m : Move c a c')
    (hsend : ∀ (f : Nat) (fl : Flight Value), c.flights[f]? = some fl → fl.node ∈ S →
      fl.key = key → fl.peer.peer ≠ fl.node → new c.gets.length)
    {i : Nat} {g : GetCall Value} (hg : c'.gets[i]? = some g) (hi : new i) (hn : g.node ∈ S)
    (hk : g.key = key) : g.Late S b new c' := by
  -- a flight that is late before the step is so after it
  have keep : ∀ (j : Nat) (x : GetCall Value), x.Ok c j → x.node ∈ S → x.key = key →
      x.Late S b new c → x.Late S b new c' := by
    intro j x hok hn hk hlate
    unfold GetCall.Late at hlate ⊢
    cases hp : x.phase with
    | waiting f =>
        rw [hp] at hlate
        intro fl' hf'
        have hph := hok.phase
        rw [GetCall.PhaseOk, hp] at hph
        obtain ⟨fl, hf, hfn, hfk⟩ := hok.flight f hph
        exact h.flight hinv m hf hf' (hfk.trans hk)
          (hsend f fl hf (hfn.symm ▸ hn) (hfk.trans hk)) (hlate fl hf)
    | returned result =>
        rw [hp] at hlate
        cases result <;> exact hlate
    | _ =>
        rw [hp] at hlate
        exact hlate
  rcases m.get_becomes hg with hsame | hnew | ⟨old, hold, hs | ⟨peer, _, hp, _, rfl, hfl⟩⟩
  · exact keep i g (hinv.gets i g hsame) hn hk (h.gets i g hsame hi hn hk)
  · unfold GetCall.Late
    rcases hnew with hp | hp <;> rw [hp] <;> trivial
  · refine keep i g (hs.ok hinv hold) hn hk ?_
    obtain ⟨hnode, hkey⟩ := hs.same
    rw [hnode] at hn
    rw [hkey] at hk
    have hlate := h.gets i old hold hi hn hk
    unfold GetCall.Late at hlate
    subst hk
    cases hs with
    | mainHit hp he => exact h.main _ hn _ he
    | hotHit hp he => exact h.hot _ hn _ he
    | hit hp =>
        rw [hp] at hlate
        exact hlate
    | joined hp hf => exact fun fl hfl => h.running _ hn _ fl hf hfl
    | @shared f fl result hp hf hres =>
        rw [hp] at hlate
        have hph := (hlate fl hf).phase
        rw [hres] at hph
        cases result <;> exact hph
    | _ => trivial
  · intro fl hf
    rw [hfl, List.getElem?_concat_length] at hf
    cases hf
    exact ⟨h.routed i old peer hold hn hk hp, trivial⟩

/-- **The step.** -/
theorem step (h : c.Late S key b new) (hinv : c.Inv) (m : Move c a c')
    (htop : ∀ n ∈ S, (c'.node n).topology = (c.node n).topology)
    (hsend : ∀ (f : Nat) (fl : Flight Value), c.flights[f]? = some fl → fl.node ∈ S →
      fl.key = key → fl.peer.peer ≠ fl.node → new c.gets.length) :
    c'.Late S key b new where
  bound := h.bound.trans (m.extends hinv).loads.length_le
  closed n hn peer hl := by
    rw [htop n hn] at hl
    exact h.closed n hn peer hl
  main n hn e he := by
    rcases m.main_cases n key with hsame | ⟨f, fl, x, -, hf, hp, rfl, hk, hins⟩ | ⟨hnone, -⟩
    · rw [hsame] at he
      exact h.main n hn e he
    · rw [hins] at he
      cases he
      have hph := (h.inserted hinv hf hn hk (by simp [hp])).phase
      rw [hp] at hph
      exact hph
    · rw [hnone] at he
      cases he
  hot n hn e he := by
    rcases m.hot_cases n key with hsame | hnone | ⟨f, fl, x, -, hf, hp, rfl, hk, hins, -⟩
    · rw [hsame] at he
      exact h.hot n hn e he
    · rw [hnone] at he
      cases he
    · rw [hins] at he
      cases he
      have hph := (h.inserted hinv hf hn hk (by simp [hp])).phase
      rw [hp] at hph
      exact hph
  routed i g peer hg hn hk hp := by
    rcases m.deduping_cases hg hp with hg | hl
    · exact h.routed i g peer hg hn hk hp
    · exact h.closed g.node hn peer (hk ▸ hl)
  running n hn f fl' hgroup hf' := by
    rcases m.group_cases hgroup with hgroup | ⟨i, g, peer, hg, hp, rfl, hk, hf⟩
    · obtain ⟨fl, hf, hfn, hfk, _⟩ := (hinv.group n key f).mp hgroup
      exact h.flight hinv m hf hf' hfk (hsend f fl hf (hfn.symm ▸ hn) hfk)
        (h.running n hn f fl hgroup hf)
    · -- it has just been opened, for a peer looked up on a node of `S`
      cases hf'.symm.trans hf
      exact ⟨h.routed i g peer hg hn hk hp, trivial⟩
  gets i g hg hi hn hk := h.step_get hinv m hsend hg hi hn hk

/-- What a new call returns is late. -/
theorem returned (h : c.Late S key b new) (hinv : c.Inv) {i : Nat} {g : GetCall Value}
    (hg : c.gets[i]? = some g) (hi : new i) (hn : g.node ∈ S) (hk : g.key = key)
    {loaded : Loaded Value} (hp : g.phase = .returned (.ok loaded)) :
    Produced c key loaded ∧ b ≤ loaded.load := by
  have hle := h.gets i g hg hi hn hk
  rw [GetCall.Late, hp] at hle
  exact ⟨hk ▸ hinv.returned hg hp, hle⟩

omit [ValueBounds Value] in
/-- Calls that have come to nothing yet may as well be new. -/
theorem renew (h : c.Late S key b fun _ => False)
    (hnew : ∀ i g, c.gets[i]? = some g → new i → g.phase = .requested) :
    c.Late S key b new where
  bound := h.bound
  closed := h.closed
  main := h.main
  hot := h.hot
  routed := h.routed
  running n hn f fl hgroup hf := by
    obtain ⟨hwithin, hph⟩ := h.running n hn f fl hgroup hf
    refine ⟨hwithin, ?_⟩
    cases hp : fl.phase with
    | awaiting request =>
        rw [hp] at hph
        exact hph.elim
    | ending result =>
        rw [hp] at hph
        cases result <;> exact hph
    | ended result =>
        rw [hp] at hph
        cases result <;> exact hph
    | _ =>
        rw [hp] at hph
        exact hph
  gets i g hg hi _ _ := by
    unfold GetCall.Late
    rw [hnew i g hg hi]
    trivial

end Cluster.Late

end Groupcache
