import Groupcache.Cluster.Forwarding
import Groupcache.Cluster.Sharing
import Groupcache.Topology.Ownership

/-!
# Sharding by key

Once the nodes know the same members, every node finds one owner of a key.
What is called from then on keeps to it: only the owner puts the key into its
main cache and only others into their hot caches, with the owner's answer; a
request is for the owner, which does not forward it; and whoever else loads
the value has asked the owner first (`sharding`). What was cached before stays
where it was until it is evicted or removed.
-/

namespace Groupcache

open Transition

variable [Platform] {Value : Type} [ValueBounds Value] {U : Set GroupcachePeer}
  {M : Finset GroupcachePeer} {owner : GroupcachePeer} {key : String}
  {c₀ c c' : Cluster Value} {a : Action Value}

/-- Nothing is in progress for the key. -/
structure Cluster.IdleFor (key : String) (c : Cluster Value) : Prop where
  gets : ∀ (i : Nat) (g : GetCall Value), c.gets[i]? = some g → g.key = key →
    ∃ result, g.phase = .returned result
  flights : ∀ (f : Nat) (fl : Flight Value), c.flights[f]? = some fl → fl.key = key →
    ∃ result, fl.phase = .ended result
  removes : ∀ (i : Nat) (r : RemoveCall), c.removes[i]? = some r → r.key = key →
    ∃ result, r.phase = .returned result

omit [ValueBounds Value] in
theorem Cluster.IdleFor.of_empty (hgets : c.gets = []) (hflights : c.flights = [])
    (hremoves : c.removes = []) : c.IdleFor key where
  gets i g hg := by simp [hgets] at hg
  flights f fl hf := by simp [hflights] at hf
  removes i r hr := by simp [hremoves] at hr

instance (key : String) (c : Cluster Value) : Decidable (c.IdleFor key) :=
  decidable_of_iff ((∀ g ∈ c.gets, g.key = key → ∃ result, g.phase = .returned result) ∧
      (∀ fl ∈ c.flights, fl.key = key → ∃ result, fl.phase = .ended result) ∧
      ∀ r ∈ c.removes, r.key = key → ∃ result, r.phase = .returned result)
    ⟨fun ⟨hg, hf, hr⟩ =>
        ⟨Table.forall_mem_iff.mp hg, Table.forall_mem_iff.mp hf, Table.forall_mem_iff.mp hr⟩,
      fun ⟨hg, hf, hr⟩ =>
        ⟨Table.forall_mem_iff.mpr hg, Table.forall_mem_iff.mpr hf, Table.forall_mem_iff.mpr hr⟩⟩

/-- The members know each other and no other peer. -/
def Cluster.Agrees (M : Finset GroupcachePeer) (c : Cluster Value) : Prop :=
  ∀ n ∈ M, (c.node n).topology.routing.members n = M

/-- The application calls the members, and topology calls leave them with the
members they know. -/
def Settled (U : Set GroupcachePeer) (M : Finset GroupcachePeer) (c : Cluster Value)
    (a : Action Value) : Prop :=
  SerialTopology U c a ∧
    match a with
    | .get n _ => n ∈ M
    | .remove n _ => n ∈ M
    | .topology n action => n ∈ M → ∀ t, (c.node n).topology.step action = some t →
        t.routing.members n = M
    | _ => True

instance (M : Finset GroupcachePeer) (c : Cluster Value) : Decidable (c.Agrees M) :=
  inferInstanceAs (Decidable (∀ n ∈ M, (c.node n).topology.routing.members n = M))

instance (U : Set GroupcachePeer) [DecidablePred (· ∈ U)] (M : Finset GroupcachePeer)
    (c : Cluster Value) (a : Action Value) : Decidable (Settled U M c a) :=
  match a with
  | .get n key => inferInstanceAs (Decidable (SerialTopology U c (.get n key) ∧ n ∈ M))
  | .remove n key => inferInstanceAs (Decidable (SerialTopology U c (.remove n key) ∧ n ∈ M))
  | .topology n action => inferInstanceAs (Decidable (SerialTopology U c (.topology n action) ∧
      (n ∈ M → ∀ t ∈ (c.node n).topology.step action, t.routing.members n = M)))
  | .runGet _ | .runFlight _ | .runRemove _ | .load .. | .failGet .. | .failRemove ..
  | .evictMain .. | .evictHot .. => isTrue ⟨trivial, trivial⟩

omit [ValueBounds Value] in
theorem Cluster.Forwarding.has_owner (h : c.Forwarding U) (hagrees : c.Agrees M)
    (hU : Addressable U) (hM : ∀ n ∈ M, n ∈ U) (hne : M.Nonempty) (key : String) :
    ∃ owner, Owner M key owner := by
  obtain ⟨n, hn⟩ := hne
  have hinv := (h.topology n (hM n hn)).reachable.inv hU (hM n hn)
  obtain ⟨owner, howner, _⟩ := hinv.finds_owner hU (hM n hn) key
  exact ⟨owner, hagrees n hn ▸ howner⟩

/-! ## What the calls keep to -/

/-- What a lookup on a member has come to: the owner, and a client that dials it. -/
structure ToOwner (owner n : GroupcachePeer) (found : GroupcachePeerWithClient) : Prop where
  names : found.peer = owner
  dials : owner ≠ n → ∀ client, found.client = some client → client.peer = owner

theorem Finds.toOwner {n : GroupcachePeer} {s : RoutingState} {found : GroupcachePeerWithClient}
    (h : Finds n s key owner) (hl : s.lookupPeer key = .ok found) : ToOwner owner n found := by
  cases h.lookup.symm.trans hl
  refine ⟨rfl, fun hne client hc => ?_⟩
  obtain ⟨client', hc', hdials⟩ := h.client hne
  obtain rfl : client' = client := Option.some.inj (hc'.symm.trans hc)
  exact hdials

/-- A call of `get` begun since. -/
structure GetCall.KeepsTo (M : Finset GroupcachePeer) (owner : GroupcachePeer) (old : Nat)
    (g : GetCall Value) : Prop where
  node : g.node ∈ M
  routed : ∀ peer, g.phase = .deduping peer → ToOwner owner g.node peer
  flight : ∀ f, g.flight = some f → old ≤ f
  request : ∀ f, g.origin = some f → g.node = owner

/-- A flight opened since. -/
structure Flight.KeepsTo (M : Finset GroupcachePeer) (owner : GroupcachePeer)
    (fl : Flight Value) : Prop where
  node : fl.node ∈ M
  peer : ToOwner owner fl.node fl.peer
  fallback : ∀ l, fl.load = some l → fl.peer.peer = fl.node ∨ fl.request.isSome

/-- A call of `remove` begun since. -/
structure RemoveCall.KeepsTo (M : Finset GroupcachePeer) (owner : GroupcachePeer)
    (r : RemoveCall) : Prop where
  node : r.node ∈ M
  request : ∀ j, r.origin = some j → r.node = owner
  awaiting : ∀ j, r.phase = .awaiting j → r.node ≠ owner

/-- What has been in progress for the key is over, and what has come since
keeps to the owner. -/
structure Cluster.KeepsTo (U : Set GroupcachePeer) (M : Finset GroupcachePeer) (key : String)
    (owner : GroupcachePeer) (c c₀ : Cluster Value) : Prop where
  inv : c.Inv
  forwarding : c.Forwarding U
  agrees : c.Agrees M
  grown : c₀.gets.length ≤ c.gets.length ∧ c₀.flights.length ≤ c.flights.length ∧
    c₀.removes.length ≤ c.removes.length
  oldGets : ∀ (i : Nat) (g : GetCall Value), i < c₀.gets.length → c.gets[i]? = some g →
    g.key = key → ∃ result, g.phase = .returned result
  oldFlights : ∀ (f : Nat) (fl : Flight Value), f < c₀.flights.length →
    c.flights[f]? = some fl → fl.key = key → ∃ result, fl.phase = .ended result
  oldRemoves : ∀ (i : Nat) (r : RemoveCall), i < c₀.removes.length → c.removes[i]? = some r →
    r.key = key → ∃ result, r.phase = .returned result
  gets : ∀ (i : Nat) (g : GetCall Value), c₀.gets.length ≤ i → c.gets[i]? = some g →
    g.key = key → g.KeepsTo M owner c₀.flights.length
  flights : ∀ (f : Nat) (fl : Flight Value), c₀.flights.length ≤ f → c.flights[f]? = some fl →
    fl.key = key → fl.KeepsTo M owner
  loads : ∀ (l : Nat) (load : LoadCall Value), c₀.loads.length ≤ l → c.loads[l]? = some load →
    load.key = key → c₀.flights.length ≤ load.flight
  removes : ∀ (i : Nat) (r : RemoveCall), c₀.removes.length ≤ i → c.removes[i]? = some r →
    r.key = key → r.KeepsTo M owner
  main : ∀ n e, (c.node n).mainCache key = some e → (c₀.node n).mainCache key = some e ∨
    n = owner ∧ c₀.flights.length ≤ e.flight
  hot : ∀ n e, (c.node n).hotCache key = some e → (c₀.node n).hotCache key = some e ∨
    n ≠ owner ∧ c₀.flights.length ≤ e.flight

namespace Cluster.KeepsTo

omit [ValueBounds Value] in
theorem finds (hforwarding : c.Forwarding U) (hagrees : c.Agrees M) (hU : Addressable U)
    (hM : ∀ n ∈ M, n ∈ U) (howner : Owner M key owner) {n : GroupcachePeer} (hn : n ∈ M) :
    Finds n (c.node n).topology.routing key owner := by
  have hinv := (hforwarding.topology n (hM n hn)).reachable.inv hU (hM n hn)
  obtain ⟨found, hfound, hfinds⟩ := hinv.finds_owner hU (hM n hn) key
  rw [hagrees n hn] at hfound
  rwa [howner.unique hfound]

theorem start (hinv : c.Inv) (hforwarding : c.Forwarding U) (hagrees : c.Agrees M)
    (hidle : c.IdleFor key) : c.KeepsTo U M key owner c where
  inv := hinv
  forwarding := hforwarding
  agrees := hagrees
  grown := ⟨Nat.le_refl _, Nat.le_refl _, Nat.le_refl _⟩
  oldGets i g _ hg hk := hidle.gets i g hg hk
  oldFlights f fl _ hf hk := hidle.flights f fl hf hk
  oldRemoves i r _ hr hk := hidle.removes i r hr hk
  gets _ _ hi hg := absurd (Table.lt_of_getElem? hg) (Nat.not_lt_of_le hi)
  flights _ _ hi hf := absurd (Table.lt_of_getElem? hf) (Nat.not_lt_of_le hi)
  loads _ _ hi hl := absurd (Table.lt_of_getElem? hl) (Nat.not_lt_of_le hi)
  removes _ _ hi hr := absurd (Table.lt_of_getElem? hr) (Nat.not_lt_of_le hi)
  main _ _ he := .inl he
  hot _ _ he := .inl he

/-- A flight that has not ended has been opened since. -/
theorem new_flight (h : c.KeepsTo U M key owner c₀) {f : Nat} {fl : Flight Value}
    (hf : c.flights[f]? = some fl) (hk : fl.key = key)
    (hp : ∀ result, fl.phase ≠ .ended result) : c₀.flights.length ≤ f := by
  by_contra hlt
  obtain ⟨result, hended⟩ := h.oldFlights f fl (Nat.lt_of_not_le hlt) hf hk
  exact hp result hended

theorem new_get (h : c.KeepsTo U M key owner c₀) {i : Nat} {g : GetCall Value}
    (hg : c.gets[i]? = some g) (hk : g.key = key)
    (hp : ∀ result, g.phase ≠ .returned result) : c₀.gets.length ≤ i := by
  by_contra hlt
  obtain ⟨result, hret⟩ := h.oldGets i g (Nat.lt_of_not_le hlt) hg hk
  exact hp result hret

theorem new_remove (h : c.KeepsTo U M key owner c₀) {i : Nat} {r : RemoveCall}
    (hr : c.removes[i]? = some r) (hk : r.key = key)
    (hp : ∀ result, r.phase ≠ .returned result) : c₀.removes.length ≤ i := by
  by_contra hlt
  obtain ⟨result, hret⟩ := h.oldRemoves i r (Nat.lt_of_not_le hlt) hr hk
  exact hp result hret

/-! ### One step -/

theorem step_gets (h : c.KeepsTo U M key owner c₀) (hU : Addressable U)
    (hM : ∀ n ∈ M, n ∈ U) (howner : Owner M key owner) (hguard : Settled U M c a)
    (m : Move c a c') (i : Nat) (g : GetCall Value) (hi : c₀.gets.length ≤ i)
    (hg : c'.gets[i]? = some g) (hk : g.key = key) :
    g.KeepsTo M owner c₀.flights.length := by
  cases m with
  | get node k =>
      rcases Table.append_cases hg with hg | ⟨_, rfl⟩
      · exact h.gets i g hi hg hk
      · exact ⟨hguard.2, nofun, nofun, nofun⟩
  | getStep metrics hx hs =>
      rcases Table.set_cases hg with ⟨rfl, rfl⟩ | ⟨_, hg⟩
      · have hx' := h.gets i _ hi hx (hs.same.2 ▸ hk)
        cases hs with
        | routed hp hl =>
            have hfinds := finds h.forwarding h.agrees hU hM howner hx'.node
            have hl' := hk ▸ hl
            exact ⟨hx'.node, fun peer hp' => by cases hp'; exact hfinds.toOwner hl', hx'.flight,
              hx'.request⟩
        | joined hp hgroup =>
            -- the flight that runs has been opened since, too
            refine ⟨hx'.node, nofun, fun f hf => ?_, hx'.request⟩
            cases hf
            obtain ⟨fl, hfl, _, hflk, hend⟩ := (h.inv.group _ _ _).mp hgroup
            exact h.new_flight hfl (hflk.trans hk) hend
        | _ => exact ⟨hx'.node, nofun, hx'.flight, hx'.request⟩
      · exact h.gets i g hi hg hk
  | openFlight hx hp =>
      rcases Table.set_cases hg with ⟨rfl, rfl⟩ | ⟨_, hg⟩
      · have hx' := h.gets i _ hi hx hk
        refine ⟨hx'.node, nofun, fun f hf => ?_, hx'.request⟩
        cases hf
        exact h.grown.2.1
      · exact h.gets i g hi hg hk
  | sendGet metrics hf hp hne hc =>
      rcases Table.append_cases hg with hg | ⟨_, rfl⟩
      · exact h.gets i g hi hg hk
      · -- the request is for the owner
        have hnew := h.new_flight hf hk (by simp [hp])
        have hto := (h.flights _ _ hnew hf hk).peer
        have hdials := hto.dials (hto.names ▸ hne) _ hc
        refine ⟨?_, nofun, nofun, fun _ _ => hdials⟩
        rw [hdials]
        exact howner.mem
  | _ => exact h.gets i g hi hg hk

theorem step_flights (h : c.KeepsTo U M key owner c₀) (m : Move c a c') (f : Nat)
    (fl : Flight Value) (hnew : c₀.flights.length ≤ f) (hf : c'.flights[f]? = some fl)
    (hk : fl.key = key) : fl.KeepsTo M owner := by
  rcases m.flight_becomes hf with hsame | ⟨i, g, _, hg, hp, _, _, hopen⟩ | ⟨x, hx, hnext⟩
  · exact h.flights f fl hnew hsame hk
  · -- it is opened for what the call has looked up
    have hgk : g.key = key := by rw [← hk, hopen]
    have hg' := h.gets i g (h.new_get hg hgk (by simp [hp])) hg hgk
    have hto := hg'.routed _ hp
    rw [hopen]
    exact ⟨hg'.node, hto, nofun⟩
  · have hx' := h.flights f x hnew hx (hnext.same.2.1 ▸ hk)
    have hph := (h.inv.flights f x hx).phase
    rw [Flight.PhaseOk] at hph
    cases hnext with
    | alone hs => cases hs <;> exact ⟨hx'.node, hx'.peer, hx'.fallback⟩
    | startLoad hp =>
        refine ⟨hx'.node, hx'.peer, fun _ _ => ?_⟩
        rcases hp with ⟨_, hown⟩ | hp
        · exact .inl hown
        · rw [hp] at hph
          exact .inr hph.1
    | sendGet => exact ⟨hx'.node, hx'.peer, fun _ _ => .inr rfl⟩
    | _ => exact ⟨hx'.node, hx'.peer, hx'.fallback⟩

theorem step_loads (h : c.KeepsTo U M key owner c₀) (m : Move c a c') (l : Nat)
    (load : LoadCall Value) (hnew : c₀.loads.length ≤ l) (hl : c'.loads[l]? = some load)
    (hk : load.key = key) : c₀.flights.length ≤ load.flight := by
  cases m with
  | startLoad metrics hf hp =>
      rcases Table.append_cases hl with hl | ⟨_, rfl⟩
      · exact h.loads l load hnew hl hk
      · refine h.new_flight hf hk fun result hended => ?_
        rcases hp with ⟨hp, _⟩ | hp <;> cases hp.symm.trans hended
  | finishLoad metrics result hf hp =>
      rcases Table.modify_cases hl with ⟨rfl, old, hold, rfl⟩ | ⟨_, hl⟩
      · exact h.loads _ old hnew hold hk
      · exact h.loads l load hnew hl hk
  | _ => exact h.loads l load hnew hl hk

theorem step_removes (h : c.KeepsTo U M key owner c₀) (hU : Addressable U)
    (hM : ∀ n ∈ M, n ∈ U) (howner : Owner M key owner) (hguard : Settled U M c a)
    (m : Move c a c') (i : Nat) (r : RemoveCall) (hi : c₀.removes.length ≤ i)
    (hr : c'.removes[i]? = some r) (hk : r.key = key) : r.KeepsTo M owner := by
  cases m with
  | remove node k =>
      rcases Table.append_cases hr with hr | ⟨_, rfl⟩
      · exact h.removes i r hi hr hk
      · exact ⟨hguard.2, nofun, nofun⟩
  | removeStep hx hs =>
      rcases Table.set_cases hr with ⟨rfl, rfl⟩ | ⟨_, hr⟩
      · cases hs <;> have hx' := h.removes i _ hi hx hk <;> exact ⟨hx'.node, hx'.request, nofun⟩
      · exact h.removes i r hi hr hk
  | lostRemove status hx =>
      rcases Table.set_cases hr with ⟨rfl, rfl⟩ | ⟨_, hr⟩
      · have hx' := h.removes i _ hi hx hk
        exact ⟨hx'.node, hx'.request, nofun⟩
      · exact h.removes i r hi hr hk
  | clearHot hx =>
      rcases Table.set_cases hr with ⟨rfl, rfl⟩ | ⟨_, hr⟩
      · have hx' := h.removes i _ hi hx hk
        exact ⟨hx'.node, hx'.request, nofun⟩
      · exact h.removes i r hi hr hk
  | clearMain hx =>
      rcases Table.set_cases hr with ⟨rfl, rfl⟩ | ⟨_, hr⟩
      · have hx' := h.removes i _ hi hx hk
        exact ⟨hx'.node, hx'.request, nofun⟩
      · exact h.removes i r hi hr hk
  | @sendRemove j x peer client hx hp hl hne hc =>
      -- the caller is not the owner, and its request is for the owner
      have route : x.key = key → x.KeepsTo M owner ∧ ToOwner owner x.node peer := by
        intro hxk
        have hx' := h.removes j x (h.new_remove hx hxk (by simp [hp])) hx hxk
        exact ⟨hx', (finds h.forwarding h.agrees hU hM howner hx'.node).toOwner (hxk ▸ hl)⟩
      rcases Table.append_cases hr with hr | ⟨_, rfl⟩
      · rcases Table.set_cases hr with ⟨rfl, rfl⟩ | ⟨_, hr⟩
        · obtain ⟨hx', hto⟩ := route hk
          exact ⟨hx'.node, hx'.request, fun _ _ heq => hne (hto.names.trans heq.symm)⟩
        · exact h.removes i r hi hr hk
      · obtain ⟨hx', hto⟩ := route hk
        have hdials := hto.dials (hto.names ▸ hne) client hc
        refine ⟨?_, fun _ _ => hdials, nofun⟩
        rw [hdials]
        exact howner.mem
  | _ => exact h.removes i r hi hr hk

theorem step_main (h : c.KeepsTo U M key owner c₀) (m : Move c a c') (n : GroupcachePeer)
    (e : Entry Value) (he : (c'.node n).mainCache key = some e) :
    (c₀.node n).mainCache key = some e ∨ n = owner ∧ c₀.flights.length ≤ e.flight := by
  rcases m.main_cases n key with hsame | ⟨f, fl, loaded, _, hf, hp, rfl, hk, hins⟩ | ⟨hnone, _⟩
  · exact h.main n e (hsame ▸ he)
  · cases hins.symm.trans he
    have hnew := h.new_flight hf hk (by simp [hp])
    have hph := (h.inv.flights f fl hf).phase
    rw [Flight.PhaseOk, hp] at hph
    exact .inr ⟨hph.1.symm.trans (h.flights f fl hnew hf hk).peer.names, hnew⟩
  · cases hnone.symm.trans he

theorem step_hot (h : c.KeepsTo U M key owner c₀) (m : Move c a c') (n : GroupcachePeer)
    (e : Entry Value) (he : (c'.node n).hotCache key = some e) :
    (c₀.node n).hotCache key = some e ∨ n ≠ owner ∧ c₀.flights.length ≤ e.flight := by
  rcases m.hot_cases n key with hsame | hnone | ⟨f, fl, loaded, _, hf, hp, rfl, hk, hins, _⟩
  · exact h.hot n e (hsame ▸ he)
  · cases hnone.symm.trans he
  · cases hins.symm.trans he
    have hnew := h.new_flight hf hk (by simp [hp])
    have hok := h.inv.flights f fl hf
    have hph := hok.phase
    rw [Flight.PhaseOk, hp] at hph
    obtain ⟨_, _, request, hreq, _⟩ := hph
    have hne := (hok.request request hreq).1
    rw [(h.flights f fl hnew hf hk).peer.names] at hne
    exact .inr ⟨hne.symm, hnew⟩

theorem step (h : c.KeepsTo U M key owner c₀) (hU : Addressable U) (hM : ∀ n ∈ M, n ∈ U)
    (howner : Owner M key owner) (hguard : Settled U M c a) (hs : c.step a = some c') :
    c'.KeepsTo U M key owner c₀ := by
  have m := Cluster.step_move hs
  have hext := m.extends h.inv
  constructor
  case inv => exact h.inv.step hs
  case forwarding => exact h.forwarding.step hU hguard.1 m
  case agrees =>
    intro n hn
    rcases m.topology_cases n with heq | ⟨action, rfl, htop⟩
    · rw [heq]
      exact h.agrees n hn
    · exact hguard.2 hn _ htop
  case grown =>
    exact ⟨h.grown.1.trans hext.gets.length_le, h.grown.2.1.trans hext.flights.length_le,
      h.grown.2.2.trans m.removes_grow.length_le⟩
  case oldGets =>
    intro i g hi hg hk
    obtain ⟨g', hg', hb⟩ := hext.gets i _
      (List.getElem?_eq_getElem (Nat.lt_of_lt_of_le hi h.grown.1))
    obtain rfl : g' = g := Option.some.inj (hg'.symm.trans hg)
    obtain ⟨result, hret⟩ := h.oldGets i _ hi (List.getElem?_eq_getElem _) (hb.key.symm.trans hk)
    exact ⟨result, (hb.returned result hret).symm ▸ hret⟩
  case oldFlights =>
    intro f fl hf hfl hk
    have hx := List.getElem?_eq_getElem (Nat.lt_of_lt_of_le hf h.grown.2.1)
    obtain ⟨fl', hfl', hb⟩ := hext.flights f _ hx
    obtain rfl : fl' = fl := Option.some.inj (hfl'.symm.trans hfl)
    obtain ⟨result, hended⟩ := h.oldFlights f _ hf hx (hb.key.symm.trans hk)
    rw [m.ended h.inv hx hended] at hfl
    cases hfl
    exact ⟨result, hended⟩
  case oldRemoves =>
    intro i r hi hr hk
    obtain ⟨r', hr', hb⟩ := m.removes_grow i _
      (List.getElem?_eq_getElem (Nat.lt_of_lt_of_le hi h.grown.2.2))
    obtain rfl : r' = r := Option.some.inj (hr'.symm.trans hr)
    obtain ⟨result, hret⟩ := h.oldRemoves i _ hi (List.getElem?_eq_getElem _)
      (hb.key.symm.trans hk)
    exact ⟨result, (hb.returned result hret).symm ▸ hret⟩
  case gets => exact h.step_gets hU hM howner hguard m
  case flights => exact h.step_flights m
  case loads => exact h.step_loads m
  case removes => exact h.step_removes hU hM howner hguard m
  case main => exact h.step_main m
  case hot => exact h.step_hot m

end Cluster.KeepsTo

/-! ## Where things happen -/

/-- Since `c₀`, everything for the key has happened where it belongs. -/
structure Cluster.Sharded (key : String) (owner : GroupcachePeer) (c c₀ : Cluster Value) :
    Prop where
  /-- Only the owner puts the key into its main cache. -/
  main : ∀ n e, (c.node n).mainCache key = some e →
    (c₀.node n).mainCache key = some e ∨ n = owner
  /-- Only others put it into their hot caches, with an answer of the owner's. -/
  hot : ∀ n e, (c.node n).hotCache key = some e → (c₀.node n).hotCache key = some e ∨
    n ≠ owner ∧ ∃ request g, Answered c request e.loaded ∧ c.gets[request]? = some g ∧
      g.node = owner ∧ g.key = key
  /-- Requests are for the owner, which does not forward them. -/
  gets : ∀ (i : Nat) (g : GetCall Value), c₀.gets.length ≤ i → c.gets[i]? = some g →
    g.key = key → (∀ f, g.origin = some f → g.node = owner) ∧
      (g.node = owner → ∀ f fl, g.flight = some f → c.flights[f]? = some fl → fl.request = none)
  /-- Who loads the value is the owner, or has asked the owner first. -/
  loads : ∀ (l : Nat) (load : LoadCall Value), c₀.loads.length ≤ l → c.loads[l]? = some load →
    load.key = key → load.node = owner ∨ ∃ fl request g, c.flights[load.flight]? = some fl ∧
      fl.request = some request ∧ c.gets[request]? = some g ∧ g.node = owner ∧ g.key = key
  removes : ∀ (i : Nat) (r : RemoveCall), c₀.removes.length ≤ i → c.removes[i]? = some r →
    r.key = key → (∀ j, r.origin = some j → r.node = owner) ∧
      (r.node = owner → ∀ j, r.phase ≠ .awaiting j)

/-- The request of a flight opened since is for the owner. -/
theorem Cluster.KeepsTo.request (h : c.KeepsTo U M key owner c₀) {f i : Nat} {fl : Flight Value}
    (hnew : c₀.flights.length ≤ f) (hf : c.flights[f]? = some fl) (hk : fl.key = key)
    (hreq : fl.request = some i) :
    fl.node ≠ owner ∧ ∃ g, c.gets[i]? = some g ∧ g.node = owner ∧ g.key = key := by
  have hto := (h.flights f fl hnew hf hk).peer
  obtain ⟨hne, g, client, hg, _, hgk, hc, hn⟩ := (h.inv.flights f fl hf).request i hreq
  rw [hto.names] at hne
  exact ⟨hne.symm, g, hg, hn.trans (hto.dials hne client hc), hgk.trans hk⟩

/-- What keeps to the owner happens where it belongs. -/
theorem Cluster.KeepsTo.sharded (h : c.KeepsTo U M key owner c₀) : c.Sharded key owner c₀ := by
  constructor
  case main => exact fun n e he => (h.main n e he).imp_right And.left
  case hot =>
    intro n e he
    refine (h.hot n e he).imp_right fun ⟨hother, hnew⟩ => ⟨hother, ?_⟩
    obtain ⟨_, fl, request, hf, _, hk, hreq, _, _, hanswer⟩ := h.inv.hot n key e he
    obtain ⟨_, g, hg, hgn, hgk⟩ := h.request hnew hf hk hreq
    exact ⟨request, g, hanswer, hg, hgn, hgk⟩
  case gets =>
    intro i g hi hg hk
    have hg' := h.gets i g hi hg hk
    refine ⟨hg'.request, fun hown f fl hgf hf => ?_⟩
    obtain ⟨x, hx, hn, hxk⟩ := (h.inv.gets i g hg).flight f hgf
    obtain rfl : fl = x := Option.some.inj (hf.symm.trans hx)
    cases hreq : fl.request with
    | none => rfl
    | some request =>
        have := (h.request (hg'.flight f hgf) hf (hxk.trans hk) hreq).1
        exact absurd (hn.trans hown) this
  case loads =>
    intro l load hl hload hk
    have hnew := h.loads l load hl hload hk
    obtain ⟨fl, hf, hfl, hn, hfk⟩ := h.inv.loads l load hload
    have hfl' := h.flights _ fl hnew hf (hfk.trans hk)
    rcases hfl'.fallback l hfl with hown | hreq
    · exact .inl (hn.symm.trans (hown.symm.trans hfl'.peer.names))
    · obtain ⟨request, hreq⟩ := Option.isSome_iff_exists.mp hreq
      obtain ⟨_, g, hg, hgn, hgk⟩ := h.request hnew hf (hfk.trans hk) hreq
      exact .inr ⟨fl, request, g, hf, hreq, hg, hgn, hgk⟩
  case removes =>
    intro i r hi hr hk
    have hr' := h.removes i r hi hr hk
    exact ⟨hr'.request, fun hown j hp => hr'.awaiting j hp hown⟩

/-- Nodes that know the same members, where nothing is in progress for the
key, keep to one owner of it. -/
theorem Cluster.reaches_keepsTo (hU : Addressable U) (hM : ∀ n ∈ M, n ∈ U) (hne : M.Nonempty)
    (h₀ : Reaches Cluster.step (SerialTopology U) (.start .withLocalPeer) c₀)
    (hagrees : c₀.Agrees M) (hidle : c₀.IdleFor key)
    (h : Reaches Cluster.step (Settled U M) c₀ c) :
    ∃ owner, Owner M key owner ∧ c.KeepsTo U M key owner c₀ := by
  have hforwarding := Cluster.reaches_forwarding hU h₀
  obtain ⟨owner, howner⟩ := hforwarding.has_owner hagrees hU hM hne key
  refine ⟨owner, howner, h.invariant (I := fun c => c.KeepsTo U M key owner c₀) ?_ ?_⟩
  · exact .start (Cluster.reaches_inv h₀) hforwarding hagrees hidle
  · exact fun _ _ _ hi hg hs => hi.step hU hM howner hg hs

/-- **Sharding.** From where the nodes know the same members and nothing is in
progress for the key, everything for it happens at its owner: the member
nearest to it, whatever fails and however calls interleave. -/
theorem sharding (hU : Addressable U) (hM : ∀ n ∈ M, n ∈ U) (hne : M.Nonempty)
    (h₀ : Reaches Cluster.step (SerialTopology U) (.start .withLocalPeer) c₀)
    (hagrees : c₀.Agrees M) (hidle : c₀.IdleFor key)
    (h : Reaches Cluster.step (Settled U M) c₀ c) :
    ∃ owner, Owner M key owner ∧ c.Sharded key owner c₀ ∧
      ∀ n ∈ M, Finds n (c.node n).topology.routing key owner := by
  obtain ⟨owner, howner, hkeeps⟩ := Cluster.reaches_keepsTo hU hM hne h₀ hagrees hidle h
  exact ⟨owner, howner, hkeeps.sharded, fun n hn =>
    Cluster.KeepsTo.finds hkeeps.forwarding hkeeps.agrees hU hM howner hn⟩

omit [Platform] [ValueBounds Value] in
/-- Two nodes add each other, and then the one asks the other, which is the
owner. -/
theorem sharding_sample :
    let _ : Platform := Concrete.platform [Concrete.node 8001, Concrete.node 8002]
    let _ : ValueBounds UInt8 := Concrete.messagePack
    let M : Finset GroupcachePeer := {Concrete.node 8001, Concrete.node 8002}
    let key := "127.0.0.1:8002_0"
    ∃ c₀ c : Cluster UInt8, (∃ owner, Owner M key owner ∧ c.Sharded key owner c₀ ∧
        ∀ n ∈ M, Finds n (c.node n).topology.routing key owner) ∧
      c.gets.map GetCall.node = [Concrete.node 8001, Concrete.node 8002] := by
  intro _ _ M key
  have hU := Concrete.addressable_nodes [8001, 8002] (by decide)
  have hA : Concrete.node 8001 ∈ {p | p ∈ [8001, 8002].map Concrete.node} := by decide
  have hB : Concrete.node 8002 ∈ {p | p ∈ [8001, 8002].map Concrete.node} := by decide
  have hM : Concrete.node 8001 ∈ M := by decide
  have hpair : ∀ n ∈ M, n = Concrete.node 8001 ∨ n = Concrete.node 8002 := by
    intro n hn
    exact (Finset.mem_insert.mp hn).imp_right Finset.mem_singleton.mp
  obtain ⟨hlA, hlB⟩ := Concrete.lookupPeer_paired
  refine ⟨_, _, sharding (M := M) hU ?hM (Finset.insert_nonempty _ _) (
    .head (a := .topology (Concrete.node 8001)
      (.begin (.addPeer (Concrete.node 8002)) fun _ => .connected 0)) ⟨hA, ?addA, ?idleA⟩ rfl <|
    .head (a := .topology (Concrete.node 8001) (.advance 0 [] [])) ⟨hA, trivial⟩ rfl <|
    .head (a := .topology (Concrete.node 8001) (.advance 0 [] [])) ⟨hA, trivial⟩ rfl <|
    .head (a := .topology (Concrete.node 8001) (.advance 0 [] [])) ⟨hA, trivial⟩ rfl <|
    .head (a := .topology (Concrete.node 8002)
      (.begin (.addPeer (Concrete.node 8001)) fun _ => .connected 0)) ⟨hB, ?addB, ?idleB⟩ rfl <|
    .head (a := .topology (Concrete.node 8002) (.advance 0 [] [])) ⟨hB, trivial⟩ rfl <|
    .head (a := .topology (Concrete.node 8002) (.advance 0 [] [])) ⟨hB, trivial⟩ rfl <|
    .single (a := .topology (Concrete.node 8002) (.advance 0 [] [])) ⟨hB, trivial⟩ rfl)
    ?agrees ?idle (
    .head (a := .get (Concrete.node 8001) key) ⟨hA, hM⟩ rfl <|
    .head (a := .runGet 0) ⟨trivial, trivial⟩ rfl <|
    .head (a := .runGet 0) ⟨trivial, trivial⟩ rfl <|
    .head (a := .runGet 0) ⟨trivial, trivial⟩ rfl <|
    .head (a := .runGet 0) ⟨trivial, trivial⟩ (Cluster.step_routing rfl rfl hlA) <|
    .head (a := .runGet 0) ⟨trivial, trivial⟩ rfl <|
    .single (a := .runFlight 0) ⟨trivial, trivial⟩ rfl), rfl⟩
  case hM =>
    intro n hn
    rcases hpair n hn with rfl | rfl
    · exact hA
    · exact hB
  case addA => simp [TopologyOp.peers]
  case addB => simp [TopologyOp.peers]
  case idleA | idleB =>
    intro call hcall
    cases hcall
  case agrees =>
    intro n hn
    rcases hpair n hn with rfl | rfl
    · rfl
    · exact (rfl : _ = (Concrete.paired (Concrete.node 8002)).members (Concrete.node 8002)).trans
        (Finset.pair_comm (Concrete.node 8002) (Concrete.node 8001))
  case idle => exact .of_empty rfl rfl rfl

end Groupcache
