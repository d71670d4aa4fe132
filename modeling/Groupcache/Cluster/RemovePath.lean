import Groupcache.Cluster.Forwarding
import Groupcache.Cluster.Operations

/-!
# The way of a `remove` (`remove_internal`)

One call of `remove` that runs alone, from any contents of the caches and any
tables the nodes can come to. Each node clears its hot cache before it knows
whether the next one can be reached, and the main cache is cleared at the end
of the way, by a node that owns the key. What is left when a request or an
answer is lost is the same with the way cut short: `Cluster.RemoveEffect` says
it of every outcome (`routed_remove`).
-/

namespace Groupcache

open Transition

variable [Platform] {Value : Type} [ValueBounds Value] {U : Set GroupcachePeer}
  {c₀ c c' : Cluster Value} {a : Action Value} {n : GroupcachePeer} {key : String}

/-! ## The run -/

/-- Only the calls of `remove` from call `b` on go on, or lose their requests
or the answers to these. -/
def RemoveAlone (b : Nat) (_ : Cluster Value) : Action Value → Prop
  | .runRemove i => b ≤ i
  | .failRemove i _ => b ≤ i
  | _ => False

/-- What call `i` of the run has come to, by its phase. A call that has been
taken up and has not forwarded the key is the last one; one that has forwarded
it is followed by the call of the next node, and has returned Ok only after
that one has. -/
def RemoveCall.Way (c₀ : Cluster Value) (key : String) (c : Cluster Value) (i : Nat)
    (r : RemoveCall) : Prop :=
  match r.phase with
  | .requested => i + 1 = c.removes.length
  | .called => i + 1 = c.removes.length
  | .routing => i + 1 = c.removes.length ∧ (c.node r.node).hotCache key = none
  | .clearMain => i + 1 = c.removes.length ∧ (c.node r.node).hotCache key = none ∧
      c₀.Owns key r.node
  | .awaiting j => j = i + 1 ∧ (c.node r.node).hotCache key = none ∧
      ∃ next, c.removes[i + 1]? = some next ∧ c₀.Hop key r.node next.node
  | .returned (.ok _) => (c.node r.node).hotCache key = none ∧
      (i + 1 = c.removes.length ∧ c₀.Owns key r.node ∧ (c.node r.node).mainCache key = none ∨
        ∃ next, c.removes[i + 1]? = some next ∧ c₀.Hop key r.node next.node ∧
          next.phase = .returned (.ok ()))
  | .returned (.error _) => (c.node r.node).hotCache key = none ∧
      ∃ next, c.removes[i + 1]? = some next ∧ c₀.Hop key r.node next.node
  | .panicked _ => False

/-- The state while the `remove` of the key on node `n`, which began in `c₀`,
goes on. -/
structure Cluster.OnWay (U : Set GroupcachePeer) (c₀ : Cluster Value) (n : GroupcachePeer)
    (key : String) (c : Cluster Value) : Prop where
  gets : c.gets = c₀.gets
  flights : c.flights = c₀.flights
  loads : c.loads = c₀.loads
  topology : ∀ m, (c.node m).topology = (c₀.node m).topology
  others : ∀ m k, k ≠ key → (c.node m).mainCache k = (c₀.node m).mainCache k ∧
    (c.node m).hotCache k = (c₀.node m).hotCache k
  first : ∃ r, c.removes[c₀.removes.length]? = some r ∧ r.node = n ∧ r.phase ≠ .requested
  way : ∀ (i : Nat) (r : RemoveCall), c₀.removes.length ≤ i → c.removes[i]? = some r →
    r.key = key ∧ r.node ∈ U ∧ r.Way c₀ key c i
  hot : ∀ m, (c.node m).hotCache key = (c₀.node m).hotCache key ∨
    (c.node m).hotCache key = none ∧ ∃ (i : Nat) (r : RemoveCall), c₀.removes.length ≤ i ∧
      c.removes[i]? = some r ∧ r.node = m ∧ r.phase ≠ .requested
  main : ∀ m, (c.node m).mainCache key = (c₀.node m).mainCache key ∨
    ∃ (i : Nat) (r : RemoveCall), c₀.removes.length ≤ i ∧ c.removes[i]? = some r ∧ r.node = m ∧
      i + 1 = c.removes.length ∧ r.phase = .returned (.ok ()) ∧ c₀.Owns key m

/-! ## One step -/

/-- A call whose lookup has resolved goes on to clear the main cache or to
forward the key. -/
theorem Cluster.step_resolved {i : Nat} {r r' : RemoveCall} {found : GroupcachePeerWithClient}
    (hr : c.removes[i]? = some r) (hp : r.phase = .routing)
    (hl : (c.node r.node).topology.routing.lookupPeer r.key = .ok found)
    (hres : found.Resolves r.node) (hs : c.step (.runRemove i) = some c')
    (hr' : c'.removes[i]? = some r') : r'.phase = .clearMain ∨ ∃ j, r'.phase = .awaiting j := by
  simp only [Cluster.step, hr, Option.bind_some, Cluster.runRemove, hp, hl] at hs
  split at hs
  · cases hs
    cases (Table.set_self hr).symm.trans hr'
    exact .inl rfl
  · cases hs
    cases (Table.append_of_some (Table.set_self hr)).symm.trans hr'
    exact .inr ⟨_, rfl⟩
  · exact absurd ‹_› (hres.dispatch_ne_error _)

/-- A call that loses its request, or the answer, fails. -/
theorem Cluster.failRemove_returned {i : Nat} {status : Status}
    (hs : c.step (.failRemove i status) = some c') :
    ∃ r, c'.removes[i]? = some r ∧ r.phase = .returned (removeRemotely (.error status)) := by
  cases hr : c.removes[i]? with
  | none => simp [Cluster.step, hr] at hs
  | some call =>
      simp only [Cluster.step, hr] at hs
      split at hs
      · cases hs
        exact ⟨_, Table.set_self hr, rfl⟩
      · cases hs

/-- A call that has not been taken up was so before, or has just been sent. -/
theorem Move.requested_cases (m : Move c a c') {i : Nat} {r : RemoveCall}
    (hr : c'.removes[i]? = some r) (hp : r.phase = .requested) :
    c.removes[i]? = some r ∨ c.removes.length ≤ i := by
  cases m with
  | remove node k =>
      rcases Table.append_cases hr with hr | ⟨rfl, _⟩
      · exact .inl hr
      · exact .inr (Nat.le_refl _)
  | removeStep hcall hs =>
      rcases Table.set_cases hr with ⟨_, rfl⟩ | ⟨_, hr⟩
      · cases hs <;> cases hp
      · exact .inl hr
  | lostRemove status hcall =>
      rcases Table.set_cases hr with ⟨_, rfl⟩ | ⟨_, hr⟩
      · cases hp
      · exact .inl hr
  | clearHot hcall =>
      rcases Table.set_cases hr with ⟨_, rfl⟩ | ⟨_, hr⟩
      · cases hp
      · exact .inl hr
  | clearMain hcall =>
      rcases Table.set_cases hr with ⟨_, rfl⟩ | ⟨_, hr⟩
      · cases hp
      · exact .inl hr
  | sendRemove hcall =>
      rcases Table.append_cases hr with hr | ⟨rfl, _⟩
      · rcases Table.set_cases hr with ⟨_, rfl⟩ | ⟨_, hr⟩
        · cases hp
        · exact .inl hr
      · rw [List.length_set]
        exact .inr (Nat.le_refl _)
  | _ => exact .inl hr

/-- A call that has been taken up stays so. -/
theorem Move.taken (m : Move c a c') {i : Nat} {r : RemoveCall} (hr : c.removes[i]? = some r)
    (hp : r.phase ≠ .requested) :
    ∃ r', c'.removes[i]? = some r' ∧ r'.node = r.node ∧ r'.phase ≠ .requested := by
  obtain ⟨r', hr', hb⟩ := m.removes_grow i r hr
  refine ⟨r', hr', hb.node, fun hp' => ?_⟩
  rcases m.requested_cases hr' hp' with hsame | hnew
  · obtain rfl : r = r' := Option.some.inj (hr.symm.trans hsame)
    exact hp hp'
  · exact absurd (Table.lt_of_getElem? hr) (Nat.not_lt_of_le hnew)

namespace RemoveAlone

variable {b : Nat}

theorem frame (hg : RemoveAlone b c a) (m : Move c a c') :
    c'.gets = c.gets ∧ c'.flights = c.flights ∧ c'.loads = c.loads ∧
      ∀ m, (c'.node m).topology = (c.node m).topology := by
  have htop : ∀ m, (c'.node m).topology = (c.node m).topology := by
    intro n
    rcases m.topology_cases n with heq | ⟨action, rfl, _⟩
    · exact heq
    · exact absurd hg id
  cases m <;> first
    | exact absurd hg id
    | exact ⟨rfl, rfl, rfl, htop⟩

/-- An entry of a main cache stays, or a call that is to clear it does. -/
theorem main_cases (hg : RemoveAlone b c a) (m : Move c a c') (n : GroupcachePeer)
    (key : String) : (c'.node n).mainCache key = (c.node n).mainCache key ∨
      (c'.node n).mainCache key = none ∧ ∃ (i : Nat) (r : RemoveCall), a = .runRemove i ∧
        c.removes[i]? = some r ∧ r.phase = .clearMain ∧ r.node = n ∧ r.key = key := by
  rcases m.main_cases n key with hsame | ⟨f, _, _, rfl, _⟩ | ⟨hnone, rfl | hclear⟩
  · exact .inl hsame
  · exact absurd hg id
  · exact absurd hg id
  · exact .inr ⟨hnone, hclear⟩

/-- An entry of a hot cache stays, or a call that has been taken up clears it. -/
theorem hot_cases (hg : RemoveAlone b c a) (m : Move c a c') (n : GroupcachePeer)
    (key : String) : (c'.node n).hotCache key = (c.node n).hotCache key ∨
      (c'.node n).hotCache key = none ∧ ∃ (i : Nat) (r : RemoveCall), a = .runRemove i ∧
        c.removes[i]? = some r ∧ r.phase = .called ∧ r.node = n ∧ r.key = key := by
  cases m with
  | @clearHot i r hr hp =>
      by_cases hnk : n = r.node ∧ key = r.key
      · refine .inr ⟨?_, i, r, rfl, hr, hp, hnk.1.symm, hnk.2.symm⟩
        show ((c.setHotCache r.node r.key none).node n).hotCache key = none
        rw [Cluster.hotCache_setHotCache, if_pos hnk]
      · refine .inl ?_
        show ((c.setHotCache r.node r.key none).node n).hotCache key = _
        rw [Cluster.hotCache_setHotCache, if_neg hnk]
  | clearMain => exact .inl (congrFun Cluster.hotCache_setMainCache key)
  | _ => first | exact absurd hg id | exact .inl rfl

/-- Nothing is added. -/
theorem main_none (hg : RemoveAlone b c a) (m : Move c a c')
    (h : (c.node n).mainCache key = none) : (c'.node n).mainCache key = none := by
  rcases hg.main_cases m n key with hsame | ⟨hnone, _⟩
  · exact hsame.trans h
  · exact hnone

theorem hot_none (hg : RemoveAlone b c a) (m : Move c a c')
    (h : (c.node n).hotCache key = none) : (c'.node n).hotCache key = none := by
  rcases hg.hot_cases m n key with hsame | ⟨hnone, _⟩
  · exact hsame.trans h
  · exact hnone

end RemoveAlone

omit [ValueBounds Value] in
/-- What call `i` has come to stays so while another one goes on. -/
theorem RemoveCall.Way.mono {r : RemoveCall} {i : Nat} (h : r.Way c₀ key c i)
    (hgrow : Table.Grows RemoveCall.Becomes c.removes c'.removes)
    (hlast : i + 1 = c.removes.length → i + 1 = c'.removes.length)
    (hhot : ∀ m, (c.node m).hotCache key = none → (c'.node m).hotCache key = none)
    (hmain : ∀ m, (c.node m).mainCache key = none → (c'.node m).mainCache key = none) :
    r.Way c₀ key c' i := by
  unfold RemoveCall.Way at h ⊢
  cases hp : r.phase with
  | requested =>
      rw [hp] at h
      exact hlast h
  | called =>
      rw [hp] at h
      exact hlast h
  | routing =>
      rw [hp] at h
      exact ⟨hlast h.1, hhot _ h.2⟩
  | clearMain =>
      rw [hp] at h
      exact ⟨hlast h.1, hhot _ h.2.1, h.2.2⟩
  | awaiting j =>
      rw [hp] at h
      obtain ⟨hj, hclear, next, hnext, hhop⟩ := h
      obtain ⟨next', hnext', hb⟩ := hgrow _ next hnext
      exact ⟨hj, hhot _ hclear, next', hnext', hb.node ▸ hhop⟩
  | returned result =>
      rw [hp] at h
      cases result with
      | error e =>
          obtain ⟨hclear, next, hnext, hhop⟩ := h
          obtain ⟨next', hnext', hb⟩ := hgrow _ next hnext
          exact ⟨hhot _ hclear, next', hnext', hb.node ▸ hhop⟩
      | ok _ =>
          refine ⟨hhot _ h.1, h.2.imp ?_ ?_⟩
          · exact fun ⟨hl, hown, hempty⟩ => ⟨hlast hl, hown, hmain _ hempty⟩
          · rintro ⟨next, hnext, hhop, hret⟩
            obtain ⟨next', hnext', hb⟩ := hgrow _ next hnext
            obtain rfl := hb.returned _ hret
            exact ⟨next', hnext', hhop, hret⟩
  | panicked message =>
      rw [hp] at h
      exact h

namespace Cluster.OnWay

/-- The run has begun. -/
theorem start (hn : n ∈ U) (hs : c₀.step (.remove n key) = some c) : c₀.OnWay U n key c := by
  cases hs
  constructor
  case first => exact ⟨_, List.getElem?_concat_length, rfl, by simp⟩
  case way =>
    intro i r hi hr
    rcases Table.append_cases hr with hr | ⟨rfl, rfl⟩
    · exact absurd (Table.lt_of_getElem? hr) (Nat.not_lt_of_le hi)
    · exact ⟨rfl, hn, by simp [RemoveCall.Way]⟩
  case others => exact fun _ _ _ => ⟨rfl, rfl⟩
  case hot => exact fun _ => .inl rfl
  case main => exact fun _ => .inl rfl
  all_goals first | rfl | exact fun _ => rfl

/-- Where the last call has returned there are no more. -/
theorem length_eq (h : c₀.OnWay U n key c) (hg : RemoveAlone c₀.removes.length c a)
    (m : Move c a c') {i : Nat} {r : RemoveCall} (hr : c.removes[i]? = some r)
    (hlast : i + 1 = c.removes.length) {result : RemoveResult} (hp : r.phase = .returned result) :
    c'.removes.length = c.removes.length := by
  cases m with
  | @sendRemove j x peer client hx hpx =>
      have hway := (h.way j x hg hx).2.2
      rw [RemoveCall.Way, hpx] at hway
      obtain rfl : i = j := Nat.succ.inj (hlast.trans hway.1.symm)
      obtain rfl : x = r := Option.some.inj (hx.symm.trans hr)
      cases hpx.symm.trans hp
  | remove => exact absurd hg id
  | removeStep => exact List.length_set ..
  | lostRemove => exact List.length_set ..
  | clearHot => exact List.length_set ..
  | clearMain => exact List.length_set ..
  | _ => rfl

section Tables

variable (hU : Addressable U)
  (htables : ∀ m ∈ U, SerialReachable U m (c₀.node m).topology.routing)

include hU htables

omit [ValueBounds Value] in
/-- A node finds itself or a peer with a client. -/
theorem lookup (h : c₀.OnWay U n key c) {m : GroupcachePeer} (hm : m ∈ U) :
    ∃ found, (c.node m).topology.routing.lookupPeer key = .ok found ∧ found.Resolves m := by
  obtain ⟨_, p, _, _, _, hp, hl⟩ := ((htables m hm).inv hU hm).lookupPeer hU hm key
  rw [← h.topology] at hl
  refine ⟨_, hl, (RoutingState.mem_members.mp hp).imp_right fun hp => ?_⟩
  rw [h.topology]
  exact Finmap.mem_iff.mp hp |>.elim fun client hc => Option.isSome_of_eq_some hc

omit [ValueBounds Value] in
/-- A peer it finds is nearer to the key. -/
theorem nearer (h : c₀.OnWay U n key c) {m : GroupcachePeer} (hm : m ∈ U)
    {found : GroupcachePeerWithClient}
    (hl : (c.node m).topology.routing.lookupPeer key = .ok found) : Nearer U m key found := by
  rw [h.topology] at hl
  exact RoutingState.lookup_nearer hU hm (htables m hm) hl

/-- A call that looks up its peer finds one to go on with. -/
theorem routed (h : c₀.OnWay U n key c) {i : Nat} {r r' : RemoveCall}
    (hi : c₀.removes.length ≤ i) (hr : c.removes[i]? = some r) (hp : r.phase = .routing)
    (hs : c.step (.runRemove i) = some c') (hr' : c'.removes[i]? = some r') :
    r'.phase = .clearMain ∨ ∃ j, r'.phase = .awaiting j := by
  obtain ⟨hk, hmem, _⟩ := h.way i r hi hr
  obtain ⟨found, hl, hres⟩ := h.lookup hU htables hmem
  exact Cluster.step_resolved hr hp (hk ▸ hl) hres hs hr'

/-- The call that forwards the key waits for the new one, which is the last. -/
theorem sendRemove_way (h : c₀.OnWay U n key c) {j : Nat} {x : RemoveCall}
    {peer : GroupcachePeerWithClient} {client : GroupcachePeerClient}
    (hj : c₀.removes.length ≤ j) (hx : c.removes[j]? = some x) (hp : x.phase = .routing)
    (hl : (c.node x.node).topology.routing.lookupPeer x.key = .ok peer)
    (hne : peer.peer ≠ x.node) (hc : peer.client = some client) (i : Nat) (r : RemoveCall)
    (hi : c₀.removes.length ≤ i) (hr : (c.sendRemove j x client).removes[i]? = some r) :
    r.key = key ∧ r.node ∈ U ∧ r.Way c₀ key (c.sendRemove j x client) i := by
  have m : Move c (.runRemove j) (c.sendRemove j x client) := .sendRemove hx hp hl hne hc
  obtain ⟨hk, hmem, hway⟩ := h.way j x hj hx
  rw [RemoveCall.Way, hp] at hway
  have hl' : (c.node x.node).topology.routing.lookupPeer key = .ok peer := hk ▸ hl
  have hset : (c.sendRemove j x client).removes.length = c.removes.length + 1 := by
    simp [Cluster.sendRemove]
  rcases Table.append_cases hr with hr | ⟨hlen, rfl⟩
  · rcases Table.set_cases hr with ⟨rfl, rfl⟩ | ⟨hne', hr⟩
    · have hhop : c₀.Hop key x.node client.peer :=
        ⟨peer, client, by rw [← h.topology]; exact hl', hne, hc, rfl⟩
      have hnew : (c.sendRemove i x client).removes[i + 1]? = some
          { node := client.peer, key := x.key, origin := some i, began := c.loads.length
            phase := .requested } := by
        rw [hway.1]
        simp [Cluster.sendRemove]
      exact ⟨hk, hmem, hway.1.symm, hway.2, _, hnew, hhop⟩
    · obtain ⟨hk', hmem', hway'⟩ := h.way i r hi hr
      refine ⟨hk', hmem', hway'.mono m.removes_grow (fun hlast => ?_) (fun _ => id) fun _ => id⟩
      exact absurd (Nat.succ.inj (hlast.trans hway.1.symm)) hne'
  · rw [List.length_set] at hlen
    exact ⟨hk, (h.nearer hU htables hmem hl' hne client hc).1, by rw [hlen]; exact hset.symm⟩

/-- **The step**, for one call of the run. -/
theorem step_way (h : c₀.OnWay U n key c) (hg : RemoveAlone c₀.removes.length c a)
    (hs : c.step a = some c') (i : Nat) (r : RemoveCall)
    (hi : c₀.removes.length ≤ i) (hr : c'.removes[i]? = some r) :
    r.key = key ∧ r.node ∈ U ∧ r.Way c₀ key c' i := by
  have m := Cluster.step_move hs
  have hgrow := m.removes_grow
  have hhot : ∀ x, (c.node x).hotCache key = none → (c'.node x).hotCache key = none :=
    fun x => hg.hot_none m
  have hmain : ∀ x, (c.node x).mainCache key = none → (c'.node x).mainCache key = none :=
    fun x => hg.main_none m
  -- a call that stays, in a table that keeps its length
  have keep : c'.removes.length = c.removes.length → c.removes[i]? = some r →
      r.key = key ∧ r.node ∈ U ∧ r.Way c₀ key c' i := by
    intro hlen hr
    obtain ⟨hk, hmem, hway⟩ := h.way i r hi hr
    exact ⟨hk, hmem, hway.mono hgrow (fun hl => hl.trans hlen.symm) hhot hmain⟩
  -- the call that goes on
  have goes : ∀ {j : Nat} {x x' : RemoveCall}, c.removes[j]? = some x →
      c'.removes = c.removes.set j x' → x'.node = x.node → x'.key = x.key →
      (c₀.removes.length ≤ j → x.Way c₀ key c j → x'.Way c₀ key c' j) →
      r.key = key ∧ r.node ∈ U ∧ r.Way c₀ key c' i := by
    intro j x x' hx hset hn hk hway
    have hlen : c'.removes.length = c.removes.length := by rw [hset, List.length_set]
    rw [hset] at hr
    rcases Table.set_cases hr with ⟨rfl, rfl⟩ | ⟨_, hr⟩
    · obtain ⟨hxk, hmem, hxway⟩ := h.way i x hi hx
      exact ⟨hk.trans hxk, hn.symm ▸ hmem, hway hi hxway⟩
    · exact keep hlen hr
  cases m with
  | @removeStep j x x' hx hstep =>
      cases hstep with
      | received hp =>
          refine goes hx rfl rfl rfl fun _ hway => ?_
          rw [RemoveCall.Way, hp] at hway
          exact hway.trans (List.length_set ..).symm
      | @owned peer hp hl hd =>
          refine goes hx rfl rfl rfl fun hj hway => ?_
          rw [RemoveCall.Way, hp] at hway
          have hk := (h.way j x hj hx).1
          refine ⟨hway.1.trans (List.length_set ..).symm, hhot _ hway.2, peer, ?_, dispatch_here hd⟩
          rw [← h.topology, ← hk]
          exact hl
      | unrouted hp =>
          rcases h.routed hU htables hg hx hp hs (Table.set_self hx) with hp' | ⟨_, hp'⟩ <;>
            cases hp'
      | panicked hp =>
          rcases h.routed hU htables hg hx hp hs (Table.set_self hx) with hp' | ⟨_, hp'⟩ <;>
            cases hp'
      | @answered request callee result hp hcallee hret =>
          refine goes hx rfl rfl rfl fun _ hway => ?_
          rw [RemoveCall.Way, hp] at hway
          obtain ⟨rfl, hclear, next, hnext, hhop⟩ := hway
          obtain rfl : callee = next := Option.some.inj (hcallee.symm.trans hnext)
          have hnext' := Table.set_of_ne (b := { x with
            phase := .returned (removeRemotely (respondRemove result)) })
            (Nat.succ_ne_self j) hnext
          cases result with
          | error e => exact ⟨hhot _ hclear, callee, hnext', hhop⟩
          | ok _ => exact ⟨hhot _ hclear, .inr ⟨callee, hnext', hhop, hret⟩⟩
  | @lostRemove j request x status hx hp =>
      refine goes hx rfl rfl rfl fun _ hway => ?_
      rw [RemoveCall.Way, hp] at hway
      obtain ⟨_, hclear, next, hnext, hhop⟩ := hway
      exact ⟨hhot _ hclear, next, Table.set_of_ne (Nat.succ_ne_self j) hnext, hhop⟩
  | @clearHot j x hx hp =>
      refine goes hx rfl rfl rfl fun hj hway => ?_
      rw [RemoveCall.Way, hp] at hway
      have hk := (h.way j x hj hx).1
      refine ⟨hway.trans (List.length_set ..).symm, ?_⟩
      show ((c.setHotCache x.node x.key none).node x.node).hotCache key = none
      rw [Cluster.hotCache_setHotCache, if_pos ⟨rfl, hk.symm⟩]
  | @clearMain j x hx hp =>
      refine goes hx rfl rfl rfl fun hj hway => ?_
      rw [RemoveCall.Way, hp] at hway
      have hk := (h.way j x hj hx).1
      refine ⟨hhot _ hway.2.1, .inl ⟨hway.1.trans (List.length_set ..).symm, hway.2.2, ?_⟩⟩
      show ((c.setMainCache x.node x.key none).node x.node).mainCache key = none
      rw [Cluster.mainCache_setMainCache, if_pos ⟨rfl, hk.symm⟩]
  | sendRemove hx hp hl hne hc =>
      exact h.sendRemove_way hU htables hg hx hp hl hne hc i r hi hr
  | _ => exact absurd hg id

/-- **The step.** -/
theorem step (h : c₀.OnWay U n key c) (hg : RemoveAlone c₀.removes.length c a)
    (hs : c.step a = some c') :
    c₀.OnWay U n key c' := by
  have m := Cluster.step_move hs
  obtain ⟨hgets, hflights, hloads, htop⟩ := hg.frame m
  constructor
  case gets => exact hgets.trans h.gets
  case flights => exact hflights.trans h.flights
  case loads => exact hloads.trans h.loads
  case topology => exact fun x => (htop x).trans (h.topology x)
  case others =>
    intro x k hk
    constructor
    · rcases hg.main_cases m x k with hsame | ⟨_, i, r, rfl, hr, _, _, hrk⟩
      · exact hsame.trans (h.others x k hk).1
      · exact absurd (hrk.symm.trans (h.way i r hg hr).1) hk
    · rcases hg.hot_cases m x k with hsame | ⟨_, i, r, rfl, hr, _, _, hrk⟩
      · exact hsame.trans (h.others x k hk).2
      · exact absurd (hrk.symm.trans (h.way i r hg hr).1) hk
  case first =>
    obtain ⟨r, hr, hn, hp⟩ := h.first
    obtain ⟨r', hr', hn', hp'⟩ := m.taken hr hp
    exact ⟨r', hr', hn'.trans hn, hp'⟩
  case way => exact h.step_way hU htables hg hs
  case hot =>
    intro x
    -- what has been taken up stays so
    have reached : (∃ (i : Nat) (r : RemoveCall), c₀.removes.length ≤ i ∧
        c.removes[i]? = some r ∧ r.node = x ∧ r.phase ≠ .requested) →
        ∃ (i : Nat) (r : RemoveCall), c₀.removes.length ≤ i ∧ c'.removes[i]? = some r ∧
          r.node = x ∧ r.phase ≠ .requested := by
      rintro ⟨i, r, hi, hr, rfl, hp⟩
      obtain ⟨r', hr', hn', hp'⟩ := m.taken hr hp
      exact ⟨i, r', hi, hr', hn', hp'⟩
    rcases hg.hot_cases m x key with hsame | ⟨hnone, i, r, rfl, hr, hp, hn, _⟩
    · exact (h.hot x).imp hsame.trans fun ⟨hnone, hr⟩ => ⟨hsame.trans hnone, reached hr⟩
    · exact .inr ⟨hnone, reached ⟨i, r, hg, hr, hn, by simp [hp]⟩⟩
  case main =>
    intro x
    rcases hg.main_cases m x key with hsame | ⟨_, i, r, rfl, hr, hp, rfl, _⟩
    · refine (h.main x).imp hsame.trans ?_
      rintro ⟨i, r, hi, hr, hn, hlast, hp, hown⟩
      obtain ⟨r', hr', hb⟩ := m.removes_grow i r hr
      obtain rfl := hb.returned _ hp
      exact ⟨i, r', hi, hr', hn, hlast.trans (h.length_eq hg m hr hlast hp).symm, hp, hown⟩
    · -- the last call, which owns the key, has cleared it
      have hi : c₀.removes.length ≤ i := hg
      have hway := (h.way i r hi hr).2.2
      rw [RemoveCall.Way, hp] at hway
      simp only [Cluster.step, hr, Option.bind_some, Cluster.runRemove, hp] at hs
      cases hs
      exact .inr ⟨i, _, hi, Table.set_self hr, rfl, hway.1.trans (List.length_set ..).symm, rfl,
        hway.2.2⟩

end Tables

end Cluster.OnWay

/-! ## The run comes to its end -/

/-- A bound on what a call has still to do, the calls it sends included. -/
def RemoveCall.weight (r : RemoveCall) : Nat :=
  match r.phase with
  | .requested => 4 * distance r.key r.node + 5
  | .called => 4 * distance r.key r.node + 4
  | .routing => 4 * distance r.key r.node + 3
  | .clearMain => 1
  | .awaiting _ => 1
  | _ => 0

def Cluster.weight (c : Cluster Value) : Nat :=
  (c.removes.map RemoveCall.weight).sum

namespace Cluster.OnWay

theorem weight_lt (h : c₀.OnWay U n key c) (hU : Addressable U)
    (htables : ∀ m ∈ U, SerialReachable U m (c₀.node m).topology.routing)
    (hg : RemoveAlone c₀.removes.length c a) (m : Move c a c') : c'.weight < c.weight := by
  have hset : ∀ {i : Nat} {r r' : RemoveCall}, c.removes[i]? = some r → r'.weight < r.weight →
      ((c.removes.set i r').map RemoveCall.weight).sum < c.weight := by
    intro i r r' hr hlt
    rw [Cluster.weight, Table.sum_set_of_lt hr hlt]
    omega
  cases m with
  | removeStep hx hstep =>
      refine hset hx ?_
      cases hstep with
      | received hp => simp [RemoveCall.weight, hp]
      | owned hp => simp [RemoveCall.weight, hp]
      | unrouted hp => simp [RemoveCall.weight, hp]
      | panicked hp => simp [RemoveCall.weight, hp]
      | answered hp => simp [RemoveCall.weight, hp]
  | lostRemove status hx hp => exact hset hx (by simp [RemoveCall.weight, hp])
  | clearHot hx hp => exact hset hx (by simp [RemoveCall.weight, hp])
  | clearMain hx hp => exact hset hx (by simp [RemoveCall.weight, hp])
  | @sendRemove i r peer client hr hp hl hne hc =>
      -- the next node is nearer to the key
      obtain ⟨rfl, hmem, _⟩ := h.way i r hg hr
      have hnear := (h.nearer hU htables hmem hl hne client hc).2
      have hsum : (c.sendRemove i r client).weight
          = ((c.removes.set i { r with phase := .awaiting c.removes.length }).map
              RemoveCall.weight).sum + (4 * distance r.key client.peer + 5) :=
        Table.sum_concat ..
      have hbefore : r.weight = 4 * distance r.key r.node + 3 := by simp [RemoveCall.weight, hp]
      have hafter : RemoveCall.weight { r with phase := .awaiting c.removes.length } = 1 := rfl
      have hdrop := Table.sum_set_of_lt (f := RemoveCall.weight)
        (b := { r with phase := .awaiting c.removes.length }) hr (by omega)
      have hall : c.weight = (c.removes.map RemoveCall.weight).sum := rfl
      omega
  | _ => exact absurd hg id

/-- While one of its calls goes on the run does. -/
theorem proceeds (h : c₀.OnWay U n key c) : ∀ (k i : Nat) (r : RemoveCall),
    i + k = c.removes.length → c₀.removes.length ≤ i → c.removes[i]? = some r →
    ¬ r.phase.Settled →
    ∃ j, c₀.removes.length ≤ j ∧ (c.step (.runRemove j)).isSome = true := by
  intro k
  induction k with
  | zero =>
      intro i r hk _ hr _
      have := Table.lt_of_getElem? hr
      omega
  | succ k ih =>
      intro i r hk hi hr hgoes
      have hway := (h.way i r hi hr).2.2
      unfold RemoveCall.Way at hway
      cases hp : r.phase with
      | requested => exact absurd (by rw [hp]; trivial) hgoes
      | returned result => exact absurd (by rw [hp]; trivial) hgoes
      | panicked message => exact absurd (by rw [hp]; trivial) hgoes
      | called =>
          refine ⟨i, hi, ?_⟩
          simp only [Cluster.step, hr, Option.bind_some, Cluster.runRemove, hp, Option.isSome_some]
      | clearMain =>
          refine ⟨i, hi, ?_⟩
          simp only [Cluster.step, hr, Option.bind_some, Cluster.runRemove, hp, Option.isSome_some]
      | routing =>
          refine ⟨i, hi, ?_⟩
          simp only [Cluster.step, hr, Option.bind_some, Cluster.runRemove, hp]
          repeat' split
          all_goals rfl
      | awaiting j =>
          -- the next call is to be taken up, goes on, or has an answer
          rw [hp] at hway
          obtain ⟨rfl, _, next, hnext, _⟩ := hway
          cases hpn : next.phase with
          | requested =>
              refine ⟨i + 1, Nat.le_succ_of_le hi, ?_⟩
              simp only [Cluster.step, hnext, Option.bind_some, Cluster.runRemove, hpn,
                Option.isSome_some]
          | returned result =>
              refine ⟨i, hi, ?_⟩
              simp only [Cluster.step, hr, Option.bind_some, Cluster.runRemove, hp, hnext, hpn,
                Option.isSome_some]
          | panicked message =>
              have hnextway := (h.way (i + 1) next (Nat.le_succ_of_le hi) hnext).2.2
              rw [RemoveCall.Way, hpn] at hnextway
              exact absurd hnextway id
          | _ =>
              refine ih (i + 1) next (by omega) (Nat.le_succ_of_le hi) hnext ?_
              rw [hpn]
              exact id

end Cluster.OnWay

/-! ## The nodes reached -/

/-- The handler has taken the request up, or the application has made it. -/
def RemoveCall.taken (r : RemoveCall) : Bool :=
  match r.phase with
  | .requested => false
  | _ => true

omit [Platform] in
theorem RemoveCall.taken_iff {r : RemoveCall} : r.taken = true ↔ r.phase ≠ .requested := by
  unfold RemoveCall.taken
  cases r.phase <;> simp

/-- The nodes that the calls from call `b` on have reached, in order. -/
def Cluster.reached (b : Nat) (c : Cluster Value) : List GroupcachePeer :=
  ((c.removes.drop b).filter RemoveCall.taken).map RemoveCall.node

/-- What call `b` has returned. -/
def Cluster.removeResult (b : Nat) (c : Cluster Value) : Option RemoveResult :=
  match c.removes[b]? with
  | some call =>
      match call.phase with
      | .returned result => some result
      | _ => none
  | none => none

namespace Cluster

variable {b : Nat} {m : GroupcachePeer}

omit [ValueBounds Value] in
theorem mem_reached :
    m ∈ c.reached b ↔ ∃ (i : Nat) (r : RemoveCall), b ≤ i ∧ c.removes[i]? = some r ∧ r.node = m ∧
      r.phase ≠ .requested := by
  rw [reached, List.mem_map]
  constructor
  · rintro ⟨r, hr, rfl⟩
    obtain ⟨hmem, ht⟩ := List.mem_filter.mp hr
    obtain ⟨k, hk⟩ := List.getElem?_of_mem hmem
    rw [List.getElem?_drop] at hk
    exact ⟨b + k, r, Nat.le_add_right b k, hk, rfl, RemoveCall.taken_iff.mp ht⟩
  · rintro ⟨i, r, hi, hr, rfl, hp⟩
    obtain ⟨k, rfl⟩ := Nat.exists_eq_add_of_le hi
    rw [← List.getElem?_drop] at hr
    exact ⟨r, List.mem_filter.mpr ⟨List.mem_of_getElem? hr, RemoveCall.taken_iff.mpr hp⟩, rfl⟩

omit [ValueBounds Value] in
/-- Where the last call has been taken up its node is the last one reached. -/
theorem reached_getLast? {i : Nat} {r : RemoveCall} (hi : b ≤ i) (hr : c.removes[i]? = some r)
    (hlast : i + 1 = c.removes.length) (hp : r.phase ≠ .requested) :
    (c.reached b).getLast? = some r.node := by
  have hdrop : (c.removes.drop b).getLast? = some r := by
    rw [List.getLast?_drop, if_neg (by omega), List.getLast?_eq_getElem?, ← hlast]
    exact hr
  obtain ⟨rest, hrest⟩ := List.getLast?_eq_some_iff.mp hdrop
  rw [reached, hrest, List.filter_append, List.filter_cons_of_pos (RemoveCall.taken_iff.mpr hp)]
  simp

omit [ValueBounds Value] in
theorem removeResult_eq_some {result : RemoveResult} : c.removeResult b = some result ↔
    ∃ r, c.removes[b]? = some r ∧ r.phase = .returned result := by
  unfold removeResult
  cases c.removes[b]? with
  | none => simp
  | some call => cases hp : call.phase <;> simp [hp]

end Cluster

namespace Cluster.OnWay

omit [ValueBounds Value] in
/-- A call that has not been taken up is the last one. -/
theorem last_of_requested (h : c₀.OnWay U n key c) {i : Nat} {r : RemoveCall}
    (hi : c₀.removes.length ≤ i) (hr : c.removes[i]? = some r) (hp : r.phase = .requested) :
    i + 1 = c.removes.length := by
  have hway := (h.way i r hi hr).2.2
  rw [RemoveCall.Way, hp] at hway
  exact hway

omit [ValueBounds Value] in
/-- Each call is that of the node to which the one before forwards the key. -/
theorem hop (h : c₀.OnWay U n key c) {i : Nat} {r next : RemoveCall}
    (hi : c₀.removes.length ≤ i) (hr : c.removes[i]? = some r)
    (hnext : c.removes[i + 1]? = some next) : c₀.Hop key r.node next.node := by
  have hlt := Table.lt_of_getElem? hnext
  have hway := (h.way i r hi hr).2.2
  have same : ∀ next', c.removes[i + 1]? = some next' → next' = next :=
    fun next' h' => Option.some.inj (h'.symm.trans hnext)
  unfold RemoveCall.Way at hway
  split at hway
  case h_1 => omega
  case h_2 => omega
  case h_3 => omega
  case h_4 => omega
  case h_5 =>
    obtain ⟨_, _, next', hnext', hhop⟩ := hway
    exact same next' hnext' ▸ hhop
  case h_6 =>
    rcases hway.2 with ⟨hlast, _⟩ | ⟨next', hnext', hhop, _⟩
    · omega
    · exact same next' hnext' ▸ hhop
  case h_7 =>
    obtain ⟨_, next', hnext', hhop⟩ := hway
    exact same next' hnext' ▸ hhop
  case h_8 => exact absurd hway id

omit [ValueBounds Value] in
theorem reached_head? (h : c₀.OnWay U n key c) :
    (c.reached c₀.removes.length).head? = some n := by
  obtain ⟨r, hr, hn, hp⟩ := h.first
  rw [← List.head?_drop] at hr
  obtain ⟨rest, hrest⟩ := List.head?_eq_some_iff.mp hr
  rw [Cluster.reached, hrest, List.filter_cons_of_pos (RemoveCall.taken_iff.mpr hp), List.map_cons,
    List.head?_cons, hn]

omit [ValueBounds Value] in
/-- The nodes reached are the first ones on the way of the key. -/
theorem reached_isChain (h : c₀.OnWay U n key c) :
    (c.reached c₀.removes.length).IsChain (c₀.Hop key) := by
  rw [Cluster.reached, List.isChain_map]
  have hall : (c.removes.drop c₀.removes.length).IsChain
      fun r next => c₀.Hop key r.node next.node := by
    rw [List.isChain_iff_getElem]
    intro k hk
    rw [List.length_drop] at hk
    rw [List.getElem_drop, List.getElem_drop]
    exact h.hop (Nat.le_add_right _ k) (List.getElem?_eq_getElem (by omega))
      (List.getElem?_eq_getElem (by omega))
  have hlast : ∀ (k : Nat) r, (c.removes.drop c₀.removes.length)[k]? = some r →
      r.taken = false → k + 1 = (c.removes.drop c₀.removes.length).length := by
    intro k r hr ht
    rw [List.getElem?_drop] at hr
    have hp : r.phase = .requested := by
      by_contra hp
      rw [RemoveCall.taken_iff.mpr hp] at ht
      cases ht
    have := h.last_of_requested (Nat.le_add_right _ k) hr hp
    rw [List.length_drop]
    omega
  rcases Table.filter_of_last hlast with heq | heq
  · rw [heq]
    exact hall
  · rw [heq]
    exact hall.dropLast

omit [ValueBounds Value] in
/-- Once the first call has returned Ok all of them have. -/
theorem all_ok (h : c₀.OnWay U n key c) {caller : RemoveCall}
    (hcaller : c.removes[c₀.removes.length]? = some caller)
    (hret : caller.phase = .returned (.ok ())) (k : Nat) :
    ∀ r, c.removes[c₀.removes.length + k]? = some r → r.phase = .returned (.ok ()) := by
  induction k with
  | zero =>
      intro r hr
      obtain rfl : caller = r := Option.some.inj (hcaller.symm.trans hr)
      exact hret
  | succ k ih =>
      intro next hnext
      have hlt := Table.lt_of_getElem? hnext
      obtain ⟨r, hr⟩ : ∃ r, c.removes[c₀.removes.length + k]? = some r :=
        ⟨_, List.getElem?_eq_getElem (by omega)⟩
      have hway := (h.way _ r (Nat.le_add_right _ k) hr).2.2
      rw [RemoveCall.Way, ih r hr] at hway
      rcases hway.2 with ⟨hlast, _⟩ | ⟨next', hnext', _, hok⟩
      · omega
      · obtain rfl : next' = next := Option.some.inj (hnext'.symm.trans hnext)
        exact hok

omit [ValueBounds Value] in
/-- The way of a `remove` that has returned Ok ends at a node that owns the
key. -/
theorem ok_ends (h : c₀.OnWay U n key c) {caller : RemoveCall}
    (hcaller : c.removes[c₀.removes.length]? = some caller)
    (hret : caller.phase = .returned (.ok ())) :
    ∃ m, (c.reached c₀.removes.length).getLast? = some m ∧ c₀.Owns key m ∧
      (c.node m).mainCache key = none := by
  have hlt := Table.lt_of_getElem? hcaller
  obtain ⟨k, hk⟩ := Nat.exists_eq_add_of_lt hlt
  obtain ⟨r, hr⟩ : ∃ r, c.removes[c₀.removes.length + k]? = some r :=
    ⟨_, List.getElem?_eq_getElem (by omega)⟩
  have hok := h.all_ok hcaller hret k r hr
  have hway := (h.way _ r (Nat.le_add_right _ k) hr).2.2
  rw [RemoveCall.Way, hok] at hway
  rcases hway.2 with ⟨hlast, hown, hnone⟩ | ⟨next, hnext, _⟩
  · exact ⟨r.node, Cluster.reached_getLast? (Nat.le_add_right _ k) hr hlast (by simp [hok]), hown,
      hnone⟩
  · have := Table.lt_of_getElem? hnext
    omega

end Cluster.OnWay

/-! ## What a `remove` does -/

/-- The states of the run of a `remove` of the key on node `n`, which begins in
`c₀` with whatever the caches hold. -/
def Cluster.RunsRemove (c₀ : Cluster Value) (n : GroupcachePeer) (key : String)
    (c : Cluster Value) : Prop :=
  ∃ c₁, c₀.step (.remove n key) = some c₁ ∧
    Reaches Cluster.step (RemoveAlone c₀.removes.length) c₁ c

/-- The calls from call `b` on have come to their ends. -/
def Cluster.RemoveSettled (b : Nat) (c : Cluster Value) : Prop :=
  ∀ (i : Nat) (r : RemoveCall), b ≤ i → c.removes[i]? = some r → r.phase.Settled

/-- What holds at any time: the nodes reached are the way of the key from `n`,
and nothing is lost but the key, from the hot caches of the nodes reached and
the main cache of the last one if it owns the key. -/
structure Cluster.RemoveFrame (c₀ : Cluster Value) (n : GroupcachePeer) (key : String)
    (reached : List GroupcachePeer) (c : Cluster Value) : Prop where
  first : reached.head? = some n
  way : reached.IsChain (c₀.Hop key)
  gets : c.gets = c₀.gets
  flights : c.flights = c₀.flights
  loads : c.loads = c₀.loads
  others : ∀ m k, k ≠ key → (c.node m).mainCache k = (c₀.node m).mainCache k ∧
    (c.node m).hotCache k = (c₀.node m).hotCache k
  hot : ∀ m, (c.node m).hotCache key = (c₀.node m).hotCache key ∨
    (c.node m).hotCache key = none ∧ m ∈ reached
  main : ∀ m, (c.node m).mainCache key = (c₀.node m).mainCache key ∨
    (c.node m).mainCache key = none ∧ reached.getLast? = some m ∧ c₀.Owns key m

/-- What has happened once it is over. -/
structure Cluster.RemoveEffect (c₀ : Cluster Value) (key : String) (reached : List GroupcachePeer)
    (c : Cluster Value) : Prop where
  returned : ∃ result, c.removeResult c₀.removes.length = some result
  hot : ∀ m ∈ reached, (c.node m).hotCache key = none
  ok : c.removeResult c₀.removes.length = some (.ok ()) →
    ∃ m, reached.getLast? = some m ∧ c₀.Owns key m ∧ (c.node m).mainCache key = none
  unowned : ∀ m, reached.getLast? = some m → ¬ c₀.Owns key m →
    ∃ e, c.removeResult c₀.removes.length = some (.error e)
  /-- A call that has not been delivered, or has failed itself. -/
  failed : ∀ (i : Nat) (r : RemoveCall), c₀.removes.length ≤ i → c.removes[i]? = some r →
    r.phase ≠ .returned (.ok ()) → ∃ e, c.removeResult c₀.removes.length = some (.error e)

/-- A `remove` of the key on node `n` that runs alone from `c₀`. -/
structure Cluster.RoutedRemove (c₀ : Cluster Value) (n : GroupcachePeer) (key : String) : Prop where
  ends : ∀ c, c₀.RunsRemove n key c → Terminates Cluster.step (RemoveAlone c₀.removes.length) c
  proceeds : ∀ c, c₀.RunsRemove n key c → ¬ c.RemoveSettled c₀.removes.length →
    ∃ i, c₀.removes.length ≤ i ∧ (c.step (.runRemove i)).isSome = true
  frame : ∀ c, c₀.RunsRemove n key c → c₀.RemoveFrame n key (c.reached c₀.removes.length) c
  effect : ∀ c, c₀.RunsRemove n key c → c.RemoveSettled c₀.removes.length →
    c₀.RemoveEffect key (c.reached c₀.removes.length) c
  /-- A request or an answer that is lost anywhere. -/
  lost : ∀ c c' c'' i status, c₀.RunsRemove n key c → c₀.removes.length ≤ i →
    c.step (.failRemove i status) = some c' →
    Reaches Cluster.step (RemoveAlone c₀.removes.length) c' c'' →
    c''.RemoveSettled c₀.removes.length →
    ∃ e, c''.removeResult c₀.removes.length = some (.error e)

namespace Cluster.OnWay

/-- **The run.** -/
theorem of_runs (hU : Addressable U) (hn : n ∈ U)
    (htables : ∀ m ∈ U, SerialReachable U m (c₀.node m).topology.routing)
    (h : c₀.RunsRemove n key c) : c₀.OnWay U n key c := by
  obtain ⟨c₁, hs, hrun⟩ := h
  refine hrun.invariant (I := c₀.OnWay U n key) (.start hn hs) ?_
  intro s t a hi hg hs
  exact hi.step hU htables hg hs

theorem terminates (h : c₀.OnWay U n key c) (hU : Addressable U)
    (htables : ∀ m ∈ U, SerialReachable U m (c₀.node m).topology.routing) :
    Terminates Cluster.step (RemoveAlone c₀.removes.length) c := by
  refine terminates_of_measure (I := c₀.OnWay U n key) Cluster.weight ?_ c h
  intro s t a hi hg hs
  exact ⟨hi.step hU htables hg hs, hi.weight_lt hU htables hg (Cluster.step_move hs)⟩

omit [ValueBounds Value] in
theorem frame (h : c₀.OnWay U n key c) :
    c₀.RemoveFrame n key (c.reached c₀.removes.length) c := by
  constructor
  case first => exact h.reached_head?
  case way => exact h.reached_isChain
  case gets => exact h.gets
  case flights => exact h.flights
  case loads => exact h.loads
  case others => exact h.others
  case hot =>
    intro m
    exact (h.hot m).imp_right fun ⟨hnone, hr⟩ => ⟨hnone, Cluster.mem_reached.mpr hr⟩
  case main =>
    intro m
    refine (h.main m).imp_right ?_
    rintro ⟨i, r, hi, hr, rfl, hlast, hp, hown⟩
    have hway := (h.way i r hi hr).2.2
    rw [RemoveCall.Way, hp] at hway
    refine ⟨?_, Cluster.reached_getLast? hi hr hlast (by simp [hp]), hown⟩
    rcases hway.2 with ⟨_, _, hnone⟩ | ⟨next, hnext, _⟩
    · exact hnone
    · have := Table.lt_of_getElem? hnext
      omega

omit [ValueBounds Value] in
/-- A call that has come to its end has returned, if it has been taken up. -/
theorem returned (h : c₀.OnWay U n key c) {i : Nat} {r : RemoveCall}
    (hi : c₀.removes.length ≤ i) (hr : c.removes[i]? = some r) (hsettled : r.phase.Settled)
    (hp : r.phase ≠ .requested) :
    (∃ result, r.phase = .returned result) ∧ (c.node r.node).hotCache key = none := by
  have hway := (h.way i r hi hr).2.2
  unfold RemoveCall.Way at hway
  cases hph : r.phase with
  | requested => exact absurd hph hp
  | returned result =>
      rw [hph] at hway
      cases result with
      | ok _ => exact ⟨⟨_, rfl⟩, hway.1⟩
      | error e => exact ⟨⟨_, rfl⟩, hway.1⟩
  | panicked message =>
      rw [hph] at hway
      exact absurd hway id
  | _ =>
      rw [hph] at hsettled
      exact absurd hsettled id

omit [ValueBounds Value] in
theorem effect (h : c₀.OnWay U n key c) (hsettled : c.RemoveSettled c₀.removes.length) :
    c₀.RemoveEffect key (c.reached c₀.removes.length) c := by
  obtain ⟨caller, hcaller, _, hp⟩ := h.first
  obtain ⟨⟨result, hret⟩, _⟩ :=
    h.returned (Nat.le_refl _) hcaller (hsettled _ caller (Nat.le_refl _) hcaller) hp
  have hresult : c.removeResult c₀.removes.length = some result :=
    Cluster.removeResult_eq_some.mpr ⟨caller, hcaller, hret⟩
  have hok : result = .ok () → caller.phase = .returned (.ok ()) := fun hr => hr ▸ hret
  -- what an Ok rules out fails the call
  have fails : (caller.phase = .returned (.ok ()) → False) →
      ∃ e, c.removeResult c₀.removes.length = some (.error e) := by
    intro hnot
    cases result with
    | error e => exact ⟨e, hresult⟩
    | ok _ => exact absurd (hok rfl) hnot
  constructor
  case returned => exact ⟨result, hresult⟩
  case hot =>
    intro m hm
    obtain ⟨i, r, hi, hr, rfl, hp⟩ := Cluster.mem_reached.mp hm
    exact (h.returned hi hr (hsettled i r hi hr) hp).2
  case ok =>
    intro hr
    exact h.ok_ends hcaller (hok (Option.some.inj (hresult.symm.trans hr)))
  case unowned =>
    intro m hm hown
    refine fails fun hret => ?_
    obtain ⟨m', hm', hown', _⟩ := h.ok_ends hcaller hret
    cases hm.symm.trans hm'
    exact hown hown'
  case failed =>
    intro i r hi hr hnot
    obtain ⟨k, rfl⟩ := Nat.exists_eq_add_of_le hi
    exact fails fun hret => hnot (h.all_ok hcaller hret k r hr)

end Cluster.OnWay

/-- **The effect of a routed `remove`.** -/
theorem routed_remove (hU : Addressable U) (hn : n ∈ U)
    (htables : ∀ m ∈ U, SerialReachable U m (c₀.node m).topology.routing) :
    c₀.RoutedRemove n key := by
  have onWay : ∀ {c}, c₀.RunsRemove n key c → c₀.OnWay U n key c :=
    Cluster.OnWay.of_runs hU hn htables
  constructor
  case ends => exact fun c h => (onWay h).terminates hU htables
  case proceeds =>
    intro c h hgoes
    simp only [Cluster.RemoveSettled, not_forall] at hgoes
    obtain ⟨i, r, hi, hr, hp⟩ := hgoes
    have hlt := Table.lt_of_getElem? hr
    exact (onWay h).proceeds (c.removes.length - i) i r (by omega) hi hr hp
  case frame => exact fun c h => (onWay h).frame
  case effect => exact fun c h hsettled => (onWay h).effect hsettled
  case lost =>
    intro c c' c'' i status h hi hs hrun hsettled
    obtain ⟨c₁, hs₁, hrun₁⟩ := h
    have hg : RemoveAlone c₀.removes.length c (.failRemove i status) := hi
    have hend : c₀.RunsRemove n key c'' := ⟨c₁, hs₁, (Reaches.tail _ hrun₁ hg hs).trans hrun⟩
    obtain ⟨r, hr, hp⟩ := Cluster.failRemove_returned hs
    have hr'' : c''.removes[i]? = some r := by
      refine hrun.invariant (I := fun s => s.removes[i]? = some r) hr ?_
      intro s t a hi _ hs
      obtain ⟨r', hr', hb⟩ := (Cluster.step_move hs).removes_grow i r hi
      rwa [hb.returned _ hp] at hr'
    exact ((onWay hend).effect hsettled).failed i r hi hr'' (by simp [hp, removeRemotely])

omit [Platform] [ValueBounds Value] in
/-- Two nodes that know each other: one forwards the key to the other, which
owns it. -/
theorem routed_remove_sample :
    let _ : Platform := Concrete.platform [Concrete.node 8001, Concrete.node 8002]
    let _ : ValueBounds UInt8 := Concrete.messagePack
    let c₀ : Cluster UInt8 := .start Concrete.paired
    let key := "127.0.0.1:8002_0"
    c₀.RoutedRemove (Concrete.node 8001) key ∧
      ∃ c, c₀.RunsRemove (Concrete.node 8001) key c ∧ c.removeResult 0 = some (.ok ()) ∧
        c.reached 0 = [Concrete.node 8001, Concrete.node 8002] := by
  intro _ _ c₀ key
  have hU := Concrete.addressable_nodes [8001, 8002] (by decide)
  obtain ⟨hlA, hlB⟩ := Concrete.lookupPeer_paired
  have htables : ∀ m ∈ {p | p ∈ [8001, 8002].map Concrete.node},
      SerialReachable {p | p ∈ [8001, 8002].map Concrete.node} m (c₀.node m).topology.routing := by
    intro m hm
    rcases List.mem_pair.mp hm with rfl | rfl
    · exact .call (.addPeer (Concrete.node 8002)) (fun _ => .connected 0) [] [] .withLocalPeer
        (by simp [TopologyOp.peers]) trivial
    · exact .call (.addPeer (Concrete.node 8001)) (fun _ => .connected 0) [] [] .withLocalPeer
        (by simp [TopologyOp.peers]) trivial
  refine ⟨routed_remove hU (by decide) htables, _, ⟨_, rfl,
    .head (a := .runRemove 0) (Nat.zero_le _) rfl <|
    .head (a := .runRemove 0) (Nat.zero_le _)
      (Cluster.step_sendRemove rfl rfl hlA (by decide) rfl) <|
    .head (a := .runRemove 1) (Nat.zero_le _) rfl <|
    .head (a := .runRemove 1) (Nat.zero_le _) rfl <|
    .head (a := .runRemove 1) (Nat.zero_le _) (Cluster.step_owned rfl rfl hlB rfl) <|
    .head (a := .runRemove 1) (Nat.zero_le _) rfl <|
    .single (a := .runRemove 0) (Nat.zero_le _) rfl⟩, rfl, rfl⟩

end Groupcache
