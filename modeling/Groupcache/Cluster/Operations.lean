import Groupcache.Cluster.Freshness
import Groupcache.Cluster.Provenance
import Groupcache.Topology.Alone

/-!
# Operations that do not overlap

A run of a cluster in which each call begins when nothing is in progress is a
sequence of completed operations (`Operation`). In such a run a `get` that
follows a `remove` of the same key on the same node should load the value
again. It does (`fresh_after_completed_remove`) if the nodes that forward the
key have nothing for it in their main caches: `remove` clears the main cache
of the last node on the way, and `get` looks into those of all of them.

A node has such an entry when it has loaded the value as the owner and has
lost the key to a peer that it then added (`stale_after_add_peer`). The doc of
`Groupcache::get` has main_cache used for keys that the node owns.
-/

namespace Groupcache

open Transition

variable [Platform] {Value : Type} [ValueBounds Value] {c c' c₀ c₁ c₂ : Cluster Value}
  {a : Action Value} {nodes : List GroupcachePeer} {n m : GroupcachePeer} {key : String}

/-! ## At rest -/

omit [Platform] in
/-- The call has come to its end, or has not been delivered. -/
def GetPhase.Settled : GetPhase Value → Prop
  | .requested => True
  | .returned _ => True
  | .panicked _ => True
  | _ => False

def RemovePhase.Settled : RemovePhase → Prop
  | .requested => True
  | .returned _ => True
  | .panicked _ => True
  | _ => False

/-- Nothing is in progress. -/
structure Cluster.AtRest (nodes : List GroupcachePeer) (c : Cluster Value) : Prop where
  gets : ∀ g ∈ c.gets, g.phase.Settled
  flights : ∀ fl ∈ c.flights, ∃ result, fl.phase = .ended result
  removes : ∀ r ∈ c.removes, r.phase.Settled
  topology : ∀ n ∈ nodes, (c.node n).topology.Idle

/-- Calls that begin an operation. -/
def Begins (nodes : List GroupcachePeer) : Action Value → Prop
  | .get n _ => n ∈ nodes
  | .remove n _ => n ∈ nodes
  | .topology n (.begin _ _) => n ∈ nodes
  | _ => False

/-- What happens while an operation is in progress. A request is delivered
while its caller waits for the answer or never. -/
def Proceeds (nodes : List GroupcachePeer) (c : Cluster Value) : Action Value → Prop
  | .get .. => False
  | .remove .. => False
  | .topology _ (.begin _ _) => False
  | .topology n (.advance _ _ _) => n ∈ nodes
  | .runGet i => ∀ g, c.gets[i]? = some g → g.phase = .requested →
      ∃ f fl, g.origin = some f ∧ c.flights[f]? = some fl ∧ fl.phase = .awaiting i
  | .runRemove i => ∀ r, c.removes[i]? = some r → r.phase = .requested →
      ∃ j caller, r.origin = some j ∧ c.removes[j]? = some caller ∧ caller.phase = .awaiting i
  | _ => True

/-- An operation that begins at rest and goes on until the cluster is at rest
again. -/
structure Operation (nodes : List GroupcachePeer) (a : Action Value) (c c' : Cluster Value) :
    Prop where
  begins : Begins nodes a
  rest : c.AtRest nodes
  run : ∃ s, c.step a = some s ∧ Reaches Cluster.step (Proceeds nodes) s c'
  rest' : c'.AtRest nodes

omit [Platform] in
instance (p : GetPhase Value) : Decidable p.Settled :=
  match p with
  | .requested | .returned _ | .panicked _ => isTrue trivial
  | .called | .mainLookup | .hotLookup | .hit _ | .routing | .deduping _ | .waiting _ => isFalse id

instance (p : RemovePhase) : Decidable p.Settled :=
  match p with
  | .requested | .returned _ | .panicked _ => isTrue trivial
  | .called | .routing | .clearMain | .awaiting _ => isFalse id

instance (nodes : List GroupcachePeer) (c : Cluster Value) : Decidable (c.AtRest nodes) :=
  decidable_of_iff ((∀ g ∈ c.gets, g.phase.Settled) ∧
      (∀ fl ∈ c.flights, ∃ result, fl.phase = .ended result) ∧
      (∀ r ∈ c.removes, r.phase.Settled) ∧ ∀ n ∈ nodes, (c.node n).topology.Idle)
    ⟨fun ⟨hg, hf, hr, ht⟩ => ⟨hg, hf, hr, ht⟩, fun ⟨hg, hf, hr, ht⟩ => ⟨hg, hf, hr, ht⟩⟩

instance (nodes : List GroupcachePeer) (a : Action Value) : Decidable (Begins nodes a) :=
  match a with
  | .get n _ | .remove n _ | .topology n (.begin ..) => inferInstanceAs (Decidable (n ∈ nodes))
  | .topology _ (.advance ..) | .runGet _ | .runFlight _ | .runRemove _ | .load .. | .failGet ..
  | .failRemove .. | .evictMain .. | .evictHot .. => isFalse id

instance (nodes : List GroupcachePeer) (c : Cluster Value) (a : Action Value) :
    Decidable (Proceeds nodes c a) :=
  match a with
  | .get .. | .remove .. | .topology _ (.begin ..) => isFalse id
  | .topology n (.advance ..) => inferInstanceAs (Decidable (n ∈ nodes))
  | .runGet i => decidable_of_iff (∀ g ∈ c.gets[i]?, g.phase = .requested →
      ∃ f ∈ g.origin, ∃ fl ∈ c.flights[f]?, fl.phase = .awaiting i) (by
        simp only [Proceeds, Option.mem_def, exists_and_left])
  | .runRemove i => decidable_of_iff (∀ r ∈ c.removes[i]?, r.phase = .requested →
      ∃ j ∈ r.origin, ∃ caller ∈ c.removes[j]?, caller.phase = .awaiting i) (by
        simp only [Proceeds, Option.mem_def, exists_and_left])
  | .runFlight _ | .load .. | .failGet .. | .failRemove .. | .evictMain .. | .evictHot .. =>
      isTrue trivial

omit [ValueBounds Value] in
/-- A call that has been taken up goes on. -/
theorem Proceeds.runGet {i : Nat} {g : GetCall Value} (hg : c.gets[i]? = some g)
    (hp : g.phase ≠ .requested) : Proceeds nodes c (.runGet i) := by
  intro g' hg' hp'
  obtain rfl : g = g' := Option.some.inj (hg.symm.trans hg')
  exact absurd hp' hp

omit [ValueBounds Value] in
theorem Proceeds.runRemove {i : Nat} {r : RemoveCall} (hr : c.removes[i]? = some r)
    (hp : r.phase ≠ .requested) : Proceeds nodes c (.runRemove i) := by
  intro r' hr' hp'
  obtain rfl : r = r' := Option.some.inj (hr.symm.trans hr')
  exact absurd hp' hp

/-- The states between operations. -/
def Completed (nodes : List GroupcachePeer) : Cluster Value → Prop :=
  Relation.ReflTransGen (fun c c' => ∃ a, Operation nodes a c c') (.start .withLocalPeer)

/-- The operation that begins with an action and proceeds with others. -/
def operate (nodes : List GroupcachePeer) (c : Cluster Value)
    (operation : Action Value × List (Action Value)) : Option (Cluster Value) :=
  if Begins nodes operation.1 ∧ c.AtRest nodes then
    ((c.step operation.1).bind fun s =>
      replay Cluster.step (Proceeds nodes) s operation.2).filter fun c' => c'.AtRest nodes
  else none

theorem Operation.of_operate {as : List (Action Value)}
    (h : operate nodes c (a, as) = some c') : Operation nodes a c c' := by
  simp only [operate] at h
  split at h
  · rename_i hready
    obtain ⟨h, hrest⟩ := Option.filter_eq_some_iff.mp h
    obtain ⟨s, hs, hrun⟩ := Option.bind_eq_some_iff.mp h
    exact ⟨hready.1, hready.2, ⟨s, hs, .of_replay hrun⟩, of_decide_eq_true hrest⟩
  · cases h

theorem Completed.of_operate {history : List (Action Value × List (Action Value))} :
    ∀ {c : Cluster Value}, Completed nodes c → history.foldlM (operate nodes) c = some c' →
      Completed nodes c' := by
  induction history with
  | nil =>
      intro c h hc
      cases hc
      exact h
  | cons operation history ih =>
      intro c h hc
      rw [List.foldlM_cons] at hc
      obtain ⟨d, hd, hc⟩ := Option.bind_eq_some_iff.mp hc
      exact ih (h.tail ⟨operation.1, .of_operate hd⟩) hc

theorem Operation.inv (h : Operation nodes a c c') (hinv : c.Inv) : c'.Inv := by
  obtain ⟨s, hs, hrun⟩ := h.run
  exact hrun.invariant (I := Cluster.Inv) (hinv.step hs) fun _ _ _ hi _ hs => hi.step hs

theorem Completed.inv (h : Completed nodes c) : c.Inv := by
  induction h with
  | refl => exact .start _
  | tail _ hop ih =>
      obtain ⟨a, hop⟩ := hop
      exact hop.inv ih

/-- While an operation other than a topology call is in progress the tables
stay as they are. -/
theorem Proceeds.topology_eq (hg : Proceeds nodes c a)
    (hidle : ∀ n ∈ nodes, (c.node n).topology.Idle) (h : Move c a c') (n : GroupcachePeer) :
    (c'.node n).topology = (c.node n).topology := by
  rcases h.topology_cases n with heq | ⟨action, rfl, hs⟩
  · exact heq
  · cases action with
    | «begin» op attempt => exact absurd hg id
    | advance i order removal =>
        rcases Topology.step_cases hs with ⟨_, _, hact, _⟩ |
          ⟨j, _, _, call, routing, stage, hact, hcall, hadv, _⟩
        · cases hact
        · obtain ⟨result, hret⟩ := hidle n hg call (List.mem_of_getElem? hcall)
          rw [hret] at hadv
          cases hadv

/-! ## The way of a key -/

/-- Node `n` forwards the key to node `m`. -/
def Cluster.Hop (c : Cluster Value) (key : String) (n m : GroupcachePeer) : Prop :=
  ∃ peer client, (c.node n).topology.routing.lookupPeer key = .ok peer ∧ peer.peer ≠ n ∧
    peer.client = some client ∧ client.peer = m

/-- The node names itself for the key. -/
def Cluster.Owns (c : Cluster Value) (key : String) (n : GroupcachePeer) : Prop :=
  ∃ peer, (c.node n).topology.routing.lookupPeer key = .ok peer ∧ peer.peer = n

/-- The nodes to which the key is forwarded from `n`, and `n`. -/
def Cluster.path (c : Cluster Value) (key : String) (n : GroupcachePeer) : Set GroupcachePeer :=
  {m | Relation.ReflTransGen (c.Hop key) n m}

omit [ValueBounds Value] in
theorem Cluster.Hop.unique {m' : GroupcachePeer} (h : c.Hop key n m) (h' : c.Hop key n m') :
    m = m' := by
  obtain ⟨peer, client, hl, _, hc, rfl⟩ := h
  obtain ⟨peer', client', hl', _, hc', rfl⟩ := h'
  cases hl.symm.trans hl'
  cases hc.symm.trans hc'
  rfl

omit [ValueBounds Value] in
theorem Cluster.Hop.not_owns (h : c.Hop key n m) : ¬ c.Owns key n := by
  rintro ⟨peer', hl', hown⟩
  obtain ⟨peer, _, hl, hne, _⟩ := h
  cases hl.symm.trans hl'
  exact hne hown

omit [ValueBounds Value] in
theorem Cluster.Hop.mem_path {m' : GroupcachePeer} (h : c.Hop key n m')
    (hm : m ∈ c.path key n) : m = n ∨ m ∈ c.path key m' := by
  rcases Relation.ReflTransGen.cases_head hm with rfl | ⟨_, hhop, hrest⟩
  · exact .inl rfl
  · exact .inr (hhop.unique h ▸ hrest)

omit [ValueBounds Value] in
/-- A node that owns the key does not forward it. -/
theorem Cluster.Owns.eq_of_mem_path (h : c.Owns key n) (hm : m ∈ c.path key n) : m = n := by
  rcases Relation.ReflTransGen.cases_head hm with rfl | ⟨_, hhop, _⟩
  · rfl
  · exact absurd h hhop.not_owns

/-! ## While a `remove` is in progress -/

/-- No call of `get`, flight, load or topology call is in progress, and none
has begun; the main caches have only lost entries. -/
structure Cluster.Quiet (c₀ c : Cluster Value) : Prop where
  gets : c.gets = c₀.gets
  flights : c.flights = c₀.flights
  loads : c.loads = c₀.loads
  topology : ∀ n, (c.node n).topology = (c₀.node n).topology
  main : ∀ n key, (c₀.node n).mainCache key = none → (c.node n).mainCache key = none

omit [ValueBounds Value] in
theorem Cluster.Quiet.refl (c : Cluster Value) : c.Quiet c where
  gets := rfl
  flights := rfl
  loads := rfl
  topology _ := rfl
  main _ _ h := h

namespace Cluster.Quiet

omit [ValueBounds Value] in
theorem get_settled (h : c₀.Quiet c) (hrest : c₀.AtRest nodes) {i : Nat} {g : GetCall Value}
    (hg : c.gets[i]? = some g) : g.phase.Settled :=
  hrest.gets g (h.gets ▸ List.mem_of_getElem? hg)

omit [ValueBounds Value] in
/-- No flight runs. -/
theorem no_flight (h : c₀.Quiet c) (hrest : c₀.AtRest nodes) {f : Nat} {fl : Flight Value}
    (hf : c.flights[f]? = some fl) (hp : ∀ result, fl.phase ≠ .ended result) : False := by
  obtain ⟨result, hend⟩ := hrest.flights fl (h.flights ▸ List.mem_of_getElem? hf)
  exact hp result hend

/-- Without a flight no cache gets an entry. -/
theorem main_step (h : c₀.Quiet c) (hrest : c₀.AtRest nodes) (m : Move c a c')
    (hnone : (c.node n).mainCache key = none) : (c'.node n).mainCache key = none := by
  rcases m.main_cases n key with hsame | ⟨f, fl, x, -, hf, hp, -⟩ | ⟨hnone, -⟩
  · rw [hsame]
    exact hnone
  · exact (h.no_flight hrest hf (by simp [hp])).elim
  · exact hnone

theorem hot_step (h : c₀.Quiet c) (hrest : c₀.AtRest nodes) (m : Move c a c')
    (hnone : (c.node n).hotCache key = none) : (c'.node n).hotCache key = none := by
  rcases m.hot_cases n key with hsame | hnone | ⟨f, fl, x, -, hf, hp, -⟩
  · rw [hsame]
    exact hnone
  · exact hnone
  · exact (h.no_flight hrest hf (by simp [hp])).elim

/-- Only calls of `remove` and the caches can change. -/
theorem step (h : c₀.Quiet c) (hrest : c₀.AtRest nodes) (hg : Proceeds nodes c a)
    (m : Move c a c') : c₀.Quiet c' := by
  have htop : ∀ n, (c'.node n).topology = (c₀.node n).topology := by
    intro n
    rw [← h.topology n]
    refine hg.topology_eq (fun n hn => ?_) m n
    rw [h.topology n]
    exact hrest.topology n hn
  have hmain : ∀ n key, (c₀.node n).mainCache key = none → (c'.node n).mainCache key = none :=
    fun n key hnone => h.main_step hrest m (h.main n key hnone)
  have hget : c'.gets = c.gets ∧ c'.flights = c.flights ∧ c'.loads = c.loads := by
    cases m with
    | get => exact absurd hg id
    | @getStep i call call' metrics hcall hs =>
        -- a request is delivered while its flight waits for it
        have hset := h.get_settled hrest hcall
        cases hs with
        | received hp =>
            obtain ⟨f, fl, _, hf, hwait⟩ := hg call hcall hp
            exact (h.no_flight hrest hf (by simp [hwait])).elim
        | _ => simp_all [GetPhase.Settled]
    | openFlight hcall hp =>
        have hset := h.get_settled hrest hcall
        rw [hp] at hset
        exact hset.elim
    | flightStep metrics hf hs =>
        exact (h.no_flight hrest hf (by cases hs <;> simp_all)).elim
    | unwrapped message hf hp => exact (h.no_flight hrest hf (by simp [hp])).elim
    | lost metrics status hf hp => exact (h.no_flight hrest hf (by simp [hp])).elim
    | startLoad metrics hf hp =>
        refine (h.no_flight hrest hf ?_).elim
        rcases hp with ⟨hp, _⟩ | hp <;> simp [hp]
    | sendGet metrics hf hp => exact (h.no_flight hrest hf (by simp [hp])).elim
    | finishLoad metrics result hf hp => exact (h.no_flight hrest hf (by simp [hp])).elim
    | insertMain hf hp => exact (h.no_flight hrest hf (by simp [hp])).elim
    | insertHot hf hp => exact (h.no_flight hrest hf (by simp [hp])).elim
    | endFlight hf hp => exact (h.no_flight hrest hf (by simp [hp])).elim
    | _ => exact ⟨rfl, rfl, rfl⟩
  exact ⟨hget.1.trans h.gets, hget.2.1.trans h.flights, hget.2.2.trans h.loads, htop, hmain⟩

end Cluster.Quiet

/-- What a call of `remove` has come to that is part of the operation. One
that has returned Ok has cleared the hot cache of its node, and the main
cache if the node owns the key; else it has been answered Ok by the next
node. -/
def RemoveCall.Clears (c₀ : Cluster Value) (key : String) (c : Cluster Value) (r : RemoveCall) :
    Prop :=
  match r.phase with
  | .routing => (c.node r.node).hotCache key = none
  | .clearMain => (c.node r.node).hotCache key = none ∧ c₀.Owns key r.node
  | .awaiting j => (c.node r.node).hotCache key = none ∧ c₀.removes.length ≤ j ∧
      ∃ callee, c.removes[j]? = some callee ∧ c₀.Hop key r.node callee.node
  | .returned (.ok _) => (c.node r.node).hotCache key = none ∧
      (c₀.Owns key r.node ∧ (c.node r.node).mainCache key = none ∨
        ∃ j callee, c₀.removes.length ≤ j ∧ c.removes[j]? = some callee ∧
          c₀.Hop key r.node callee.node ∧ callee.phase = .returned (.ok ()))
  | _ => True

/-- The calls of `remove` that the operation has not begun stay at rest. -/
structure Cluster.Removing (c₀ : Cluster Value) (key : String) (c : Cluster Value) : Prop where
  quiet : c₀.Quiet c
  old : ∀ (i : Nat) (r : RemoveCall), c.removes[i]? = some r → i < c₀.removes.length →
    r.phase.Settled
  new : ∀ (i : Nat) (r : RemoveCall), c.removes[i]? = some r → c₀.removes.length ≤ i →
    r.key = key ∧ r.Clears c₀ key c

namespace Cluster.Removing

omit [ValueBounds Value] in
/-- A call that is not at rest is part of the operation. -/
theorem active (h : c₀.Removing key c) {i : Nat} {r : RemoveCall} (hr : c.removes[i]? = some r)
    (hp : ¬ r.phase.Settled) : c₀.removes.length ≤ i := by
  by_contra hlt
  exact hp (h.old i r hr (Nat.lt_of_not_le hlt))

omit [ValueBounds Value] in
/-- So is a call that is delivered: what waits for it is. -/
theorem delivered (h : c₀.Removing key c) {i : Nat} (hg : Proceeds nodes c (.runRemove i))
    {r : RemoveCall} (hr : c.removes[i]? = some r) (hp : r.phase = .requested) :
    c₀.removes.length ≤ i := by
  obtain ⟨j, caller, _, hcaller, hwait⟩ := hg r hr hp
  have hj := h.active hcaller (by rw [hwait]; exact id)
  have hclears := (h.new j caller hcaller hj).2
  rw [RemoveCall.Clears, hwait] at hclears
  exact hclears.2.1

omit [ValueBounds Value] in
theorem owns (h : c₀.Removing key c) {peer : GroupcachePeerWithClient}
    (hl : (c.node n).topology.routing.lookupPeer key = .ok peer) (hown : peer.peer = n) :
    c₀.Owns key n :=
  ⟨peer, by rw [← h.quiet.topology n]; exact hl, hown⟩

omit [ValueBounds Value] in
theorem hop (h : c₀.Removing key c) {peer : GroupcachePeerWithClient}
    {client : GroupcachePeerClient} (hl : (c.node n).topology.routing.lookupPeer key = .ok peer)
    (hne : peer.peer ≠ n) (hc : peer.client = some client) : c₀.Hop key n client.peer :=
  ⟨peer, client, by rw [← h.quiet.topology n]; exact hl, hne, hc, rfl⟩

/-- What calls have cleared stays clear. -/
theorem clears_step (h : c₀.Removing key c) (hrest : c₀.AtRest nodes) (m : Move c a c')
    {r : RemoveCall} (hr : r.Clears c₀ key c) : r.Clears c₀ key c' := by
  have hhot : (c.node r.node).hotCache key = none → (c'.node r.node).hotCache key = none :=
    h.quiet.hot_step hrest m
  unfold RemoveCall.Clears at hr ⊢
  cases hp : r.phase with
  | routing =>
      rw [hp] at hr
      exact hhot hr
  | clearMain =>
      rw [hp] at hr
      exact ⟨hhot hr.1, hr.2⟩
  | awaiting j =>
      rw [hp] at hr
      obtain ⟨hclear, hj, callee, hcallee, hhop⟩ := hr
      obtain ⟨callee', hcallee', hb⟩ := m.removes_grow j callee hcallee
      exact ⟨hhot hclear, hj, callee', hcallee', hb.node ▸ hhop⟩
  | returned result =>
      rw [hp] at hr
      cases result with
      | error e => trivial
      | ok _ =>
          refine ⟨hhot hr.1, hr.2.imp ?_ ?_⟩
          · exact fun ⟨hown, hmain⟩ => ⟨hown, h.quiet.main_step hrest m hmain⟩
          · rintro ⟨j, callee, hj, hcallee, hhop, hret⟩
            obtain ⟨callee', hcallee', hb⟩ := m.removes_grow j callee hcallee
            obtain rfl := hb.returned _ hret
            exact ⟨j, callee', hj, hcallee', hhop, hret⟩
  | _ => trivial

/-- **The step** of a `remove` in progress. -/
theorem step (h : c₀.Removing key c) (hrest : c₀.AtRest nodes) (hg : Proceeds nodes c a)
    (m : Move c a c') : c₀.Removing key c' := by
  have hquiet := h.quiet.step hrest hg m
  have hcalls : ∀ (i : Nat) (r : RemoveCall), c'.removes[i]? = some r →
      (i < c₀.removes.length → r.phase.Settled) ∧
        (c₀.removes.length ≤ i → r.key = key ∧ r.Clears c₀ key c') := by
    intro i r hr
    have keep : c.removes[i]? = some r → (i < c₀.removes.length → r.phase.Settled) ∧
        (c₀.removes.length ≤ i → r.key = key ∧ r.Clears c₀ key c') := fun hr =>
      ⟨h.old i r hr, fun hi =>
        ⟨(h.new i r hr hi).1, h.clears_step hrest m (h.new i r hr hi).2⟩⟩
    -- a call of the operation that goes on
    have hset : ∀ {j : Nat} {x x' : RemoveCall}, c.removes[j]? = some x →
        (c.removes.set j x')[i]? = some r → c₀.removes.length ≤ j → x'.key = x.key →
        x'.Clears c₀ key c' → (i < c₀.removes.length → r.phase.Settled) ∧
          (c₀.removes.length ≤ i → r.key = key ∧ r.Clears c₀ key c') := by
      intro j x x' hx hr hj hk hclears
      rcases Table.set_cases hr with ⟨rfl, rfl⟩ | ⟨_, hr⟩
      · exact ⟨fun hlt => absurd hj (Nat.not_le_of_lt hlt),
          fun _ => ⟨hk.trans (h.new i x hx hj).1, hclears⟩⟩
      · exact keep hr
    cases m with
    | remove => exact absurd hg id
    | @removeStep j call call' hcall hs =>
        cases hs with
        | received hp => exact hset hcall hr (h.delivered hg hcall hp) rfl trivial
        | @owned peer hp hl hd =>
            have hj := h.active hcall (by rw [hp]; exact id)
            obtain ⟨hk, hclears⟩ := h.new j call hcall hj
            rw [RemoveCall.Clears, hp] at hclears
            exact hset hcall hr hj rfl ⟨hclears, h.owns (hk ▸ hl) (dispatch_here hd)⟩
        | unrouted hp => exact hset hcall hr (h.active hcall (by rw [hp]; exact id)) rfl trivial
        | panicked hp => exact hset hcall hr (h.active hcall (by rw [hp]; exact id)) rfl trivial
        | @answered request callee result hp hcallee hret =>
            have hj := h.active hcall (by rw [hp]; exact id)
            have hclears := (h.new j call hcall hj).2
            rw [RemoveCall.Clears, hp] at hclears
            obtain ⟨hclear, hreq, callee', hcallee', hhop⟩ := hclears
            obtain rfl : callee = callee' := Option.some.inj (hcallee.symm.trans hcallee')
            refine hset hcall hr hj rfl ?_
            cases result with
            | error e => trivial
            | ok _ =>
                have hne : request ≠ j := by
                  rintro rfl
                  obtain rfl : call = callee := Option.some.inj (hcall.symm.trans hcallee)
                  cases hp.symm.trans hret
                exact ⟨hclear, .inr
                  ⟨request, callee, hreq, Table.set_of_ne hne hcallee, hhop, hret⟩⟩
    | lostRemove status hcall hp =>
        exact hset hcall hr (h.active hcall (by rw [hp]; exact id)) rfl trivial
    | @clearHot j call hcall hp =>
        have hj := h.active hcall (by rw [hp]; exact id)
        obtain ⟨hk, _⟩ := h.new j call hcall hj
        refine hset hcall hr hj rfl ?_
        show ((c.setHotCache call.node call.key none).node call.node).hotCache key = none
        rw [Cluster.hotCache_setHotCache, if_pos ⟨rfl, hk.symm⟩]
    | @clearMain j call hcall hp =>
        have hj := h.active hcall (by rw [hp]; exact id)
        obtain ⟨hk, hclears⟩ := h.new j call hcall hj
        rw [RemoveCall.Clears, hp] at hclears
        refine hset hcall hr hj rfl ⟨?_, .inl ⟨hclears.2, ?_⟩⟩
        · show ((c.setMainCache call.node call.key none).node call.node).hotCache key = none
          rw [Cluster.hotCache_setMainCache]
          exact hclears.1
        · show ((c.setMainCache call.node call.key none).node call.node).mainCache key = none
          rw [Cluster.mainCache_setMainCache, if_pos ⟨rfl, hk.symm⟩]
    | @sendRemove j call peer client hcall hp hl hne hc =>
        have hj := h.active hcall (by rw [hp]; exact id)
        obtain ⟨hk, hclears⟩ := h.new j call hcall hj
        rw [RemoveCall.Clears, hp] at hclears
        have hlen : c₀.removes.length ≤ c.removes.length :=
          hj.trans (Nat.le_of_lt (Table.lt_of_getElem? hcall))
        have hcallee : (c.sendRemove j call client).removes[c.removes.length]?
            = some { node := client.peer, key := call.key, origin := some j
                     began := c.loads.length, phase := .requested } := by
          simp [Cluster.sendRemove]
        rcases Table.append_cases hr with hr | ⟨hi, rfl⟩
        · exact hset hcall hr hj rfl ⟨hclears, hlen, _, hcallee, h.hop (hk ▸ hl) hne hc⟩
        · rw [List.length_set] at hi
          exact ⟨fun hlt => absurd hlen (Nat.not_le_of_lt (hi ▸ hlt)), fun _ => ⟨hk, trivial⟩⟩
    | _ => exact keep hr
  exact ⟨hquiet, fun i r hr => (hcalls i r hr).1, fun i r hr => (hcalls i r hr).2⟩

end Cluster.Removing

/-- **What a completed `remove` leaves.** Every node on the way of the key has
lost it from its hot cache, and the node that owns it from its main cache. -/
theorem Operation.removed (h : Operation nodes (.remove n key) c₀ c₁) {r : RemoveCall}
    (hr : c₁.removes[c₀.removes.length]? = some r) (hret : r.phase = .returned (.ok ())) :
    c₀.Quiet c₁ ∧ ∀ m ∈ c₀.path key n, (c₁.node m).hotCache key = none ∧
      (c₀.Owns key m → (c₁.node m).mainCache key = none) := by
  obtain ⟨s, hs, hrun⟩ := h.run
  cases hs
  have hinv : c₀.Removing key c₁ ∧ ∃ r, c₁.removes[c₀.removes.length]? = some r ∧ r.node = n := by
    refine hrun.invariant (I := fun c => c₀.Removing key c ∧
      ∃ r, c.removes[c₀.removes.length]? = some r ∧ r.node = n) ⟨⟨?_, ?_, ?_⟩, ?_⟩ ?_
    · exact ⟨rfl, rfl, rfl, fun _ => rfl, fun _ _ h => h⟩
    · intro i x hx hi
      rcases Table.append_cases hx with hx | ⟨rfl, _⟩
      · exact h.rest.removes x (List.mem_of_getElem? hx)
      · exact absurd hi (Nat.lt_irrefl _)
    · intro i x hx hi
      rcases Table.append_cases hx with hx | ⟨_, rfl⟩
      · exact absurd (Table.lt_of_getElem? hx) (Nat.not_lt_of_le hi)
      · exact ⟨rfl, trivial⟩
    · exact ⟨_, List.getElem?_concat_length, rfl⟩
    · rintro c c' a ⟨hrem, x, hx, hn⟩ hg hs
      have m := Cluster.step_move hs
      obtain ⟨x', hx', hb⟩ := m.removes_grow _ x hx
      exact ⟨hrem.step h.rest hg m, x', hx', hb.node.trans hn⟩
  obtain ⟨hrem, x, hx, hn⟩ := hinv
  obtain rfl : x = r := Option.some.inj (hx.symm.trans hr)
  refine ⟨hrem.quiet, fun m hm => ?_⟩
  -- along the way, each node has returned Ok to the one before it
  have hanswered : ∃ i y, c₀.removes.length ≤ i ∧ c₁.removes[i]? = some y ∧ y.node = m ∧
      y.phase = .returned (.ok ()) := by
    induction hm with
    | refl => exact ⟨_, x, Nat.le_refl _, hx, hn, hret⟩
    | tail _ hhop ih =>
        obtain ⟨i, y, hi, hy, rfl, hyret⟩ := ih
        have hclears := (hrem.new i y hy hi).2
        rw [RemoveCall.Clears, hyret] at hclears
        obtain ⟨_, ⟨hown, _⟩ | ⟨j, callee, hj, hcallee, hhop', hcret⟩⟩ := hclears
        · exact absurd hown hhop.not_owns
        · exact ⟨j, callee, hj, hcallee, hhop'.unique hhop, hcret⟩
  obtain ⟨i, y, hi, hy, rfl, hyret⟩ := hanswered
  have hclears := (hrem.new i y hy hi).2
  rw [RemoveCall.Clears, hyret] at hclears
  refine ⟨hclears.1, fun hown => ?_⟩
  rcases hclears.2 with ⟨_, hmain⟩ | ⟨_, _, _, _, hhop, _⟩
  · exact hmain
  · exact absurd hown hhop.not_owns

/-! ## A `get` after a `remove` -/

/-- With nothing for the key cached on its way, all that comes is late. -/
theorem Cluster.AtRest.late (h : c.AtRest nodes) (hinv : c.Inv)
    (hclear : ∀ m ∈ c.path key n,
      (c.node m).mainCache key = none ∧ (c.node m).hotCache key = none) :
    c.Late (c.path key n) key c.loads.length fun i => c.gets.length ≤ i where
  bound := Nat.le_refl _
  closed m hm peer hl hne client hc := hm.tail ⟨peer, client, hl, hne, hc, rfl⟩
  main m hm e he := by
    rw [(hclear m hm).1] at he
    cases he
  hot m hm e he := by
    rw [(hclear m hm).2] at he
    cases he
  routed i g peer hg _ _ hp := by
    have hset := h.gets g (List.mem_of_getElem? hg)
    rw [hp] at hset
    exact hset.elim
  running m _ f fl hgroup hf := by
    obtain ⟨fl', hf', _, _, hend⟩ := (hinv.group m key f).mp hgroup
    obtain ⟨result, hp⟩ := h.flights fl' (List.mem_of_getElem? hf')
    exact absurd hp (hend result)
  gets i g hg hi := absurd (Table.lt_of_getElem? hg) (Nat.not_lt_of_le hi)

/-- **A `get` at rest**, where nothing for the key is cached on its way,
returns the value of a load that starts in it. -/
theorem Operation.get_late (h : Operation nodes (.get n key) c₁ c₂) (hinv : c₁.Inv)
    (hlate : c₁.Late (c₁.path key n) key c₁.loads.length fun i => c₁.gets.length ≤ i)
    {g : GetCall Value} (hg : c₂.gets[c₁.gets.length]? = some g) {loaded : Loaded Value}
    (hgp : g.phase = .returned (.ok loaded)) :
    Produced c₂ key loaded ∧ c₁.loads.length ≤ loaded.load := by
  obtain ⟨s, hs, hrun⟩ := h.run
  have htop : ∀ m, (s.node m).topology = (c₁.node m).topology := by
    cases hs
    exact fun _ => rfl
  have hfirst : ∃ g, s.gets[c₁.gets.length]? = some g ∧ g.node = n ∧ g.key = key := by
    cases hs
    exact ⟨_, List.getElem?_concat_length, rfl, rfl⟩
  have hs_late := hlate.step hinv (Cluster.step_move hs) (fun m _ => htop m)
    fun _ _ _ _ _ _ => Nat.le_refl _
  have hinv₂ : c₂.Inv ∧ (∀ m, (c₂.node m).topology = (c₁.node m).topology) ∧
      (∃ g, c₂.gets[c₁.gets.length]? = some g ∧ g.node = n ∧ g.key = key) ∧
      c₂.Late (c₁.path key n) key c₁.loads.length fun i => c₁.gets.length ≤ i := by
    refine hrun.invariant (I := fun c => c.Inv ∧
      (∀ m, (c.node m).topology = (c₁.node m).topology) ∧
      (∃ g, c.gets[c₁.gets.length]? = some g ∧ g.node = n ∧ g.key = key) ∧
      c.Late (c₁.path key n) key c₁.loads.length fun i => c₁.gets.length ≤ i)
      ⟨hinv.step hs, htop, hfirst, hs_late⟩ ?_
    rintro c c' a ⟨hi, htop, ⟨x, hx, hxn, hxk⟩, hlate⟩ hg hs
    have m := Cluster.step_move hs
    have hsame : ∀ m, (c'.node m).topology = (c.node m).topology :=
      hg.topology_eq (fun n hn => by rw [htop n]; exact h.rest.topology n hn) m
    obtain ⟨x', hx', hb⟩ := (m.extends hi).gets _ x hx
    exact ⟨hi.step hs, fun m => (hsame m).trans (htop m),
      ⟨x', hx', hb.node.trans hxn, hb.key.trans hxk⟩,
      hlate.step hi m (fun n _ => hsame n) fun _ _ _ _ _ _ =>
        Nat.le_of_lt (Table.lt_of_getElem? hx)⟩
  obtain ⟨hi₂, _, ⟨x, hx, hxn, hxk⟩, hlate₂⟩ := hinv₂
  obtain rfl : x = g := Option.some.inj (hx.symm.trans hg)
  exact hlate₂.returned hi₂ hx (Nat.le_refl _) (hxn ▸ .refl) hxk hgp

/-- **Invalidation by completed operations.** If no node on the way of the
key, other than one that owns it, has an entry for it in its main cache when
`remove` begins, and `remove` returns Ok, then a `get` that follows on the
same node returns the value of a load that starts after the `remove`. -/
theorem fresh_after_completed_remove (h₀ : Completed nodes c₀)
    (hpath : ∀ m ∈ c₀.path key n, c₀.Owns key m ∨ (c₀.node m).mainCache key = none)
    (hremove : Operation nodes (.remove n key) c₀ c₁) {r : RemoveCall}
    (hr : c₁.removes[c₀.removes.length]? = some r) (hret : r.phase = .returned (.ok ()))
    (hget : Operation nodes (.get n key) c₁ c₂) {g : GetCall Value}
    (hg : c₂.gets[c₁.gets.length]? = some g) {loaded : Loaded Value}
    (hgp : g.phase = .returned (.ok loaded)) :
    Produced c₂ key loaded ∧ c₁.loads.length ≤ loaded.load := by
  obtain ⟨hquiet, hclear⟩ := hremove.removed hr hret
  have hinv₁ := hremove.inv h₀.inv
  -- the tables have stayed, so `get` goes the way that `remove` went
  have hway : c₁.path key n = c₀.path key n := by
    have : c₁.Hop key = c₀.Hop key := by
      funext m m'
      simp only [Cluster.Hop, hquiet.topology]
    rw [Cluster.path, Cluster.path, this]
  refine hget.get_late hinv₁ (hget.rest.late hinv₁ fun m hm => ?_) hg hgp
  rw [hway] at hm
  refine ⟨?_, (hclear m hm).1⟩
  rcases hpath m hm with hown | hnone
  · exact (hclear m hm).2 hown
  · exact hquiet.main m key hnone

/-- Node 8001 adds node 8002 and gets a key of it, which both then cache. Then
node 8002 adds node 8001. -/
private def cachedOnBoth : List (Action UInt8 × List (Action UInt8)) :=
  let A := Concrete.node 8001
  let B := Concrete.node 8002
  [(.topology A (.begin (.addPeer B) fun _ => .connected 0),
      List.replicate 3 (.topology A (.advance 0 [] []))),
    (.get A "127.0.0.1:8002_0", Concrete.asks 0 0 7),
    (.topology B (.begin (.addPeer A) fun _ => .connected 0),
      List.replicate 3 (.topology B (.advance 0 [] [])))]

omit [Platform] [ValueBounds Value] in
/-- A `remove` clears both caches, and the `get` after it is answered with the
value of load 1. -/
theorem fresh_after_completed_remove_sample :
    let _ : Platform := Concrete.host
    let _ : ValueBounds UInt8 := Concrete.messagePack
    let key := "127.0.0.1:8002_0"
    ∃ (c₀ c₁ c₂ : Cluster UInt8) (loaded : Loaded UInt8),
      (Produced c₂ key loaded ∧ c₁.loads.length ≤ loaded.load) ∧
      ((c₀.node (Concrete.node 8001)).hotCache key).map Entry.loaded
        = some { value := 7, load := 0 } ∧
      ((c₀.node (Concrete.node 8002)).mainCache key).map Entry.loaded
        = some { value := 7, load := 0 } ∧
      c₁.loads.length = 1 ∧ loaded = { value := 9, load := 1 } := by
  intro _ _ key
  obtain ⟨c₀, h₀, c₁, h₁, c₂, h₂, ⟨r, hr, hret⟩, ⟨g, hg, hgp⟩, hlA, hlB, hmain, hhot, hcached, hl⟩ :
      let nodes := [Concrete.node 8001, Concrete.node 8002]
      ∃ c₀ ∈ cachedOnBoth.foldlM (operate nodes) (.start .withLocalPeer),
      ∃ c₁ ∈ operate nodes c₀ (.remove (Concrete.node 8001) key,
        [.runRemove 0, .runRemove 0] ++ List.replicate 4 (.runRemove 1) ++ [.runRemove 0]),
      ∃ c₂ ∈ operate nodes c₁ (.get (Concrete.node 8001) key, Concrete.asks 2 2 9),
      (∃ r ∈ c₁.removes[c₀.removes.length]?, r.isOk) ∧
      (∃ g ∈ c₂.gets[c₁.gets.length]?, g.value? = some { value := 9, load := 1 }) ∧
      (c₀.node (Concrete.node 8001)).topology.routing.lookupPeer key
        = .ok { peer := Concrete.node 8002
                client := some { socket := (Concrete.node 8002).socket, channel := 0 } } ∧
      (c₀.node (Concrete.node 8002)).topology.routing.lookupPeer key
        = .ok { peer := Concrete.node 8002, client := none } ∧
      (((c₀.node (Concrete.node 8001)).mainCache key).map Entry.loaded = none) ∧
      ((c₀.node (Concrete.node 8001)).hotCache key).map Entry.loaded
        = some { value := 7, load := 0 } ∧
      ((c₀.node (Concrete.node 8002)).mainCache key).map Entry.loaded
        = some { value := 7, load := 0 } ∧
      c₁.loads.length = 1 := by
    decide +kernel +revert
  refine ⟨c₀, c₁, c₂, _, fresh_after_completed_remove (.of_operate .refl h₀) (fun m hm => ?_)
    (.of_operate h₁) hr (RemoveCall.isOk_iff.mp hret) (.of_operate h₂) hg
    (GetCall.value?_eq_some.mp hgp), hhot, hcached, hl, rfl⟩
  -- the key goes from node 8001, which has it in its hot cache alone, to its owner
  have hhop : c₀.Hop key (Concrete.node 8001) (Concrete.node 8002) :=
    ⟨_, _, hlA, by decide, rfl, rfl⟩
  rcases hhop.mem_path hm with rfl | hm
  · exact .inr (Option.map_eq_none_iff.mp hmain)
  · have hown : c₀.Owns key (Concrete.node 8002) := ⟨_, hlB, rfl⟩
    rw [hown.eq_of_mem_path hm]
    exact .inl hown

omit [Platform] [ValueBounds Value] in
/-- **An entry outlives a completed `remove`.** Node 8001 loads the value
while it owns the key, and adds node 8002, which then owns the key. Its
`remove` clears the main cache of node 8002 and returns Ok; its next `get`
finds the value of load 0 in its own. -/
theorem stale_after_add_peer :
    let _ : Platform := Concrete.platform [Concrete.node 8001, Concrete.node 8002]
    let _ : ValueBounds UInt8 := Concrete.messagePack
    let nodes := [Concrete.node 8001, Concrete.node 8002]
    let key := "127.0.0.1:8002_0"
    ∃ (c₀ c₁ c₂ : Cluster UInt8) (r : RemoveCall) (g : GetCall UInt8),
      Completed nodes c₀ ∧
      Operation nodes (.remove (Concrete.node 8001) key) c₀ c₁ ∧
      c₁.removes[c₀.removes.length]? = some r ∧ r.phase = .returned (.ok ()) ∧
      Operation nodes (.get (Concrete.node 8001) key) c₁ c₂ ∧
      c₂.gets[c₁.gets.length]? = some g ∧
      g.phase = .returned (.ok { value := 7, load := 0 }) ∧ c₁.loads.length = 1 := by
  intro _ _ nodes key
  have hA : Concrete.node 8001 ∈ nodes := List.mem_cons_self
  have hlA : (RoutingState.withLocalPeer (Concrete.node 8001)).lookupPeer key
      = .ok { peer := Concrete.node 8001, client := none } :=
    @Concrete.lookupPeer_own [8001, 8002] (by decide) 8001 (by decide) key
  have hlB : (RoutingState.withLocalPeer (Concrete.node 8002)).lookupPeer key
      = .ok { peer := Concrete.node 8002, client := none } :=
    @Concrete.lookupPeer_own [8001, 8002] (by decide) 8002 (by decide) key
  obtain ⟨hl, -⟩ := Concrete.lookupPeer_paired
  refine ⟨_, _, _, _, _,
    .tail
      (.tail .refl ⟨.get (Concrete.node 8001) key, hA, ?_,
        ⟨_, rfl,
          .head (a := .runGet 0) (.runGet rfl nofun) rfl <|
          .head (a := .runGet 0) (.runGet rfl nofun) rfl <|
          .head (a := .runGet 0) (.runGet rfl nofun) rfl <|
          .head (a := .runGet 0) (.runGet rfl nofun) (Cluster.step_routing rfl rfl hlA) <|
          .head (a := .runGet 0) (.runGet rfl nofun) rfl <|
          .head (a := .runFlight 0) trivial rfl <|
          .head (a := .load 0 (.ok 7)) trivial rfl <|
          .head (a := .runFlight 0) trivial rfl <|
          .head (a := .runFlight 0) trivial rfl <|
          .single (a := .runGet 0) (.runGet rfl nofun) rfl⟩, ?_⟩)
      ⟨.topology (Concrete.node 8001)
          (.begin (.addPeer (Concrete.node 8002)) fun _ => .connected 0),
        hA, ?_,
        ⟨_, rfl,
          .head (a := .topology (Concrete.node 8001) (.advance 0 [] [])) hA rfl <|
          .head (a := .topology (Concrete.node 8001) (.advance 0 [] [])) hA rfl <|
          .single (a := .topology (Concrete.node 8001) (.advance 0 [] [])) hA rfl⟩, ?_⟩,
    ⟨hA, ?_,
      ⟨_, rfl,
        .head (a := .runRemove 0) (.runRemove rfl nofun) rfl <|
        .head (a := .runRemove 0) (.runRemove rfl nofun)
          (Cluster.step_sendRemove rfl rfl hl (by decide) rfl) <|
        .head (a := .runRemove 1) (fun _ hr _ => ⟨0, _, by cases hr; rfl, rfl, rfl⟩) rfl <|
        .head (a := .runRemove 1) (.runRemove rfl nofun) rfl <|
        .head (a := .runRemove 1) (.runRemove rfl nofun) (Cluster.step_owned rfl rfl hlB rfl) <|
        .head (a := .runRemove 1) (.runRemove rfl nofun) rfl <|
        .single (a := .runRemove 0) (.runRemove rfl nofun) rfl⟩, ?_⟩, rfl, rfl,
    ⟨hA, ?_,
      ⟨_, rfl,
        .head (a := .runGet 1) (.runGet rfl nofun) rfl <|
        .head (a := .runGet 1) (.runGet rfl nofun) rfl <|
        .single (a := .runGet 1) (.runGet rfl nofun) rfl⟩, ?_⟩, rfl, rfl, rfl⟩
  all_goals
    constructor <;> repeat' first
      | exact trivial
      | exact ⟨_, rfl⟩
      | exact List.forall_mem_nil _
      | refine List.forall_mem_cons.mpr ⟨?_, ?_⟩

end Groupcache
