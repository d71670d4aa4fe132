import Groupcache.Cluster.Sharding
import Groupcache.Topology.Turns

/-!
# Nodes that discover each other

A deployment of nodes that have been built with service discovery and make no
topology calls of their own: beside the calls of `get` and `remove`, each
node's task works on the topology that these calls go by. What such nodes run
is a run of the cluster in which topology calls do not overlap, and at each
node the table and the log are those of its turns (`Deployment.runs`). So once
the members have last pulled the members, and no connection has failed then,
every key is served at its owner (`deployment_shards`).
-/

namespace Groupcache

open Transition

variable [Platform] {Value : Type} [ValueBounds Value] {U : Set GroupcachePeer}
  {M : Finset GroupcachePeer} {me n m : GroupcachePeer} {key : String}

/-- The cluster, and beside its nodes what `Process` has of them. -/
structure Deployment (Value : Type) where
  cluster : Cluster Value
  handles : GroupcachePeer → Nat
  task : GroupcachePeer → TaskPhase
  log : GroupcachePeer → List String

inductive DeploymentAction (Value : Type) where
  | run (action : Action Value)
  | process (node : GroupcachePeer) (action : ProcessAction)

namespace Deployment

/-- Every node has been built. -/
def start : Deployment Value where
  cluster := .start .withLocalPeer
  handles n := (Process.build n).handles
  task n := (Process.build n).task
  log n := (Process.build n).log

variable (d : Deployment Value)

def processOf (n : GroupcachePeer) : Process where
  handles := d.handles n
  topology := (d.cluster.node n).topology
  task := d.task n
  log := d.log n

def setProcess (n : GroupcachePeer) (p : Process) : Deployment Value where
  cluster := d.cluster.setTopology n p.topology
  handles := Function.update d.handles n p.handles
  task := Function.update d.task n p.task
  log := Function.update d.log n p.log

def run (action : Action Value) : Option (Deployment Value) :=
  (d.cluster.step action).map fun cluster => { d with cluster }

def step : DeploymentAction Value → Option (Deployment Value)
  | .run (.topology ..) => none
  -- the application calls by a handle
  | .run (.get node key) => if d.handles node = 0 then none else d.run (.get node key)
  | .run (.remove node key) => if d.handles node = 0 then none else d.run (.remove node key)
  | .run action => d.run action
  | .process node action => ((d.processOf node).step action).map (d.setProcess node)

/-- The turn that a step finishes, and where. -/
def emit (d : Deployment Value) (a : DeploymentAction Value) (d' : Deployment Value) :
    Option (GroupcachePeer × Turn) :=
  match a with
  | .run _ => none
  | .process n action =>
      ((d.processOf n).emit action (d'.processOf n)).map fun turn => (n, turn)

variable {d} {d' : Deployment Value} {a : DeploymentAction Value}

omit [ValueBounds Value] in
theorem processOf_setProcess {p : Process} :
    (d.setProcess n p).processOf m = if m = n then p else d.processOf m := by
  simp only [processOf, setProcess, Cluster.topology_setTopology]
  split
  · rename_i h
    subst h
    simp
  · rename_i h
    simp [h]

/-- A step is one of the cluster's that leaves all topologies as they are, or
a piece of what a node's process does. -/
theorem step_cases (hs : d.step a = some d') :
    (∃ action cluster, a = .run action ∧ d.cluster.step action = some cluster ∧
      d' = { d with cluster } ∧ ∀ n, d'.processOf n = d.processOf n) ∨
    ∃ n action p, a = .process n action ∧ (d.processOf n).step action = some p ∧
      d' = d.setProcess n p := by
  cases a with
  | process n action =>
      obtain ⟨p, hp, rfl⟩ := Option.map_eq_some_iff.mp hs
      exact .inr ⟨n, action, p, rfl, hp, rfl⟩
  | run action =>
      obtain ⟨htop, hrun⟩ : (∀ n t, action ≠ .topology n t) ∧ d.run action = some d' := by
        cases action with
        | topology n t => cases hs
        | get n key =>
            simp only [step] at hs
            split at hs
            · cases hs
            · exact ⟨nofun, hs⟩
        | remove n key =>
            simp only [step] at hs
            split at hs
            · cases hs
            · exact ⟨nofun, hs⟩
        | _ => exact ⟨nofun, hs⟩
      obtain ⟨cluster, hc, rfl⟩ := Option.map_eq_some_iff.mp hrun
      refine .inl ⟨action, cluster, rfl, hc, rfl, fun n => ?_⟩
      have hsame := ((Cluster.step_move hc).topology_cases n).resolve_right (by
        rintro ⟨t, rfl, _⟩
        exact htop n t rfl)
      simp only [processOf, hsame]

/-! ## What the deployment runs -/

/-- The peers of `U` run the nodes and pull each other. -/
def Discovering (U : Set GroupcachePeer) (d : Deployment Value) : DeploymentAction Value → Prop
  | .run action => SerialTopology U d.cluster action
  | .process n action => n ∈ U ∧ (d.processOf n).Undisturbed action ∧
      action.Pulls fun instances => ∀ p ∈ instances, p ∈ U

/-- At each node the table and the log are those of its turns. -/
structure Tracks (d : Deployment Value) (now : GroupcachePeer → RoutingState × List String) :
    Prop where
  atTurn : ∀ n, (d.processOf n).AtTurn (now n)
  solo : ∀ n, (d.processOf n).Solo

variable {now : GroupcachePeer → RoutingState × List String}

omit [ValueBounds Value] in
theorem Tracks.start : (start : Deployment Value).Tracks fun n => (.withLocalPeer n, []) where
  atTurn n := .build n
  solo n := .build n

theorem Tracks.step (h : d.Tracks now) (hg : d.Discovering U a) (hs : d.step a = some d') :
    (d.emit a d' = none ∧ d'.Tracks now) ∨
      ∃ e next, d.emit a d' = some e ∧ Each Turn.Next now e next ∧ d'.Tracks next := by
  rcases step_cases hs with ⟨action, cluster, rfl, _, rfl, hsame⟩ | ⟨n, action, p, rfl, hp, rfl⟩
  · refine .inl ⟨rfl, fun n => ?_, fun n => ?_⟩
    · rw [hsame n]
      exact h.atTurn n
    · rw [hsame n]
      exact h.solo n
  · obtain ⟨_, hund, _⟩ := hg
    have hsolo : ∀ m, ((d.setProcess n p).processOf m).Solo := by
      intro m
      rw [processOf_setProcess]
      split
      · exact (Process.step_piece hp (h.atTurn n).inv hund).solo (h.solo n)
      · exact h.solo m
    have hself : (d.setProcess n p).processOf n = p := by rw [processOf_setProcess, if_pos rfl]
    rcases (h.atTurn n).step hund hp with ⟨hnone, hat⟩ | ⟨turn, next, hsome, hnext, hat⟩
    · refine .inl ⟨by simp [emit, hself, hnone], fun m => ?_, hsolo⟩
      rw [processOf_setProcess]
      split
      · rename_i hm
        rw [hm]
        exact hat
      · exact h.atTurn m
    · refine .inr ⟨(n, turn), Function.update now n next, by simp [emit, hself, hsome], ⟨?_, ?_⟩,
        fun m => ?_, hsolo⟩
      · rw [Function.update_self]
        exact hnext
      · intro m hm
        rw [Function.update_of_ne hm]
      · rw [processOf_setProcess]
        split
        · rename_i hm
          rw [hm, Function.update_self]
          exact hat
        · rename_i hm
          rw [Function.update_of_ne hm]
          exact h.atTurn m

/-- **Topology calls do not overlap in a deployment**: what a step does to the
cluster is a step of the cluster, or nothing. -/
theorem Tracks.cluster_cases (h : d.Tracks now) (hg : d.Discovering U a)
    (hs : d.step a = some d') :
    d'.cluster = d.cluster ∨ ∃ action, d.cluster.step action = some d'.cluster ∧
      SerialTopology U d.cluster action ∧
      (a = .run action ∨ ∃ n t, action = .topology n t) := by
  rcases step_cases hs with ⟨action, cluster, rfl, hc, rfl, _⟩ | ⟨n, action, p, rfl, hp, rfl⟩
  · exact .inr ⟨action, hc, hg, .inl rfl⟩
  · obtain ⟨hn, hund, hpulls⟩ := hg
    rcases (Process.step_piece hp (h.atTurn n).inv hund).alone (h.solo n) hpulls with
      hsame | ⟨t, halone, ht⟩
    · refine .inl ?_
      simp [setProcess, Cluster.setTopology, Cluster.setNode, hsame, processOf]
    · refine .inr ⟨.topology n t, ?_, ⟨hn, halone⟩, .inr ⟨n, t, rfl⟩⟩
      exact Option.map_eq_some_iff.mpr ⟨p.topology, ht, rfl⟩

theorem Tracks.reaches_step (h : d.Tracks now) (hg : d.Discovering U a) (hs : d.step a = some d')
    (hr : Reaches Cluster.step (SerialTopology U) (.start .withLocalPeer) d.cluster) :
    Reaches Cluster.step (SerialTopology U) (.start .withLocalPeer) d'.cluster := by
  rcases h.cluster_cases hg hs with hsame | ⟨action, hstep, hserial, _⟩
  · rw [hsame]
    exact hr
  · exact .tail action hr hserial hstep

/-- What a run comes to, in its cluster and at its nodes. -/
theorem runs {events : List (GroupcachePeer × Turn)}
    (h : Emits step (Discovering U) emit (start : Deployment Value) events d) :
    ∃ now, (∀ n, Runs Turn.Next (.withLocalPeer n, []) (eventsOf n events) (now n)) ∧
      d.Tracks now ∧ Reaches Cluster.step (SerialTopology U) (.start .withLocalPeer) d.cluster := by
  have hsim : Simulates step (Discovering U) emit (Each Turn.Next)
      (fun (d : Deployment Value) now => d.Tracks now ∧
        Reaches Cluster.step (SerialTopology U) (.start .withLocalPeer) d.cluster) := by
    constructor
    case silent =>
      rintro d d' now a ⟨htracks, hr⟩ hg hs hnone
      refine ⟨?_, htracks.reaches_step hg hs hr⟩
      rcases htracks.step hg hs with ⟨_, htracks'⟩ | ⟨e, next, hsome, _⟩
      · exact htracks'
      · cases hnone.symm.trans hsome
    case event =>
      rintro d d' now a e ⟨htracks, hr⟩ hg hs hsome
      rcases htracks.step hg hs with ⟨hnone, _⟩ | ⟨e', next, hsome', hnext, htracks'⟩
      · cases hnone.symm.trans hsome
      · cases hsome'.symm.trans hsome
        exact ⟨next, hnext, htracks', htracks.reaches_step hg hs hr⟩
  obtain ⟨now, hruns, htracks, hr⟩ := hsim.runs ⟨Tracks.start, .refl⟩ h
  exact ⟨now, fun n => hruns.each n, htracks, hr⟩

end Deployment

/-! ## Where the members have found each other -/

/-- The set that a node has pulled last lists the members, with the node
itself or without it, and nothing was logged then; pulls have failed since. -/
structure PulledLast (M : Finset GroupcachePeer) (me : GroupcachePeer) (turns : List Turn) where
  before : List Turn
  turn : Turn
  after : List Turn
  instances : Finset GroupcachePeer
  turns_eq : turns = before ++ turn :: after
  pull : turn.pull = .ok instances
  members : insert me instances = M
  quiet : turn.logged = none
  failing : ∀ x ∈ after, ∃ e, x.pull = .error e

/-- A turn that logs nothing has connected to all that it had to. -/
theorem Turn.Discovers.members_eq {turns : List Turn} {s : RoutingState} {log : List String}
    {ticks : List Tick} {attempts : List (List GroupcachePeer)}
    (h : Turn.Discovers me turns s log ticks attempts) (hlast : PulledLast M me turns) :
    s.members me = M := by
  obtain ⟨before, turn, after, instances, rfl, hpull, hmembers, hquiet, hfailing⟩ := hlast
  have hmet := h.met
  rw [List.map_append, List.map_cons] at hmet
  obtain ⟨ticks₁, rest, rfl, hbefore, hrest⟩ := List.map_eq_append_iff.mp hmet
  obtain ⟨tick, ticks₂, rfl, htick, hafter⟩ := List.map_eq_cons_iff.mp hrest
  have hlen : ticks₁.length = before.length := by
    simpa using congrArg List.length hbefore
  have hlt : ticks₁.length < attempts.length := by
    rw [h.run.length_attempts]
    simp
  obtain ⟨hpull', hattempt⟩ := Prod.mk.inj htick
  have hmade : attempts[ticks₁.length]? = some attempts[ticks₁.length] :=
    List.getElem?_eq_getElem hlt
  have hlogged := h.logged ticks₁.length turn _ (by simp [hlen]) hmade
  refine CaughtUp.members_eq (U := Set.univ)
    { before := ticks₁, tick, after := ticks₂, attempts, instances, made := attempts[ticks₁.length]
      run := h.run, pullsFrom := fun _ _ _ _ _ _ => trivial
      pull := hpull'.trans hpull, members := hmembers, made_eq := hmade
      connects := fun p hp => ?_, failing := fun x hx => ?_ }
  · rw [hattempt]
    by_contra hfail
    have hfails : turn.Fails attempts[ticks₁.length] :=
      .inr ⟨p, hp, Bool.eq_false_iff.mpr hfail⟩
    rw [← hlogged, hquiet] at hfails
    cases hfails
  · obtain ⟨y, hy, hxy⟩ := List.mem_map.mp (hafter ▸ List.mem_map_of_mem (f := Tick.met) hx)
    obtain ⟨e, he⟩ := hfailing y hy
    exact ⟨e, (Prod.mk.inj hxy).1.symm.trans he⟩

/-- The application calls the members, and what these pull from now on lists
them, with the node itself or without it. -/
def Deployment.Keeping (U : Set GroupcachePeer) (M : Finset GroupcachePeer) (d : Deployment Value)
    (a : DeploymentAction Value) : Prop :=
  d.Discovering U a ∧
    match a with
    | .run (.get n _) => n ∈ M
    | .run (.remove n _) => n ∈ M
    | .process n action => n ∈ M → action.Pulls fun instances => insert n instances = M
    | _ => True

/-- The members know each other and keep to that. -/
structure Deployment.Kept (U : Set GroupcachePeer) (M : Finset GroupcachePeer)
    (d₀ d : Deployment Value) : Prop where
  tracks : ∃ now, d.Tracks now
  keeps : ∀ n ∈ M, (d.processOf n).Keeps M n
  settled : Reaches Cluster.step (Settled U M) d₀.cluster d.cluster

theorem Deployment.Kept.step {d₀ d d' : Deployment Value} {a : DeploymentAction Value}
    (h : Deployment.Kept U M d₀ d) (hg : d.Keeping U M a) (hs : d.step a = some d') :
    Deployment.Kept U M d₀ d' := by
  obtain ⟨now, htracks⟩ := h.tracks
  have hkeeps : ∀ n ∈ M, (d'.processOf n).Keeps M n := by
    intro n hn
    rcases step_cases hs with ⟨action, cluster, rfl, _, rfl, hsame⟩ | ⟨m, action, p, rfl, hp, rfl⟩
    · rw [hsame n]
      exact h.keeps n hn
    · rw [processOf_setProcess]
      split
      · rename_i hnm
        subst hnm
        have hund := hg.1.2.1
        exact (Process.step_piece hp (htracks.atTurn n).inv hund).keeps (htracks.atTurn n)
          (h.keeps n hn) (hg.2 hn)
      · exact h.keeps n hn
  constructor
  case tracks =>
    rcases htracks.step hg.1 hs with ⟨_, htracks'⟩ | ⟨_, next, _, _, htracks'⟩
    · exact ⟨now, htracks'⟩
    · exact ⟨next, htracks'⟩
  case keeps => exact hkeeps
  case settled =>
    rcases htracks.cluster_cases hg.1 hs with hsame | ⟨action, hstep, hserial, hkind⟩
    · rw [hsame]
      exact h.settled
    · refine .tail action h.settled ⟨hserial, ?_⟩ hstep
      rcases hkind with rfl | ⟨n, t, rfl⟩
      · cases action with
        | get n key => exact hg.2
        | remove n key => exact hg.2
        | topology n t => cases hs
        | _ => trivial
      · intro hn t' ht'
        have htop : (d'.cluster.node n).topology = t' := by
          obtain ⟨t₂, ht₂, hc⟩ := Option.map_eq_some_iff.mp hstep
          cases ht₂.symm.trans ht'
          rw [← hc, Cluster.topology_setTopology, if_pos rfl]
        rw [← htop]
        exact (hkeeps n hn).members

/-- **A deployment shards by key.** Where the sets that the members have
pulled last list the members, and nothing was logged then, every key that
nothing is in progress for is from then on served at its owner: whatever was
pulled before, whatever fails, and however the tasks and the calls interleave,
for as long as the pulls list the members. -/
theorem deployment_shards (hU : Addressable U) (hM : ∀ n ∈ M, n ∈ U) (hne : M.Nonempty)
    {events : List (GroupcachePeer × Turn)} {d₀ d : Deployment Value}
    (h₀ : Emits Deployment.step (Deployment.Discovering U) Deployment.emit .start events d₀)
    (hlast : ∀ n ∈ M, Nonempty (PulledLast M n (eventsOf n events)))
    (hsetting : ∀ n ∈ M, ∀ updated, (d₀.processOf n).sets? = some updated →
      insert n updated = M)
    (hidle : d₀.cluster.IdleFor key)
    (h : Reaches Deployment.step (Deployment.Keeping U M) d₀ d) :
    ∃ owner, Owner M key owner ∧ d.cluster.Sharded key owner d₀.cluster ∧
      ∀ n ∈ M, Finds n (d.cluster.node n).topology.routing key owner := by
  obtain ⟨now, hruns, htracks, hreach⟩ := Deployment.runs h₀
  have hmembers : ∀ n ∈ M, (d₀.cluster.node n).topology.routing.members n = M := by
    intro n hn
    obtain ⟨ticks, attempts, hdisc⟩ := Turn.discovers_of_runs (hruns n)
    obtain ⟨hn'⟩ := hlast n hn
    have hrouting := (htracks.atTurn n).routing
    rw [← hdisc.members_eq hn', ← hrouting]
    rfl
  have hkept : Deployment.Kept U M d₀ d := by
    refine h.invariant (I := Deployment.Kept U M d₀) ⟨⟨now, htracks⟩, fun n hn => ?_, .refl⟩
      fun _ _ _ hi hg hs => hi.step hg hs
    exact ⟨hmembers n hn, hsetting n hn⟩
  obtain ⟨owner, howner, hkeeps⟩ :=
    Cluster.reaches_keepsTo hU hM hne hreach hmembers hidle hkept.settled
  exact ⟨owner, howner, hkeeps.sharded, fun n hn =>
    Cluster.KeepsTo.finds hkeeps.forwarding hkeeps.agrees hU hM howner hn⟩

/-! ## Two nodes -/

namespace Concrete

/-- The call of a turn of the task of `n`: whom it connects to and whom it
forgets. -/
def callOf (n : GroupcachePeer) (added removed : List GroupcachePeer) :
    List (DeploymentAction UInt8) :=
  [.process n (.advance [] []), .process n (.advance added removed), .process n (.advance [] [])]

/-- A whole turn, in which all can be connected to. -/
def turnOf (n : GroupcachePeer) (instances : Finset GroupcachePeer)
    (added removed : List GroupcachePeer) : List (DeploymentAction UInt8) :=
  .process n .upgrade :: .process n .elapsed ::
    .process n (.pulled (.ok instances) fun _ => .connected 0) :: callOf n added removed

theorem discovering_callOf {added removed : List GroupcachePeer} (hn : n ∈ U) :
    ∀ a ∈ callOf n added removed, ∀ d : Deployment UInt8, d.Discovering U a := by
  intro a ha d
  simp only [callOf, List.mem_cons, List.not_mem_nil, or_false] at ha
  rcases ha with rfl | rfl | rfl <;> exact ⟨hn, trivial, trivial⟩

theorem discovering_turnOf {instances : Finset GroupcachePeer} {added removed : List GroupcachePeer}
    (hn : n ∈ U) (hinst : ∀ p ∈ instances, p ∈ U) :
    ∀ a ∈ turnOf n instances added removed, ∀ d : Deployment UInt8, d.Discovering U a := by
  intro a ha d
  simp only [turnOf, List.mem_cons] at ha
  rcases ha with rfl | rfl | rfl | ha
  · exact ⟨hn, trivial, trivial⟩
  · exact ⟨hn, trivial, trivial⟩
  · exact ⟨hn, nofun, hinst⟩
  · exact discovering_callOf hn a ha d

/-- Two nodes pull each other. -/
def discover : List (DeploymentAction UInt8) :=
  turnOf (node 8001) {node 8002} [node 8002] [] ++ turnOf (node 8002) {node 8001} [node 8001] []

/-- The action goes on with what is under way, or calls a node of `M`. -/
def serves (M : Finset GroupcachePeer) : Action UInt8 → Bool
  | .get n _ => n ∈ M
  | .remove n _ => n ∈ M
  | .topology .. => false
  | _ => true

theorem keeping_serves (hM : ∀ n ∈ M, n ∈ U) {acts : List (Action UInt8)}
    (hserves : ∀ a ∈ acts, serves M a = true) :
    ∀ a ∈ acts.map DeploymentAction.run, ∀ d : Deployment UInt8, d.Keeping U M a := by
  intro a ha d
  obtain ⟨action, haction, rfl⟩ := List.mem_map.mp ha
  have h := hserves action haction
  cases action with
  | get n key | remove n key =>
      have hn : n ∈ M := of_decide_eq_true h
      exact ⟨hM n hn, hn⟩
  | topology n action => cases h
  | _ => exact ⟨trivial, trivial⟩

end Concrete

open Concrete

omit [Platform] [ValueBounds Value] in
/-- Two nodes pull each other, and a call on one is served by the other. -/
theorem deployment_shards_sample :
    let _ : Platform := host
    let _ : ValueBounds UInt8 := messagePack
    let M : Finset GroupcachePeer := {node 8001, node 8002}
    let key := "127.0.0.1:8002_0"
    ∃ d₀ d : Deployment UInt8, (∃ owner, Owner M key owner ∧
        d.cluster.Sharded key owner d₀.cluster ∧
        ∀ n ∈ M, Finds n (d.cluster.node n).topology.routing key owner) ∧
      d.cluster.Returned 0 (node 8001) { value := 7, load := 0 } ∧
      d.cluster.loads.map LoadCall.node = [node 8002] := by
  intro _ _ M key
  let U : Set GroupcachePeer := {p | p ∈ [8001, 8002].map node}
  have hA : node 8001 ∈ U := by decide
  have hB : node 8002 ∈ U := by decide
  have hcalls : ∀ a ∈ .get (node 8001) key :: asks 0 0 7, serves M a = true := by decide
  -- both tasks make a turn, and then the call goes to the owner and back
  obtain ⟨⟨d₀, events⟩, hd₀, d, hd, hevents, hsets, hidle, hreturned⟩ :
      ∃ x ∈ discover.foldlM (recording Deployment.step Deployment.emit)
        ((Deployment.start : Deployment UInt8), []),
      ∃ d ∈ ((.get (node 8001) key :: asks 0 0 7).map DeploymentAction.run).foldlM
        Deployment.step x.1,
      (∀ n ∈ M, (eventsOf n x.2).map (fun turn => (turn.pull, turn.logged)) =
        [(.ok (M.erase n), none)]) ∧
      (∀ n ∈ M, (x.1.processOf n).sets? = none) ∧ x.1.cluster.IdleFor key ∧
      d.cluster.Returned 0 (node 8001) { value := 7, load := 0 } ∧
      d.cluster.loads.map LoadCall.node = [node 8002] := by
    decide +kernel +revert
  have hpulls : ∀ a ∈ discover, ∀ d : Deployment UInt8, d.Discovering U a := by
    intro a ha
    rcases List.mem_append.mp ha with ha | ha
    · exact discovering_turnOf hA (by simpa using hB) a ha
    · exact discovering_turnOf hB (by simpa using hA) a ha
  have hrun₀ : Emits Deployment.step (Deployment.Discovering U) Deployment.emit
      (Deployment.start : Deployment UInt8) events d₀ :=
    .of_recording (.of_foldlM (fun a ha x => hpulls a ha x.1) hd₀)
  refine ⟨d₀, d, deployment_shards addressable_host mem_host (Finset.insert_nonempty _ _) hrun₀
    (fun n hn => ?_) (fun n hn updated hset => ?_) hidle
    (.of_foldlM (keeping_serves mem_host hcalls) hd), hreturned⟩
  · obtain ⟨turn, hturn, hx⟩ := List.map_eq_singleton_iff.mp (hevents n hn)
    obtain ⟨hpull, hlogged⟩ := Prod.mk.inj hx
    exact ⟨{ before := [], turn, after := [], instances := M.erase n, turns_eq := hturn
             pull := hpull, members := Finset.insert_erase hn
             quiet := hlogged, failing := nofun }⟩
  · cases (hsets n hn).symm.trans hset

end Groupcache
