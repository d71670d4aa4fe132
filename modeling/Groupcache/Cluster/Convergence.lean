import Groupcache.Cluster.Deployment

/-!
# How soon the nodes agree

A task that pulls the members, and whose connections succeed, has its node
know the members after one whole turn; where it was in the middle of a turn, a
rest of that turn comes before. So nine of its steps are enough, whatever had
been pulled before and whatever goes on beside it, and when each member's task
has made more than these the members agree on the owner of every key
(`deployment_converges`).
-/

namespace Groupcache

open Transition

variable [Platform] {Value : Type} [ValueBounds Value] {U : Set GroupcachePeer}
  {M : Finset GroupcachePeer} {me n : GroupcachePeer}

/-- The steps of the task. -/
def ProcessAction.ofTask : ProcessAction → Bool
  | .upgrade => true
  | .elapsed => true
  | .pulled .. => true
  | .advance .. => true
  | _ => false

/-- A pull finds the members, with the node itself or without it, and those
that it finds can be connected to. -/
def ProcessAction.Finds (M : Finset GroupcachePeer) (me : GroupcachePeer) : ProcessAction → Prop
  | .pulled pull attempt => ∃ instances, pull = .ok instances ∧ insert me instances = M ∧
      ∀ p ∈ instances, (attempt p).succeeds = true
  | _ => True

/-- How many steps of the task there are to the end of a turn that has not
pulled yet. -/
def TaskPhase.left : TaskPhase → Nat
  | .upgrading => 6
  | .sleeping => 5
  | .pulling => 4
  | .setting _ => 0
  | .ended => 0

omit [Platform] in
theorem ProcessAction.Finds.pulls {a : ProcessAction} (h : a.Finds M me) :
    a.Pulls fun instances => insert me instances = M := by
  cases a with
  | pulled pull attempt =>
      obtain ⟨instances, rfl, hlists, _⟩ := h
      exact hlists
  | _ => trivial

/-- A call with the members, all of which connect, leaves a node with these. -/
theorem SetPeersRun.members_of_succeeds {s : RoutingState} {updated : Finset GroupcachePeer}
    {attempt : GroupcachePeer → ConnectOutcome} (r : SetPeersRun s updated)
    (hends : ∀ p, attempt p ≠ .panicked) (hlists : insert me updated = M)
    (hsucc : ∀ p ∈ updated, (attempt p).succeeds = true) :
    (r.outcome attempt).1.members me = M := by
  have hpeers : (r.outcome attempt).1.peerSet = updated := by
    rw [r.peerSet_ended fun p _ => hends p]
    ext p
    have := hsucc p
    simp only [RoutingState.newPeers, Finset.mem_union, Finset.mem_inter, Finset.mem_filter,
      Finset.mem_sdiff]
    tauto
  rw [RoutingState.members, hpeers, hlists]

namespace Process

/-- After `j` steps of the task at most, the node knows the members: its call
has them and connects to them, or there is a whole turn to come. -/
inductive Nears (M : Finset GroupcachePeer) (me : GroupcachePeer) (p : Process) (j : Nat) : Prop
  where
  | looping : (∀ i, p.task ≠ .setting i) → p.task.left ≤ j → Nears M me p j
  | setting {i : Nat} {call : TopologyCall} {updated : Finset GroupcachePeer} :
      p.task = .setting i → p.topology.calls[i]? = some call →
      call.stage.updatedPeers? = some updated → insert me updated = M →
      (∀ q ∈ updated, (call.attempt q).succeeds = true) → call.stage.pieces ≤ j →
      Nears M me p j
  | stale {i : Nat} {call : TopologyCall} : p.task = .setting i →
      p.topology.calls[i]? = some call → call.stage.pieces + 6 ≤ j → Nears M me p j

variable {p q : Process} {now : RoutingState × List String} {a : ProcessAction} {j : Nat}

theorem Inv.nears (h : p.Inv) : p.Nears M me 9 := by
  cases htask : p.task with
  | setting i =>
      obtain ⟨call, updated, hcall, hset⟩ := h.setting i htask
      refine .stale htask hcall ?_
      cases hst : call.stage <;> simp [Stage.pieces]
  | upgrading => exact .looping (by simp [htask]) (by simp [htask, TaskPhase.left])
  | sleeping => exact .looping (by simp [htask]) (by simp [htask, TaskPhase.left])
  | pulling => exact .looping (by simp [htask]) (by simp [htask, TaskPhase.left])
  | ended => exact .looping (by simp [htask]) (by simp [htask, TaskPhase.left])

/-- Where the task is at the loop, what is left is what is left of the turn. -/
theorem Nears.left_le (h : p.Nears M me j) (htask : ∀ i, p.task ≠ .setting i) :
    p.task.left ≤ j := by
  cases h with
  | looping _ hj => exact hj
  | setting hi => exact absurd hi (htask _)
  | stale hi => exact absurd hi (htask _)

/-- **A step of the task comes nearer.** -/
theorem Piece.nears (m : p.Piece a q) (hat : p.AtTurn now) (h : p.Nears M me j)
    (hfinds : a.Finds M me) :
    q.Keeps M me ∨ ∃ j', q.Nears M me j' ∧ j' + (if a.ofTask then 1 else 0) ≤ j := by
  cases m with
  | held ha =>
      refine .inr ⟨j, ?_, ?_⟩
      · cases h with
        | looping htask hj => exact .looping htask hj
        | setting htask hcall hset hlists hsucc hj =>
            exact .setting htask hcall hset hlists hsucc hj
        | stale htask hcall hj => exact .stale htask hcall hj
      · rcases ha with rfl | rfl <;> exact Nat.le_refl j
  | upgraded htask =>
      have hj := h.left_le (by simp [htask])
      rw [htask] at hj
      exact .inr ⟨5, .looping nofun (Nat.le_refl _), hj⟩
  | gone htask =>
      have hj := h.left_le (by simp [htask])
      rw [htask] at hj
      exact .inr ⟨5, .looping nofun (Nat.zero_le _), hj⟩
  | elapsed htask =>
      have hj := h.left_le (by simp [htask])
      rw [htask] at hj
      exact .inr ⟨4, .looping nofun (Nat.le_refl _), hj⟩
  | failed htask =>
      obtain ⟨instances, hpull, _⟩ := hfinds
      cases hpull
  | pulled htask =>
      have hj := h.left_le (by simp [htask])
      rw [htask] at hj
      obtain ⟨instances, hpull, hlists, hsucc⟩ := hfinds
      cases hpull
      exact .inr ⟨3, .setting rfl List.getElem?_concat_length rfl hlists hsucc (Nat.le_refl _), hj⟩
  | @advanced order removal i call updated routing stage htask hcall hset hadv hset' =>
      have hlt := Stage.pieces_lt hadv
      cases h with
      | looping hno => exact absurd htask (hno i)
      | setting hi hcall' hset₂ hlists hsucc hj =>
          obtain rfl := TaskPhase.setting.inj (htask.symm.trans hi)
          cases hcall.symm.trans hcall'
          cases hset.symm.trans hset₂
          refine .inr ⟨stage.pieces, ?_, ?_⟩
          · exact .setting htask (Table.set_self hcall) hset' hlists hsucc (Nat.le_refl _)
          · show stage.pieces + 1 ≤ j
            omega
      | stale hi hcall' hj =>
          obtain rfl := TaskPhase.setting.inj (htask.symm.trans hi)
          cases hcall.symm.trans hcall'
          refine .inr ⟨stage.pieces + 6, .stale htask (Table.set_self hcall) (Nat.le_refl _), ?_⟩
          show stage.pieces + 6 + 1 ≤ j
          omega
  | @finished order removal i call updated routing result htask hcall hset hadv =>
      have hlt := Stage.pieces_lt hadv
      obtain ⟨hfresh, hends⟩ := hat.fresh i call htask hcall
      cases h with
      | looping hno => exact absurd htask (hno i)
      | setting hi hcall' hset₂ hlists hsucc hj =>
          obtain rfl := TaskPhase.setting.inj (htask.symm.trans hi)
          cases hcall.symm.trans hcall'
          cases hset.symm.trans hset₂
          rw [hat.routing] at hadv
          refine .inl ⟨?_, nofun⟩
          rcases Stage.advance_turn hset hfresh hadv with ⟨_, hset', _⟩ | ⟨r, hrouting, _⟩
          · cases hset'
          · rw [hrouting]
            exact r.members_of_succeeds hends hlists hsucc
      | stale hi hcall' hj =>
          obtain rfl := TaskPhase.setting.inj (htask.symm.trans hi)
          cases hcall.symm.trans hcall'
          refine .inr ⟨6, .looping nofun (Nat.le_refl _), ?_⟩
          show 6 + 1 ≤ j
          omega

end Process

/-! ## In a deployment -/

namespace Deployment

/-- A step of the task of node `n`. -/
def taskOf (n : GroupcachePeer) (_ : Deployment Value) : DeploymentAction Value → Bool
  | .process m action => m = n && action.ofTask
  | .run _ => false

/-- The pulls of the members find the members, and these can be connected to. -/
def Converging (U : Set GroupcachePeer) (M : Finset GroupcachePeer) (d : Deployment Value)
    (a : DeploymentAction Value) : Prop :=
  d.Discovering U a ∧
    match a with
    | .process n action => n ∈ M → action.Finds M n
    | .run _ => True

variable {d d' : Deployment Value} {a : DeploymentAction Value} {k : Nat}

/-- After `k` steps of its task the node knows the members, or is as much
nearer to that. -/
structure Approaches (U : Set GroupcachePeer) (M : Finset GroupcachePeer) (n : GroupcachePeer)
    (d : Deployment Value) (k : Nat) : Prop where
  tracks : ∃ now, d.Tracks now
  reaches : Reaches Cluster.step (SerialTopology U) (.start .withLocalPeer) d.cluster
  nears : (d.processOf n).Keeps M n ∨ ∃ j, (d.processOf n).Nears M n j ∧ j + k ≤ 9

theorem Approaches.step (h : d.Approaches U M n k) (hn : n ∈ M) (hg : d.Converging U M a)
    (hs : d.step a = some d') : d'.Approaches U M n (k + if d.taskOf n a then 1 else 0) := by
  obtain ⟨now, htracks⟩ := h.tracks
  constructor
  case tracks =>
    rcases htracks.step hg.1 hs with ⟨_, htracks'⟩ | ⟨_, next, _, _, htracks'⟩
    · exact ⟨now, htracks'⟩
    · exact ⟨next, htracks'⟩
  case reaches => exact htracks.reaches_step hg.1 hs h.reaches
  case nears =>
    rcases step_cases hs with ⟨action, cluster, rfl, _, rfl, hsame⟩ | ⟨m, action, p, rfl, hp, rfl⟩
    · rw [hsame n]
      exact h.nears
    · rw [processOf_setProcess]
      split
      · rename_i hnm
        subst hnm
        have hfinds := hg.2 hn
        have hpiece := Process.step_piece hp (htracks.atTurn n).inv hg.1.2.1
        have hcount : d.taskOf n (.process n action) = action.ofTask := by simp [taskOf]
        rw [hcount]
        rcases h.nears with hkeeps | ⟨j, hnears, hj⟩
        · exact .inl (hpiece.keeps (htracks.atTurn n) hkeeps hfinds.pulls)
        · refine (hpiece.nears (htracks.atTurn n) hnears hfinds).imp_right ?_
          rintro ⟨j', hnears', hj'⟩
          exact ⟨j', hnears', by omega⟩
      · rename_i hnm
        have hcount : d.taskOf n (.process m action) = false := by simp [taskOf, Ne.symm hnm]
        rw [hcount]
        exact h.nears

/-- Once each member's task has made its steps, the members know each other. -/
theorem reaches_agrees (hne : M.Nonempty) {d₀ d : Deployment Value}
    (h₀ : Reaches Deployment.step (Discovering U) .start d₀)
    (h : ∀ n ∈ M, ∃ k, 9 < k ∧ Reaches (counting Deployment.step (taskOf n))
      (fun s => s.1.Converging U M) (d₀, 0) (d, k)) :
    d.cluster.Agrees M ∧
      Reaches Cluster.step (SerialTopology U) (.start .withLocalPeer) d.cluster := by
  obtain ⟨events, hemits⟩ := Emits.of_reaches h₀ Deployment.emit
  obtain ⟨now, _, htracks, hreach⟩ := Deployment.runs hemits
  have hend : ∀ n ∈ M, ∃ k, 9 < k ∧ d.Approaches U M n k := by
    intro n hn
    obtain ⟨k, hk, hrun⟩ := h n hn
    refine ⟨k, hk, hrun.counting_invariant (I := fun d k => d.Approaches U M n k) ?_ ?_⟩
    · exact ⟨⟨now, htracks⟩, hreach, .inr ⟨9, (htracks.atTurn n).inv.nears, Nat.le_refl _⟩⟩
    · exact fun _ _ _ _ hi hg hs => hi.step hn hg hs
  constructor
  · intro n hn
    obtain ⟨k, hk, happroach⟩ := hend n hn
    rcases happroach.nears with hkeeps | ⟨j, _, hj⟩
    · exact hkeeps.members
    · omega
  · obtain ⟨n, hn⟩ := hne
    obtain ⟨_, _, happroach⟩ := hend n hn
    exact happroach.reaches

end Deployment

/-- Nodes that know each other find one owner of a key. -/
theorem Cluster.Agrees.one_owner {c : Cluster Value} (hagrees : c.Agrees M) (hU : Addressable U)
    (hM : ∀ n ∈ M, n ∈ U) (hne : M.Nonempty)
    (h : Reaches Cluster.step (SerialTopology U) (.start .withLocalPeer) c) (key : String) :
    ∃ owner, Owner M key owner ∧ ∀ n ∈ M, Finds n (c.node n).topology.routing key owner := by
  have hforwarding := Cluster.reaches_forwarding hU h
  obtain ⟨owner, howner⟩ := hforwarding.has_owner hagrees hU hM hne key
  exact ⟨owner, howner, fun n hn => Cluster.KeepsTo.finds hforwarding hagrees hU hM howner hn⟩

/-- **Discovery converges.** From wherever a deployment has come to, once each
member's task has made more than nine steps, with pulls that find the members
and connections that succeed, all members find one owner of every key. -/
theorem deployment_converges (hU : Addressable U) (hM : ∀ n ∈ M, n ∈ U) (hne : M.Nonempty)
    {d₀ d : Deployment Value} (h₀ : Reaches Deployment.step (Deployment.Discovering U) .start d₀)
    (h : ∀ n ∈ M, ∃ k, 9 < k ∧ Reaches (counting Deployment.step (Deployment.taskOf n))
      (fun s => s.1.Converging U M) (d₀, 0) (d, k)) (key : String) :
    ∃ owner, Owner M key owner ∧
      ∀ n ∈ M, Finds n (d.cluster.node n).topology.routing key owner := by
  obtain ⟨hagrees, hreach⟩ := Deployment.reaches_agrees hne h₀ h
  exact hagrees.one_owner hU hM hne hreach key

/-! ## Two members -/

namespace Concrete

theorem converging_callOf {added removed : List GroupcachePeer} (hn : n ∈ U) :
    ∀ a ∈ callOf n added removed, ∀ d : Deployment UInt8, d.Converging U M a := by
  intro a ha d
  refine ⟨discovering_callOf hn a ha d, ?_⟩
  simp only [callOf, List.mem_cons, List.not_mem_nil, or_false] at ha
  rcases ha with rfl | rfl | rfl <;> exact fun _ => trivial

theorem converging_turnOf {instances : Finset GroupcachePeer} {added removed : List GroupcachePeer}
    (hn : n ∈ U) (hinst : ∀ p ∈ instances, p ∈ U) (hlists : insert n instances = M) :
    ∀ a ∈ turnOf n instances added removed, ∀ d : Deployment UInt8, d.Converging U M a := by
  intro a ha d
  refine ⟨discovering_turnOf hn hinst a ha d, ?_⟩
  simp only [turnOf, List.mem_cons] at ha
  rcases ha with rfl | rfl | rfl | ha
  · exact fun _ => trivial
  · exact fun _ => trivial
  · exact fun _ => ⟨instances, rfl, hlists, fun _ _ => rfl⟩
  · exact (converging_callOf hn a ha d).2

/-- A finds B, and then that B is gone. -/
def outdated : List (DeploymentAction UInt8) :=
  turnOf (node 8001) {node 8002} [node 8002] [] ++
    (turnOf (node 8001) ∅ [] [node 8002]).take 3

/-- A and B find each other. -/
def meet : List (DeploymentAction UInt8) :=
  callOf (node 8001) [] [node 8002] ++ turnOf (node 8001) {node 8002} [node 8002] [] ++
    turnOf (node 8002) {node 8001} [node 8001] [] ++
    (turnOf (node 8001) {node 8002} [node 8002] []).take 1 ++
    (turnOf (node 8002) {node 8001} [node 8001] []).take 4

end Concrete

open Concrete

omit [Platform] [ValueBounds Value] in
/-- A is about to forget B, and B knows nobody. -/
theorem deployment_converges_sample :
    let _ : Platform := host
    let _ : ValueBounds UInt8 := messagePack
    let M : Finset GroupcachePeer := {node 8001, node 8002}
    ∃ d₀ d : Deployment UInt8, (∃ owner, Owner M "key" owner ∧
        ∀ n ∈ M, Finds n (d.cluster.node n).topology.routing "key" owner) ∧
      (d₀.processOf (node 8001)).sets? = some ∅ ∧
      ∀ n ∈ M, (d.cluster.node n).topology.routing.peerSet = M.erase n := by
  intro _ _ M
  let U : Set GroupcachePeer := {p | p ∈ [8001, 8002].map node}
  have hA : node 8001 ∈ U := by decide
  have hB : node 8002 ∈ U := by decide
  obtain ⟨d₀, hd₀, d, hd, hsets, hpeers⟩ :
      ∃ d₀ ∈ outdated.foldlM Deployment.step (Deployment.start : Deployment UInt8),
      ∃ d ∈ meet.foldlM Deployment.step d₀,
      (d₀.processOf (node 8001)).sets? = some ∅ ∧
      ∀ n ∈ M, (d.cluster.node n).topology.routing.peerSet = M.erase n := by
    decide +kernel +revert
  have hbefore : ∀ a ∈ outdated, ∀ d : Deployment UInt8, d.Discovering U a := by
    simp only [outdated, List.forall_mem_append]
    refine ⟨discovering_turnOf hA (by simpa using hB), fun a ha => ?_⟩
    exact discovering_turnOf hA (by simp) a (List.mem_of_mem_take ha)
  have hpullsA : ∀ a ∈ turnOf (node 8001) {node 8002} [node 8002] [], ∀ d : Deployment UInt8,
      d.Converging U M a := converging_turnOf hA (by simpa using hB) rfl
  have hpullsB : ∀ a ∈ turnOf (node 8002) {node 8001} [node 8001] [], ∀ d : Deployment UInt8,
      d.Converging U M a := converging_turnOf hB (by simpa using hA) (by decide)
  have hmeet : ∀ a ∈ meet, ∀ d : Deployment UInt8, d.Converging U M a := by
    simp only [meet, List.forall_mem_append]
    exact ⟨⟨⟨⟨converging_callOf hA, hpullsA⟩, hpullsB⟩,
      fun a ha => hpullsA a (List.mem_of_mem_take ha)⟩,
      fun a ha => hpullsB a (List.mem_of_mem_take ha)⟩
  have hcount : ∀ n ∈ M, meet.countP (Deployment.taskOf n Deployment.start) = 10 := by decide
  refine ⟨d₀, d, deployment_converges addressable_host mem_host (Finset.insert_nonempty _ _)
    (.of_foldlM hbefore hd₀) (fun n hn => ⟨10, by decide, ?_⟩) "key", hsets, hpeers⟩
  have hrun := Reaches.counting_of_foldlM (k := 0) (P := Deployment.taskOf n)
    (p := Deployment.taskOf n Deployment.start) hmeet (fun _ _ => rfl) hd
  rwa [Nat.zero_add, hcount n hn] at hrun

end Groupcache
