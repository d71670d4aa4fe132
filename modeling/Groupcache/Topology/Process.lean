import Groupcache.Topology.Discovery

/-!
# The discovery task (`groupcache_builder.rs`, `service_discovery.rs`)

`build` hands out a `Groupcache`, which is an `Arc` of the cache, and spawns
the task that runs `run_service_discovery`. The task holds the cache weakly,
and by an `Arc` of its own for one turn of its loop at a time: so it goes on
while the application has a handle, whatever fails, and after the last handle
is dropped it makes one more pull at most and ends (`discovery_lifecycle`).

`Process` has the handles, the topology calls of the application and the
task, one piece of which runs at a time.
-/

namespace Groupcache

open Transition

/-- Where `run_service_discovery` is. -/
inductive TaskPhase where
  /-- At the head of the loop, where it does not hold the cache. -/
  | upgrading
  | sleeping
  | pulling
  /-- It awaits the `call`-th topology call, which is its `set_peers`. -/
  | setting (call : Nat)
  | ended
  deriving DecidableEq

variable [Platform]

structure Process where
  /-- How many `Groupcache`s the application has, gRPC services included. -/
  handles : Nat
  topology : Topology
  task : TaskPhase
  log : List String

inductive ProcessAction where
  | clone
  | drop
  /-- A piece of a topology call of the application. -/
  | call (action : TopologyAction)
  | upgrade
  /-- The interval is over. -/
  | elapsed
  /-- `pull_instances` returns; `attempt` is what connecting to each peer
  comes to after that. -/
  | pulled (pull : Except String (Finset GroupcachePeer))
      (attempt : GroupcachePeer → ConnectOutcome)
  /-- A piece of the task's own call. -/
  | advance (order removal : List GroupcachePeer)

namespace Process

/-- `GroupcacheBuilder::build`, with service discovery. -/
def build (me : GroupcachePeer) : Process where
  handles := 1
  topology := .start me
  task := .upgrading
  log := []

/-- The action goes on with the call that the task awaits. -/
def awaits (p : Process) : TopologyAction → Bool
  | .begin .. => false
  | .advance i _ _ => p.task = .setting i

/-- What the task does with the result of its call; `none` when it panicked. -/
def afterSet (p : Process) : CallResult → Process
  | none => { p with task := .ended }
  | some (.ok ()) => { p with task := .upgrading }
  | some (.error e) =>
      { p with
        task := .upgrading
        log := p.log ++ [s!"Error connecting to refreshed instances: {e.display Platform.debug}"] }

def step (p : Process) : ProcessAction → Option Process
  | .clone => if p.handles = 0 then none else some { p with handles := p.handles + 1 }
  | .drop => if p.handles = 0 then none else some { p with handles := p.handles - 1 }
  -- a call borrows a handle for as long as it runs
  | .call action =>
      if p.handles = 0 ∨ p.awaits action then none
      else (p.topology.step action).map fun topology => { p with topology }
  | .upgrade =>
      match p.task with
      -- the handles are all the `Arc`s there are
      | .upgrading => some { p with task := if p.handles = 0 then .ended else .sleeping }
      | _ => none
  | .elapsed =>
      match p.task with
      | .sleeping => some { p with task := .pulling }
      | _ => none
  | .pulled pull attempt =>
      match p.task with
      | .pulling =>
          match pull with
          | .ok instances =>
              (p.topology.step (.begin (.setPeers instances) attempt)).map fun topology =>
                { p with topology, task := .setting p.topology.calls.length }
          | .error e =>
              some { p with
                task := .upgrading
                log := p.log ++ [s!"Error during when refreshing instances: {e}"] }
      | _ => none
  | .advance order removal =>
      match p.task with
      | .setting i =>
          match p.topology.step (.advance i order removal) with
          | none => none
          | some topology =>
              match topology.calls[i]? with
              | some { stage := .returned result, .. } =>
                  some ({ p with topology }.afterSet result)
              | _ => some { p with topology }
      | _ => none

end Process

/-! ## The task's own call -/

/-- The set that a call of `set_peers` has been given. -/
def Stage.updatedPeers? : Stage → Option (Finset GroupcachePeer)
  | .called (.setPeers updatedPeers) => some updatedPeers
  | .setConnecting updatedPeers _ => some updatedPeers
  | .setWriting updatedPeers _ _ _ => some updatedPeers
  | _ => none

/-- How many pieces there are to a call from a stage on. -/
def Stage.pieces : Stage → Nat
  | .called _ => 3
  | .addConnecting _ => 2
  | .addWriting .. => 1
  | .setConnecting .. => 2
  | .setWriting .. => 1
  | .removeWriting _ => 1
  | .returned _ => 0

section Pieces

variable {s s' : RoutingState} {st st' : Stage} {attempt : GroupcachePeer → ConnectOutcome}
  {order removal : List GroupcachePeer} {updated : Finset GroupcachePeer}

theorem Stage.pieces_lt (h : st.advance s attempt order removal = some (s', st')) :
    st'.pieces < st.pieces := by
  cases st with
  | called op =>
      cases op <;> simp only [Stage.advance] at h <;> (try split at h) <;> cases h <;>
        simp [Stage.pieces]
  | addConnecting peer =>
      simp only [Stage.advance] at h
      split at h <;> cases h <;> simp [Stage.pieces]
  | addWriting peer client =>
      cases h
      simp [Stage.pieces]
  | setConnecting updated current =>
      simp only [Stage.advance] at h
      split at h
      · split at h
        · cases h
          simp [Stage.pieces]
        · split at h <;> cases h <;> simp [Stage.pieces]
      · cases h
  | setWriting updated current results removal =>
      cases h
      simp [Stage.pieces]
  | removeWriting peer =>
      cases h
      simp [Stage.pieces]
  | returned result => cases h

/-- A call of `set_peers` goes on, or returns without a panic. -/
theorem Stage.advance_setting (hset : st.updatedPeers? = some updated)
    (h : st.advance s attempt order removal = some (s', st')) :
    st'.updatedPeers? = some updated ∨ ∃ result, st' = .returned (some result) := by
  cases st with
  | called op =>
      cases op with
      | setPeers updatedPeers =>
          cases h
          exact .inl hset
      | addPeer peer => cases hset
      | removePeer peer => cases hset
  | setConnecting updatedPeers current =>
      simp only [Stage.advance] at h
      split at h
      · split at h
        · cases h
          exact .inr ⟨_, rfl⟩
        · split at h <;> cases h
          · exact .inr ⟨_, rfl⟩
          · exact .inl hset
      · cases h
  | setWriting updatedPeers current results removal =>
      cases h
      exact .inr ⟨_, rfl⟩
  | _ => cases hset

/-- A call of `set_peers` can always go on, in whatever order its attempts
finish. -/
theorem Stage.setting_enabled (hset : st.updatedPeers? = some updated) (s : RoutingState)
    (attempt : GroupcachePeer → ConnectOutcome) :
    ∃ order removal, (st.advance s attempt order removal).isSome := by
  cases st with
  | called op =>
      cases op with
      | setPeers updatedPeers => exact ⟨[], [], rfl⟩
      | addPeer peer => cases hset
      | removePeer peer => cases hset
  | setConnecting updatedPeers current =>
      have henum : ∀ A : Finset GroupcachePeer, Enumerates A.toList A := fun A =>
        ⟨A.nodup_toList, A.toList_toFinset⟩
      refine ⟨(updatedPeers \ current).toList, (current \ updatedPeers).toList, ?_⟩
      simp only [Stage.advance, if_pos (And.intro (henum _) (henum _))]
      split
      · rfl
      · split <;> rfl
  | setWriting updatedPeers current results removal => exact ⟨[], [], rfl⟩
  | _ => cases hset

end Pieces

namespace Process

variable {p q : Process} {me : GroupcachePeer} {a : ProcessAction}

/-! ## The life of the task -/

/-- The call that the task awaits is a `set_peers` under way, and the task has
not ended while there is a handle. -/
structure Inv (p : Process) : Prop where
  setting : ∀ i, p.task = .setting i → ∃ call updated, p.topology.calls[i]? = some call ∧
    call.stage.updatedPeers? = some updated
  alive : 0 < p.handles → p.task ≠ .ended

theorem Inv.build : (Process.build me).Inv where
  setting i h := by cases h
  alive _ h := by cases h

/-- A piece of the task's call leaves it in progress, or the task goes on with
its result. -/
theorem advance_cases {order removal : List GroupcachePeer}
    (h : p.step (.advance order removal) = some q) (hinv : p.Inv) :
    ∃ i call updated routing stage, p.task = .setting i ∧ p.topology.calls[i]? = some call ∧
      call.stage.updatedPeers? = some updated ∧
      call.stage.advance p.topology.routing call.attempt order removal = some (routing, stage) ∧
      ((stage.updatedPeers? = some updated ∧
          q = { p with topology :=
            { routing, calls := p.topology.calls.set i { call with stage } } }) ∨
        ∃ result, stage = .returned (some result) ∧
          q = { p with topology :=
            { routing, calls := p.topology.calls.set i { call with stage } } }.afterSet
              (some result)) := by
  cases htask : p.task with
  | setting i =>
      obtain ⟨call, updated, hcall, hset⟩ := hinv.setting i htask
      simp only [step, htask] at h
      cases hs : p.topology.step (.advance i order removal) with
      | none => simp [hs] at h
      | some topology =>
          obtain ⟨_, _, hbegin, _⟩ | ⟨j, order', removal', call', routing, stage, haction, hcall',
            hadv, rfl⟩ := Topology.step_cases hs
          · cases hbegin
          · cases haction
            obtain rfl : call = call' := Option.some.inj (hcall.symm.trans hcall')
            refine ⟨i, call, updated, routing, stage, rfl, hcall, hset, hadv, ?_⟩
            simp only [hs, Table.set_self hcall] at h
            rcases Stage.advance_setting hset hadv with hgo | ⟨result, rfl⟩
            · refine .inl ⟨hgo, ?_⟩
              cases stage <;> first | exact (Option.some.inj h).symm | cases hgo
            · exact .inr ⟨result, rfl, (Option.some.inj h).symm⟩
  | _ => simp [step, htask] at h

theorem Inv.step (h : p.Inv) (hs : p.step a = some q) : q.Inv := by
  cases a with
  | clone =>
      simp only [Process.step] at hs
      split at hs <;> cases hs
      exact ⟨h.setting, fun _ => h.alive (by omega)⟩
  | drop =>
      simp only [Process.step] at hs
      split at hs <;> cases hs
      exact ⟨h.setting, fun _ => h.alive (by omega)⟩
  | call action =>
      simp only [Process.step] at hs
      split at hs
      · cases hs
      · rename_i hother
        obtain ⟨-, hother⟩ := not_or.mp hother
        obtain ⟨topology, htop, rfl⟩ := Option.map_eq_some_iff.mp hs
        refine ⟨fun i hi => ?_, h.alive⟩
        obtain ⟨call, updated, hcall, hset⟩ := h.setting i hi
        refine ⟨call, updated, ?_, hset⟩
        -- it is another call that goes on, or a new one
        rcases Topology.step_cases htop with ⟨op, attempt, rfl, rfl⟩ |
          ⟨j, order, removal, _, _, _, rfl, _, _, rfl⟩
        · exact Table.append_of_some hcall
        · refine Table.set_of_ne (fun hij => hother ?_) hcall
          subst hij
          exact decide_eq_true hi
  | upgrade =>
      simp only [Process.step] at hs
      split at hs <;> cases hs
      refine ⟨fun i hi => ?_, fun hpos hend => ?_⟩
      · split at hi <;> cases hi
      · rw [if_neg (Nat.pos_iff_ne_zero.mp hpos)] at hend
        cases hend
  | elapsed =>
      simp only [Process.step] at hs
      split at hs <;> cases hs
      exact ⟨nofun, nofun⟩
  | pulled pull attempt =>
      simp only [Process.step] at hs
      split at hs
      · split at hs <;> cases hs
        · refine ⟨fun i hi => ?_, nofun⟩
          cases hi
          exact ⟨_, _, List.getElem?_concat_length, rfl⟩
        · exact ⟨nofun, nofun⟩
      · cases hs
  | advance order removal =>
      obtain ⟨i, call, updated, routing, stage, htask, hcall, _, _, hgo | ⟨result, _, rfl⟩⟩ :=
        advance_cases hs h
      · obtain ⟨hset, rfl⟩ := hgo
        refine ⟨fun j hj => ?_, fun _ => ?_⟩
        · obtain rfl : i = j := TaskPhase.setting.inj (htask.symm.trans hj)
          exact ⟨_, updated, Table.set_self hcall, hset⟩
        · rw [htask]
          nofun
      · cases result <;> exact ⟨nofun, nofun⟩

/-- How many pieces the task has left to run if no handle is left. -/
def left (p : Process) : Nat :=
  match p.task with
  | .upgrading => 1
  | .sleeping => 6
  | .pulling => 5
  | .setting i => 1 + ((p.topology.calls[i]?).map fun call => call.stage.pieces).getD 0
  | .ended => 0

/-- How many pulls it has left then. -/
def pullsLeft (p : Process) : Nat :=
  match p.task with
  | .sleeping => 1
  | .pulling => 1
  | _ => 0

/-- A pull of the task. -/
def pulls (_ : Process) : ProcessAction → Bool
  | .pulled .. => true
  | _ => false

/-- **Without a handle only the task goes on**, and it comes to its end. -/
theorem step_unheld (hinv : p.Inv) (hnone : p.handles = 0) (hs : p.step a = some q) :
    q.handles = 0 ∧ q.left < p.left ∧ q.pullsLeft + (if p.pulls a then 1 else 0) ≤ p.pullsLeft := by
  cases a with
  | clone => simp [step, hnone] at hs
  | drop => simp [step, hnone] at hs
  | call action => simp [step, hnone] at hs
  | upgrade =>
      simp only [step] at hs
      split at hs <;> cases hs
      rename_i htask
      simp [hnone, left, pullsLeft, pulls, htask]
  | elapsed =>
      simp only [step] at hs
      split at hs <;> cases hs
      rename_i htask
      simp [hnone, left, pullsLeft, pulls, htask]
  | pulled pull attempt =>
      simp only [step] at hs
      split at hs
      · rename_i htask
        split at hs <;> cases hs
        · simp [hnone, left, pullsLeft, pulls, htask, Stage.pieces]
        · simp [hnone, left, pullsLeft, pulls, htask]
      · cases hs
  | advance order removal =>
      obtain ⟨i, call, updated, routing, stage, htask, hcall, _, hadv,
        ⟨_, rfl⟩ | ⟨result, rfl, rfl⟩⟩ := advance_cases hs hinv
      · have := Stage.pieces_lt hadv
        simp [hnone, left, pullsLeft, pulls, htask, hcall, Table.set_self hcall, this]
      · have := Nat.zero_lt_of_lt (Stage.pieces_lt hadv)
        cases result <;> simp [hnone, left, pullsLeft, pulls, htask, hcall, afterSet, this]

/-- The task can go on until it has ended. -/
theorem Inv.progress (h : p.Inv) (htask : p.task ≠ .ended) :
    (p.step .upgrade).isSome ∨ (p.step .elapsed).isSome ∨
      (∀ pull attempt, (p.step (.pulled pull attempt)).isSome) ∨
        ∃ order removal, (p.step (.advance order removal)).isSome := by
  cases hp : p.task with
  | upgrading => exact .inl (by simp [Process.step, hp])
  | sleeping => exact .inr (.inl (by simp [Process.step, hp]))
  | pulling =>
      refine .inr (.inr (.inl fun pull attempt => ?_))
      cases pull <;> simp [Process.step, hp, Topology.step]
  | setting i =>
      obtain ⟨call, updated, hcall, hset⟩ := h.setting i hp
      obtain ⟨order, removal, hadv⟩ :=
        Stage.setting_enabled hset p.topology.routing call.attempt
      obtain ⟨⟨routing, stage⟩, hadv⟩ := Option.isSome_iff_exists.mp hadv
      refine .inr (.inr (.inr ⟨order, removal, ?_⟩))
      simp only [Process.step, hp, Topology.step, hcall, hadv]
      split <;> rfl
  | ended => exact absurd hp htask

/-- What becomes of the task. -/
structure Lifecycle (p : Process) : Prop where
  /-- While the application has a handle, the task goes on. -/
  alive : 0 < p.handles → p.task ≠ .ended
  progress : p.task ≠ .ended → (p.step .upgrade).isSome ∨ (p.step .elapsed).isSome ∨
    (∀ pull attempt, (p.step (.pulled pull attempt)).isSome) ∨
      ∃ order removal, (p.step (.advance order removal)).isSome
  /-- Without a handle it ends, -/
  ends : p.handles = 0 → Terminates Process.step (fun _ _ => True) p
  /-- with one more pull at most, -/
  lastPull : p.handles = 0 → ∀ q n,
    Reaches (counting Process.step pulls) (fun _ _ => True) (p, 0) (q, n) → n ≤ 1
  /-- and then nothing changes the table any more. -/
  quiet : p.handles = 0 → p.task = .ended → ∀ a, p.step a = none

end Process

/-- **The life of the discovery task**, whatever the application calls, and
whichever pulls and connections fail or panic. -/
theorem discovery_lifecycle {me : GroupcachePeer} {p : Process}
    (h : Reaches Process.step (fun _ _ => True) (.build me) p) : p.Lifecycle := by
  have hinv : p.Inv := h.invariant (I := Process.Inv) .build fun _ _ _ hi _ hs => hi.step hs
  have hstep : ∀ (s t : Process) a, s.Inv ∧ s.handles = 0 → s.step a = some t →
      (t.Inv ∧ t.handles = 0) ∧ t.left < s.left ∧
        t.pullsLeft + (if s.pulls a then 1 else 0) ≤ s.pullsLeft := by
    rintro s t a ⟨hs, hnone⟩ ht
    obtain ⟨hnone', hleft, hpulls⟩ := Process.step_unheld hs hnone ht
    exact ⟨⟨hs.step ht, hnone'⟩, hleft, hpulls⟩
  constructor
  case alive => exact hinv.alive
  case progress => exact hinv.progress
  case ends =>
    intro hnone
    refine terminates_of_measure (I := fun s => s.Inv ∧ s.handles = 0) Process.left ?_ p
      ⟨hinv, hnone⟩
    intro s t a hs _ ht
    obtain ⟨hI, hleft, _⟩ := hstep s t a hs ht
    exact ⟨hI, hleft⟩
  case lastPull =>
    intro hnone q n hrun
    have hle : n ≤ p.pullsLeft := by
      refine @Reaches.count_le _ _ _ (fun _ _ => True) _ _ _ _ (fun s => s.Inv ∧ s.handles = 0)
        Process.pullsLeft hrun ⟨hinv, hnone⟩ ?_
      intro s t a hs _ ht
      obtain ⟨hI, _, hpulls⟩ := hstep s t a hs ht
      exact ⟨hI, hpulls⟩
    have : p.pullsLeft ≤ 1 := by
      unfold Process.pullsLeft
      split <;> omega
    omega
  case quiet =>
    intro hnone htask a
    cases a <;> simp [Process.step, hnone, htask]

omit [Platform] in
/-- The only handle is dropped while the task sleeps. -/
theorem discovery_lifecycle_sample :
    let _ : Platform := Concrete.platform []
    ∃ p : Process, p.Lifecycle ∧ p.handles = 0 ∧ p.task = .sleeping := by
  intro _
  exact ⟨_, @discovery_lifecycle _ (Concrete.node 8001) _ <|
    .head (a := .upgrade) trivial rfl <|
    .single (a := .drop) trivial rfl, rfl, rfl⟩

end Groupcache
