import Groupcache.Lib.Simulation
import Groupcache.Topology.Alone
import Groupcache.Topology.Process

/-!
# The turns of the discovery loop

Where the application makes no topology calls, the task's own calls of
`set_peers` run alone, piece by piece. What the node knows after any number of
pieces is what the loop has come to in the turns it has finished
(`discovery_turns`): the table stays that of the last turn until `set_peers`
writes, in its last piece.
-/

namespace Groupcache

open Transition

/-- A finished turn of the loop, and what it has logged. -/
structure Turn where
  pull : Except String (Finset GroupcachePeer)
  attempt : GroupcachePeer → ConnectOutcome
  logged : Option String

variable [Platform]

/-! ## A call of `set_peers` that runs alone -/

omit [Platform] in
theorem Enumerates.append {α : Type} [DecidableEq α] {l l' : List α} {A B : Finset α}
    (h : Enumerates l A) (h' : Enumerates l' B) (hdisj : Disjoint A B) :
    Enumerates (l ++ l') (A ∪ B) := by
  constructor
  · refine List.nodup_append'.mpr ⟨h.1, h'.1, fun a ha ha' => ?_⟩
    exact Finset.disjoint_left.mp hdisj (h.mem_iff.mp ha) (h'.mem_iff.mp ha')
  · rw [List.toFinset_append, h.2, h'.2]

omit [Platform] in
private theorem enumerates_toList (A : Finset GroupcachePeer) : Enumerates A.toList A :=
  ⟨A.nodup_toList, A.toList_toFinset⟩

/-- Whatever the orders of the differences, the sets can be iterated so. -/
theorem SetPeersRun.exists_of_enumerates {s : RoutingState} {updated : Finset GroupcachePeer}
    {order removal : List GroupcachePeer} (horder : Enumerates order (updated \ s.peerSet))
    (hremoval : Enumerates removal (s.peerSet \ updated)) :
    ∃ r : SetPeersRun s updated,
      r.attempted = order ∧ r.finished = order ∧ r.peersToRemove = removal := by
  have hfilter : ∀ (l : List GroupcachePeer) (A B : Finset GroupcachePeer),
      Enumerates l (A \ B) → (l ++ (A ∩ B).toList).filter (fun p => p ∉ B) = l := by
    intro l A B hl
    have hself : l.filter (fun p => p ∉ B) = l :=
      List.filter_eq_self.mpr fun p hp =>
        decide_eq_true (Finset.mem_sdiff.mp (hl.mem_iff.mp hp)).2
    have hnone : (A ∩ B).toList.filter (fun p => p ∉ B) = [] := by
      refine List.filter_eq_nil_iff.mpr fun p hp => ?_
      simpa using (Finset.mem_inter.mp (Finset.mem_toList.mp hp)).2
    rw [List.filter_append, hself, hnone, List.append_nil]
  have henum : ∀ (l : List GroupcachePeer) (A B : Finset GroupcachePeer),
      Enumerates l (A \ B) → Enumerates (l ++ (A ∩ B).toList) A := by
    intro l A B hl
    have happend := hl.append (enumerates_toList (A ∩ B))
      (Finset.disjoint_sdiff_inter A B)
    rwa [Finset.sdiff_union_inter] at happend
  refine ⟨{ updatedIter := order ++ (updated ∩ s.peerSet).toList
            currentIter := removal ++ (s.peerSet ∩ updated).toList
            finished := order
            updatedIter_enumerates := henum order _ _ horder
            currentIter_enumerates := henum removal _ _ hremoval
            finished_perm := ?_ }, hfilter order _ _ horder, rfl, hfilter removal _ _ hremoval⟩
  rw [hfilter order _ _ horder]

/-- **A piece of a `set_peers` that runs alone** leaves the table as it is, or
returns, and the whole call is one that runs in one go. -/
theorem Stage.advance_turn {s s' : RoutingState} {st st' : Stage}
    {attempt : GroupcachePeer → ConnectOutcome} {order removal : List GroupcachePeer}
    {updated : Finset GroupcachePeer} (hset : st.updatedPeers? = some updated)
    (hfresh : st.Fresh Set.univ s attempt)
    (h : st.advance s attempt order removal = some (s', st')) :
    (s' = s ∧ st'.updatedPeers? = some updated ∧ st'.Fresh Set.univ s attempt) ∨
      ∃ r : SetPeersRun s updated, s' = (r.outcome attempt).1 ∧
        st' = .returned (r.outcome attempt).2 := by
  cases st with
  | called op =>
      cases op with
      | setPeers updatedPeers =>
          cases h
          exact .inl ⟨rfl, hset, hfresh, rfl⟩
      | addPeer peer => cases hset
      | removePeer peer => cases hset
  | setConnecting updatedPeers current =>
      cases hset
      obtain ⟨hU, rfl⟩ := hfresh
      simp only [Stage.advance] at h
      split at h
      · rename_i hsched
        obtain ⟨r, _, hfinished, hremove⟩ := SetPeersRun.exists_of_enumerates hsched.1 hsched.2
        have hout : r.outcome attempt = Groupcache.setPeers s attempt order removal := by
          rw [SetPeersRun.outcome, hfinished, hremove]
        split at h
        · rename_i e hc
          cases h
          exact .inr ⟨r, by simp [hout, Groupcache.setPeers, hc],
            by simp [hout, Groupcache.setPeers, hc]⟩
        · rename_i results hc
          split at h <;> cases h
          · rename_i hempty
            exact .inr ⟨r, by simp [hout, Groupcache.setPeers, hc, hempty],
              by simp [hout, Groupcache.setPeers, hc, hempty]⟩
          · rename_i hempty
            exact .inl ⟨rfl, rfl, hU, rfl, order, hsched.1, hsched.2, hc,
              Bool.eq_false_iff.mpr hempty⟩
      · cases h
  | setWriting updatedPeers current results removal' =>
      cases hset
      obtain ⟨_, rfl, order', horder, hremoval, hc, hempty⟩ := hfresh
      cases h
      obtain ⟨r, _, hfinished, hremove⟩ := SetPeersRun.exists_of_enumerates horder hremoval
      have hout : r.outcome attempt = finishSetPeers s results removal' := by
        rw [SetPeersRun.outcome, hfinished, hremove]
        simp only [Groupcache.setPeers, hc, hempty]
        rfl
      exact .inr ⟨r, by rw [hout]; rfl, by rw [hout]; rfl⟩
  | _ => cases hset

/-- A call with the members that a node knows leaves it with these. -/
theorem SetPeersRun.members_eq {s : RoutingState} {updated M : Finset GroupcachePeer}
    {attempt : GroupcachePeer → ConnectOutcome} {me : GroupcachePeer} (r : SetPeersRun s updated)
    (hends : ∀ p, attempt p ≠ .panicked) (hmembers : s.members me = M)
    (hlists : insert me updated = M) : (r.outcome attempt).1.members me = M := by
  subst hmembers
  ext p
  have hp : p ∈ insert me updated ↔ p ∈ s.members me := by rw [hlists]
  rw [RoutingState.members, r.peerSet_ended fun p _ => hends p]
  simp only [RoutingState.members, RoutingState.newPeers, Finset.mem_insert, Finset.mem_union,
    Finset.mem_inter, Finset.mem_filter, Finset.mem_sdiff] at hp ⊢
  tauto

/-! ## Turns -/

/-- One turn in one go, from a table and a log to the next. -/
def Turn.Next (before : RoutingState × List String) (turn : Turn)
    (after : RoutingState × List String) : Prop :=
  ∃ setPeers : Finset GroupcachePeer → RoutingState × CallResult,
    (∀ instances, turn.pull = .ok instances →
      ∃ r : SetPeersRun before.1 instances, setPeers instances = r.outcome turn.attempt) ∧
    (∀ p, turn.attempt p ≠ .panicked) ∧
    discoveryTurn before.1 turn.pull setPeers = (after.1, turn.logged) ∧
    after.2 = before.2 ++ turn.logged.toList

/-- What the action pulls, if it pulls a set, has the property. -/
def ProcessAction.Pulls (P : Finset GroupcachePeer → Prop) : ProcessAction → Prop
  | .pulled (.ok instances) _ => P instances
  | _ => True

/-- What the loop logs of a call of `set_peers`. -/
def setPeersLog : CallResult → Option String
  | some (.error e) =>
      some s!"Error connecting to refreshed instances: {e.display Platform.debug}"
  | _ => none

theorem discoveryTurn_setPeers {s : RoutingState} {instances : Finset GroupcachePeer}
    {setPeers : Finset GroupcachePeer → RoutingState × CallResult} :
    discoveryTurn s (.ok instances) setPeers
      = ((setPeers instances).1, setPeersLog (setPeers instances).2) := by
  simp only [discoveryTurn]
  split
  · rename_i heq
    rw [heq]
    rfl
  · rename_i hne heq
    rw [heq]
    simp only [setPeersLog]

namespace Process

theorem afterSet_some (p : Process) (result : Except InternalGroupcacheError Unit) :
    p.afterSet (some result) = { p with
      task := .upgrading
      log := p.log ++ (setPeersLog (some result)).toList } := by
  cases result with
  | error e => rfl
  | ok => simp [afterSet, setPeersLog]

/-- The application makes no topology call, and no attempt's task panics. -/
def Undisturbed (_ : Process) : ProcessAction → Prop
  | .call _ => False
  | .pulled _ attempt => ∀ p, attempt p ≠ .panicked
  | _ => True

/-- What a step does where the application makes no topology call: handles
come and go, or the task goes on, which is at a pull or awaits its call. -/
inductive Piece (p : Process) : ProcessAction → Process → Prop where
  | held {a : ProcessAction} {handles : Nat} : a = .clone ∨ a = .drop →
      Piece p a { p with handles }
  | upgraded : p.task = .upgrading → Piece p .upgrade { p with task := .sleeping }
  | gone : p.task = .upgrading → Piece p .upgrade { p with task := .ended }
  | elapsed : p.task = .sleeping → Piece p .elapsed { p with task := .pulling }
  | failed {e : String} {attempt : GroupcachePeer → ConnectOutcome} : p.task = .pulling →
      Piece p (.pulled (.error e) attempt)
        { p with
          task := .upgrading
          log := p.log ++ [s!"Error during when refreshing instances: {e}"] }
  | pulled {instances : Finset GroupcachePeer} {attempt : GroupcachePeer → ConnectOutcome} :
      p.task = .pulling →
      Piece p (.pulled (.ok instances) attempt)
        { p with
          topology := { p.topology with
            calls := p.topology.calls ++ [{ attempt, stage := .called (.setPeers instances) }] }
          task := .setting p.topology.calls.length }
  | advanced {order removal : List GroupcachePeer} {i : Nat} {call : TopologyCall}
      {updated : Finset GroupcachePeer} {routing : RoutingState} {stage : Stage} :
      p.task = .setting i → p.topology.calls[i]? = some call →
      call.stage.updatedPeers? = some updated →
      call.stage.advance p.topology.routing call.attempt order removal = some (routing, stage) →
      stage.updatedPeers? = some updated →
      Piece p (.advance order removal)
        { p with topology := { routing, calls := p.topology.calls.set i { call with stage } } }
  | finished {order removal : List GroupcachePeer} {i : Nat} {call : TopologyCall}
      {updated : Finset GroupcachePeer} {routing : RoutingState}
      {result : Except InternalGroupcacheError Unit} :
      p.task = .setting i → p.topology.calls[i]? = some call →
      call.stage.updatedPeers? = some updated →
      call.stage.advance p.topology.routing call.attempt order removal
        = some (routing, .returned (some result)) →
      Piece p (.advance order removal)
        { p with
          topology := { routing, calls :=
            p.topology.calls.set i { call with stage := .returned (some result) } }
          task := .upgrading
          log := p.log ++ (setPeersLog (some result)).toList }

variable {p q : Process} {a : ProcessAction}

theorem step_piece (hs : p.step a = some q) (hinv : p.Inv) (hguard : p.Undisturbed a) :
    p.Piece a q := by
  cases a with
  | clone =>
      simp only [step] at hs
      split at hs <;> cases hs
      exact .held (.inl rfl)
  | drop =>
      simp only [step] at hs
      split at hs <;> cases hs
      exact .held (.inr rfl)
  | call action => cases hguard
  | upgrade =>
      simp only [step] at hs
      split at hs <;> cases hs
      rename_i htask
      split
      · exact .gone htask
      · exact .upgraded htask
  | elapsed =>
      simp only [step] at hs
      split at hs <;> cases hs
      rename_i htask
      exact .elapsed htask
  | pulled pull attempt =>
      simp only [step] at hs
      split at hs
      · rename_i htask
        split at hs <;> cases hs
        · exact .pulled htask
        · exact .failed htask
      · cases hs
  | advance order removal =>
      obtain ⟨i, call, updated, routing, stage, htask, hcall, hset, hadv, hgo⟩ :=
        advance_cases hs hinv
      rcases hgo with ⟨hset', rfl⟩ | ⟨result, rfl, rfl⟩
      · exact .advanced htask hcall hset hadv hset'
      · rw [afterSet_some]
        exact .finished htask hcall hset hadv

/-! ## The turns that the pieces make -/

/-- What a step has logged. -/
def logs (p q : Process) : Option String :=
  (q.log.drop p.log.length).head?

/-- The turn that a step finishes. -/
def emit (p : Process) (a : ProcessAction) (q : Process) : Option Turn :=
  match a with
  | .pulled (.error e) attempt => some { pull := .error e, attempt, logged := p.logs q }
  | .advance .. =>
      match p.task, q.task with
      | .setting i, .upgrading =>
          (p.topology.calls[i]?).bind fun call =>
            call.stage.updatedPeers?.map fun instances =>
              { pull := .ok instances, attempt := call.attempt, logged := p.logs q }
      | _, _ => none
  | _ => none

/-- The table and the log are those of the turns so far; a call of `set_peers`
under way has the table as it found it. -/
structure AtTurn (p : Process) (now : RoutingState × List String) : Prop where
  inv : p.Inv
  routing : p.topology.routing = now.1
  log : p.log = now.2
  fresh : ∀ i call, p.task = .setting i → p.topology.calls[i]? = some call →
    call.stage.Fresh Set.univ now.1 call.attempt ∧ ∀ p, call.attempt p ≠ .panicked

variable {now : RoutingState × List String} {turn : Turn}

theorem logs_eq {o : Option String} (h : q.log = p.log ++ o.toList) : p.logs q = o := by
  rw [logs, h, List.drop_left']
  · cases o <;> rfl
  · rfl

theorem AtTurn.build (me : GroupcachePeer) :
    (Process.build me).AtTurn (.withLocalPeer me, []) where
  inv := .build
  routing := rfl
  log := rfl
  fresh i call h := by cases h

/-- A piece leaves the table and the log as they are, or finishes a turn. -/
theorem AtTurn.step (h : p.AtTurn now) (hguard : p.Undisturbed a) (hs : p.step a = some q) :
    (p.emit a q = none ∧ q.AtTurn now) ∨
      ∃ turn next, p.emit a q = some turn ∧ turn.Next now next ∧ q.AtTurn next := by
  have hinv := h.inv.step hs
  cases step_piece hs h.inv hguard with
  | held ha =>
      refine .inl ⟨?_, hinv, h.routing, h.log, h.fresh⟩
      rcases ha with rfl | rfl <;> rfl
  | upgraded htask | gone htask | elapsed htask =>
      exact .inl ⟨rfl, hinv, h.routing, h.log, fun i call hi => by cases hi⟩
  | @failed e attempt htask =>
      refine .inr ⟨_, (now.1, p.log ++ [s!"Error during when refreshing instances: {e}"]), rfl,
        ⟨fun _ => (now.1, none), fun _ hi => (by cases hi), hguard, ?_, ?_⟩,
        hinv, h.routing, rfl, fun i call hi => by cases hi⟩
      · rw [logs_eq (o := some s!"Error during when refreshing instances: {e}") rfl]
        rfl
      · rw [logs_eq (o := some s!"Error during when refreshing instances: {e}") rfl, h.log]
        rfl
  | pulled htask =>
      refine .inl ⟨rfl, hinv, h.routing, h.log, fun i call hi hcall => ?_⟩
      cases hi
      cases List.getElem?_concat_length.symm.trans hcall
      exact ⟨Set.subset_univ _, hguard⟩
  | @advanced order removal i call updated routing stage htask hcall hset hadv hset' =>
      obtain ⟨hfresh, hends⟩ := h.fresh i call htask hcall
      rw [h.routing] at hadv
      rcases Stage.advance_turn hset hfresh hadv with ⟨hsame, _, hfresh'⟩ | ⟨r, _, hret⟩
      · refine .inl ⟨by simp [emit, htask], hinv, hsame, h.log, fun j d hj hd => ?_⟩
        obtain rfl : i = j := TaskPhase.setting.inj (htask.symm.trans hj)
        cases (Table.set_self hcall).symm.trans hd
        exact ⟨hfresh', hends⟩
      · rw [hret] at hset'
        cases hset'
  | @finished order removal i call updated routing result htask hcall hset hadv =>
      obtain ⟨hfresh, hends⟩ := h.fresh i call htask hcall
      rw [h.routing] at hadv
      rcases Stage.advance_turn hset hfresh hadv with ⟨_, hset', _⟩ | ⟨r, hrouting, hret⟩
      · cases hset'
      · have hresult : (r.outcome call.attempt).2 = some result :=
          (Stage.returned.inj hret).symm
        refine .inr ⟨{ pull := .ok updated, attempt := call.attempt
                       logged := setPeersLog (some result) },
          (routing, p.log ++ (setPeersLog (some result)).toList), ?_, ?_,
          hinv, rfl, rfl, fun j d hj => by cases hj⟩
        · simp only [emit, htask, hcall, hset, Option.bind_some, Option.map_some]
          rw [logs_eq rfl]
        · refine ⟨fun _ => r.outcome call.attempt, fun instances hi => ?_, hends, ?_, ?_⟩
          · cases hi
            exact ⟨r, rfl⟩
          · rw [discoveryTurn_setPeers, hresult, hrouting]
          · rw [h.log]

/-- **The pieces make turns.** -/
theorem simulates_turns :
    Simulates Process.step Process.Undisturbed Process.emit Turn.Next Process.AtTurn where
  silent := by
    intro p q now a h hguard hs hnone
    rcases h.step hguard hs with ⟨_, hq⟩ | ⟨turn, next, hemit, _⟩
    · exact hq
    · cases hnone.symm.trans hemit
  event := by
    intro p q now a turn h hguard hs hsome
    rcases h.step hguard hs with ⟨hnone, _⟩ | ⟨turn', next, hemit, hnext, hq⟩
    · cases hnone.symm.trans hsome
    · cases hemit.symm.trans hsome
      exact ⟨next, hnext, hq⟩

/-! ## The task's calls -/

/-- Only the call that the task awaits is in progress. -/
def Solo (p : Process) : Prop :=
  ∀ (i : Nat) call, p.topology.calls[i]? = some call →
    (∃ result, call.stage = .returned result) ∨ p.task = .setting i

theorem Solo.build (me : GroupcachePeer) : (Process.build me).Solo := by
  intro i call hcall
  simp [Process.build, Topology.start] at hcall

/-- When the task awaits no call, none is in progress. -/
theorem Solo.idle (h : p.Solo) (htask : ∀ i, p.task ≠ .setting i) : p.topology.Idle := by
  intro call hcall
  obtain ⟨i, hi⟩ := List.getElem?_of_mem hcall
  exact (h i call hi).resolve_right (htask i)

theorem Solo.others (h : p.Solo) {i j : Nat} {call : TopologyCall} (htask : p.task = .setting i)
    (hj : j ≠ i) (hcall : p.topology.calls[j]? = some call) :
    ∃ result, call.stage = .returned result := by
  refine (h j call hcall).resolve_right fun hi => hj ?_
  exact TaskPhase.setting.inj (hi.symm.trans htask)

theorem Piece.solo (m : p.Piece a q) (h : p.Solo) : q.Solo := by
  cases m with
  | held => exact h
  | upgraded htask | gone htask | elapsed htask | failed htask =>
      intro i call hcall
      exact .inl (h.idle (by simp [htask]) call (List.mem_of_getElem? hcall))
  | pulled htask =>
      intro i call hcall
      rcases Table.append_cases hcall with hcall | ⟨rfl, _⟩
      · exact .inl (h.idle (by simp [htask]) call (List.mem_of_getElem? hcall))
      · exact .inr rfl
  | advanced htask =>
      intro j c hc
      rcases Table.set_cases hc with ⟨rfl, _⟩ | ⟨hj, hc⟩
      · exact .inr htask
      · exact .inl (h.others htask hj hc)
  | finished htask =>
      intro j c hc
      rcases Table.set_cases hc with ⟨_, rfl⟩ | ⟨hj, hc⟩
      · exact .inl ⟨_, rfl⟩
      · exact .inl (h.others htask hj hc)

/-- **The task's calls run alone.** -/
theorem Piece.alone {U : Set GroupcachePeer} (m : p.Piece a q) (h : p.Solo)
    (hpulls : a.Pulls fun instances => ∀ p ∈ instances, p ∈ U) :
    q.topology = p.topology ∨
      ∃ action, p.topology.Alone U action ∧ p.topology.step action = some q.topology := by
  cases m with
  | held => exact .inl rfl
  | upgraded | gone | elapsed | failed => exact .inl rfl
  | @pulled instances attempt htask =>
      exact .inr ⟨.begin (.setPeers instances) attempt, ⟨hpulls, h.idle (by simp [htask])⟩, rfl⟩
  | @advanced order removal i call updated routing stage htask hcall hset hadv =>
      exact .inr ⟨.advance i order removal, trivial, by simp [Topology.step, hcall, hadv]⟩
  | @finished order removal i call updated routing result htask hcall hset hadv =>
      exact .inr ⟨.advance i order removal, trivial, by simp [Topology.step, hcall, hadv]⟩

/-! ## What the pulls keep -/

variable {M : Finset GroupcachePeer} {me : GroupcachePeer}

/-- The set that the task has handed to `set_peers`, which it awaits. -/
def sets? (p : Process) : Option (Finset GroupcachePeer) :=
  match p.task with
  | .setting i => (p.topology.calls[i]?).bind fun call => call.stage.updatedPeers?
  | _ => none

/-- The node knows the members, and the set that its task hands to
`set_peers` lists them, with the node itself or without it. -/
structure Keeps (M : Finset GroupcachePeer) (me : GroupcachePeer) (p : Process) : Prop where
  members : p.topology.routing.members me = M
  setting : ∀ updated, p.sets? = some updated → insert me updated = M

theorem sets?_eq {i : Nat} {call : TopologyCall} (htask : p.task = .setting i)
    (hcall : p.topology.calls[i]? = some call) : p.sets? = call.stage.updatedPeers? := by
  simp [sets?, htask, hcall]

theorem Piece.keeps (m : p.Piece a q) (hat : p.AtTurn now) (h : p.Keeps M me)
    (hpulls : a.Pulls fun instances => insert me instances = M) : q.Keeps M me := by
  cases m with
  | held => exact ⟨h.members, h.setting⟩
  | upgraded | gone | elapsed | failed => exact ⟨h.members, nofun⟩
  | pulled htask =>
      refine ⟨h.members, fun updated hset => ?_⟩
      rw [sets?_eq rfl List.getElem?_concat_length] at hset
      cases hset
      exact hpulls
  | @advanced order removal i call updated routing stage htask hcall hset hadv hset' =>
      have hlists := h.setting updated ((sets?_eq htask hcall).trans hset)
      obtain ⟨hfresh, _⟩ := hat.fresh i call htask hcall
      rw [hat.routing] at hadv
      rcases Stage.advance_turn hset hfresh hadv with ⟨hsame, _, _⟩ | ⟨r, _, hret⟩
      · refine ⟨?_, fun updated' hset₂ => ?_⟩
        · rw [hsame, ← hat.routing]
          exact h.members
        · have hsets := sets?_eq (p := { p with topology :=
            { routing, calls := p.topology.calls.set i { call with stage } } })
            htask (Table.set_self hcall)
          cases (hset₂.symm.trans hsets).trans hset'
          exact hlists
      · rw [hret] at hset'
        cases hset'
  | @finished order removal i call updated routing result htask hcall hset hadv =>
      have hlists := h.setting updated ((sets?_eq htask hcall).trans hset)
      obtain ⟨hfresh, hends⟩ := hat.fresh i call htask hcall
      rw [hat.routing] at hadv
      refine ⟨?_, nofun⟩
      rcases Stage.advance_turn hset hfresh hadv with ⟨_, hset', _⟩ | ⟨r, hrouting, _⟩
      · cases hset'
      · rw [hrouting]
        exact r.members_eq hends (hat.routing ▸ h.members) hlists

end Process

/-! ## The loop -/

def Tick.met (tick : Tick) :
    Except String (Finset GroupcachePeer) × (GroupcachePeer → ConnectOutcome) :=
  (tick.pull, tick.attempt)

def Turn.met (turn : Turn) :
    Except String (Finset GroupcachePeer) × (GroupcachePeer → ConnectOutcome) :=
  (turn.pull, turn.attempt)

/-- A turn has failed in its pull, or in a connection that it has attempted. -/
def Turn.Fails (turn : Turn) (made : List GroupcachePeer) : Prop :=
  (∃ e, turn.pull = .error e) ∨ ∃ p ∈ made, (turn.attempt p).succeeds = false

/-- A call of `set_peers` is logged if one of its attempts fails. -/
theorem SetPeersRun.logged_iff {s : RoutingState} {instances : Finset GroupcachePeer}
    {attempt : GroupcachePeer → ConnectOutcome} (r : SetPeersRun s instances)
    (hends : ∀ p, attempt p ≠ .panicked) :
    (setPeersLog (r.outcome attempt).2).isSome ↔
      ∃ p ∈ r.attempted, (attempt p).succeeds = false := by
  have hnone : ∀ p ∈ s.newPeers instances, attempt p ≠ .panicked := fun p _ => hends p
  have hmem : ∀ p, p ∈ r.attempted ↔ p ∈ s.newPeers instances := fun p =>
    r.enumerates_attempted.mem_iff
  have hok := r.failures_isEmpty_iff hnone
  rw [r.outcome_snd hnone]
  by_cases hempty : (failures attempt r.finished).isEmpty = true
  · simp only [if_pos hempty, setPeersLog, Option.isSome_none, Bool.false_eq_true, false_iff]
    rintro ⟨p, hp, hfail⟩
    rw [hok.mp hempty p ((hmem p).mp hp)] at hfail
    cases hfail
  · simp only [if_neg hempty, setPeersLog, Option.isSome_some, true_iff]
    rw [hok] at hempty
    obtain ⟨p, hfail⟩ := not_forall.mp hempty
    obtain ⟨hp, hfail⟩ := Classical.not_imp.mp hfail
    exact ⟨p, (hmem p).mpr hp, Bool.eq_false_iff.mpr hfail⟩

/-- What the turns have come to. -/
structure Turn.Discovers (me : GroupcachePeer) (turns : List Turn) (s : RoutingState)
    (log : List String) (ticks : List Tick) (attempts : List (List GroupcachePeer)) : Prop where
  met : ticks.map Tick.met = turns.map Turn.met
  run : DiscoveryRun me ticks s attempts
  log : log = turns.filterMap Turn.logged
  /-- Each turn logs what has failed, if anything has. -/
  logged : ∀ (k : Nat) turn made, turns[k]? = some turn → attempts[k]? = some made →
    (turn.logged.isSome ↔ turn.Fails made)

theorem Turn.Discovers.next {me : GroupcachePeer} {turns : List Turn} {turn : Turn}
    {now next : RoutingState × List String} {ticks : List Tick}
    {attempts : List (List GroupcachePeer)}
    (h : Turn.Discovers me turns now.1 now.2 ticks attempts) (hnext : turn.Next now next) :
    ∃ tick made, Turn.Discovers me (turns ++ [turn]) next.1 next.2 (ticks ++ [tick])
      (attempts ++ [made]) := by
  obtain ⟨setPeers, hset, hends, hturn, hlog⟩ := hnext
  have hlen : attempts.length = turns.length := by
    rw [h.run.length_attempts, ← List.length_map, h.met, List.length_map]
  -- one more turn, with the attempts it has made
  have concat : ∀ made : List GroupcachePeer, (turn.logged.isSome ↔ turn.Fails made) →
      DiscoveryRun me (ticks ++ [⟨turn.pull, turn.attempt, hends⟩]) next.1 (attempts ++ [made]) →
      ∃ tick made, Turn.Discovers me (turns ++ [turn]) next.1 next.2 (ticks ++ [tick])
        (attempts ++ [made]) := by
    intro made hlogged hrun
    refine ⟨_, made, ?_, hrun, ?_, ?_⟩
    · rw [List.map_append, List.map_append, h.met]
      rfl
    · rw [hlog, h.log, List.filterMap_append]
      cases turn with
      | mk pull attempt logged => cases logged <;> rfl
    · intro k x made' hk hmade
      rcases Table.append_cases₂ hlen hk hmade with ⟨hk, hmade⟩ | ⟨_, rfl, rfl⟩
      · exact h.logged k x made' hk hmade
      · exact hlogged
  cases hpull : turn.pull with
  | error e =>
      have hrun : DiscoveryRun me (ticks ++ [⟨turn.pull, turn.attempt, hends⟩])
          (discoveryTurn now.1 turn.pull setPeers).1 (attempts ++ [[]]) :=
        .failed setPeers h.run hpull
      rw [hturn] at hrun
      refine concat [] ?_ hrun
      rw [hpull] at hturn
      rw [← (Prod.mk.inj hturn).2]
      simp [Turn.Fails, hpull]
  | ok instances =>
      obtain ⟨r, hr⟩ := hset instances hpull
      have hrun : DiscoveryRun me (ticks ++ [⟨turn.pull, turn.attempt, hends⟩])
          (discoveryTurn now.1 turn.pull fun _ => r.outcome turn.attempt).1
          (attempts ++ [r.attempted]) :=
        .pulled r h.run hpull
      have hout : discoveryTurn now.1 (.ok instances) (fun _ => r.outcome turn.attempt)
          = (next.1, turn.logged) := by
        rw [← hturn, hpull, discoveryTurn_setPeers, discoveryTurn_setPeers, hr]
      rw [hpull, hout] at hrun
      refine concat r.attempted ?_ (hpull ▸ hrun)
      rw [discoveryTurn_setPeers] at hout
      rw [← (Prod.mk.inj hout).2, r.logged_iff hends, Turn.Fails, hpull]
      simp

/-- What a run of turns comes to. -/
theorem Turn.discovers_of_runs {me : GroupcachePeer} {turns : List Turn}
    {now : RoutingState × List String}
    (h : Runs Turn.Next (RoutingState.withLocalPeer me, []) turns now) :
    ∃ ticks attempts, Turn.Discovers me turns now.1 now.2 ticks attempts := by
  induction h with
  | refl => exact ⟨[], [], rfl, .start, rfl, nofun⟩
  | tail turn _ hnext ih =>
      obtain ⟨ticks, attempts, hdisc⟩ := ih
      obtain ⟨tick, made, hdisc'⟩ := hdisc.next hnext
      exact ⟨_, _, hdisc'⟩

/-- **The discovery task does what the loop says**, however its pieces are
interleaved with what else runs: after any turns the node knows the peers that
these have pulled and connected to, and the log has the turns that failed. -/
theorem discovery_turns {me : GroupcachePeer} {turns : List Turn} {p : Process}
    (h : Emits Process.step Process.Undisturbed Process.emit (.build me) turns p) :
    ∃ ticks attempts, Turn.Discovers me turns p.topology.routing p.log ticks attempts ∧
      ∀ q, q ∈ p.topology.routing.peers ↔ KnownAfter ticks q := by
  obtain ⟨now, hruns, hat⟩ := Process.simulates_turns.runs (.build me) h
  obtain ⟨ticks, attempts, hdisc⟩ := Turn.discovers_of_runs hruns
  rw [hat.routing, hat.log]
  exact ⟨ticks, attempts, hdisc, hdisc.run.mem_iff⟩

omit [Platform] in
/-- A pull fails, and the next finds a peer. -/
theorem discovery_turns_sample :
    let _ : Platform := Concrete.platform []
    let me := Concrete.node 8001
    let other := Concrete.node 8002
    let turns : List Turn :=
      [{ pull := .error "timeout", attempt := fun _ => .connected 0
         logged := some "Error during when refreshing instances: timeout" },
       { pull := .ok {other}, attempt := fun _ => .connected 0, logged := none }]
    ∃ (p : Process) (ticks : List Tick) (attempts : List (List GroupcachePeer)),
      Turn.Discovers me turns p.topology.routing p.log ticks attempts ∧
        other ∈ p.topology.routing.peers := by
  intro _ me other turns
  obtain ⟨ticks, attempts, hdisc, _⟩ := @discovery_turns _ me _ _ <|
    .head (a := .upgrade) (by trivial) rfl rfl <|
    .head (a := .elapsed) (by trivial) rfl rfl <|
    .head (a := .pulled (.error "timeout") fun _ => .connected 0) (by exact nofun) rfl rfl <|
    .head (a := .upgrade) (by trivial) rfl rfl <|
    .head (a := .elapsed) (by trivial) rfl rfl <|
    .head (a := .pulled (.ok {other}) fun _ => .connected 0) (by exact nofun) rfl rfl <|
    .head (a := .advance [] []) (by trivial) rfl rfl <|
    .head (a := .advance [other] []) (by trivial) rfl rfl <|
    .head (a := .advance [] []) (by trivial) rfl rfl .refl
  exact ⟨_, ticks, attempts, hdisc, by decide⟩

end Groupcache
