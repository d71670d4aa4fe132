import Groupcache.Lib.Table
import Groupcache.Lib.Transition
import Groupcache.Topology.Serial

/-!
# Split calls that run alone

Where each topology call begins only when the calls before it have returned,
its pieces see the table as its first one found it, and what they write is
what the call writes that runs in one go. So a table that such pieces lead to
is one that calls lead to (`Topology.AloneInv.reachable`).
-/

namespace Groupcache

open Transition

variable [Platform] {U : Set GroupcachePeer} {me : GroupcachePeer}

/-- Every call has returned. -/
def Topology.Idle (t : Topology) : Prop :=
  ∀ call ∈ t.calls, ∃ result, call.stage = .returned result

/-- A call begins only when the calls before it have returned. -/
def Topology.Alone (U : Set GroupcachePeer) (t : Topology) : TopologyAction → Prop
  | .begin op _ => op.peers ⊆ U ∧ t.Idle
  | .advance .. => True

instance (t : Topology) : Decidable t.Idle :=
  inferInstanceAs (Decidable (∀ call ∈ t.calls, ∃ result, call.stage = .returned result))

instance (U : Set GroupcachePeer) [DecidablePred (· ∈ U)] (t : Topology) (a : TopologyAction) :
    Decidable (t.Alone U a) :=
  match a with
  | .begin op _ => inferInstanceAs (Decidable (op.peers ⊆ U ∧ t.Idle))
  | .advance .. => isTrue trivial

/-- The call at this stage has the table as it found it, and holds what its
pieces so far make of it. -/
def Stage.Fresh (U : Set GroupcachePeer) (s : RoutingState)
    (attempt : GroupcachePeer → ConnectOutcome) : Stage → Prop
  | .called op => op.peers ⊆ U
  | .addConnecting p => p ∈ U ∧ p ∉ s.peers
  | .addWriting p client => p ∈ U ∧ p ∉ s.peers ∧
      ∃ channel, attempt p = .connected channel ∧ client = { socket := p.socket, channel }
  | .setConnecting updated current => (∀ p ∈ updated, p ∈ U) ∧ current = s.peerSet
  | .setWriting updated current results removal => (∀ p ∈ updated, p ∈ U) ∧
      current = s.peerSet ∧ ∃ order, Enumerates order (updated \ current) ∧
        Enumerates removal (current \ updated) ∧
        connectToNewPeers attempt order = .ok results ∧
        (removal.isEmpty && results.isEmpty) = false
  | .removeWriting p => p ∈ U ∧ p ∈ s.peers
  | .returned _ => True

/-- **A piece of a fresh call** leaves the table and the call fresh, or
leaves the table as the whole call does. -/
theorem Stage.Fresh.advance {s s' : RoutingState} {st st' : Stage}
    {attempt : GroupcachePeer → ConnectOutcome} {order removal : List GroupcachePeer}
    (h : st.Fresh U s attempt) (ha : st.advance s attempt order removal = some (s', st')) :
    (s' = s ∧ st'.Fresh U s attempt) ∨
      ∃ op order removal result, op.peers ⊆ U ∧ TopologyOp.Schedule s.peerSet order removal op ∧
        s' = (op.complete s attempt order removal).1 ∧ st' = .returned result := by
  cases st with
  | called op =>
      cases op with
      | addPeer p =>
          simp only [Stage.advance] at ha
          split at ha <;> cases ha
          · exact .inl ⟨rfl, trivial⟩
          · rename_i hp
            exact .inl ⟨rfl, h rfl, fun hmem => hp (RoutingState.containsPeer_iff.mpr hmem)⟩
      | setPeers updated =>
          cases ha
          exact .inl ⟨rfl, h, rfl⟩
      | removePeer p =>
          simp only [Stage.advance] at ha
          split at ha <;> cases ha
          · rename_i hp
            exact .inl ⟨rfl, h rfl, RoutingState.containsPeer_iff.mp hp⟩
          · exact .inl ⟨rfl, trivial⟩
  | addConnecting p =>
      cases hp : attempt p with
      | connected channel =>
          simp only [Stage.advance, hp, connectStatic] at ha
          cases ha
          exact .inl ⟨rfl, h.1, h.2, channel, hp, rfl⟩
      | failed e =>
          simp only [Stage.advance, hp, connectStatic] at ha
          cases ha
          exact .inl ⟨rfl, trivial⟩
      | panicked =>
          simp only [Stage.advance, hp, connectStatic] at ha
          cases ha
          exact .inl ⟨rfl, trivial⟩
  | addWriting p client =>
      obtain ⟨hU, hp, channel, hattempt, rfl⟩ := h
      cases ha
      refine .inr ⟨.addPeer p, [], [], _, by simpa [TopologyOp.peers] using hU, trivial, ?_, rfl⟩
      simp [TopologyOp.complete, Groupcache.addPeer, hp, hattempt, connectStatic]
  | setConnecting updated current =>
      simp only [Stage.advance] at ha
      split at ha
      · rename_i hsched
        split at ha
        · cases ha
          exact .inl ⟨rfl, trivial⟩
        · rename_i results hc
          split at ha <;> cases ha
          · exact .inl ⟨rfl, trivial⟩
          · rename_i hempty
            exact .inl ⟨rfl, h.1, h.2, order, hsched.1, hsched.2, hc,
              Bool.eq_false_iff.mpr hempty⟩
      · cases ha
  | setWriting updated current results removal' =>
      obtain ⟨hU, rfl, order', horder, hremoval, hc, hempty⟩ := h
      cases ha
      refine .inr ⟨.setPeers updated, order', removal', _, hU, ⟨horder, hremoval⟩, ?_, rfl⟩
      simp only [TopologyOp.complete, Groupcache.setPeers, hc, hempty]
      rfl
  | removeWriting p =>
      cases ha
      refine .inr ⟨.removePeer p, [], [], _, by simpa [TopologyOp.peers] using h.1, trivial, ?_,
        rfl⟩
      simp [TopologyOp.complete, Groupcache.removePeer, h.2]
  | returned result => cases ha

/-- Calls have led to the table, and at most one is in progress, fresh. -/
structure Topology.AloneInv (U : Set GroupcachePeer) (me : GroupcachePeer) (t : Topology) :
    Prop where
  reachable : SerialReachable U me t.routing
  fresh : ∀ (i : Nat) call, t.calls[i]? = some call →
    (∃ result, call.stage = .returned result) ∨
      (call.stage.Fresh U t.routing call.attempt ∧
        ∀ (j : Nat) c, j ≠ i → t.calls[j]? = some c → ∃ result, c.stage = .returned result)

namespace Topology

theorem AloneInv.start : AloneInv U me (start me) where
  reachable := .withLocalPeer
  fresh i call hcall := by simp [Topology.start] at hcall

theorem AloneInv.step {t t' : Topology} {a : TopologyAction} (h : AloneInv U me t)
    (halone : t.Alone U a) (hs : t.step a = some t') : AloneInv U me t' := by
  rcases step_cases hs with ⟨op, attempt, rfl, rfl⟩ |
    ⟨i, order, removal, call, routing, stage, rfl, hcall, hadv, rfl⟩
  · obtain ⟨hop, hidle⟩ := halone
    refine ⟨h.reachable, fun i c hc => ?_⟩
    rcases Table.append_cases hc with hc | ⟨hi, rfl⟩
    · exact .inl (hidle c (List.mem_of_getElem? hc))
    · refine .inr ⟨hop, fun j d hj hd => ?_⟩
      rcases Table.append_cases hd with hd | ⟨hjlast, _⟩
      · exact hidle d (List.mem_of_getElem? hd)
      · exact absurd (hjlast.trans hi.symm) hj
  · -- the call that steps has not returned, so the others have
    obtain ⟨hfresh, hothers⟩ : call.stage.Fresh U t.routing call.attempt ∧
        ∀ (j : Nat) c, j ≠ i → t.calls[j]? = some c → ∃ result, c.stage = .returned result := by
      refine (h.fresh i call hcall).resolve_left ?_
      rintro ⟨result, hret⟩
      rw [hret] at hadv
      cases hadv
    -- it goes on with the table unchanged, or writes and returns
    rcases hfresh.advance hadv with ⟨rfl, hst⟩ |
      ⟨op, order', removal', result, hop, hsched, rfl, rfl⟩
    · refine ⟨h.reachable, fun j c hc => ?_⟩
      rcases Table.set_cases hc with ⟨rfl, rfl⟩ | ⟨hj, hc⟩
      · refine .inr ⟨hst, fun k d hk hd => ?_⟩
        rcases Table.set_cases hd with ⟨rfl, _⟩ | ⟨_, hd⟩
        · exact absurd rfl hk
        · exact hothers k d hk hd
      · exact .inl (hothers j c hj hc)
    · refine ⟨.call op call.attempt order' removal' h.reachable hop hsched, fun j c hc => ?_⟩
      rcases Table.set_cases hc with ⟨rfl, rfl⟩ | ⟨hj, hc⟩
      · exact .inl ⟨result, rfl⟩
      · exact .inl (hothers j c hj hc)

/-- **Split calls that run alone reach what whole calls reach.** -/
theorem reachable_of_alone {t : Topology}
    (h : Reaches Topology.step (Topology.Alone U) (start me) t) :
    SerialReachable U me t.routing :=
  (h.invariant (I := AloneInv U me) .start fun _ _ _ hi ha hs => hi.step ha hs).reachable

end Topology

end Groupcache
