import Groupcache.Cluster.Draining

/-!
# What a `remove` fails with (`errors.rs`, `http.rs`)

A `remove` has no other way to go when a peer does not answer: it fails, and
the handler hands its error on as a status, which the node that asked prints
into an error of its own. While topology calls do not overlap on a node
nothing else makes it fail: each error is the status of a request that was
lost, printed once for each node on the way back (`remove_fails_by_loss`).
-/

namespace Groupcache

open Transition

variable [Platform] {Value : Type} [ValueBounds Value] {c c' : Cluster Value}
  {a : Action Value} {peers : Finset GroupcachePeer} {lost : Set Status}

/-! ## Errors on their way back -/

/-- A request was lost with a status, and so many handlers have handed the
error on. -/
inductive LossError (lost : Set Status) : Nat → InternalGroupcacheError → Prop where
  | lost {status : Status} : status ∈ lost → LossError lost 0 (.transport status)
  | relayed {relays : Nat} {e : InternalGroupcacheError} : LossError lost relays e →
      LossError lost (relays + 1) (.transport (.internal (e.display Platform.debug)))

/-- A message inside so many errors. -/
def relayedText : Nat → String → String
  | 0, message => message
  | relays + 1, message => s!"Transport error: '{relayedText relays message}'"

theorem LossError.display_eq {relays : Nat} {e : InternalGroupcacheError}
    (h : LossError lost relays e) : ∃ status ∈ lost,
      e.display Platform.debug = relayedText (relays + 1) status.message := by
  induction h with
  | @lost status hmem => exact ⟨status, hmem, rfl⟩
  | @relayed relays e _ ih =>
      obtain ⟨status, hmem, htext⟩ := ih
      refine ⟨status, hmem, ?_⟩
      show s!"Transport error: '{e.display Platform.debug}'" = _
      rw [htext]
      rfl

/-- What a caller makes of a callee's result. -/
theorem removeRemotely_respondRemove {result : RemoveResult} {e : InternalGroupcacheError}
    (h : removeRemotely (respondRemove result) = .error e) :
    ∃ inner, result = .error inner ∧ e = .transport (.internal (inner.display Platform.debug)) := by
  cases result with
  | ok => cases h
  | error inner =>
      cases h
      exact ⟨inner, rfl, rfl⟩

/-! ## The invariant -/

/-- Requests of `remove` are lost with these statuses alone. -/
def LosesWith (lost : Set Status) : Action Value → Prop
  | .failRemove _ status => status ∈ lost
  | _ => True

/-- The errors of `remove`: none has come from farther than its node can forward. -/
def Cluster.LossErrors (peers : Finset GroupcachePeer) (lost : Set Status)
    (c : Cluster Value) : Prop :=
  ∀ (i : Nat) (r : RemoveCall) e, c.removes[i]? = some r → r.phase = .returned (.error e) →
    ∃ relays, LossError lost relays e ∧ relays < hops peers r.key r.node

/-- The call whose answer is awaited is at a node that forwards less often. -/
theorem Cluster.Live.awaited (h : c.Live (peers : Set GroupcachePeer)) {i j : Nat}
    {r : RemoveCall} (hr : c.removes[i]? = some r) (hp : r.phase = .awaiting j) :
    ∃ callee, c.removes[j]? = some callee ∧
      hops peers callee.key callee.node < hops peers r.key r.node := by
  obtain ⟨callee, hcallee, horigin⟩ := h.removes.awaiting i r j hr hp
  obtain ⟨hmem, hcallers⟩ := h.forwarding.removes j callee hcallee
  obtain ⟨caller, hcaller, hk, hlt⟩ := hcallers i horigin
  obtain rfl : r = caller := Option.some.inj (hr.symm.trans hcaller)
  refine ⟨callee, hcallee, ?_⟩
  rw [hk]
  exact Descent.rank_lt (Finset.mem_coe.mp hmem) hlt

theorem Cluster.LossErrors.step (h : c.LossErrors peers lost)
    (hlive : c.Live (peers : Set GroupcachePeer))
    (hU : Addressable (peers : Set GroupcachePeer)) (hloses : LosesWith lost a)
    (hs : c.step a = some c') : c'.LossErrors peers lost := by
  intro i r e hr hp
  cases Cluster.step_move hs with
  | remove node key =>
      rcases Table.append_cases hr with hr | ⟨_, rfl⟩
      · exact h i r e hr hp
      · cases hp
  | @removeStep j x x' hx hstep =>
      rcases Table.set_cases hr with ⟨rfl, rfl⟩ | ⟨_, hr⟩
      · cases hstep with
        | unrouted hroute =>
            -- its lookup has resolved
            obtain ⟨found, hl, hres⟩ :=
              hlive.forwarding.resolves hU (hlive.forwarding.removes i x hx).1 x.key
            rcases Cluster.step_resolved hx hroute hl hres hs (Table.set_self hx) with
              hp' | ⟨k, hp'⟩ <;> cases hp'
        | @answered request callee result hwait hcallee hret =>
            obtain ⟨inner, rfl, rfl⟩ :=
              removeRemotely_respondRemove (RemovePhase.returned.inj hp)
            obtain ⟨callee', hcallee', hlt⟩ := hlive.awaited hx hwait
            obtain rfl : callee = callee' := Option.some.inj (hcallee.symm.trans hcallee')
            obtain ⟨relays, hloss, hle⟩ := h request callee inner hcallee hret
            exact ⟨relays + 1, .relayed hloss, Nat.lt_of_le_of_lt hle hlt⟩
        | _ => cases hp
      · exact h i r e hr hp
  | lostRemove status hx hwait =>
      rcases Table.set_cases hr with ⟨rfl, rfl⟩ | ⟨_, hr⟩
      · cases hp
        obtain ⟨callee, _, hlt⟩ := hlive.awaited hx hwait
        exact ⟨0, .lost hloses, Nat.zero_lt_of_lt hlt⟩
      · exact h i r e hr hp
  | clearHot hx =>
      rcases Table.set_cases hr with ⟨rfl, rfl⟩ | ⟨_, hr⟩
      · cases hp
      · exact h i r e hr hp
  | clearMain hx =>
      rcases Table.set_cases hr with ⟨rfl, rfl⟩ | ⟨_, hr⟩
      · cases hp
      · exact h i r e hr hp
  | sendRemove hx =>
      rcases Table.append_cases hr with hr | ⟨_, rfl⟩
      · rcases Table.set_cases hr with ⟨rfl, rfl⟩ | ⟨_, hr⟩
        · cases hp
        · exact h i r e hr hp
      · cases hp
  | _ => exact h i r e hr hp

/-! ## The result -/

/-- What a `remove` can come to, where requests are lost with the statuses of
`lost`. -/
structure Cluster.RemovesFailByLoss (peers : Finset GroupcachePeer) (lost : Set Status)
    (c : Cluster Value) : Prop where
  failed : ∀ (i : Nat) (r : RemoveCall) e, c.removes[i]? = some r →
    r.phase = .returned (.error e) → ∃ status ∈ lost, ∃ relays, relays + 1 < peers.card ∧
      e.display Platform.debug = relayedText (relays + 1) status.message
  lossless : lost = ∅ → ∀ (i : Nat) (r : RemoveCall) result, c.removes[i]? = some r →
    r.phase = .returned result → result = .ok ()
  panics : ∀ (i : Nat) (r : RemoveCall) message, c.removes[i]? = some r →
    r.phase ≠ .panicked message

/-- **A `remove` fails by a loss alone**, whatever the nodes know of each
other, and its text holds the status lost. -/
theorem remove_fails_by_loss (hU : Addressable (peers : Set GroupcachePeer))
    (h : Reaches Cluster.step
      (fun c a => SerialTopology (peers : Set GroupcachePeer) c a ∧ LosesWith lost a)
      (.start .withLocalPeer) c) : c.RemovesFailByLoss peers lost := by
  have hlive : c.Live peers := Cluster.reaches_live hU (h.mono fun _ _ hg => hg.1)
  have herrors : c.Live (peers : Set GroupcachePeer) ∧ c.LossErrors peers lost := by
    refine h.invariant (I := fun c => c.Live (peers : Set GroupcachePeer) ∧ c.LossErrors peers lost)
      ⟨⟨.start, .start, .start⟩, fun i r e hr => by simp [Cluster.start] at hr⟩ ?_
    rintro s t a ⟨hlive, herrors⟩ ⟨hserial, hloses⟩ hs
    exact ⟨hlive.step hU hserial hs, herrors.step hlive hU hloses hs⟩
  have hfailed : ∀ (i : Nat) (r : RemoveCall) e, c.removes[i]? = some r →
      r.phase = .returned (.error e) → ∃ status ∈ lost, ∃ relays, relays + 1 < peers.card ∧
        e.display Platform.debug = relayedText (relays + 1) status.message := by
    intro i r e hr hp
    obtain ⟨relays, hloss, hlt⟩ := herrors.2 i r e hr hp
    obtain ⟨status, hmem, htext⟩ := hloss.display_eq
    have hcard : hops peers r.key r.node < peers.card :=
      Descent.rank_lt_card (Finset.mem_coe.mp (hlive.forwarding.removes i r hr).1)
    exact ⟨status, hmem, relays, by omega, htext⟩
  constructor
  case failed => exact hfailed
  case lossless =>
    rintro rfl i r result hr hp
    cases result with
    | ok => rfl
    | error e =>
        obtain ⟨_, hmem, _⟩ := hfailed i r e hr hp
        cases hmem
  case panics => exact hlive.removes.panicked

omit [Platform] [ValueBounds Value] in
/-- A node asks the owner, and the request is lost. -/
theorem remove_fails_by_loss_sample :
    let _ : Platform := Concrete.platform [Concrete.node 8001, Concrete.node 8002]
    let _ : ValueBounds UInt8 := Concrete.messagePack
    ∃ c : Cluster UInt8,
      c.RemovesFailByLoss {Concrete.node 8001, Concrete.node 8002} {.transport "timed out"} ∧
        c.removes.map RemoveCall.phase
          = [.returned (.error (.transport (.transport "timed out"))), .requested] := by
  intro _ _
  have hU := Concrete.addressable_nodes [8001, 8002] (by decide)
  have hset : {p | p ∈ [8001, 8002].map Concrete.node}
      = (({Concrete.node 8001, Concrete.node 8002} : Finset GroupcachePeer)
          : Set GroupcachePeer) := by
    ext p
    simp
  have hA : Concrete.node 8001 ∈ {p | p ∈ [8001, 8002].map Concrete.node} := by decide
  obtain ⟨hlookup, -⟩ := Concrete.lookupPeer_paired
  rw [hset] at hU hA
  refine ⟨_, remove_fails_by_loss hU <|
    .head (a := .topology (Concrete.node 8001)
      (.begin (.addPeer (Concrete.node 8002)) fun _ => .connected 0))
      ⟨⟨hA, ?_, ?_⟩, trivial⟩ rfl <|
    .head (a := .topology (Concrete.node 8001) (.advance 0 [] [])) ⟨⟨hA, trivial⟩, trivial⟩ rfl <|
    .head (a := .topology (Concrete.node 8001) (.advance 0 [] [])) ⟨⟨hA, trivial⟩, trivial⟩ rfl <|
    .head (a := .topology (Concrete.node 8001) (.advance 0 [] [])) ⟨⟨hA, trivial⟩, trivial⟩ rfl <|
    .head (a := .remove (Concrete.node 8001) "127.0.0.1:8002_0") ⟨hA, trivial⟩ rfl <|
    .head (a := .runRemove 0) ⟨trivial, trivial⟩ rfl <|
    .head (a := .runRemove 0) ⟨trivial, trivial⟩
      (Cluster.step_sendRemove rfl rfl hlookup (by decide) rfl) <|
    .single (a := .failRemove 0 (.transport "timed out")) ⟨trivial, rfl⟩ rfl, rfl⟩
  · simp [TopologyOp.peers]
  · intro call hcall
    cases hcall

end Groupcache
