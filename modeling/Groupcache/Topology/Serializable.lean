import Groupcache.Concrete
import Groupcache.Lib.Table
import Groupcache.Lib.Transition
import Groupcache.Topology.Known
import Mathlib.Data.List.FinRange
import Mathlib.Data.List.Permutation

/-!
# Overlapping calls and some serial order

A collection of calls that overlap is compared with the same calls made one
after the other, by the known peers they end with.

A call TAKES EFFECT at one of its pieces: at its write, or, when it is not
to write, at the check or snapshot that decides so. Calls that name one peer
can be listed as they take effect. A `set_peers` writes by its snapshot, and
what has been done since to a peer has to be listed before it or after it
according to the peer: before it where it adds or removes the peer, after it
where it leaves the peer as it was in the snapshot. Calls that name different
peers may change places, so this can be done (`Linear.write`), as long as no
other `set_peers` has come in between (`SetsApart`).
-/

namespace Groupcache

open Transition

variable [Platform]

/-- Calls that have all been made and none has begun its work. -/
def Topology.overlapping (s : RoutingState) (requests : List TopologyRequest) : Topology where
  routing := s
  calls := requests.map fun r => { attempt := r.attempt, stage := .called r.op }

/-- The updated peers and the snapshot of a `set_peers` in progress. -/
def Stage.snapshot : Stage → Option (Finset GroupcachePeer × Finset GroupcachePeer)
  | .setConnecting updatedPeers currentPeers => some (updatedPeers, currentPeers)
  | .setWriting updatedPeers currentPeers _ _ => some (updatedPeers, currentPeers)
  | _ => none

/-- No call is made beyond the collection, and a `set_peers` takes its
snapshot only while no other is between its own and its return. The calls of
`add_peer` and `remove_peer` overlap as they like. -/
def SetsApart (t : Topology) : TopologyAction → Prop
  | .begin .. => False
  | .advance i _ _ => ∀ call updated, t.calls[i]? = some call →
      call.stage = .called (.setPeers updated) → ∀ c ∈ t.calls, c.stage.snapshot = none

instance (p : Prop) [Decidable p] (st : Stage) :
    Decidable (∀ updated, st = .called (.setPeers updated) → p) :=
  match st with
  | .called (.setPeers updated) =>
      decidable_of_iff p ⟨fun h _ _ => h, fun h => h updated rfl⟩
  | .called (.addPeer _) | .called (.removePeer _) | .addConnecting _ | .addWriting ..
  | .setConnecting .. | .setWriting .. | .removeWriting _ | .returned _ => isTrue nofun

instance (t : Topology) (a : TopologyAction) : Decidable (SetsApart t a) :=
  match a with
  | .begin .. => isFalse id
  | .advance i _ _ => decidable_of_iff (∀ call ∈ t.calls[i]?, ∀ updated,
      call.stage = .called (.setPeers updated) → ∀ c ∈ t.calls, c.stage.snapshot = none)
      ⟨fun h call updated hcall => h call hcall updated,
        fun h call hcall updated => h call updated hcall⟩

/-! ## Calls that name one peer -/

/-- The peer of `add_peer` and `remove_peer`. -/
def TopologyOp.peer? : TopologyOp → Option GroupcachePeer
  | .addPeer p => some p
  | .setPeers _ => none
  | .removePeer p => some p

/-- The calls for a peer of `A`. -/
def namesIn (A : Finset GroupcachePeer) (r : TopologyRequest) : Bool :=
  r.op.peer?.any fun p => decide (p ∈ A)

section OnePeer

variable {K K' A : Finset GroupcachePeer} {p : GroupcachePeer} {r : TopologyRequest}
  {rs : List TopologyRequest}

omit [Platform]

/-- What happens to a peer depends on that peer alone. -/
theorem mem_knownAfter_congr (hr : r.op.peer?.isSome) (h : p ∈ K ↔ p ∈ K') :
    p ∈ r.op.knownAfter r.attempt K ↔ p ∈ r.op.knownAfter r.attempt K' := by
  cases hop : r.op with
  | addPeer q =>
      by_cases hs : (r.attempt q).succeeds = true <;> simp [TopologyOp.knownAfter, hs, h]
  | setPeers updated => simp [hop, TopologyOp.peer?] at hr
  | removePeer q => simp [TopologyOp.knownAfter, h]

theorem mem_knownAfter_of_ne (hr : r.op.peer?.isSome) (hp : r.op.peer? ≠ some p) :
    p ∈ r.op.knownAfter r.attempt K ↔ p ∈ K := by
  cases hop : r.op with
  | addPeer q =>
      have hne : p ≠ q := by
        rintro rfl
        exact hp (by rw [hop]; rfl)
      by_cases hs : (r.attempt q).succeeds = true <;> simp [TopologyOp.knownAfter, hs, hne]
  | setPeers updated => simp [hop, TopologyOp.peer?] at hr
  | removePeer q =>
      have hne : p ≠ q := by
        rintro rfl
        exact hp (by rw [hop]; rfl)
      simp [TopologyOp.knownAfter, hne]

theorem mem_knownAfterAll_congr (hrs : ∀ r ∈ rs, r.op.peer?.isSome) (h : p ∈ K ↔ p ∈ K') :
    p ∈ knownAfterAll K rs ↔ p ∈ knownAfterAll K' rs := by
  induction rs generalizing K K' with
  | nil => exact h
  | cons r rs ih =>
      exact ih (fun r hr => hrs r (List.mem_cons_of_mem _ hr))
        (mem_knownAfter_congr (hrs r List.mem_cons_self) h)

/-- Calls for other peers can be left out. -/
theorem mem_knownAfterAll_filter (hrs : ∀ r ∈ rs, r.op.peer?.isSome)
    {keep : TopologyRequest → Bool} (hkeep : ∀ r, r.op.peer? = some p → keep r = true) :
    p ∈ knownAfterAll K (rs.filter keep) ↔ p ∈ knownAfterAll K rs := by
  induction rs generalizing K with
  | nil => rfl
  | cons r rs ih =>
      have hrest : ∀ r ∈ rs, r.op.peer?.isSome := fun r hr => hrs r (List.mem_cons_of_mem _ hr)
      by_cases hr : keep r = true
      · rw [List.filter_cons_of_pos hr]
        exact ih hrest
      · rw [List.filter_cons_of_neg hr, ih hrest]
        have hp : r.op.peer? ≠ some p := fun hp => hr (hkeep r hp)
        exact mem_knownAfterAll_congr hrest
          (mem_knownAfter_of_ne (hrs r List.mem_cons_self) hp).symm

/-- Where no call for the peer is kept, it stays as it was. -/
theorem mem_knownAfterAll_filter_none (hrs : ∀ r ∈ rs, r.op.peer?.isSome)
    {keep : TopologyRequest → Bool} (hkeep : ∀ r, r.op.peer? = some p → keep r = false) :
    p ∈ knownAfterAll K (rs.filter keep) ↔ p ∈ K := by
  induction rs generalizing K with
  | nil => rfl
  | cons r rs ih =>
      have hrest : ∀ r ∈ rs, r.op.peer?.isSome := fun r hr => hrs r (List.mem_cons_of_mem _ hr)
      by_cases hr : keep r = true
      · have hp : r.op.peer? ≠ some p := fun hp => by simp [hkeep r hp] at hr
        rw [List.filter_cons_of_pos hr]
        exact (ih hrest).trans (mem_knownAfter_of_ne (hrs r List.mem_cons_self) hp)
      · rw [List.filter_cons_of_neg hr]
        exact ih hrest

theorem namesIn_eq (h : r.op.peer? = some p) : namesIn A r = decide (p ∈ A) := by
  simp [namesIn, h]

/-- The calls for peers of `A`, as seen by a peer. -/
theorem mem_knownAfterAll_namesIn (hrs : ∀ r ∈ rs, r.op.peer?.isSome) :
    p ∈ knownAfterAll K (rs.filter (namesIn A))
      ↔ if p ∈ A then p ∈ knownAfterAll K rs else p ∈ K := by
  split
  · rename_i hA
    exact mem_knownAfterAll_filter hrs fun r hp => by simp [namesIn_eq hp, hA]
  · rename_i hA
    exact mem_knownAfterAll_filter_none hrs fun r hp => by simp [namesIn_eq hp, hA]

/-- The calls for peers outside `A`. -/
theorem mem_knownAfterAll_not_namesIn (hrs : ∀ r ∈ rs, r.op.peer?.isSome) :
    p ∈ knownAfterAll K (rs.filter fun r => !namesIn A r)
      ↔ if p ∈ A then p ∈ K else p ∈ knownAfterAll K rs := by
  split
  · rename_i hA
    exact mem_knownAfterAll_filter_none hrs fun r hp => by simp [namesIn_eq hp, hA]
  · rename_i hA
    exact mem_knownAfterAll_filter hrs fun r hp => by simp [namesIn_eq hp, hA]

/-- The peers a `set_peers` is to add or to remove, by its snapshot. -/
def changes (updated current : Finset GroupcachePeer) : Finset GroupcachePeer :=
  (updated \ current) ∪ (current \ updated)

theorem mem_changes {updated current : Finset GroupcachePeer} :
    p ∈ changes updated current ↔ ¬ (p ∈ updated ↔ p ∈ current) := by
  simp only [changes, Finset.mem_union, Finset.mem_sdiff]
  tauto

/-- `set_peers` goes on to write: no attempt panics, and there is something
to add or to remove. -/
def SetWrites (attempt : GroupcachePeer → ConnectOutcome)
    (updated current : Finset GroupcachePeer) : Prop :=
  (∀ p ∈ updated \ current, attempt p ≠ .panicked) ∧ updated ≠ current

/-- A `set_peers` that will not write leaves the known peers of its snapshot
as they are. -/
theorem knownAfter_of_not_setWrites {attempt : GroupcachePeer → ConnectOutcome}
    {updated known : Finset GroupcachePeer} (h : ¬ SetWrites attempt updated known) :
    TopologyOp.knownAfter attempt known (.setPeers updated) = known := by
  by_cases hpanic : ∃ p ∈ updated \ known, attempt p = .panicked
  · simp only [TopologyOp.knownAfter, if_pos hpanic]
  · have heq : updated = known := by
      by_contra hne
      exact h ⟨fun p hp hpp => hpanic ⟨p, hp, hpp⟩, hne⟩
    subst heq
    simp [TopologyOp.knownAfter]

/-- **A late write, put in its place.** What a `set_peers` writes by its
snapshot, after other calls, is what it does between those of them that name
a peer it changes and those that do not. -/
theorem mem_knownAfterAll_late {updated current : Finset GroupcachePeer}
    {attempt : GroupcachePeer → ConnectOutcome} (hrs : ∀ r ∈ rs, r.op.peer?.isSome)
    (hw : SetWrites attempt updated current) :
    p ∈ knownAfterAll
        (TopologyOp.knownAfter attempt
          (knownAfterAll current (rs.filter (namesIn (changes updated current))))
          (.setPeers updated))
        (rs.filter fun r => !namesIn (changes updated current) r)
      ↔ p ∉ current \ updated ∧ ((p ∈ updated \ current ∧ (attempt p).succeeds = true) ∨
          p ∈ knownAfterAll current rs) := by
  have hbefore : ∀ q, q ∈ knownAfterAll current (rs.filter (namesIn (changes updated current)))
      ↔ if q ∈ changes updated current then q ∈ knownAfterAll current rs else q ∈ current :=
    fun q => mem_knownAfterAll_namesIn hrs
  generalize knownAfterAll current (rs.filter (namesIn (changes updated current))) = before
    at hbefore ⊢
  -- its attempts are those it made by the snapshot, or none
  have hnone : ¬ ∃ q ∈ updated \ before, attempt q = .panicked := by
    rintro ⟨q, hq, hpanic⟩
    obtain ⟨hup, hbef⟩ := Finset.mem_sdiff.mp hq
    by_cases hc : q ∈ current
    · have hstay : q ∉ changes updated current := by simp [changes, hc, hup]
      exact hbef ((hbefore q).mpr (by rwa [if_neg hstay]))
    · exact hw.1 q (Finset.mem_sdiff.mpr ⟨hup, hc⟩) hpanic
  have hbetween : ∀ q, q ∈ TopologyOp.knownAfter attempt before (.setPeers updated) ↔
      q ∈ updated ∧ (q ∈ before ∨ (attempt q).succeeds = true) := by
    intro q
    simp only [TopologyOp.knownAfter, if_neg hnone, Finset.mem_union, Finset.mem_inter,
      Finset.mem_filter, Finset.mem_sdiff]
    tauto
  generalize TopologyOp.knownAfter attempt before (.setPeers updated) = between at hbetween ⊢
  have hdiff : ∀ A B : Finset GroupcachePeer, p ∈ A \ B ↔ p ∈ A ∧ p ∉ B := fun _ _ =>
    Finset.mem_sdiff
  rw [mem_knownAfterAll_not_namesIn hrs, hdiff, hdiff]
  by_cases hA : p ∈ changes updated current
  · rw [if_pos hA, hbetween, hbefore, if_pos hA]
    have hiff := mem_changes.mp hA
    by_cases hup : p ∈ updated <;> by_cases hc : p ∈ current <;> simp_all [or_comm]
  · -- the call leaves the peer as it is in the snapshot
    have hiff := not_not.mp (mem_changes.not.mp hA)
    have hstay : p ∈ between ↔ p ∈ current := by
      rw [hbetween, hbefore, if_neg hA, hiff]
      exact and_iff_left_of_imp .inl
    rw [if_neg hA, mem_knownAfterAll_congr hrs hstay, hiff]
    simp

end OnePeer

/-! ## What a call in progress is at -/

/-- A call at this stage serves the request; `done` when it has taken effect. -/
def Stage.Serves (r : TopologyRequest) (done : Prop) : Stage → Prop
  | .called op => op = r.op ∧ ¬ done
  | .addConnecting p => r.op = .addPeer p ∧ ¬ done
  | .addWriting p _ => r.op = .addPeer p ∧ (r.attempt p).succeeds = true ∧ ¬ done
  | .setConnecting updated current =>
      r.op = .setPeers updated ∧ (done ↔ ¬ SetWrites r.attempt updated current)
  | .setWriting updated current results removal =>
      r.op = .setPeers updated ∧ ¬ done ∧ SetWrites r.attempt updated current ∧
        (∀ p, p ∈ (connections results).map Prod.fst
          ↔ p ∈ updated \ current ∧ (r.attempt p).succeeds = true) ∧
        ∀ p, p ∈ removal ↔ p ∈ current \ updated
  | .removeWriting p => r.op = .removePeer p ∧ ¬ done
  | .returned _ => done

variable {s s' : RoutingState} {r : TopologyRequest} {done : Prop} {st st' : Stage}
  {order removal : List GroupcachePeer}

omit [Platform] in
theorem Stage.Serves.congr {done' : Prop} (h : st.Serves r done) (hd : done ↔ done') :
    st.Serves r done' := by
  rwa [← propext hd]

/-- The end of the connections of `set_peers`, which takes no effect. -/
theorem Stage.Serves.connections {updated current : Finset GroupcachePeer}
    (h : (Stage.setConnecting updated current).Serves r done)
    (ha : (Stage.setConnecting updated current).advance s r.attempt order removal
      = some (s', st')) :
    s' = s ∧ st'.Serves r done ∧ ∀ x, st'.snapshot = some x → x = (updated, current) := by
  obtain ⟨hop, hdone⟩ := h
  simp only [Stage.advance] at ha
  split at ha
  · rename_i hsched
    obtain ⟨ho, hr⟩ := hsched
    split at ha
    · rename_i e hc
      cases ha
      obtain ⟨p, hp, hpp⟩ := connectToNewPeers_error hc
      exact ⟨rfl, hdone.mpr fun hw => hw.1 p (ho.mem_iff.mp hp) hpp, by simp [Stage.snapshot]⟩
    · rename_i results hc
      obtain ⟨hcon, hnone⟩ := connectToNewPeers_ok hc
      split at ha <;> cases ha
      · rename_i hempty
        obtain ⟨hrem, hres⟩ := Bool.and_eq_true_iff.mp hempty
        rw [List.isEmpty_iff] at hrem hres
        refine ⟨rfl, hdone.mpr fun hw => hw.2 ?_, by simp [Stage.snapshot]⟩
        have horder : order = [] := connectToNewPeers_nil (by rw [hc, hres])
        rw [horder] at ho
        rw [hrem] at hr
        have hadd : updated \ current = ∅ := ho.2.symm
        have hdel : current \ updated = ∅ := hr.2.symm
        exact Finset.Subset.antisymm (Finset.sdiff_eq_empty_iff_subset.mp hadd)
          (Finset.sdiff_eq_empty_iff_subset.mp hdel)
      · rename_i hempty
        have hw : SetWrites r.attempt updated current := by
          refine ⟨fun p hp => hnone p (ho.mem_iff.mpr hp), ?_⟩
          rintro rfl
          rw [Finset.sdiff_self] at ho hr
          have horder : order = [] := (List.toFinset_eq_empty_iff _).mp ho.2
          have hrem : removal = [] := (List.toFinset_eq_empty_iff _).mp hr.2
          subst horder hrem
          cases hc
          exact hempty rfl
        refine ⟨rfl, ⟨hop, fun hd => hdone.mp hd hw, hw, fun p => ?_, fun p => hr.mem_iff⟩, ?_⟩
        · rw [hcon, mem_connected_peers, ho.mem_iff]
        · rintro x hx
          cases hx
          rfl
  · cases ha

/-- **What a piece of `add_peer` or `remove_peer` does to the known peers**:
nothing, and the call has taken effect as much as before; or all the call is
to do, at the one piece where it takes effect. -/
theorem Stage.Serves.single (h : st.Serves r done) (hr : r.op.peer?.isSome)
    (ha : st.advance s r.attempt order removal = some (s', st')) :
    st'.snapshot = none ∧
      ((s'.peerSet = s.peerSet ∧ st'.Serves r done) ∨
        (¬ done ∧ s'.peerSet = r.op.knownAfter r.attempt s.peerSet ∧ st'.Serves r True)) := by
  cases st with
  | called op =>
      obtain ⟨rfl, hnot⟩ := h
      cases hop : r.op with
      | addPeer p =>
          simp only [Stage.advance, hop] at ha
          split at ha <;> cases ha
          · rename_i hp
            have hmem := RoutingState.mem_peerSet.mpr (RoutingState.containsPeer_iff.mp hp)
            refine ⟨rfl, .inr ⟨hnot, ?_, trivial⟩⟩
            simp only [TopologyOp.knownAfter, Finset.insert_eq_self.mpr hmem, ite_self]
          · exact ⟨rfl, .inl ⟨rfl, hop, hnot⟩⟩
      | setPeers updated => simp [hop, TopologyOp.peer?] at hr
      | removePeer p =>
          simp only [Stage.advance, hop] at ha
          split at ha <;> cases ha
          · exact ⟨rfl, .inl ⟨rfl, hop, hnot⟩⟩
          · rename_i hp
            have hmem : p ∉ s.peerSet := fun h =>
              hp (RoutingState.containsPeer_iff.mpr (RoutingState.mem_peerSet.mp h))
            exact ⟨rfl, .inr ⟨hnot, (Finset.erase_eq_self.mpr hmem).symm, trivial⟩⟩
  | addConnecting p =>
      obtain ⟨hop, hnot⟩ := h
      have hfail : (r.attempt p).succeeds = false →
          s.peerSet = r.op.knownAfter r.attempt s.peerSet := by
        intro hs
        simp [hop, TopologyOp.knownAfter, hs]
      cases hp : r.attempt p with
      | connected channel =>
          simp only [Stage.advance, hp, connectStatic] at ha
          cases ha
          exact ⟨rfl, .inl ⟨rfl, hop, by rw [hp]; rfl, hnot⟩⟩
      | failed e =>
          simp only [Stage.advance, hp, connectStatic] at ha
          cases ha
          exact ⟨rfl, .inr ⟨hnot, hfail (by rw [hp]; rfl), trivial⟩⟩
      | panicked =>
          simp only [Stage.advance, hp, connectStatic] at ha
          cases ha
          exact ⟨rfl, .inr ⟨hnot, hfail (by rw [hp]; rfl), trivial⟩⟩
  | addWriting p client =>
      obtain ⟨hop, hs, hnot⟩ := h
      cases ha
      refine ⟨rfl, .inr ⟨hnot, ?_, trivial⟩⟩
      ext q
      simp [hop, TopologyOp.knownAfter, hs, RoutingState.mem_peerSet]
  | setConnecting updated current => simp [h.1, TopologyOp.peer?] at hr
  | setWriting updated current results removal' => simp [h.1, TopologyOp.peer?] at hr
  | removeWriting p =>
      obtain ⟨hop, hnot⟩ := h
      cases ha
      refine ⟨rfl, .inr ⟨hnot, ?_, trivial⟩⟩
      ext q
      simp [hop, TopologyOp.knownAfter, RoutingState.mem_peerSet]
  | returned result => cases ha

/-! ## A serial order of what has taken effect -/

/-- The calls that have taken effect, in a serial order that leaves the known
peers of the moment. Those in `late` name one peer each; a `set_peers` in
progress took its snapshot between `early` and `late`. -/
structure Linear (requests : List TopologyRequest) (known : Finset GroupcachePeer)
    (t : Topology) (early late : List (Fin requests.length)) : Prop where
  nodup : (early ++ late).Nodup
  length : t.calls.length = requests.length
  peerSet : t.routing.peerSet = knownAfterAll known ((early ++ late).map requests.get)
  singles : ∀ k ∈ late, (requests.get k).op.peer?.isSome
  serves : ∀ (i : Fin requests.length) call, t.calls[i.val]? = some call →
    call.attempt = (requests.get i).attempt ∧
      call.stage.Serves (requests.get i) (i ∈ early ++ late)
  snapshot : ∀ (i : Fin requests.length) call updated current, t.calls[i.val]? = some call →
    call.stage.snapshot = some (updated, current) →
      current = knownAfterAll known (early.map requests.get) ∧
        ∀ (j : Fin requests.length) c, j ≠ i → t.calls[j.val]? = some c → c.stage.snapshot = none

variable {requests : List TopologyRequest} {known : Finset GroupcachePeer} {t t' : Topology}
  {early late early' late' : List (Fin requests.length)}

omit [Platform] in
theorem knownAfterAll_concat (rs : List TopologyRequest) :
    knownAfterAll known (rs ++ [r]) = r.op.knownAfter r.attempt (knownAfterAll known rs) :=
  List.foldl_append

omit [Platform] in
theorem knownAfterAll_append (rs rs' : List TopologyRequest) :
    knownAfterAll known (rs ++ rs') = knownAfterAll (knownAfterAll known rs) rs' :=
  List.foldl_append

theorem Linear.overlapping (s : RoutingState) (requests : List TopologyRequest) :
    Linear requests s.peerSet (.overlapping s requests) [] [] where
  nodup := List.nodup_nil
  length := List.length_map _
  peerSet := rfl
  singles := nofun
  serves i call hcall := by
    simp only [Topology.overlapping, List.getElem?_map, Option.map_eq_some_iff] at hcall
    obtain ⟨r, hr, rfl⟩ := hcall
    obtain rfl : requests.get i = r := by
      rw [List.getElem?_eq_getElem i.isLt] at hr
      exact Option.some.inj hr
    exact ⟨rfl, rfl, List.not_mem_nil⟩
  snapshot i call updated current hcall hsnap := by
    simp only [Topology.overlapping, List.getElem?_map, Option.map_eq_some_iff] at hcall
    obtain ⟨r, _, rfl⟩ := hcall
    cases hsnap

/-- One call has moved on, and the order is another: what is left to check. -/
theorem Linear.move (h : Linear requests known t early late) {k : Fin requests.length}
    {call : TopologyCall} (hcall : t.calls[k.val]? = some call) {routing : RoutingState}
    {stage : Stage} (hnodup : (early' ++ late').Nodup)
    (hmem : ∀ j, j ≠ k → (j ∈ early' ++ late' ↔ j ∈ early ++ late))
    (hset : routing.peerSet = knownAfterAll known ((early' ++ late').map requests.get))
    (hsingles : ∀ k ∈ late', (requests.get k).op.peer?.isSome)
    (hserves : stage.Serves (requests.get k) (k ∈ early' ++ late'))
    (hothers : (∃ x, stage.snapshot = some x) ∨ early' ≠ early →
      ∀ (j : Fin requests.length) c, j ≠ k → t.calls[j.val]? = some c → c.stage.snapshot = none)
    (hself : ∀ updated current, stage.snapshot = some (updated, current) →
      current = knownAfterAll known (early'.map requests.get)) :
    Linear requests known
      { routing, calls := t.calls.set k.val { call with stage } } early' late' := by
  have hcases : ∀ (j : Fin requests.length) c,
      (t.calls.set k.val { call with stage })[j.val]? = some c →
        (j = k ∧ c = { call with stage }) ∨ (j ≠ k ∧ t.calls[j.val]? = some c) := by
    intro j c hc
    rcases Table.set_cases hc with ⟨hj, rfl⟩ | ⟨hj, hc⟩
    · exact .inl ⟨Fin.ext hj, rfl⟩
    · exact .inr ⟨fun hjk => hj (congrArg Fin.val hjk), hc⟩
  refine ⟨hnodup, by simpa using h.length, hset, hsingles, ?_, ?_⟩
  · intro j c hc
    rcases hcases j c hc with ⟨rfl, rfl⟩ | ⟨hj, hc⟩
    · exact ⟨(h.serves j call hcall).1, hserves⟩
    · obtain ⟨hja, hjs⟩ := h.serves j c hc
      exact ⟨hja, hjs.congr (hmem j hj).symm⟩
  · intro j c updated current hc hsnap
    rcases hcases j c hc with ⟨rfl, rfl⟩ | ⟨hj, hcj⟩
    · refine ⟨hself updated current hsnap, fun i d hi hd => ?_⟩
      rcases hcases i d hd with ⟨rfl, _⟩ | ⟨_, hd⟩
      · exact absurd rfl hi
      · exact hothers (.inl ⟨_, hsnap⟩) i d hi hd
    · -- the call that has moved has no snapshot, as another has one
      have hsame : early' = early := by
        by_contra hne
        rw [hothers (.inr hne) j c hj hcj] at hsnap
        cases hsnap
      obtain ⟨hcur, hnone⟩ := h.snapshot j c updated current hcj hsnap
      refine ⟨hsame ▸ hcur, fun i d hi hd => ?_⟩
      rcases hcases i d hd with ⟨rfl, rfl⟩ | ⟨_, hd⟩
      · by_contra hsome
        obtain ⟨x, hx⟩ := Option.ne_none_iff_exists'.mp hsome
        rw [hothers (.inl ⟨x, hx⟩) j c hj hcj] at hsnap
        cases hsnap
      · exact hnone i d hi hd

/-- A call that has taken no effect can be put last. -/
theorem Linear.nodup_concat (h : Linear requests known t early late) {k : Fin requests.length}
    (hnot : k ∉ early ++ late) : (early ++ late ++ [k]).Nodup := by
  refine List.nodup_append.mpr ⟨h.nodup, List.nodup_singleton k, fun a ha b hb hab => hnot ?_⟩
  rw [← List.mem_singleton.mp hb, ← hab]
  exact ha

/-- A piece of a call that names one peer. -/
theorem Linear.single (h : Linear requests known t early late) {k : Fin requests.length}
    {call : TopologyCall} (hcall : t.calls[k.val]? = some call)
    (hk : (requests.get k).op.peer?.isSome) {routing : RoutingState} {stage : Stage}
    (ha : call.stage.advance t.routing call.attempt order removal = some (routing, stage)) :
    ∃ late', Linear requests known
      { routing, calls := t.calls.set k.val { call with stage } } early late' := by
  obtain ⟨hattempt, hserves⟩ := h.serves k call hcall
  rw [hattempt] at ha
  obtain ⟨hnone, hcase⟩ := hserves.single hk ha
  have hothers : (∃ x, stage.snapshot = some x) ∨ early ≠ early →
      ∀ (j : Fin requests.length) c, j ≠ k → t.calls[j.val]? = some c →
        c.stage.snapshot = none := by
    rintro (⟨x, hx⟩ | hne)
    · rw [hnone] at hx
      cases hx
    · exact absurd rfl hne
  have hself : ∀ updated current, stage.snapshot = some (updated, current) →
      current = knownAfterAll known (early.map requests.get) := by
    intro updated current hsnap
    rw [hnone] at hsnap
    cases hsnap
  rcases hcase with ⟨hset, hst⟩ | ⟨hnot, hset, hst⟩
  · exact ⟨late, h.move hcall h.nodup (fun _ _ => Iff.rfl) (hset.trans h.peerSet) h.singles hst
      hothers hself⟩
  · refine ⟨late ++ [k], h.move hcall ?_ ?_ ?_ ?_ (hst.congr ?_) hothers hself⟩
    · rw [← List.append_assoc]
      exact h.nodup_concat hnot
    · intro j hj
      simp [hj]
    · have hmap : (early ++ (late ++ [k])).map requests.get
          = (early ++ late).map requests.get ++ [requests.get k] := by simp
      rw [hset, h.peerSet, hmap, knownAfterAll_concat]
    · intro j hj
      rcases List.mem_append.mp hj with hj | hj
      · exact h.singles j hj
      · rwa [List.mem_singleton.mp hj]
    · exact iff_of_true trivial (by simp)

/-- A snapshot: nothing is written, and a `set_peers` that is not to write
takes effect here. -/
theorem Linear.takeSnapshot (h : Linear requests known t early late)
    {k : Fin requests.length} {call : TopologyCall} (hcall : t.calls[k.val]? = some call)
    {updated : Finset GroupcachePeer} (hst : call.stage = .called (.setPeers updated))
    (hothers : ∀ c ∈ t.calls, c.stage.snapshot = none) :
    ∃ early' late', Linear requests known
      { routing := t.routing,
        calls := t.calls.set k.val
          { call with stage := .setConnecting updated t.routing.peerSet } } early' late' := by
  obtain ⟨_, hserves⟩ := h.serves k call hcall
  rw [hst] at hserves
  obtain ⟨hop, hnot⟩ := hserves
  have hothers : ∀ (j : Fin requests.length) c, j ≠ k → t.calls[j.val]? = some c →
      c.stage.snapshot = none := fun j c _ hc => hothers c (List.mem_of_getElem? hc)
  by_cases hw : SetWrites (requests.get k).attempt updated t.routing.peerSet
  · refine ⟨early ++ late, [], h.move hcall ?_ ?_ ?_ nofun ⟨hop.symm, ?_⟩ (fun _ => hothers) ?_⟩
    · simpa using h.nodup
    · simp
    · simpa using h.peerSet
    · exact iff_of_false (by simpa using hnot) (not_not_intro hw)
    · intro u c hsnap
      cases hsnap
      exact h.peerSet
  · -- it is listed last, and changes nothing there
    have hlast : t.routing.peerSet = knownAfterAll known
        ((early ++ late ++ [k]).map requests.get) := by
      have hnothing := knownAfter_of_not_setWrites hw
      rw [hop] at hnothing
      rw [List.map_append, List.map_singleton, knownAfterAll_concat, ← h.peerSet, hnothing]
    refine ⟨early ++ late ++ [k], [], h.move hcall ?_ ?_ ?_ nofun ⟨hop.symm, ?_⟩
      (fun _ => hothers) ?_⟩
    · rw [List.append_nil]
      exact h.nodup_concat hnot
    · intro j hj
      simp [hj]
    · rwa [List.append_nil]
    · exact iff_of_true (by simp) hw
    · intro u c hsnap
      cases hsnap
      exact hlast

/-- The write of a `set_peers`: the calls made since its snapshot are put
before it or after it, by the peer they name. -/
theorem Linear.write (h : Linear requests known t early late) {k : Fin requests.length}
    {call : TopologyCall} (hcall : t.calls[k.val]? = some call)
    {updated current : Finset GroupcachePeer} {results : List ConnectResult}
    (hst : call.stage = .setWriting updated current results removal) {result : CallResult} :
    ∃ early' late', Linear requests known
      { routing := t.routing.write (connections results) removal,
        calls := t.calls.set k.val { call with stage := .returned result } } early' late' := by
  obtain ⟨_, hserves⟩ := h.serves k call hcall
  obtain ⟨hcur, hothers⟩ := h.snapshot k call updated current hcall (by rw [hst]; rfl)
  rw [hst] at hserves
  obtain ⟨hop, hnot, hw, hadds, hremoval⟩ := hserves
  let names : Fin requests.length → Bool := fun j =>
    namesIn (changes updated current) (requests.get j)
  -- those made since that name a peer it changes, then the call, then the others
  let early' := early ++ late.filter names ++ [k] ++ late.filter fun j => !names j
  have hperm : early'.Perm (early ++ late ++ [k]) := by
    have hmid : (late.filter names ++ [k] ++ late.filter fun j => !names j).Perm (late ++ [k]) := by
      rw [List.append_assoc]
      refine (List.perm_append_comm.append_left _).trans ?_
      rw [← List.append_assoc]
      exact (List.filter_append_perm names late).append_right [k]
    simpa only [early', List.append_assoc] using hmid.append_left early
  refine ⟨early', [], h.move hcall ?_ ?_ ?_ nofun ?_ (fun _ => hothers) nofun⟩
  · rw [List.append_nil]
    exact hperm.nodup_iff.mpr (h.nodup_concat hnot)
  · intro j hj
    rw [List.append_nil, hperm.mem_iff]
    simp [hj]
  · rw [List.append_nil]
    have hlate : ∀ r ∈ late.map requests.get, r.op.peer?.isSome := by
      intro r hr
      obtain ⟨j, hj, rfl⟩ := List.mem_map.mp hr
      exact h.singles j hj
    have hmap : early'.map requests.get
        = early.map requests.get
          ++ (late.map requests.get).filter (namesIn (changes updated current))
          ++ [requests.get k]
          ++ (late.map requests.get).filter fun r => !namesIn (changes updated current) r := by
      simp only [early', names, List.map_append, List.map_singleton, List.filter_map,
        Function.comp_def]
    ext p
    have hlist := mem_knownAfterAll_late (p := p) hlate hw
    have hrun : t.routing.peerSet = knownAfterAll current (late.map requests.get) := by
      rw [h.peerSet, List.map_append, knownAfterAll_append, ← hcur]
    rw [RoutingState.mem_peerSet_write, hadds, hremoval, hrun, ← hlist, hmap,
      knownAfterAll_append, knownAfterAll_concat, knownAfterAll_append, ← hcur, hop]
  · rw [List.append_nil]
    exact hperm.mem_iff.mpr (by simp)

/-- **The step.** A piece of any call leaves such an order. -/
theorem Linear.step {a : TopologyAction} (h : Linear requests known t early late)
    (hapart : SetsApart t a) (hs : t.step a = some t') :
    ∃ early' late', Linear requests known t' early' late' := by
  rcases Topology.step_cases hs with ⟨op, attempt, rfl, rfl⟩ |
    ⟨i, order, removal, call, routing, stage, rfl, hcall, hadv, rfl⟩
  · exact hapart.elim
  · have hi : i < t.calls.length := (List.getElem?_eq_some_iff.mp hcall).1
    let k : Fin requests.length := ⟨i, h.length ▸ hi⟩
    obtain ⟨hattempt, hserves⟩ := h.serves k call hcall
    by_cases hk : (requests.get k).op.peer?.isSome
    · exact ⟨early, h.single (k := k) hcall hk hadv⟩
    · cases hst : call.stage with
      | called op =>
          rw [hst] at hserves hadv
          obtain ⟨updated, rfl⟩ : ∃ updated, op = .setPeers updated := by
            rw [← hserves.1] at hk
            cases op with
            | setPeers updated => exact ⟨updated, rfl⟩
            | addPeer p => exact absurd rfl hk
            | removePeer p => exact absurd rfl hk
          cases hadv
          exact h.takeSnapshot (k := k) hcall hst (hapart call updated hcall hst)
      | setConnecting updated current =>
          obtain ⟨hcur, hothers⟩ := h.snapshot k call updated current hcall (by rw [hst]; rfl)
          rw [hst] at hserves hadv
          rw [hattempt] at hadv
          obtain ⟨rfl, hserves', hsnap⟩ := hserves.connections hadv
          refine ⟨early, late, h.move (k := k) hcall h.nodup (fun _ _ => Iff.rfl) h.peerSet
            h.singles hserves' (fun _ => hothers) fun u c huc => ?_⟩
          cases hsnap _ huc
          exact hcur
      | setWriting updated current results removal' =>
          rw [hst] at hadv
          have hw := Stage.advance_routing hadv
          cases hadv
          rw [hw]
          exact h.write (k := k) hcall hst
      | addConnecting p => rw [hst] at hserves; exact absurd (by rw [hserves.1]; rfl) hk
      | addWriting p client => rw [hst] at hserves; exact absurd (by rw [hserves.1]; rfl) hk
      | removeWriting p => rw [hst] at hserves; exact absurd (by rw [hserves.1]; rfl) hk
      | returned result => rw [hst] at hadv; cases hadv

/-- **Overlapping calls are serializable while no two `set_peers` overlap.**
When all have returned, the known peers are those that the same calls leave
when they run one after the other in some order. -/
theorem overlapping_calls_serializable {s : RoutingState} {requests : List TopologyRequest}
    {t : Topology}
    (h : Reaches Topology.step SetsApart (Topology.overlapping s requests) t)
    (hdone : ∀ call ∈ t.calls, ∃ result, call.stage = .returned result) :
    ∃ serial, serial.Perm requests ∧ ∃ s', SerialRun s serial s' ∧
      s'.peerSet = t.routing.peerSet := by
  obtain ⟨early, late, hlin⟩ : ∃ early late, Linear requests s.peerSet t early late :=
    h.invariant (I := fun t => ∃ early late, Linear requests s.peerSet t early late)
      ⟨[], [], .overlapping s requests⟩
      (fun _ _ _ ⟨_, _, hl⟩ hf hs => hl.step hf hs)
  -- a call that has returned has taken effect
  have hall : ∀ i, i ∈ early ++ late := by
    intro i
    have hi : i.val < t.calls.length := by
      rw [hlin.length]
      exact i.isLt
    obtain ⟨result, hresult⟩ := hdone _ (List.getElem_mem hi)
    have hserves := (hlin.serves i _ (List.getElem?_eq_getElem hi)).2
    rw [hresult] at hserves
    exact hserves
  have hperm : (early ++ late).Perm (List.finRange requests.length) :=
    (List.perm_ext_iff_of_nodup hlin.nodup (List.nodup_finRange _)).mpr fun i =>
      iff_of_true (hall i) (List.mem_finRange i)
  refine ⟨(early ++ late).map requests.get, ?_, ?_⟩
  · have := hperm.map requests.get
    rwa [← List.ofFn_eq_map, List.ofFn_get] at this
  · obtain ⟨s', hs'⟩ := SerialRun.exists s ((early ++ late).map requests.get)
    exact ⟨s', hs', by rw [hs'.peerSet, hlin.peerSet]⟩

/-! ## Two calls of `set_peers` -/

/-- One call for each of two peers. -/
def twoSetPeers (p q : GroupcachePeer) : List TopologyRequest :=
  [{ op := .setPeers {p}, attempt := fun _ => .connected 0 },
    { op := .setPeers {q}, attempt := fun _ => .connected 1 }]

/-- Both take their snapshot before either writes. -/
def twoSnapshots (p q : GroupcachePeer) : List TopologyAction :=
  [.advance 0 [] [], .advance 1 [] [], .advance 0 [p] [], .advance 1 [q] [],
    .advance 0 [] [], .advance 1 [] []]

private theorem twoSnapshots_run :
    ∃ t, (twoSnapshots (Concrete.node 8002) (Concrete.node 8003)).foldlM Topology.step
        (Topology.overlapping (.withLocalPeer (Concrete.node 8001))
          (twoSetPeers (Concrete.node 8002) (Concrete.node 8003))) = some t ∧
      t.routing = ((RoutingState.withLocalPeer (Concrete.node 8001)).addPeer
        (Concrete.node 8002) ⟨(Concrete.node 8002).socket, 0⟩).addPeer
        (Concrete.node 8003) ⟨(Concrete.node 8003).socket, 1⟩ ∧
      t.calls.map TopologyCall.stage = [.returned (some (.ok ())), .returned (some (.ok ()))] :=
  ⟨_, rfl, rfl, rfl⟩

omit [Platform] in
/-- Neither call removes the peer of the other, and the node ends with both:
in either serial order the call made last leaves its own peer alone. -/
theorem both_peers_after_overlapping_sets :
    let _ : Platform := Concrete.platform [Concrete.node 8001]
    let s := RoutingState.withLocalPeer (Concrete.node 8001)
    let requests := twoSetPeers (Concrete.node 8002) (Concrete.node 8003)
    ∃ t, (twoSnapshots (Concrete.node 8002) (Concrete.node 8003)).foldlM Topology.step
        (Topology.overlapping s requests) = some t ∧
      (∀ call ∈ t.calls, ∃ result, call.stage = .returned result) ∧
      t.routing.peerSet = {Concrete.node 8002, Concrete.node 8003} ∧
      ¬ ∃ serial, serial.Perm requests ∧ ∃ s', SerialRun s serial s' ∧
        s'.peerSet = t.routing.peerSet := by
  intro _ s requests
  obtain ⟨t, ht, hrouting, hcalls⟩ := twoSnapshots_run
  have hpeers : t.routing.peerSet = {Concrete.node 8002, Concrete.node 8003} := by
    rw [hrouting]
    ext p
    have hnone : p ∉ s.peers := Finmap.notMem_empty
    simp [RoutingState.mem_peerSet, s, hnone, or_comm]
  refine ⟨t, ht, ?_, hpeers, ?_⟩
  · intro call hcall
    have hmem := List.mem_map_of_mem (f := TopologyCall.stage) hcall
    rw [hcalls] at hmem
    simp only [List.mem_cons, List.not_mem_nil, or_false, or_self] at hmem
    exact ⟨_, hmem⟩
  · rintro ⟨serial, hperm, s', hrun, hs'⟩
    rw [hrun.peerSet, hpeers] at hs'
    have hstart : s.peerSet = ∅ := rfl
    rw [hstart] at hs'
    rcases List.perm_pair.mp hperm with rfl | rfl
    · exact absurd hs' (by decide)
    · exact absurd hs' (by decide)

/-- Between the snapshot and the write of a `set_peers`, an `add_peer` runs
and a `remove_peer` finds nothing to remove. -/
def duringSetPeers (old new : GroupcachePeer) : List TopologyAction :=
  [.advance 0 [] [], .advance 1 [] [], .advance 2 [] [], .advance 1 [] [], .advance 1 [] [],
    .advance 0 [new] [old], .advance 0 [] []]

omit [Platform] in
/-- The node ends with the new peer and the one added on the way, as by
`remove_peer`, then `set_peers`, then `add_peer`, and by no other order. -/
theorem overlapping_calls_serializable_sample :
    let _ : Platform := Concrete.host
    let old := Concrete.node 8002
    let new := Concrete.node 8003
    let other := Concrete.node 8004
    let s := (RoutingState.withLocalPeer (Concrete.node 8001)).addPeer old ⟨old.socket, 0⟩
    let requests : List TopologyRequest :=
      [{ op := .setPeers {new}, attempt := fun _ => .connected 0 },
        { op := .addPeer other, attempt := fun _ => .connected 0 },
        { op := .removePeer new, attempt := fun _ => .panicked }]
    ∃ t : Topology, t.routing.peerSet = {new, other} ∧
      (∃ serial, serial.Perm requests ∧ ∃ s', SerialRun s serial s' ∧
        s'.peerSet = t.routing.peerSet) ∧
      ∀ serial, serial.Perm requests → knownAfterAll s.peerSet serial = {new, other} →
        serial.map TopologyRequest.op = [.removePeer new, .setPeers {new}, .addPeer other] := by
  intro _ old new other s requests
  have honly : ∀ serial ∈ requests.permutations', knownAfterAll s.peerSet serial = {new, other} →
      serial.map TopologyRequest.op = [.removePeer new, .setPeers {new}, .addPeer other] := by
    decide +kernel +revert
  obtain ⟨t, ht, hdone, hpeers⟩ : ∃ t ∈ replay Topology.step SetsApart
      (Topology.overlapping s requests) (duringSetPeers old new),
      (∀ call ∈ t.calls, ∃ result, call.stage = .returned result) ∧
        t.routing.peerSet = {new, other} := by
    decide +kernel +revert
  exact ⟨t, hpeers, overlapping_calls_serializable (.of_replay ht) hdone, fun serial hperm =>
    honly serial (List.mem_permutations'.mpr hperm)⟩

end Groupcache
