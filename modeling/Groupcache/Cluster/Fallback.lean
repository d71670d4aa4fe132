import Groupcache.Cluster.Provenance
import Groupcache.Topology.Overlap

/-!
# The fallback (`get_deduped`)

One call of `get` that runs alone, for a key that another node owns, with any
answer to its request: a status, a value that decodes or not, or none at all,
which the schema admits and no groupcache server sends. The readme has the
call load the value itself when the request fails. So it does
(`Cluster.Covers`), except that `load_remotely` unwraps the value: an answer
without one panics the flight, and the run ends there (`local_fallback`). What
follows a panic is not modelled: neither what becomes of the task that ran the
flight, nor how the calls that had joined it go on.
-/

namespace Groupcache

open Transition

variable [Platform] {Value : Type} [ValueBounds Value] {c c' : Cluster Value}

/-! ## A call that runs alone -/

/-- What call `i` does next, by itself or in the flight it waits for. Requests
are answered with `response`, and the loader returns `result`. -/
def Cluster.advance (i : Nat) (response : Except Status GetResponse)
    (result : Except String Value) (c : Cluster Value) : Option (Cluster Value) :=
  match c.gets[i]? with
  | none => none
  | some call =>
      match call.phase with
      | .waiting f =>
          match c.flights[f]? with
          | none => none
          | some flight =>
              match flight.phase with
              | .loading _ => c.step (.load f result)
              | .awaiting _ => some (c.receiveGet f flight response)
              | .ended _ => c.step (.runGet i)
              | _ => c.step (.runFlight f)
      | _ => c.step (.runGet i)

/-- The value that the answer carries, as it decodes. -/
def decoded : Except Status GetResponse → Option (Loaded Value)
  | .ok { value := some bytes, load } =>
      match ValueBounds.fromRead bytes with
      | .ok value => some { value, load }
      | .error _ => none
  | _ => none

/-- What call `i` of `c` has come to in `c'`: with the answer's value, which it
has put into its node's hot cache and nowhere else, or with what one load of
its own has returned, which it has put nowhere. -/
structure Cluster.Covers (c c' : Cluster Value) (i : Nat) (call : GetCall Value)
    (response : Except Status GetResponse) (result : Except String Value) : Prop where
  answered : ∀ loaded : Loaded Value, decoded response = some loaded →
    (∃ g, c'.gets[i]? = some g ∧ g.phase = .returned (.ok loaded)) ∧
    c'.loads = c.loads ∧ (∀ m, (c'.node m).mainCache = (c.node m).mainCache) ∧
    ∀ m k, (c'.node m).hotCache k = if m = call.node ∧ k = call.key
      then some { loaded, flight := c.flights.length } else (c.node m).hotCache k
  otherwise : (decoded response : Option (Loaded Value)) = none →
    (∃ g, c'.gets[i]? = some g ∧ g.phase = .returned
      (match result with
        | .ok value => .ok { value, load := c.loads.length }
        | .error e => .error (.deduped (.localLoader e)))) ∧
    c'.loads = c.loads ++ [{ node := call.node, key := call.key, flight := c.flights.length
                             result := some result }] ∧
    (∀ m, (c'.node m).mainCache = (c.node m).mainCache) ∧
    ∀ m, (c'.node m).hotCache = (c.node m).hotCache
  succeeds : (∃ value, result = .ok value) →
    ∃ g loaded, c'.gets[i]? = some g ∧ g.phase = .returned (.ok loaded)

/-- No cache changes and no load is made. -/
structure Cluster.Keeps (c c' : Cluster Value) : Prop where
  loads : c'.loads = c.loads
  main : ∀ m, (c'.node m).mainCache = (c.node m).mainCache
  hot : ∀ m, (c'.node m).hotCache = (c.node m).hotCache

omit [ValueBounds Value] in
theorem Cluster.Keeps.trans {c₁ c₂ c₃ : Cluster Value} (h : c₁.Keeps c₂) (h' : c₂.Keeps c₃) :
    c₁.Keeps c₃ where
  loads := h'.loads.trans h.loads
  main m := (h'.main m).trans (h.main m)
  hot m := (h'.hot m).trans (h.hot m)

/-- Call `i` waits for flight `f`. -/
structure Cluster.WaitsOn (c : Cluster Value) (i f : Nat) (call : GetCall Value)
    (flight : Flight Value) : Prop where
  get : c.gets[i]? = some call
  waiting : call.phase = .waiting f
  flight : c.flights[f]? = some flight

namespace Cluster

variable {i f : Nat} {call : GetCall Value} {flight : Flight Value}
  (response : Except Status GetResponse) (result : Except String Value)

/-! ## Up to the flight -/

theorem advance_runGet (hcall : c.gets[i]? = some call) (hp : ∀ f, call.phase ≠ .waiting f) :
    c.advance i response result = c.runGet i call := by
  simp only [advance, hcall, step, Option.bind_some]

/-- The call misses both caches and opens a flight for the peer it looks up. -/
theorem leads_open {found : GroupcachePeerWithClient} (hcall : c.gets[i]? = some call)
    (hp : call.phase = .called) (hmain : (c.node call.node).mainCache call.key = none)
    (hhot : (c.node call.node).hotCache call.key = none)
    (hgroup : (c.node call.node).singleFlightGroup call.key = none)
    (hl : (c.node call.node).topology.routing.lookupPeer call.key = .ok found) :
    ∃ (c' : Cluster Value) (g : GetCall Value), Leads (advance i response result) c c' ∧
      c.Keeps c' ∧ c'.WaitsOn i c.flights.length g
        { node := call.node, key := call.key, peer := found, request := none, load := none
          phase := .opened } := by
  -- after the counter, the call alone changes until it enters the group
  let c₁ := (c.count call.node fun m => { m with getTotal := m.getTotal + 1 }).setGet i
    { call with phase := .mainLookup }
  have h₁ : c₁.gets[i]? = some { call with phase := .mainLookup } := Table.set_self hcall
  let c₂ := c₁.setGet i { call with phase := .hotLookup }
  have h₂ : c₂.gets[i]? = some { call with phase := .hotLookup } := Table.set_self h₁
  let c₃ := c₂.setGet i { call with phase := .routing }
  have h₃ : c₃.gets[i]? = some { call with phase := .routing } := Table.set_self h₂
  let c₄ := c₃.setGet i { call with phase := .deduping found }
  have h₄ : c₄.gets[i]? = some { call with phase := .deduping found } := Table.set_self h₃
  let opened : Flight Value :=
    { node := call.node, key := call.key, peer := found, request := none, load := none
      phase := .opened }
  let waiting : GetCall Value :=
    { call with flight := some c.flights.length, phase := .waiting c.flights.length }
  let c₅ : Cluster Value :=
    { (c₄.setFlightOf call.node call.key (some c.flights.length)).setGet i waiting with
      flights := c.flights ++ [opened] }
  have hs₁ : c.advance i response result = some c₁ := by
    rw [advance_runGet _ _ hcall (by simp [hp])]
    simp only [runGet, hp, c₁]
  have hs₂ : c₁.advance i response result = some c₂ := by
    have hnone : (c₁.node call.node).mainCache call.key = none := hmain
    rw [advance_runGet _ _ h₁ (by simp)]
    simp only [runGet, hnone, c₂]
  have hs₃ : c₂.advance i response result = some c₃ := by
    have hnone : (c₂.node call.node).hotCache call.key = none := hhot
    rw [advance_runGet _ _ h₂ (by simp)]
    simp only [runGet, hnone, c₃]
  have hs₄ : c₃.advance i response result = some c₄ := by
    have hfound : (c₃.node call.node).topology.routing.lookupPeer call.key = .ok found := hl
    rw [advance_runGet _ _ h₃ (by simp)]
    simp only [runGet, hfound, c₄]
  have hs₅ : c₄.advance i response result = some c₅ := by
    have hnone : (c₄.node call.node).singleFlightGroup call.key = none := hgroup
    rw [advance_runGet _ _ h₄ (by simp)]
    simp only [runGet, getDeduped, hnone]
    rfl
  refine ⟨c₅, waiting, .head hs₁ (.head hs₂ (.head hs₃ (.head hs₄ (.single hs₅)))), ?_, ?_⟩
  · exact ⟨rfl, fun m => mainCache_setFlightOf, fun m => hotCache_setFlightOf⟩
  · exact ⟨Table.set_self h₄, rfl, List.getElem?_concat_length⟩

/-! ## In the flight -/

theorem WaitsOn.advance_eq (h : c.WaitsOn i f call flight) :
    c.advance i response result = match flight.phase with
      | .loading _ => c.step (.load f result)
      | .awaiting _ => some (c.receiveGet f flight response)
      | .ended _ => c.runGet i call
      | _ => c.runFlight f flight := by
  simp only [advance, h.get, h.waiting, h.flight, step, Option.bind_some]

omit [ValueBounds Value] in
/-- The flight goes on, the call waits. -/
theorem WaitsOn.next (h : c.WaitsOn i f call flight) {flight' : Flight Value}
    (hgets : c'.gets[i]? = c.gets[i]?) (hflights : c'.flights = c.flights.set f flight') :
    c'.WaitsOn i f call flight' where
  get := hgets.trans h.get
  waiting := h.waiting
  flight := by
    rw [hflights]
    exact Table.set_self h.flight

/-- It sends its request to the peer. -/
theorem WaitsOn.send (h : c.WaitsOn i f call flight) (hp : flight.phase = .opened)
    {client : GroupcachePeerClient} (hne : flight.peer.peer ≠ flight.node)
    (hc : flight.peer.client = some client) :
    ∃ c' : Cluster Value, c.advance i response result = some c' ∧ c.Keeps c' ∧
      c'.WaitsOn i f call
        { flight with request := some c.gets.length, phase := .awaiting c.gets.length } := by
  refine ⟨c.sendGet f flight client, ?_, ⟨rfl, fun _ => rfl, fun _ => rfl⟩, ?_⟩
  · rw [h.advance_eq, hp]
    simp only [runFlight, hp, GroupcachePeerWithClient.dispatch, if_neg hne, hc]
  · exact h.next (Table.append_of_some h.get |>.trans h.get.symm) rfl

/-- It receives the answer, and goes on by what `load_remotely` makes of it. -/
theorem WaitsOn.receive (h : c.WaitsOn i f call flight) {request : Nat}
    (hp : flight.phase = .awaiting request) :
    ∃ c' : Cluster Value, c.advance i response result = some c' ∧ c.Keeps c' ∧
      c'.WaitsOn i f call { flight with
        phase := match loadRemotely response with
          | some (.ok loaded) => .insertHot loaded
          | some (.error _) => .remoteFailed
          | none => .panicked "called `Option::unwrap()` on a `None` value" } := by
  refine ⟨c.receiveGet f flight response, ?_, ?_, ?_⟩
  · rw [h.advance_eq, hp]
  · unfold receiveGet
    split <;> exact ⟨rfl, fun _ => rfl, fun _ => rfl⟩
  · unfold receiveGet
    rcases (loadRemotely response : Option (GetResult Value)) with _ | _ | _ <;>
      exact h.next rfl rfl

/-- From its beginning to the answer of the peer. -/
theorem leads_receive {found : GroupcachePeerWithClient} {client : GroupcachePeerClient}
    (hcall : c.gets[i]? = some call) (hp : call.phase = .called)
    (hmain : (c.node call.node).mainCache call.key = none)
    (hhot : (c.node call.node).hotCache call.key = none)
    (hgroup : (c.node call.node).singleFlightGroup call.key = none)
    (hl : (c.node call.node).topology.routing.lookupPeer call.key = .ok found)
    (hne : found.peer ≠ call.node) (hc : found.client = some client) :
    ∃ (c' : Cluster Value) (g : GetCall Value) (request : Nat),
      Leads (advance i response result) c c' ∧ c.Keeps c' ∧ c'.WaitsOn i c.flights.length g
        { node := call.node, key := call.key, peer := found, request := some request, load := none
          phase := match loadRemotely response with
            | some (.ok loaded) => .insertHot loaded
            | some (.error _) => .remoteFailed
            | none => .panicked "called `Option::unwrap()` on a `None` value" } := by
  obtain ⟨c₁, g, hopen, hkeeps₁, hwaits₁⟩ :=
    leads_open response result hcall hp hmain hhot hgroup hl
  obtain ⟨c₂, hsend, hkeeps₂, hwaits₂⟩ := hwaits₁.send response result rfl hne hc
  obtain ⟨c₃, hreceive, hkeeps₃, hwaits₃⟩ := hwaits₂.receive response result rfl
  exact ⟨c₃, g, _, hopen.trans (.head hsend (.single hreceive)),
    (hkeeps₁.trans hkeeps₂).trans hkeeps₃, hwaits₃⟩

/-- The run ends in the flight's panic where the answer has no value. -/
theorem WaitsOn.advance_panicked {message : String} (h : c.WaitsOn i f call flight)
    (hp : flight.phase = .panicked message) : c.advance i response result = none := by
  rw [h.advance_eq, hp]
  simp only [runFlight, hp]

/-- The peer's value goes into the hot cache. -/
theorem WaitsOn.insertHot (h : c.WaitsOn i f call flight) {loaded : Loaded Value}
    (hp : flight.phase = .insertHot loaded) :
    ∃ c' : Cluster Value, c.advance i response result = some c' ∧ c'.loads = c.loads ∧
      (∀ m, (c'.node m).mainCache = (c.node m).mainCache) ∧
      (∀ m k, (c'.node m).hotCache k = if m = flight.node ∧ k = flight.key
        then some { loaded, flight := f } else (c.node m).hotCache k) ∧
      c'.WaitsOn i f call { flight with phase := .ending (.ok loaded) } := by
  refine ⟨(c.setHotCache flight.node flight.key (some { loaded, flight := f })).setFlight f
    { flight with phase := .ending (.ok loaded) }, ?_, rfl, fun _ => mainCache_setHotCache,
    fun _ _ => hotCache_setHotCache, h.next rfl rfl⟩
  rw [h.advance_eq, hp]
  simp only [runFlight, hp]

/-- It makes a load of its own, once, and caches nothing. -/
theorem WaitsOn.fallBack (h : c.WaitsOn i f call flight) (hp : flight.phase = .remoteFailed)
    (hne : flight.peer.peer ≠ flight.node) :
    ∃ (c' : Cluster Value) (flight' : Flight Value), Leads (advance i response result) c c' ∧
      c'.loads = c.loads ++ [{ node := flight.node, key := flight.key, flight := f
                               result := some result }] ∧
      (∀ m, (c'.node m).mainCache = (c.node m).mainCache) ∧
      (∀ m, (c'.node m).hotCache = (c.node m).hotCache) ∧
      c'.WaitsOn i f call flight' ∧ flight'.phase = .ending
        (match result with
          | .ok value => .ok { value, load := c.loads.length }
          | .error e => .error (.localLoader e)) := by
  let loading : Flight Value :=
    { flight with load := some c.loads.length, phase := .loading c.loads.length }
  have hwaits : (c.startLoad f flight).WaitsOn i f call loading := h.next rfl rfl
  have hstart : c.advance i response result = some (c.startLoad f flight) := by
    rw [h.advance_eq, hp]
    simp only [runFlight, hp]
  let ending : Flight Value := { loading with phase := loading.afterLoad c.loads.length result }
  let c' := (c.startLoad f flight).finishLoad f loading c.loads.length result
  have hload : (c.startLoad f flight).advance i response result = some c' := by
    rw [hwaits.advance_eq]
    simp only [loading, step, hwaits.flight, c']
  have hnext : c'.WaitsOn i f call ending := by
    cases result <;> exact hwaits.next rfl rfl
  have hloads : c'.loads = c.loads ++ [{ node := flight.node, key := flight.key, flight := f
                                         result := some result }] := by
    have hmodify := Table.modify_concat c.loads
      { node := flight.node, key := flight.key, flight := f, result := none }
      fun l : LoadCall Value => { l with result := some result }
    cases result <;> exact hmodify
  refine ⟨c', ending, .head hstart (.single hload), hloads, ?_, ?_, hnext, ?_⟩
  · cases result <;> exact fun _ => rfl
  · cases result <;> exact fun _ => rfl
  · cases result with
    | ok value => exact if_neg hne
    | error e => rfl

/-- It ends, and the call returns what it has ended with. -/
theorem WaitsOn.finish (h : c.WaitsOn i f call flight) {r : GetResult Value}
    (hp : flight.phase = .ending r) :
    ∃ c' : Cluster Value, Ends (advance i response result) c c' ∧ c.Keeps c' ∧
      ∃ g, c'.gets[i]? = some g ∧ g.phase = .returned (r.mapError .deduped) := by
  let c₁ := (c.setFlightOf flight.node flight.key none).setFlight f
    { flight with phase := .ended r }
  have hwaits : c₁.WaitsOn i f call { flight with phase := .ended r } := h.next rfl rfl
  have hs₁ : c.advance i response result = some c₁ := by
    rw [h.advance_eq, hp]
    simp only [runFlight, hp, c₁]
  let returned : GetCall Value := { call with phase := .returned (r.mapError .deduped) }
  have hs₂ : c₁.advance i response result = some (c₁.setGet i returned) := by
    rw [hwaits.advance_eq]
    simp only [runGet, hwaits.waiting, hwaits.flight, returned]
  have hget : (c₁.setGet i returned).gets[i]? = some returned := Table.set_self hwaits.get
  have hstop : (c₁.setGet i returned).advance i response result = none := by
    rw [advance_runGet _ _ hget (by simp [returned])]
    rfl
  refine ⟨c₁.setGet i returned, ⟨.head hs₁ (.single hs₂), hstop⟩, ?_, returned, hget, rfl⟩
  exact ⟨rfl, fun _ => mainCache_setFlightOf, fun _ => hotCache_setFlightOf⟩

end Cluster

/-! ## What covers every answer, and what does not -/

omit [Platform] in
theorem loadRemotely_of_decoded {response : Except Status GetResponse} {loaded : Loaded Value}
    (h : decoded response = some loaded) : loadRemotely response = some (.ok loaded) := by
  unfold decoded at h
  split at h
  · cases hread : (ValueBounds.fromRead _ : Except String Value) with
    | error e =>
        rw [hread] at h
        cases h
    | ok value =>
        rw [hread] at h
        cases h
        simp only [loadRemotely, hread]
  · cases h

omit [Platform] in
/-- An answer without a value that decodes fails, or it has none at all. -/
theorem loadRemotely_of_not_decoded {response : Except Status GetResponse}
    (h : (decoded response : Option (Loaded Value)) = none)
    (hvalue : ¬ ∃ r, response = .ok r ∧ r.value = none) :
    ∃ e, loadRemotely response = (some (.error e) : Option (GetResult Value)) := by
  cases response with
  | error status => exact ⟨_, rfl⟩
  | ok r =>
      obtain ⟨value, load⟩ := r
      cases value with
      | none => exact absurd ⟨_, rfl, rfl⟩ hvalue
      | some bytes =>
          cases hread : (ValueBounds.fromRead bytes : Except String Value) with
          | ok value =>
              simp only [decoded, hread] at h
              cases h
          | error e =>
              refine ⟨.rmp e, ?_⟩
              simp only [loadRemotely, hread]

/-- **A call is covered against every answer but one without a value.** The
call runs alone from its beginning, misses both caches and finds another node
with a client. -/
theorem local_fallback {i : Nat} {call : GetCall Value} {found : GroupcachePeerWithClient}
    {client : GroupcachePeerClient} (hcall : c.gets[i]? = some call) (hp : call.phase = .called)
    (hmain : (c.node call.node).mainCache call.key = none)
    (hhot : (c.node call.node).hotCache call.key = none)
    (hgroup : (c.node call.node).singleFlightGroup call.key = none)
    (hl : (c.node call.node).topology.routing.lookupPeer call.key = .ok found)
    (hne : found.peer ≠ call.node) (hc : found.client = some client)
    (response : Except Status GetResponse) (result : Except String Value) :
    (∃ c', Ends (Cluster.advance i response result) c c' ∧
      c.Covers c' i call response result) ↔ ¬ ∃ r, response = .ok r ∧ r.value = none := by
  obtain ⟨c₁, g, request, hlead, hkeeps, hwaits⟩ :=
    Cluster.leads_receive response result hcall hp hmain hhot hgroup hl hne hc
  constructor
  · -- an answer without a value ends the run in the flight's panic
    rintro ⟨c', hends, hcovers⟩ ⟨⟨_, load⟩, rfl, rfl⟩
    obtain rfl := hends.unique ⟨hlead, hwaits.advance_panicked _ _ rfl⟩
    obtain ⟨⟨g', hg', hret⟩, _⟩ := hcovers.otherwise rfl
    cases hg'.symm.trans hwaits.get
    cases hwaits.waiting.symm.trans hret
  · intro hvalue
    cases hd : (decoded response : Option (Loaded Value)) with
    | some loaded =>
        rw [loadRemotely_of_decoded hd] at hwaits
        obtain ⟨c₂, hinsert, hloads, hmain₂, hhot₂, hwaits₂⟩ :=
          hwaits.insertHot response result rfl
        obtain ⟨c₃, hends, hkeeps₃, g', hg', hret⟩ := hwaits₂.finish response result rfl
        refine ⟨c₃, ⟨hlead.trans (.head hinsert hends.1), hends.2⟩, ?_, ?_, ?_⟩
        · intro x hx
          cases hd.symm.trans hx
          refine ⟨⟨g', hg', hret⟩, ?_, fun m => ?_, fun m k => ?_⟩
          · rw [hkeeps₃.loads, hloads, hkeeps.loads]
          · rw [hkeeps₃.main, hmain₂, hkeeps.main]
          · rw [hkeeps₃.hot, hhot₂, hkeeps.hot]
        · intro hnone
          cases hd.symm.trans hnone
        · exact fun _ => ⟨g', loaded, hg', hret⟩
    | none =>
        obtain ⟨e, he⟩ := loadRemotely_of_not_decoded hd hvalue
        rw [he] at hwaits
        obtain ⟨c₂, flight, hfall, hloads, hmain₂, hhot₂, hwaits₂, hending⟩ :=
          hwaits.fallBack response result rfl hne
        obtain ⟨c₃, hends, hkeeps₃, g', hg', hret⟩ := hwaits₂.finish response result hending
        refine ⟨c₃, ⟨(hlead.trans hfall).trans hends.1, hends.2⟩, ?_, ?_, ?_⟩
        · intro x hx
          cases hd.symm.trans hx
        · intro _
          refine ⟨⟨g', hg', ?_⟩, ?_, fun m => ?_, fun m => ?_⟩
          · rw [hret, hkeeps.loads]
            cases result <;> rfl
          · rw [hkeeps₃.loads, hloads, hkeeps.loads]
          · rw [hkeeps₃.main, hmain₂, hkeeps.main]
          · rw [hkeeps₃.hot, hhot₂, hkeeps.hot]
        · rintro ⟨value, rfl⟩
          exact ⟨g', _, hg', hret⟩

omit [Platform] [ValueBounds Value] in
/-- The value that the peer sends does not decode. -/
theorem local_fallback_sample :
    let _ : Platform := Concrete.platform [Concrete.node 8001, Concrete.node 8002]
    let _ : ValueBounds UInt8 := Concrete.messagePack
    let call : GetCall UInt8 :=
      { node := Concrete.node 8001, key := "127.0.0.1:8002_0", origin := none, flight := none
        phase := .called }
    let c : Cluster UInt8 := { Cluster.start Concrete.paired with gets := [call] }
    let response : Except Status GetResponse := .ok { value := some [0xc1], load := 0 }
    ∃ c', Ends (Cluster.advance 0 response (.ok 7)) c c' ∧
      c.Covers c' 0 call response (.ok 7) := by
  intro _ _ call c response
  obtain ⟨hl, -⟩ := Concrete.lookupPeer_paired
  have hcall : c.gets[0]? = some call := rfl
  refine (local_fallback hcall rfl rfl rfl rfl hl (by decide) rfl response (.ok 7)).mpr ?_
  rintro ⟨r, hr, hnone⟩
  rw [← Except.ok.inj hr] at hnone
  cases hnone

omit [Platform] [ValueBounds Value] in
/-- **A call is not covered against an answer without a value**: its flight
panics before it has loaded anything. -/
theorem fallback_unwraps_none :
    let _ : Platform := Concrete.platform [Concrete.node 8001, Concrete.node 8002]
    let _ : ValueBounds UInt8 := Concrete.messagePack
    let call : GetCall UInt8 :=
      { node := Concrete.node 8001, key := "127.0.0.1:8002_0", origin := none, flight := none
        phase := .called }
    let c : Cluster UInt8 := { Cluster.start Concrete.paired with gets := [call] }
    let response : Except Status GetResponse := .ok { value := none, load := 0 }
    (∃ c' fl, Ends (Cluster.advance 0 response (.ok 7)) c c' ∧ c'.loads = [] ∧
      c'.flights[0]? = some fl ∧
      fl.phase = .panicked "called `Option::unwrap()` on a `None` value") ∧
    ¬ ∃ c', Ends (Cluster.advance 0 response (.ok 7)) c c' ∧
      c.Covers c' 0 call response (.ok 7) := by
  intro _ _ call c response
  obtain ⟨hl, -⟩ := Concrete.lookupPeer_paired
  have hcall : c.gets[0]? = some call := rfl
  obtain ⟨c₁, g, request, hlead, hkeeps, hwaits⟩ :=
    Cluster.leads_receive response (.ok 7) hcall rfl rfl rfl rfl hl (by decide) rfl
  have hends : Ends (Cluster.advance 0 response (.ok 7)) c c₁ :=
    ⟨hlead, hwaits.advance_panicked _ _ rfl⟩
  refine ⟨⟨c₁, _, hends, hkeeps.loads, hwaits.flight, rfl⟩, ?_⟩
  rintro ⟨c', hends', hcovers⟩
  obtain rfl := hends'.unique hends
  obtain ⟨⟨g', hg', hret⟩, _⟩ := hcovers.otherwise rfl
  cases hg'.symm.trans hwaits.get
  cases hwaits.waiting.symm.trans hret

end Groupcache
