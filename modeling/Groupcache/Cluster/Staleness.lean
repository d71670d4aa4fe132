import Groupcache.Cluster.Draining
import Groupcache.Cluster.Sharding

/-!
# What is left of a removed value

A `remove` clears the caches of the owner and of the nodes on its way there.
Copies on other nodes stay, in their hot caches or left over from when they
were the owner. They do not spread: once a `remove` has returned Ok and nothing
is in progress for the key, a call of `get` returns a value loaded later, or
the copy that its own node had then (`stale_copies_stay_put`).
-/

namespace Groupcache

open Concrete Transition

variable [Platform] {Value : Type} [ValueBounds Value] {U : Set GroupcachePeer}
  {M : Finset GroupcachePeer} {owner : GroupcachePeer} {key : String}
  {c₀ c₁ c c' : Cluster Value} {a : Action Value}

/-- No call of `get` for the key. -/
def Action.NotGet (key : String) : Action Value → Prop
  | .get _ k => k ≠ key
  | _ => True

omit [Platform] in
instance (key : String) (a : Action Value) : Decidable (a.NotGet key) :=
  match a with
  | .get _ k => inferInstanceAs (Decidable (k ≠ key))
  | .remove .. | .runGet _ | .runFlight _ | .runRemove _ | .load .. | .failGet .. | .failRemove ..
  | .evictMain .. | .evictHot .. | .topology .. => isTrue trivial

/-- A cache of node `n` has the value. -/
def Cluster.Holds (c : Cluster Value) (n : GroupcachePeer) (key : String)
    (loaded : Loaded Value) : Prop :=
  ∃ e, ((c.node n).mainCache key = some e ∨ (c.node n).hotCache key = some e) ∧ e.loaded = loaded

/-- What a call of `get` is about to return it was before, or it has found it
in a cache of its node, or its flight has ended with it. -/
theorem Move.hit_cases (m : Move c a c') {i : Nat} {g : GetCall Value} {loaded : Loaded Value}
    (hg : c'.gets[i]? = some g) (hp : g.phase = .hit loaded ∨ g.phase = .returned (.ok loaded)) :
    ∃ old, c.gets[i]? = some old ∧ g.node = old.node ∧ g.key = old.key ∧
      ((old.phase = .hit loaded ∨ old.phase = .returned (.ok loaded)) ∨
        (∃ e, (c.node old.node).mainCache old.key = some e ∧ e.loaded = loaded) ∨
        (a = .runGet i ∧ ∃ e, (c.node old.node).hotCache old.key = some e ∧ e.loaded = loaded) ∨
        ∃ f fl, old.phase = .waiting f ∧ c.flights[f]? = some fl ∧
          fl.phase = .ended (.ok loaded)) := by
  cases m with
  | get node k =>
      rcases Table.append_cases hg with hg | ⟨_, rfl⟩
      · exact ⟨g, hg, rfl, rfl, .inl hp⟩
      · rcases hp with hp | hp <;> cases hp
  | getStep metrics hx hs =>
      rcases Table.set_cases hg with ⟨rfl, rfl⟩ | ⟨_, hg⟩
      · refine ⟨_, hx, hs.same.1, hs.same.2, ?_⟩
        cases hs with
        | @mainHit e _ he =>
            rcases hp with hp | hp <;> cases hp
            exact .inr (.inl ⟨e, he, rfl⟩)
        | @hotHit e _ he =>
            rcases hp with hp | hp <;> cases hp
            exact .inr (.inr (.inl ⟨rfl, e, he, rfl⟩))
        | hit hhit =>
            rcases hp with hp | hp <;> cases hp
            exact .inl (.inl hhit)
        | @shared f fl result hwait hf hend =>
            cases result with
            | error e => rcases hp with hp | hp <;> cases hp
            | ok sent =>
                rcases hp with hp | hp <;> cases hp
                exact .inr (.inr (.inr ⟨f, fl, hwait, hf, hend⟩))
        | _ => rcases hp with hp | hp <;> cases hp
      · exact ⟨g, hg, rfl, rfl, .inl hp⟩
  | openFlight hx =>
      rcases Table.set_cases hg with ⟨_, rfl⟩ | ⟨_, hg⟩
      · rcases hp with hp | hp <;> cases hp
      · exact ⟨g, hg, rfl, rfl, .inl hp⟩
  | sendGet metrics hf =>
      rcases Table.append_cases hg with hg | ⟨_, rfl⟩
      · exact ⟨g, hg, rfl, rfl, .inl hp⟩
      · rcases hp with hp | hp <;> cases hp
  | _ => exact ⟨g, hg, rfl, rfl, .inl hp⟩

/-! ## Clearing the owner -/

/-- Neither cache of the node has the key. -/
def Cluster.Cleared (c : Cluster Value) (n : GroupcachePeer) (key : String) : Prop :=
  (c.node n).mainCache key = none ∧ (c.node n).hotCache key = none

instance (c : Cluster Value) (n : GroupcachePeer) (key : String) : Decidable (c.Cleared n key) :=
  decidable_of_iff (((c.node n).mainCache key).isNone ∧ ((c.node n).hotCache key).isNone)
    (and_congr Option.isNone_iff_eq_none Option.isNone_iff_eq_none)

/-- What a call of `remove` made since has cleared at the owner. -/
structure RemoveCall.ClearsOwner (key : String) (owner : GroupcachePeer) (old : Nat)
    (c : Cluster Value) (r : RemoveCall) : Prop where
  clearing : r.phase = .clearMain → r.node = owner
  awaiting : ∀ j, r.phase = .awaiting j → old ≤ j
  hot : r.node = owner → r.phase = .routing ∨ r.phase = .clearMain →
    (c.node owner).hotCache key = none
  done : r.phase = .returned (.ok ()) → c.Cleared owner key

/-- No call of `get` goes on, and the calls of `remove` made since `c₀` clear
the owner. -/
structure Cluster.ClearsOwner (key : String) (owner : GroupcachePeer) (c c₀ : Cluster Value) :
    Prop where
  gets : ∀ (i : Nat) (g : GetCall Value), c.gets[i]? = some g → g.key = key →
    ∃ result, g.phase = .returned result
  flights : ∀ (f : Nat) (fl : Flight Value), c.flights[f]? = some fl → fl.key = key →
    ∃ result, fl.phase = .ended result
  removes : ∀ (i : Nat) (r : RemoveCall), c₀.removes.length ≤ i → c.removes[i]? = some r →
    r.key = key → r.ClearsOwner key owner c₀.removes.length c

namespace Cluster.ClearsOwner

omit [ValueBounds Value] in
theorem start (hidle : c.IdleFor key) : c.ClearsOwner key owner c where
  gets := hidle.gets
  flights := hidle.flights
  removes _ _ hi hr := absurd (Table.lt_of_getElem? hr) (Nat.not_lt_of_le hi)

theorem step_gets (h : c.ClearsOwner key owner c₀) (m : Move c a c') (hnot : a.NotGet key) (i : Nat)
    (g : GetCall Value) (hg : c'.gets[i]? = some g) (hk : g.key = key) :
    ∃ result, g.phase = .returned result := by
  cases m with
  | get node k =>
      rcases Table.append_cases hg with hg | ⟨_, rfl⟩
      · exact h.gets i g hg hk
      · exact absurd hk hnot
  | getStep metrics hx hs =>
      rcases Table.set_cases hg with ⟨_, rfl⟩ | ⟨_, hg⟩
      · obtain ⟨result, hret⟩ := h.gets _ _ hx (hs.same.2 ▸ hk)
        cases hs <;> simp_all
      · exact h.gets i g hg hk
  | openFlight hx hp =>
      rcases Table.set_cases hg with ⟨_, rfl⟩ | ⟨_, hg⟩
      · obtain ⟨result, hret⟩ := h.gets _ _ hx hk
        cases hp.symm.trans hret
      · exact h.gets i g hg hk
  | sendGet metrics hf hp =>
      rcases Table.append_cases hg with hg | ⟨_, rfl⟩
      · exact h.gets i g hg hk
      · obtain ⟨result, hend⟩ := h.flights _ _ hf hk
        cases hp.symm.trans hend
  | _ => exact h.gets i g hg hk

theorem step_flights (h : c.ClearsOwner key owner c₀) (hinv : c.Inv) (m : Move c a c') (f : Nat)
    (fl : Flight Value) (hf : c'.flights[f]? = some fl) (hk : fl.key = key) :
    ∃ result, fl.phase = .ended result := by
  rcases m.flight_cases hf with ⟨old, hold, _, holdk, _⟩ | ⟨i, g, hg, hp, _, hgk⟩
  · obtain ⟨result, hend⟩ := h.flights f old hold (holdk.symm.trans hk)
    obtain rfl : fl = old := Option.some.inj (hf.symm.trans (m.ended hinv hold hend))
    exact ⟨result, hend⟩
  · obtain ⟨result, hret⟩ := h.gets i g hg (hgk.symm.trans hk)
    cases hp.symm.trans hret

/-- What is cleared stays so: no flight for the key inserts anything. -/
theorem step_cleared (h : c.ClearsOwner key owner c₀) (m : Move c a c') (n : GroupcachePeer) :
    ((c.node n).mainCache key = none → (c'.node n).mainCache key = none) ∧
      ((c.node n).hotCache key = none → (c'.node n).hotCache key = none) := by
  constructor
  · intro hnone
    rcases m.main_cases n key with hsame | ⟨f, fl, _, _, hf, hp, _, hk, _⟩ | ⟨hnone', _⟩
    · rw [hsame, hnone]
    · obtain ⟨result, hend⟩ := h.flights f fl hf hk
      cases hp.symm.trans hend
    · exact hnone'
  · intro hnone
    rcases m.hot_cases n key with hsame | hnone' | ⟨f, fl, _, _, hf, hp, _, hk, _⟩
    · rw [hsame, hnone]
    · exact hnone'
    · obtain ⟨result, hend⟩ := h.flights f fl hf hk
      cases hp.symm.trans hend

/-- What a call has cleared is still so after a step of another. -/
theorem keep (h : c.ClearsOwner key owner c₀) (m : Move c a c') {r : RemoveCall} {old : Nat}
    (hr : r.ClearsOwner key owner old c) : r.ClearsOwner key owner old c' where
  clearing := hr.clearing
  awaiting := hr.awaiting
  hot hn hp := (h.step_cleared m owner).2 (hr.hot hn hp)
  done hp :=
    ⟨(h.step_cleared m owner).1 (hr.done hp).1, (h.step_cleared m owner).2 (hr.done hp).2⟩

theorem step_removes (h : c.ClearsOwner key owner c₀) (hkeeps : c.KeepsTo U M key owner c₀)
    (hwait : c.RemovesWait) (hU : Addressable U) (hM : ∀ n ∈ M, n ∈ U)
    (howner : Owner M key owner) (m : Move c a c') (i : Nat) (r : RemoveCall)
    (hi : c₀.removes.length ≤ i) (hr : c'.removes[i]? = some r) (hk : r.key = key) :
    r.ClearsOwner key owner c₀.removes.length c' := by
  have hkeep := fun {r : RemoveCall} (hr : r.ClearsOwner key owner c₀.removes.length c) =>
    h.keep m hr
  cases m with
  | remove node k =>
      rcases Table.append_cases hr with hr | ⟨_, rfl⟩
      · exact hkeep (h.removes i r hi hr hk)
      · exact ⟨nofun, nofun, nofun, nofun⟩
  | @removeStep j x x' hx hs =>
      rcases Table.set_cases hr with ⟨rfl, rfl⟩ | ⟨_, hr⟩
      · cases hs with
        | received => exact ⟨nofun, nofun, nofun, nofun⟩
        | @owned peer hp hl hd =>
            -- only the owner finds itself
            have hx' := h.removes i x hi hx hk
            have hnode := (hkeeps.removes i x hi hx hk).node
            have hto := (Cluster.KeepsTo.finds hkeeps.forwarding hkeeps.agrees hU hM howner
              hnode).toOwner (hk ▸ hl)
            have hown : x.node = owner := by
              unfold GroupcachePeerWithClient.dispatch at hd
              split at hd
              · exact (‹peer.peer = x.node›).symm.trans hto.names
              · split at hd <;> cases hd
            exact ⟨fun _ => hown, nofun, fun _ _ => hx'.hot hown (.inl hp), nofun⟩
        | unrouted => exact ⟨nofun, nofun, nofun, nofun⟩
        | panicked => exact ⟨nofun, nofun, nofun, nofun⟩
        | @answered request callee result hp hcallee hret =>
            refine ⟨nofun, nofun, nofun, fun hok => ?_⟩
            -- the callee has returned Ok
            obtain ⟨x'', hx'', horigin⟩ := hwait.awaiting i x request hx hp
            obtain rfl : callee = x'' := Option.some.inj (hcallee.symm.trans hx'')
            obtain ⟨caller, hcaller, hck, _⟩ :=
              (hkeeps.forwarding.removes request callee hcallee).2 i horigin
            obtain rfl : x = caller := Option.some.inj (hx.symm.trans hcaller)
            have hnew := (h.removes i x hi hx hk).awaiting request hp
            cases result with
            | error e => cases hok
            | ok => exact (h.removes request callee hnew hcallee (hck.trans hk)).done hret
      · exact hkeep (h.removes i r hi hr hk)
  | lostRemove status hx =>
      rcases Table.set_cases hr with ⟨rfl, rfl⟩ | ⟨_, hr⟩
      · exact ⟨nofun, nofun, nofun, nofun⟩
      · exact hkeep (h.removes i r hi hr hk)
  | @clearHot j x hx hp =>
      rcases Table.set_cases hr with ⟨rfl, rfl⟩ | ⟨_, hr⟩
      · refine ⟨nofun, nofun, fun hown _ => ?_, nofun⟩
        show ((c.setHotCache x.node x.key none).node owner).hotCache key = none
        rw [Cluster.hotCache_setHotCache, if_pos ⟨hown.symm, hk.symm⟩]
      · exact hkeep (h.removes i r hi hr hk)
  | @clearMain j x hx hp =>
      rcases Table.set_cases hr with ⟨rfl, rfl⟩ | ⟨_, hr⟩
      · refine ⟨nofun, nofun, nofun, fun _ => ?_⟩
        have hx' := h.removes i x hi hx hk
        have hown := hx'.clearing hp
        refine ⟨?_, (h.step_cleared (.clearMain hx hp) owner).2 (hx'.hot hown (.inr hp))⟩
        show ((c.setMainCache x.node x.key none).node owner).mainCache key = none
        rw [Cluster.mainCache_setMainCache, if_pos ⟨hown.symm, hk.symm⟩]
      · exact hkeep (h.removes i r hi hr hk)
  | sendRemove hx =>
      rcases Table.append_cases hr with hr | ⟨_, rfl⟩
      · rcases Table.set_cases hr with ⟨rfl, rfl⟩ | ⟨_, hr⟩
        · refine ⟨nofun, fun j hj => ?_, nofun, nofun⟩
          cases hj
          exact hkeeps.grown.2.2
        · exact hkeep (h.removes i r hi hr hk)
      · exact ⟨nofun, nofun, nofun, nofun⟩
  | _ => exact hkeep (h.removes i r hi hr hk)

end Cluster.ClearsOwner

/-- The run so far, while no `get` for the key is called. -/
structure Cluster.Clearing (U : Set GroupcachePeer) (M : Finset GroupcachePeer) (key : String)
    (owner : GroupcachePeer) (c c₀ : Cluster Value) : Prop where
  keeps : c.KeepsTo U M key owner c₀
  waits : c.RemovesWait
  clears : c.ClearsOwner key owner c₀

theorem Cluster.Clearing.step (h : c.Clearing U M key owner c₀) (hU : Addressable U)
    (hM : ∀ n ∈ M, n ∈ U) (howner : Owner M key owner) (hguard : Settled U M c a)
    (hnot : a.NotGet key) (hs : c.step a = some c') : c'.Clearing U M key owner c₀ :=
  have m := Cluster.step_move hs
  { keeps := h.keeps.step hU hM howner hguard hs
    waits :=
      { panicked := h.waits.step_panicked hU h.keeps.forwarding hs
        awaiting := h.waits.step_awaiting m }
    clears :=
      { gets := h.clears.step_gets m hnot
        flights := h.clears.step_flights h.keeps.inv m
        removes := h.clears.step_removes h.keeps h.waits hU hM howner m } }

/-! ## What comes after -/

/-- Since `c₁`, whatever is new was loaded since. -/
structure Cluster.NoSpread (key : String) (c c₁ : Cluster Value) : Prop where
  grown : c₁.loads.length ≤ c.loads.length
  main : ∀ n e, (c.node n).mainCache key = some e →
    c₁.loads.length ≤ e.loaded.load ∨ (c₁.node n).mainCache key = some e
  hot : ∀ n e, (c.node n).hotCache key = some e →
    c₁.loads.length ≤ e.loaded.load ∨ (c₁.node n).hotCache key = some e
  gets : ∀ (i : Nat) (g : GetCall Value) loaded, c₁.gets.length ≤ i → c.gets[i]? = some g →
    g.key = key → g.phase = .hit loaded ∨ g.phase = .returned (.ok loaded) →
    c₁.loads.length ≤ loaded.load ∨ c₁.Holds g.node key loaded
  loads : ∀ (f : Nat) (fl : Flight Value) l, c₁.flights.length ≤ f → c.flights[f]? = some fl →
    fl.key = key → fl.load = some l → c₁.loads.length ≤ l
  requests : ∀ (f : Nat) (fl : Flight Value) i, c₁.flights.length ≤ f →
    c.flights[f]? = some fl → fl.key = key → fl.request = some i → c₁.gets.length ≤ i

namespace Cluster.NoSpread

omit [ValueBounds Value] in
theorem start : c.NoSpread key c where
  grown := Nat.le_refl _
  main _ _ he := .inr he
  hot _ _ he := .inr he
  gets _ _ _ hi hg := absurd (Table.lt_of_getElem? hg) (Nat.not_lt_of_le hi)
  loads _ _ _ hf hfl := absurd (Table.lt_of_getElem? hfl) (Nat.not_lt_of_le hf)
  requests _ _ _ hf hfl := absurd (Table.lt_of_getElem? hfl) (Nat.not_lt_of_le hf)

/-- The owner, which had no copy, answers with what was loaded since. -/
theorem answered (h : c.NoSpread key c₁) (hkeeps : c.KeepsTo U M key owner c₁)
    (hclear : c₁.Cleared owner key) {f request : Nat} {fl : Flight Value} {loaded : Loaded Value}
    (hnew : c₁.flights.length ≤ f) (hf : c.flights[f]? = some fl) (hk : fl.key = key)
    (hreq : fl.request = some request) (hanswer : Answered c request loaded) :
    c₁.loads.length ≤ loaded.load := by
  obtain ⟨_, g, hg, hown, hgk⟩ := hkeeps.request hnew hf hk hreq
  obtain ⟨g', result, hg', hret, hresp⟩ := hanswer
  obtain rfl : g = g' := Option.some.inj (hg.symm.trans hg')
  obtain ⟨sent, rfl, _, hload⟩ := loadRemotely_respondGet hresp
  rw [hload]
  rcases h.gets request g sent (h.requests f fl request hnew hf hk hreq) hg hgk (.inr hret) with
    hfresh | ⟨e, he, _⟩
  · exact hfresh
  · rw [hown, hclear.1, hclear.2] at he
    rcases he with he | he <;> cases he

theorem obtained (h : c.NoSpread key c₁) (hkeeps : c.KeepsTo U M key owner c₁)
    (hclear : c₁.Cleared owner key) {f : Nat} {fl : Flight Value} {loaded : Loaded Value}
    (hnew : c₁.flights.length ≤ f) (hf : c.flights[f]? = some fl) (hk : fl.key = key)
    (hobt : fl.Obtained c loaded) : c₁.loads.length ≤ loaded.load := by
  rcases hobt.2 with hload | ⟨_, request, hreq, hanswer⟩
  · exact h.loads f fl _ hnew hf hk hload
  · exact h.answered hkeeps hclear hnew hf hk hreq hanswer

/-- What a call gets from its flight was loaded since. -/
theorem shared (h : c.NoSpread key c₁) (hkeeps : c.KeepsTo U M key owner c₁)
    (hclear : c₁.Cleared owner key) {i f : Nat} {g : GetCall Value} {fl : Flight Value}
    {loaded : Loaded Value} (hi : c₁.gets.length ≤ i) (hg : c.gets[i]? = some g)
    (hk : g.key = key) (hwait : g.phase = .waiting f) (hf : c.flights[f]? = some fl)
    (hend : fl.phase = .ended (.ok loaded)) : c₁.loads.length ≤ loaded.load := by
  have hph := (hkeeps.inv.gets i g hg).phase
  rw [GetCall.PhaseOk, hwait] at hph
  obtain ⟨fl', hf', _, hflk⟩ := (hkeeps.inv.gets i g hg).flight f hph
  obtain rfl : fl = fl' := Option.some.inj (hf.symm.trans hf')
  have hnew := (hkeeps.gets i g hi hg hk).flight f hph
  have hobt := (hkeeps.inv.flights f fl hf).phase
  rw [Flight.PhaseOk, hend] at hobt
  exact h.obtained hkeeps hclear hnew hf (hflk.trans hk) (hobt _ rfl)

theorem step_main (h : c.NoSpread key c₁) (hkeeps : c.KeepsTo U M key owner c₁) (m : Move c a c')
    (n : GroupcachePeer) (e : Entry Value) (he : (c'.node n).mainCache key = some e) :
    c₁.loads.length ≤ e.loaded.load ∨ (c₁.node n).mainCache key = some e := by
  rcases m.main_cases n key with hsame | ⟨f, fl, loaded, _, hf, hp, _, hk, hins⟩ | ⟨hnone, _⟩
  · exact h.main n e (hsame ▸ he)
  · cases hins.symm.trans he
    have hph := (hkeeps.inv.flights f fl hf).phase
    rw [Flight.PhaseOk, hp] at hph
    exact .inl (h.loads f fl _ (hkeeps.new_flight hf hk (by simp [hp])) hf hk hph.2.1)
  · cases hnone.symm.trans he

/-- What is about to be put into a hot cache was loaded since. -/
theorem inserting (h : c.NoSpread key c₁) (hkeeps : c.KeepsTo U M key owner c₁)
    (hclear : c₁.Cleared owner key) {f : Nat} {fl : Flight Value} {loaded : Loaded Value}
    (hf : c.flights[f]? = some fl) (hp : fl.phase = .insertHot loaded) (hk : fl.key = key) :
    c₁.loads.length ≤ loaded.load := by
  have hph := (hkeeps.inv.flights f fl hf).phase
  rw [Flight.PhaseOk, hp] at hph
  obtain ⟨_, _, request, hreq, hanswer⟩ := hph
  have hnew := hkeeps.new_flight hf hk (by simp [hp])
  exact h.answered hkeeps hclear hnew hf hk hreq hanswer

theorem step_hot (h : c.NoSpread key c₁) (hkeeps : c.KeepsTo U M key owner c₁)
    (hclear : c₁.Cleared owner key) (m : Move c a c') (n : GroupcachePeer) (e : Entry Value)
    (he : (c'.node n).hotCache key = some e) :
    c₁.loads.length ≤ e.loaded.load ∨ (c₁.node n).hotCache key = some e := by
  rcases m.hot_cases n key with hsame | hnone | ⟨f, fl, loaded, _, hf, hp, _, hk, hins, _⟩
  · exact h.hot n e (hsame ▸ he)
  · cases hnone.symm.trans he
  · cases hins.symm.trans he
    exact .inl (h.inserting hkeeps hclear hf hp hk)

theorem step_gets (h : c.NoSpread key c₁) (hkeeps : c.KeepsTo U M key owner c₁)
    (hclear : c₁.Cleared owner key) (m : Move c a c') (i : Nat) (g : GetCall Value)
    (loaded : Loaded Value) (hi : c₁.gets.length ≤ i) (hg : c'.gets[i]? = some g)
    (hk : g.key = key) (hp : g.phase = .hit loaded ∨ g.phase = .returned (.ok loaded)) :
    c₁.loads.length ≤ loaded.load ∨ c₁.Holds g.node key loaded := by
  obtain ⟨old, hold, hn, hk', hfrom⟩ := m.hit_cases hg hp
  have hkey : old.key = key := hk'.symm.trans hk
  rw [hn]
  rcases hfrom with hold' | ⟨e, he, rfl⟩ | ⟨_, e, he, rfl⟩ | ⟨f, fl, hwait, hf, hend⟩
  · exact h.gets i old loaded hi hold hkey hold'
  · exact (h.main _ e (hkey ▸ he)).imp_right fun he => ⟨e, .inl he, rfl⟩
  · exact (h.hot _ e (hkey ▸ he)).imp_right fun he => ⟨e, .inr he, rfl⟩
  · exact .inl (h.shared hkeeps hclear hi hold hkey hwait hf hend)

theorem step (h : c.NoSpread key c₁) (hkeeps : c.KeepsTo U M key owner c₁)
    (hclear : c₁.Cleared owner key) (hs : c.step a = some c') : c'.NoSpread key c₁ := by
  have m := Cluster.step_move hs
  have hext := m.extends hkeeps.inv
  constructor
  case grown => exact h.grown.trans hext.loads.length_le
  case main => exact h.step_main hkeeps m
  case hot => exact h.step_hot hkeeps hclear m
  case gets => exact h.step_gets hkeeps hclear m
  case loads =>
    intro f fl l hnew hf hk hl
    rcases m.flight_becomes hf with hsame | ⟨_, _, _, _, _, _, _, hopen⟩ | ⟨old, hold, hnext⟩
    · exact h.loads f fl l hnew hsame hk hl
    · rw [hopen] at hl
      cases hl
    · have hold' := h.loads f old l hnew hold (hnext.same.2.1 ▸ hk)
      cases hnext with
      | alone hs => cases hs <;> exact hold' hl
      | startLoad =>
          cases hl
          exact h.grown
      | _ => exact hold' hl
  case requests =>
    intro f fl i hnew hf hk hreq
    rcases m.flight_becomes hf with hsame | ⟨_, _, _, _, _, _, _, hopen⟩ | ⟨old, hold, hnext⟩
    · exact h.requests f fl i hnew hsame hk hreq
    · rw [hopen] at hreq
      cases hreq
    · have hold' := h.requests f old i hnew hold (hnext.same.2.1 ▸ hk)
      cases hnext with
      | alone hs => cases hs <;> exact hold' hreq
      | sendGet =>
          cases hreq
          exact hkeeps.grown.1
      | _ => exact hold' hreq

end Cluster.NoSpread

/-! ## The result -/

/-- Since `c₁`, where the value was removed, what was loaded before comes only
from the copies that there were. -/
structure Cluster.StaysRemoved (key : String) (owner : GroupcachePeer) (c c₁ : Cluster Value) :
    Prop where
  cleared : c₁.Cleared owner key
  gets : ∀ (i : Nat) (g : GetCall Value) loaded, c₁.gets.length ≤ i → c.gets[i]? = some g →
    g.key = key → g.phase = .returned (.ok loaded) →
    c₁.loads.length ≤ loaded.load ∨ g.node ≠ owner ∧ c₁.Holds g.node key loaded
  main : ∀ n e, (c.node n).mainCache key = some e →
    c₁.loads.length ≤ e.loaded.load ∨ (c₁.node n).mainCache key = some e
  hot : ∀ n e, (c.node n).hotCache key = some e →
    c₁.loads.length ≤ e.loaded.load ∨ (c₁.node n).hotCache key = some e

/-- Until a `remove` has returned, where nothing was in progress for the key. -/
theorem Cluster.reaches_clearing (hU : Addressable U) (hM : ∀ n ∈ M, n ∈ U) (hne : M.Nonempty)
    (h₀ : Reaches Cluster.step (SerialTopology U) (.start .withLocalPeer) c₀)
    (hagrees : c₀.Agrees M) (hidle : c₀.IdleFor key)
    (h : Reaches Cluster.step (fun c a => Settled U M c a ∧ a.NotGet key) c₀ c) :
    ∃ owner, Owner M key owner ∧ c.Clearing U M key owner c₀ := by
  have hlive := Cluster.reaches_live hU h₀
  obtain ⟨owner, howner⟩ := hlive.forwarding.has_owner hagrees hU hM hne key
  refine ⟨owner, howner, h.invariant (I := fun c => c.Clearing U M key owner c₀) ?_ ?_⟩
  · exact ⟨.start hlive.outcomes.inv hlive.forwarding hagrees hidle, hlive.removes, .start hidle⟩
  · exact fun _ _ _ hi hg hs => hi.step hU hM howner hg.1 hg.2 hs

/-- **Stale copies stay where they are.** Among nodes that know the same
members, from where a `remove` has returned Ok, with no `get` for the key
meanwhile, a value loaded before is returned by no node but those that still
have it. -/
theorem stale_copies_stay_put (hU : Addressable U) (hM : ∀ n ∈ M, n ∈ U) (hne : M.Nonempty)
    (h₀ : Reaches Cluster.step (SerialTopology U) (.start .withLocalPeer) c₀)
    (hagrees : c₀.Agrees M) (hidle₀ : c₀.IdleFor key)
    (h₁ : Reaches Cluster.step (fun c a => Settled U M c a ∧ a.NotGet key) c₀ c₁)
    {i : Nat} {r : RemoveCall} (hi : c₀.removes.length ≤ i) (hr : c₁.removes[i]? = some r)
    (hk : r.key = key) (hok : r.phase = .returned (.ok ())) (hidle₁ : c₁.IdleFor key)
    (h : Reaches Cluster.step (Settled U M) c₁ c) :
    ∃ owner, Owner M key owner ∧ c.StaysRemoved key owner c₁ := by
  obtain ⟨owner, howner, hclearing⟩ := Cluster.reaches_clearing hU hM hne h₀ hagrees hidle₀ h₁
  have hclear := (hclearing.clears.removes i r hi hr hk).done hok
  obtain ⟨hkeeps, hspread⟩ : c.KeepsTo U M key owner c₁ ∧ c.NoSpread key c₁ := by
    refine h.invariant (I := fun c => c.KeepsTo U M key owner c₁ ∧ c.NoSpread key c₁)
      ⟨.start hclearing.keeps.inv hclearing.keeps.forwarding hclearing.keeps.agrees hidle₁,
        .start⟩ ?_
    exact fun _ _ _ hi hg hs => ⟨hi.1.step hU hM howner hg hs, hi.2.step hi.1 hclear hs⟩
  refine ⟨owner, howner, ?_⟩
  constructor
  case cleared => exact hclear
  case gets =>
    intro i g loaded hi hg hgk hret
    refine (hspread.gets i g loaded hi hg hgk (.inr hret)).imp_right fun hholds => ⟨?_, hholds⟩
    rintro hown
    obtain ⟨e, he, _⟩ := hholds
    rw [hown, hclear.1, hclear.2] at he
    rcases he with he | he <;> cases he
  case main => exact hspread.main
  case hot => exact hspread.hot

/-- Two nodes know each other and both cache a key of the second. -/
def bothCaching : List (Action UInt8) :=
  introduce ++ .get (node 8001) "127.0.0.1:8002_0" :: asks 0 0 7

omit [Platform] [ValueBounds Value] in
/-- The owner removes the key. The other node answers with its own copy, and
the owner loads the value again. -/
theorem stale_copies_stay_put_sample :
    let _ : Platform := host
    let _ : ValueBounds UInt8 := messagePack
    let M : Finset GroupcachePeer := {node 8001, node 8002}
    let key := "127.0.0.1:8002_0"
    ∃ c₁ c : Cluster UInt8, (∃ owner, Owner M key owner ∧ c.StaysRemoved key owner c₁) ∧
      ((c₁.node (node 8001)).hotCache key).map Entry.loaded = some { value := 7, load := 0 } ∧
      c₁.loads.length = 1 ∧
      c₁.gets.length = 2 ∧ c.Returned 2 (node 8001) { value := 7, load := 0 } ∧
      c.Returned 3 (node 8002) { value := 9, load := 1 } := by
  intro _ _ M key
  obtain ⟨c₀, h₀, c₁, h₁, c, h, hagrees, hidle₀, hidle₁, hfirst, ⟨r, hr, hk, hok⟩, hobs⟩ :
      let U : Set GroupcachePeer := {p | p ∈ [8001, 8002].map node}
      ∃ c₀ ∈ replay Cluster.step (SerialTopology U) (.start .withLocalPeer) bothCaching,
      ∃ c₁ ∈ replay Cluster.step (fun c a => Settled U M c a ∧ a.NotGet key) c₀
        (.remove (node 8002) key :: List.replicate 3 (.runRemove 0)),
      ∃ c ∈ replay Cluster.step (Settled U M) c₁
        (.get (node 8001) key :: List.replicate 4 (.runGet 2) ++
          .get (node 8002) key :: loads 3 2 9),
      c₀.Agrees M ∧ c₀.IdleFor key ∧ c₁.IdleFor key ∧ c₀.removes.length ≤ 0 ∧
      (∃ r ∈ c₁.removes[0]?, r.key = key ∧ r.isOk) ∧
      ((c₁.node (node 8001)).hotCache key).map Entry.loaded = some { value := 7, load := 0 } ∧
      c₁.loads.length = 1 ∧
      c₁.gets.length = 2 ∧ c.Returned 2 (node 8001) { value := 7, load := 0 } ∧
      c.Returned 3 (node 8002) { value := 9, load := 1 } := by
    decide +kernel +revert
  exact ⟨c₁, c, stale_copies_stay_put addressable_host mem_host (Finset.insert_nonempty _ _)
    (.of_replay h₀) hagrees hidle₀ (.of_replay h₁) hfirst hr hk (RemoveCall.isOk_iff.mp hok) hidle₁
    (.of_replay h), hobs⟩

end Groupcache
