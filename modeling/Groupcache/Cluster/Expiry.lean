import Groupcache.Cluster.Staleness

/-!
# The time to live of the hot caches (`options.rs`)

A hot cache drops an entry some time after it was inserted, 30 seconds by
default; main caches keep theirs. `Timed` is a cluster with a clock and the
times of these insertions, and its runs are runs of the cluster
(`Timed.reaches`). So the copies that a `remove` has left on other nodes are
gone that much later: a call of `get` begun then returns a value loaded since,
or a copy that its node has kept from when it was the owner
(`stale_copies_expire`).
-/

namespace Groupcache

open Concrete Transition

/-- `Duration::from_secs`, in nanoseconds. -/
def fromSecs (secs : Nat) : Nat := secs * 1000000000

def defaultHotCacheTimeToLive : Nat := fromSecs 30

/-- What `Options` has of the caches that a call can tell. -/
structure Options where
  hotCacheTimeToLive : Nat := defaultHotCacheTimeToLive

variable [Platform] {Value : Type} [ValueBounds Value] {U : Set GroupcachePeer}
  {M : Finset GroupcachePeer} {owner : GroupcachePeer} {key : String} {options : Options}

structure Timed (Value : Type) where
  cluster : Cluster Value
  now : Nat
  /-- When the entry of a hot cache was inserted. -/
  insertedAt : GroupcachePeer → String → Nat

inductive TimedAction (Value : Type) where
  | run (action : Action Value)
  | elapse (duration : Nat)

theorem Cluster.hotCache_inserted {c c' : Cluster Value} {f : Nat} {fl : Flight Value}
    {loaded : Loaded Value} (hf : c.flights[f]? = some fl) (hp : fl.phase = .insertHot loaded)
    (hs : c.step (.runFlight f) = some c') :
    (c'.node fl.node).hotCache fl.key = some { loaded, flight := f } := by
  simp only [Cluster.step, hf, Option.bind_some, Cluster.runFlight, hp] at hs
  cases hs
  show ((c.setHotCache fl.node fl.key _).node fl.node).hotCache fl.key = _
  rw [Cluster.hotCache_setHotCache, if_pos ⟨rfl, rfl⟩]

namespace Timed

def start (routing : GroupcachePeer → RoutingState) : Timed Value where
  cluster := .start routing
  now := 0
  insertedAt _ _ := 0

/-- The hot cache does not have the entry any more. -/
def Expired (options : Options) (t : Timed Value) (n : GroupcachePeer) (key : String) : Prop :=
  t.insertedAt n key + options.hotCacheTimeToLive ≤ t.now

instance (options : Options) (t : Timed Value) (n : GroupcachePeer) (key : String) :
    Decidable (t.Expired options n key) :=
  inferInstanceAs (Decidable (_ ≤ _))

/-- The caches as the action finds them: a call of `get` finds no entry that
has expired. -/
def found (options : Options) (t : Timed Value) : Action Value → Cluster Value
  | .runGet i =>
      match t.cluster.gets[i]? with
      | some call =>
          if t.Expired options call.node call.key then
            t.cluster.setHotCache call.node call.key none
          else t.cluster
      | none => t.cluster
  | _ => t.cluster

/-- The times after the action, which may be an insertion. -/
def stamp (t : Timed Value) (action : Action Value) (n : GroupcachePeer) (key : String) : Nat :=
  match action with
  | .runFlight f =>
      match t.cluster.flights[f]? with
      | some flight =>
          match flight.phase with
          | .insertHot _ =>
              if n = flight.node ∧ key = flight.key then t.now else t.insertedAt n key
          | _ => t.insertedAt n key
      | none => t.insertedAt n key
  | _ => t.insertedAt n key

def step (options : Options) (t : Timed Value) : TimedAction Value → Option (Timed Value)
  | .run action =>
      ((t.found options action).step action).map fun cluster =>
        { t with cluster, insertedAt := t.stamp action }
  | .elapse duration => some { t with now := t.now + duration }

/-- A guard on the cluster's steps, for those of a timed run. -/
def Meets (guard : Cluster Value → Action Value → Prop) (t : Timed Value) :
    TimedAction Value → Prop
  | .run action => guard t.cluster action
  | .elapse _ => True

instance (guard : Cluster Value → Action Value → Prop) [∀ c a, Decidable (guard c a)]
    (t : Timed Value) (a : TimedAction Value) : Decidable (t.Meets guard a) :=
  match a with
  | .run action => inferInstanceAs (Decidable (guard t.cluster action))
  | .elapse _ => isTrue trivial

variable {t t' : Timed Value} {action : Action Value} {guard : Cluster Value → Action Value → Prop}

omit [ValueBounds Value] in
/-- What an action finds is what is there, or what an eviction leaves of it. -/
theorem found_cases (options : Options) (t : Timed Value) (action : Action Value) :
    (∃ i call, action = .runGet i ∧ t.cluster.gets[i]? = some call ∧
      t.Expired options call.node call.key ∧
      t.found options action = t.cluster.setHotCache call.node call.key none) ∨
    t.found options action = t.cluster ∧ ∀ i call, action = .runGet i →
      t.cluster.gets[i]? = some call → ¬ t.Expired options call.node call.key := by
  cases action with
  | runGet i =>
      simp only [found]
      split
      · rename_i call hcall
        split
        · rename_i hexp
          exact .inl ⟨i, call, rfl, hcall, hexp, rfl⟩
        · rename_i hexp
          refine .inr ⟨rfl, fun j call' hj hcall' => ?_⟩
          cases hj
          cases hcall.symm.trans hcall'
          exact hexp
      · rename_i hnone
        refine .inr ⟨rfl, fun j call' hj hcall' => ?_⟩
        cases hj
        cases hnone.symm.trans hcall'
  | _ => exact .inr ⟨rfl, fun j call hj => by cases hj⟩

theorem found_reaches (hevict : ∀ c n key, guard c (.evictHot n key)) :
    Reaches Cluster.step guard t.cluster (t.found options action) := by
  rcases found_cases options t action with ⟨_, call, _, _, _, hfound⟩ | ⟨hsame, _⟩
  · rw [hfound]
    exact .single (hevict _ call.node call.key) rfl
  · rw [hsame]
    exact .refl

/-- **Timed runs are runs.** -/
theorem reaches (hevict : ∀ c n key, guard c (.evictHot n key)) (hget : ∀ c i, guard c (.runGet i))
    (h : Reaches (step options) (Meets guard) t t') :
    Reaches Cluster.step guard t.cluster t'.cluster := by
  refine h.project Timed.cluster ?_
  intro s s' a hg hs
  cases a with
  | elapse duration =>
      cases hs
      exact .refl
  | run action =>
      obtain ⟨cluster, hc, rfl⟩ := Option.map_eq_some_iff.mp hs
      refine .tail action (found_reaches hevict) ?_ hc
      rcases found_cases options s action with ⟨i, _, rfl, _⟩ | ⟨hsame, _⟩
      · exact hget _ i
      · rw [hsame]
        exact hg

omit [ValueBounds Value] in
/-- An entry that is found is in the cache, and if it is a call of `get` that
finds it, it has not expired. -/
theorem hot_found {n : GroupcachePeer} {e : Entry Value}
    (he : ((t.found options action).node n).hotCache key = some e) :
    (t.cluster.node n).hotCache key = some e ∧
      ∀ i call, action = .runGet i → t.cluster.gets[i]? = some call → call.node = n →
        call.key = key → ¬ t.Expired options n key := by
  rcases found_cases options t action with ⟨i, call, rfl, hcall, _, hfound⟩ | ⟨hsame, hvalid⟩
  · rw [hfound, Cluster.hotCache_setHotCache] at he
    split at he
    · cases he
    · rename_i hother
      refine ⟨he, fun j call' hj hcall' hn hk => ?_⟩
      cases hj
      cases hcall.symm.trans hcall'
      exact absurd ⟨hn.symm, hk.symm⟩ hother
  · rw [hsame] at he
    refine ⟨he, fun i call hi hcall hn hk => ?_⟩
    rw [← hn, ← hk]
    exact hvalid i call hi hcall

/-! ## Insertions -/

omit [ValueBounds Value] in
theorem stamp_cases (t : Timed Value) (action : Action Value) (n : GroupcachePeer) (key : String) :
    t.stamp action n key = t.insertedAt n key ∨
      t.stamp action n key = t.now ∧ ∃ (f : Nat) (fl : Flight Value) (loaded : Loaded Value),
        action = .runFlight f ∧ t.cluster.flights[f]? = some fl ∧ fl.phase = .insertHot loaded ∧
          fl.node = n ∧ fl.key = key := by
  unfold stamp
  split
  · split
    · split
      · split
        · rename_i f _ fl hf _ loaded hp hnk
          exact .inr ⟨rfl, f, fl, loaded, rfl, hf, hp, hnk.1.symm, hnk.2.symm⟩
        · exact .inl rfl
      · exact .inl rfl
    · exact .inl rfl
  · exact .inl rfl

theorem insertedAt_le (h : Reaches (step options) (Meets guard) t t')
    (hle : ∀ n key, t.insertedAt n key ≤ t.now) (n : GroupcachePeer) (key : String) :
    t'.insertedAt n key ≤ t'.now := by
  refine h.invariant (I := fun t => ∀ n key, t.insertedAt n key ≤ t.now) hle ?_ n key
  intro s s' a hs _ hstep n key
  cases a with
  | elapse duration =>
      cases hstep
      exact Nat.le_add_right_of_le (hs n key)
  | run action =>
      obtain ⟨cluster, _, rfl⟩ := Option.map_eq_some_iff.mp hstep
      show s.stamp action n key ≤ s.now
      rcases s.stamp_cases action n key with hsame | ⟨hnow, _⟩
      · rw [hsame]
        exact hs n key
      · exact Nat.le_of_eq hnow

end Timed

/-! ## Copies that were there -/

/-- Since `t₁`, where the value was removed, what a hot cache has of it was
loaded since, or inserted before. -/
structure Timed.Ages (U : Set GroupcachePeer) (M : Finset GroupcachePeer) (key : String)
    (owner : GroupcachePeer) (t t₁ : Timed Value) : Prop where
  keeps : t.cluster.KeepsTo U M key owner t₁.cluster
  spread : t.cluster.NoSpread key t₁.cluster
  later : t₁.now ≤ t.now
  hot : ∀ n e, (t.cluster.node n).hotCache key = some e →
    t₁.cluster.loads.length ≤ e.loaded.load ∨ t.insertedAt n key ≤ t₁.now

namespace Timed.Ages

variable {t t' t₁ t₂ : Timed Value} {action : Action Value}

theorem start (hkeeps : t.cluster.KeepsTo U M key owner t.cluster)
    (hle : ∀ n key, t.insertedAt n key ≤ t.now) : t.Ages U M key owner t where
  keeps := hkeeps
  spread := .start
  later := Nat.le_refl _
  hot n _ _ := .inr (hle n key)

/-- What the action finds is as before, but for what has expired. -/
theorem found (h : t.Ages U M key owner t₁) (hU : Addressable U) (hM : ∀ n ∈ M, n ∈ U)
    (howner : Owner M key owner) (hclear : t₁.cluster.Cleared owner key) :
    (t.found options action).KeepsTo U M key owner t₁.cluster ∧
      (t.found options action).NoSpread key t₁.cluster := by
  have hreach : Reaches Cluster.step (Settled U M) t.cluster (t.found options action) :=
    Timed.found_reaches fun _ _ _ => ⟨trivial, trivial⟩
  refine hreach.invariant
    (I := fun c => c.KeepsTo U M key owner t₁.cluster ∧ c.NoSpread key t₁.cluster)
    ⟨h.keeps, h.spread⟩ ?_
  exact fun _ _ _ hi hg hs => ⟨hi.1.step hU hM howner hg hs, hi.2.step hi.1 hclear hs⟩

theorem step (h : t.Ages U M key owner t₁) (hU : Addressable U) (hM : ∀ n ∈ M, n ∈ U)
    (howner : Owner M key owner) (hclear : t₁.cluster.Cleared owner key) {a : TimedAction Value}
    (hg : t.Meets (Settled U M) a) (hs : t.step options a = some t') :
    t'.Ages U M key owner t₁ := by
  cases a with
  | elapse duration =>
      cases hs
      exact ⟨h.keeps, h.spread, Nat.le_add_right_of_le h.later, h.hot⟩
  | run action =>
      obtain ⟨hkeeps, hspread⟩ := @found _ _ _ _ _ _ _ options _ _ action h hU hM howner hclear
      obtain ⟨cluster, hc, rfl⟩ := Option.map_eq_some_iff.mp hs
      have hguard : Settled U M (t.found options action) action := by
        rcases Timed.found_cases options t action with ⟨i, _, rfl, _⟩ | ⟨hsame, _⟩
        · exact ⟨trivial, trivial⟩
        · rw [hsame]
          exact hg
      have hkeeps' := hkeeps.step hU hM howner hguard hc
      refine ⟨hkeeps', hspread.step hkeeps hclear hc, h.later, fun n e he => ?_⟩
      rcases t.stamp_cases action n key with hstamp | ⟨_, f, fl, loaded, rfl, hf, hp, rfl, hk⟩
      · show _ ∨ t.stamp action n key ≤ t₁.now
        rw [hstamp]
        rcases (Cluster.step_move hc).hot_cases n key with hsame | hnone |
          ⟨f, fl, loaded, _, hf, hp, _, hk, hins, _⟩
        · exact h.hot n e (Timed.hot_found (hsame ▸ he)).1
        · cases hnone.symm.trans he
        · cases hins.symm.trans he
          exact .inl (hspread.inserting hkeeps hclear hf hp hk)
      · -- the entry is the one inserted
        have hins := Cluster.hotCache_inserted hf hp hc
        rw [hk] at hins
        cases hins.symm.trans he
        exact .inl (h.spread.inserting h.keeps hclear hf hp hk)

/-- What a call of `get` begun after the time to live returns. -/
theorem step_gets (h : t.Ages U M key owner t₁) (hU : Addressable U) (hM : ∀ n ∈ M, n ∈ U)
    (howner : Owner M key owner) (hclear : t₁.cluster.Cleared owner key)
    (hlater : t₁.now + options.hotCacheTimeToLive ≤ t.now) {cluster : Cluster Value}
    (hc : (t.found options action).step action = some cluster) {i : Nat} {g : GetCall Value}
    {loaded : Loaded Value} (hi : t₁.cluster.gets.length ≤ i) (hg : cluster.gets[i]? = some g)
    (hk : g.key = key) (hp : g.phase = .hit loaded ∨ g.phase = .returned (.ok loaded)) :
    (∃ old, t.cluster.gets[i]? = some old ∧ g.node = old.node ∧ old.key = key ∧
      (old.phase = .hit loaded ∨ old.phase = .returned (.ok loaded))) ∨
    t₁.cluster.loads.length ≤ loaded.load ∨
      ∃ e, (t₁.cluster.node g.node).mainCache key = some e ∧ e.loaded = loaded := by
  obtain ⟨hkeeps, hspread⟩ := @found _ _ _ _ _ _ _ options _ _ action h hU hM howner hclear
  obtain ⟨old, hold, hn, hk', hfrom⟩ := (Cluster.step_move hc).hit_cases hg hp
  have hkey : old.key = key := hk'.symm.trans hk
  have hgets : (t.found options action).gets = t.cluster.gets := by
    rcases Timed.found_cases options t action with ⟨_, _, _, _, _, hfound⟩ | ⟨hsame, _⟩
    · rw [hfound]
      rfl
    · rw [hsame]
  rcases hfrom with hold' | ⟨e, he, rfl⟩ | ⟨rfl, e, he, rfl⟩ | ⟨f, fl, hwait, hf, hend⟩
  · exact .inl ⟨old, hgets ▸ hold, hn, hkey, hold'⟩
  · rw [hn]
    exact .inr ((hspread.main _ e (hkey ▸ he)).imp_right fun he => ⟨e, he, rfl⟩)
  · -- what has not expired by now was inserted later
    obtain ⟨he', hvalid⟩ := Timed.hot_found (hkey ▸ he)
    refine .inr (.inl ((h.hot _ e he').resolve_right fun hle => ?_))
    refine hvalid i old rfl (hgets ▸ hold) rfl hkey ?_
    show t.insertedAt old.node key + options.hotCacheTimeToLive ≤ t.now
    omega
  · exact .inr (.inl (hspread.shared hkeeps hclear hi hold hkey hwait hf hend))

end Timed.Ages

/-- Since `t₂`, when the time to live has passed, calls of `get` return nothing
of what a hot cache had at `t₁`. -/
structure Timed.Forgets (U : Set GroupcachePeer) (M : Finset GroupcachePeer) (key : String)
    (owner : GroupcachePeer) (t t₁ t₂ : Timed Value) : Prop where
  ages : t.Ages U M key owner t₁
  later : t₂.now ≤ t.now
  gets : ∀ (i : Nat) (g : GetCall Value) loaded, t₂.cluster.gets.length ≤ i →
    t.cluster.gets[i]? = some g → g.key = key →
    g.phase = .hit loaded ∨ g.phase = .returned (.ok loaded) →
    t₁.cluster.loads.length ≤ loaded.load ∨
      ∃ e, (t₁.cluster.node g.node).mainCache key = some e ∧ e.loaded = loaded

theorem Timed.Forgets.step {t t' t₁ t₂ : Timed Value} (h : t.Forgets U M key owner t₁ t₂)
    (hU : Addressable U) (hM : ∀ n ∈ M, n ∈ U) (howner : Owner M key owner)
    (hclear : t₁.cluster.Cleared owner key)
    (hlater : t₁.now + options.hotCacheTimeToLive ≤ t₂.now)
    (hgrown : t₁.cluster.gets.length ≤ t₂.cluster.gets.length) {a : TimedAction Value}
    (hg : t.Meets (Settled U M) a) (hs : t.step options a = some t') :
    t'.Forgets U M key owner t₁ t₂ := by
  have hages := h.ages.step hU hM howner hclear hg hs
  cases a with
  | elapse duration =>
      cases hs
      exact ⟨hages, Nat.le_add_right_of_le h.later, h.gets⟩
  | run action =>
      obtain ⟨cluster, hc, rfl⟩ := Option.map_eq_some_iff.mp hs
      refine ⟨hages, h.later, fun i g loaded hi hg hk hp => ?_⟩
      rcases h.ages.step_gets hU hM howner hclear (hlater.trans h.later) hc (hgrown.trans hi)
        hg hk hp with ⟨old, hold, hn, hkey, hp'⟩ | hres
      · rw [hn]
        exact h.gets i old loaded hi hold hkey hp'
      · exact hres

/-! ## The result -/

/-- **What a `remove` has left in hot caches expires.** Among nodes that know
the same members, a call of `get` begun when the time to live has passed since
a `remove` has returned Ok, and nothing was in progress for the key, returns a
value loaded since, or a copy that its node has had in its main cache since
then, from when it was the owner. -/
theorem stale_copies_expire (hU : Addressable U) (hM : ∀ n ∈ M, n ∈ U) (hne : M.Nonempty)
    {t₀ t₁ t₂ t : Timed Value}
    (h₀ : Reaches (Timed.step options) (Timed.Meets (SerialTopology U)) (.start .withLocalPeer) t₀)
    (hagrees : t₀.cluster.Agrees M) (hidle₀ : t₀.cluster.IdleFor key)
    (h₁ : Reaches (Timed.step options)
      (Timed.Meets fun c a => Settled U M c a ∧ a.NotGet key) t₀ t₁)
    {j : Nat} {r : RemoveCall} (hj : t₀.cluster.removes.length ≤ j)
    (hr : t₁.cluster.removes[j]? = some r) (hrk : r.key = key)
    (hok : r.phase = .returned (.ok ())) (hidle₁ : t₁.cluster.IdleFor key)
    (h₂ : Reaches (Timed.step options) (Timed.Meets (Settled U M)) t₁ t₂)
    (hlater : t₁.now + options.hotCacheTimeToLive ≤ t₂.now)
    (h : Reaches (Timed.step options) (Timed.Meets (Settled U M)) t₂ t) :
    ∃ owner, Owner M key owner ∧ ∀ (i : Nat) g loaded, t₂.cluster.gets.length ≤ i →
      t.cluster.gets[i]? = some g → g.key = key → g.phase = .returned (.ok loaded) →
        t₁.cluster.loads.length ≤ loaded.load ∨ g.node ≠ owner ∧
          ∃ e, (t₁.cluster.node g.node).mainCache key = some e ∧ e.loaded = loaded := by
  have hreach₀ := Timed.reaches (fun _ _ _ => trivial) (fun _ _ => trivial) h₀
  have hreach₁ := Timed.reaches (fun _ _ _ => ⟨⟨trivial, trivial⟩, trivial⟩)
    (fun _ _ => ⟨⟨trivial, trivial⟩, trivial⟩) h₁
  obtain ⟨owner, howner, hclearing⟩ :=
    Cluster.reaches_clearing hU hM hne hreach₀ hagrees hidle₀ hreach₁
  have hclear := (hclearing.clears.removes j r hj hr hrk).done hok
  have hinserted := Timed.insertedAt_le h₁ (Timed.insertedAt_le h₀ fun _ _ => Nat.le_refl 0)
  have hkeeps : t₁.cluster.KeepsTo U M key owner t₁.cluster :=
    .start hclearing.keeps.inv hclearing.keeps.forwarding hclearing.keeps.agrees hidle₁
  have hages : t₂.Ages U M key owner t₁ :=
    h₂.invariant (I := fun t => t.Ages U M key owner t₁) (.start hkeeps hinserted)
      fun _ _ _ hi hg hs => hi.step hU hM howner hclear hg hs
  have hforgets : t.Forgets U M key owner t₁ t₂ := by
    refine h.invariant (I := fun t => t.Forgets U M key owner t₁ t₂)
      ⟨hages, Nat.le_refl _, fun i g _ hi hg => ?old⟩ ?step
    case old => exact absurd (Table.lt_of_getElem? hg) (Nat.not_lt_of_le hi)
    case step =>
      intro s s' a hs hg hstep
      exact hs.step hU hM howner hclear hlater hages.keeps.grown.1 hg hstep
  refine ⟨owner, howner, fun i g loaded hi hg hk hret => ?_⟩
  refine (hforgets.gets i g loaded hi hg hk (.inr hret)).imp_right fun hkept => ⟨?_, hkept⟩
  rintro rfl
  obtain ⟨e, he, _⟩ := hkept
  cases hclear.1.symm.trans he

omit [Platform] [ValueBounds Value] in
/-- The owner removes a key of which the other node has a copy. The copy is
still there, and 30 seconds later a `get` on that node does not find it. -/
theorem stale_copies_expire_sample :
    let _ : Platform := host
    let _ : ValueBounds UInt8 := messagePack
    let M : Finset GroupcachePeer := {node 8001, node 8002}
    let key := "127.0.0.1:8002_0"
    ∃ t₁ t₂ t : Timed UInt8, (∃ owner, Owner M key owner ∧ ∀ (i : Nat) g loaded,
        t₂.cluster.gets.length ≤ i → t.cluster.gets[i]? = some g → g.key = key →
        g.phase = .returned (.ok loaded) →
          t₁.cluster.loads.length ≤ loaded.load ∨ g.node ≠ owner ∧
            ∃ e, (t₁.cluster.node g.node).mainCache key = some e ∧ e.loaded = loaded) ∧
      t₂.now = t₁.now + fromSecs 30 ∧
      ((t₂.cluster.node (node 8001)).hotCache key).map Entry.loaded
        = some { value := 7, load := 0 } ∧
      t₁.cluster.loads.length = 1 ∧
      t.cluster.Returned t₂.cluster.gets.length (node 8001) { value := 9, load := 1 } := by
  intro _ _ M key
  obtain ⟨t₀, h₀, t₁, h₁, t₂, h₂, t, h, hagrees, hidle₀, hidle₁, hfirst, ⟨r, hr, hk, hok⟩,
    hnow, hobs⟩ :
      let U : Set GroupcachePeer := {p | p ∈ [8001, 8002].map node}
      ∃ t₀ ∈ replay (Timed.step {}) (Timed.Meets (SerialTopology U)) (.start .withLocalPeer)
        (bothCaching.map .run),
      ∃ t₁ ∈ replay (Timed.step {}) (Timed.Meets fun c a => Settled U M c a ∧ a.NotGet key) t₀
        ((.remove (node 8002) key :: List.replicate 3 (.runRemove 0)).map .run),
      ∃ t₂ ∈ replay (Timed.step {}) (Timed.Meets (Settled U M)) t₁ [.elapse (fromSecs 30)],
      ∃ t ∈ replay (Timed.step {}) (Timed.Meets (Settled U M)) t₂
        ((.get (node 8001) key :: asks 2 2 9).map .run),
      t₀.cluster.Agrees M ∧ t₀.cluster.IdleFor key ∧ t₁.cluster.IdleFor key ∧
      t₀.cluster.removes.length ≤ 0 ∧
      (∃ r ∈ t₁.cluster.removes[0]?, r.key = key ∧ r.isOk) ∧
      t₂.now = t₁.now + fromSecs 30 ∧
      ((t₂.cluster.node (node 8001)).hotCache key).map Entry.loaded
        = some { value := 7, load := 0 } ∧
      t₁.cluster.loads.length = 1 ∧
      t.cluster.Returned t₂.cluster.gets.length (node 8001) { value := 9, load := 1 } := by
    decide +kernel +revert
  exact ⟨t₁, t₂, t, stale_copies_expire addressable_host mem_host (Finset.insert_nonempty _ _)
    (.of_replay h₀) hagrees hidle₀ (.of_replay h₁) hfirst hr hk (RemoveCall.isOk_iff.mp hok) hidle₁
    (.of_replay h₂) hnow.ge (.of_replay h), hnow, hobs⟩

end Groupcache
