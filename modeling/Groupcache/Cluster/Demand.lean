import Groupcache.Cluster.Forwarding
import Groupcache.Cluster.Sharing
import Groupcache.Cluster.Weights

/-!
# What a call costs the cluster

A call of `get` may be forwarded from node to node, joined by others on its
way and fall back to a load at each hop. As each request goes to a node nearer
to the key, it comes to a node once at most: a node makes no more calls, and
no more loads, for a key than the application has made calls for it, whatever
the nodes know of each other and whatever fails (`no_amplification`).
-/

namespace Groupcache

open Transition

variable [Platform] {Value : Type} [ValueBounds Value] {U : Set GroupcachePeer}
  {c c' : Cluster Value} {a : Action Value} {n : GroupcachePeer} {key : String}

/-! ## Counting calls and loads -/

namespace Cluster

/-- How many calls of `get` the application has made for the key. -/
def getsAsked (c : Cluster Value) (key : String) : Nat :=
  c.gets.countP fun g => g.origin.isNone ∧ g.key = key

/-- How many calls of `get` there have been for the key on node `n`, a peer's
requests included. -/
def getsOn (c : Cluster Value) (n : GroupcachePeer) (key : String) : Nat :=
  c.gets.countP fun g => g.node = n ∧ g.key = key

def loadsOn (c : Cluster Value) (n : GroupcachePeer) (key : String) : Nat :=
  c.loads.countP fun load => load.node = n ∧ load.key = key

def removesAsked (c : Cluster Value) (key : String) : Nat :=
  c.removes.countP fun r => r.origin.isNone ∧ r.key = key

def removesOn (c : Cluster Value) (n : GroupcachePeer) (key : String) : Nat :=
  c.removes.countP fun r => r.node = n ∧ r.key = key

section Tables

variable {i : Nat} (n key)

omit [ValueBounds Value] in
/-- A call that goes on counts as it did. -/
theorem gets_counts_set {g g' : GetCall Value} (hg : c.gets[i]? = some g)
    (hgets : c'.gets = c.gets.set i g') (hn : g'.node = g.node) (hk : g'.key = g.key)
    (ho : g'.origin = g.origin) :
    c'.getsOn n key = c.getsOn n key ∧ c'.getsAsked key = c.getsAsked key := by
  rw [getsOn, getsAsked, hgets]
  exact ⟨Table.countP_set hg (by simp only [hn, hk]), Table.countP_set hg (by simp only [ho, hk])⟩

omit [ValueBounds Value] in
theorem gets_counts_concat {g : GetCall Value} (hgets : c'.gets = c.gets ++ [g]) :
    c'.getsOn n key = c.getsOn n key + (if g.node = n ∧ g.key = key then 1 else 0) ∧
      c'.getsAsked key = c.getsAsked key + (if g.origin.isNone ∧ g.key = key then 1 else 0) := by
  rw [getsOn, getsAsked, hgets, Table.countP_concat, Table.countP_concat]
  simp only [decide_eq_true_eq]
  exact ⟨rfl, rfl⟩

omit [ValueBounds Value] in
theorem removes_counts_set {r r' : RemoveCall} (hr : c.removes[i]? = some r)
    (hremoves : c'.removes = c.removes.set i r') (hn : r'.node = r.node)
    (hk : r'.key = r.key) (ho : r'.origin = r.origin) :
    c'.removesOn n key = c.removesOn n key ∧ c'.removesAsked key = c.removesAsked key := by
  rw [removesOn, removesAsked, hremoves]
  exact ⟨Table.countP_set hr (by simp only [hn, hk]), Table.countP_set hr (by simp only [ho, hk])⟩

omit [ValueBounds Value] in
theorem removes_counts_concat {r : RemoveCall} (hremoves : c'.removes = c.removes ++ [r]) :
    c'.removesOn n key = c.removesOn n key + (if r.node = n ∧ r.key = key then 1 else 0) ∧
      c'.removesAsked key
        = c.removesAsked key + (if r.origin.isNone ∧ r.key = key then 1 else 0) := by
  rw [removesOn, removesAsked, hremoves, Table.countP_concat, Table.countP_concat]
  simp only [decide_eq_true_eq]
  exact ⟨rfl, rfl⟩

omit [ValueBounds Value] in
theorem removes_counts_send {r r' call : RemoveCall} (hr : c.removes[i]? = some r)
    (hremoves : c'.removes = c.removes.set i r' ++ [call]) (hn : r'.node = r.node)
    (hk : r'.key = r.key) (ho : r'.origin = r.origin) :
    c'.removesOn n key = c.removesOn n key + (if call.node = n ∧ call.key = key then 1 else 0) ∧
      c'.removesAsked key
        = c.removesAsked key + (if call.origin.isNone ∧ call.key = key then 1 else 0) := by
  rw [removesOn, removesAsked, hremoves, Table.countP_concat, Table.countP_concat,
    Table.countP_set hr (by simp only [hn, hk]), Table.countP_set hr (by simp only [ho, hk])]
  simp only [decide_eq_true_eq]
  exact ⟨rfl, rfl⟩

end Tables

end Cluster

/-! ## What may still come to a node -/

/-- The call may yet lead to a request for another node. -/
def GetPhase.mayForward : GetPhase Value → Bool
  | .requested => true
  | .called => true
  | .mainLookup => true
  | .hotLookup => true
  | .routing => true
  | .deduping _ => true
  | _ => false

def FlightPhase.mayForward : FlightPhase Value → Bool
  | .opened => true
  | _ => false

def RemovePhase.mayForward : RemovePhase → Bool
  | .requested => true
  | .called => true
  | .routing => true
  | _ => false

/-- How often a request for the key that is on node `m` may come to `n`. -/
def comesTo (key : String) (n m : GroupcachePeer) : Nat :=
  if distance key n < distance key m then 1 else 0

theorem comesTo_self : comesTo key n n = 0 := if_neg (Nat.lt_irrefl _)

/-- A call that the application makes on `m` comes to `n` once at most. -/
theorem comesTo_once (key : String) (n m : GroupcachePeer) :
    (if m = n then 1 else 0) + comesTo key n m ≤ 1 := by
  by_cases hm : m = n
  · subst hm
    rw [comesTo_self, if_pos rfl]
  · rw [if_neg hm, comesTo]
    split <;> omega

/-- On its way to a nearer node it comes to `n` now or, at most once, later. -/
theorem comesTo_forward {m m' : GroupcachePeer} (h : distance key m' < distance key m) :
    (if m' = n then 1 else 0) + comesTo key n m' ≤ comesTo key n m := by
  by_cases hm : m' = n
  · subst hm
    rw [comesTo_self, comesTo, if_pos h, if_pos rfl]
  · rw [if_neg hm, comesTo, comesTo]
    split
    · rw [if_pos (by omega)]
    · omega

/-- The calls of `get` that may still come to node `n` for the key. -/
def getsToCome (n : GroupcachePeer) (key : String) : Weights Value where
  get g := if g.key = key ∧ g.phase.mayForward then comesTo key n g.node else 0
  flight fl := if fl.key = key ∧ fl.phase.mayForward then comesTo key n fl.node else 0
  remove _ := 0

def removesToCome (n : GroupcachePeer) (key : String) : Weights Value where
  get _ := 0
  flight _ := 0
  remove r := if r.key = key ∧ r.phase.mayForward then comesTo key n r.node else 0

omit [ValueBounds Value] in
theorem GetStep.toCome_le {g g' : GetCall Value} (h : GetStep c g g') :
    (getsToCome n key).get g' ≤ (getsToCome n key).get g := by
  cases h with
  | received hp => simp [getsToCome, hp, GetPhase.mayForward]
  | counted hp => simp [getsToCome, hp, GetPhase.mayForward]
  | mainMiss hp => simp [getsToCome, hp, GetPhase.mayForward]
  | hotMiss hp => simp [getsToCome, hp, GetPhase.mayForward]
  | routed hp => simp [getsToCome, hp, GetPhase.mayForward]
  | _ => simp [getsToCome, GetPhase.mayForward]

omit [ValueBounds Value] in
theorem toCome_get {g : GetCall Value} (hp : g.phase.mayForward = true) :
    (getsToCome n key).get g = if g.key = key then comesTo key n g.node else 0 := by
  simp only [getsToCome, hp, and_true]

omit [ValueBounds Value] in
/-- A flight that has gone on sends no other request. -/
theorem toCome_flight {fl : Flight Value} (hp : fl.phase.mayForward = false) :
    (getsToCome n key).flight fl = 0 := by
  simp [getsToCome, hp]

omit [ValueBounds Value] in
theorem GetStep.origin {g g' : GetCall Value} (h : GetStep c g g') : g'.origin = g.origin := by
  cases h <;> rfl

theorem FlightStep.not_forward {fl fl' : Flight Value} (h : FlightStep c fl fl') :
    fl'.phase.mayForward = false := by
  cases h <;> rfl

omit [Platform] [ValueBounds Value] in
theorem Flight.afterLoad_not_forward (fl : Flight Value) (l : Nat)
    (result : Except String Value) : (fl.afterLoad l result).mayForward = false := by
  cases result with
  | error e => rfl
  | ok value =>
      simp only [Flight.afterLoad]
      split <;> rfl

omit [ValueBounds Value] in
/-- Where one flight goes on there is no more to come. -/
theorem Cluster.toCome_of_flights {f : Nat} {fl fl' : Flight Value} (hf : c.flights[f]? = some fl)
    (hp : fl'.phase.mayForward = false) (hgets : c'.gets = c.gets)
    (hflights : c'.flights = c.flights.set f fl') (hremoves : c'.removes = c.removes) :
    c'.total (getsToCome n key) ≤ c.total (getsToCome n key) :=
  Cluster.total_of_flights (d := 0) hf (by rw [toCome_flight hp]; omega) hgets hflights hremoves

omit [ValueBounds Value] in
theorem Cluster.toCome_eq (hgets : c'.gets = c.gets) (hflights : c'.flights = c.flights) :
    c'.total (getsToCome n key) = c.total (getsToCome n key) := by
  rw [Cluster.total, Cluster.total, hgets, hflights]
  simp [getsToCome]

omit [ValueBounds Value] in
/-- A step that makes no call keeps the bound. -/
theorem Cluster.gets_le_of_total
    (hle : c.getsOn n key + c.total (getsToCome n key) ≤ c.getsAsked key)
    (hcounts : c'.getsOn n key = c.getsOn n key ∧ c'.getsAsked key = c.getsAsked key)
    (htotal : c'.total (getsToCome n key) ≤ c.total (getsToCome n key)) :
    c'.getsOn n key + c'.total (getsToCome n key) ≤ c'.getsAsked key := by
  omega

omit [ValueBounds Value] in
theorem Cluster.gets_le_of_get {node : GroupcachePeer} {k : String}
    (hle : c.getsOn n key + c.total (getsToCome n key) ≤ c.getsAsked key)
    (hgets : c'.gets
      = c.gets ++ [{ node, key := k, origin := none, flight := none, phase := .called }])
    (hflights : c'.flights = c.flights) (hremoves : c'.removes = c.removes) :
    c'.getsOn n key + c'.total (getsToCome n key) ≤ c'.getsAsked key := by
  obtain ⟨hon, hasked⟩ := Cluster.gets_counts_concat n key hgets
  rw [hon, hasked, Cluster.total_of_get hgets hflights hremoves, toCome_get rfl]
  dsimp only
  by_cases hk : k = key
  · subst hk
    have hcome := comesTo_once k n node
    simp only [Option.isNone_none, and_true, if_true]
    omega
  · simp only [hk, and_false, if_false]
    omega

omit [ValueBounds Value] in
theorem Cluster.gets_le_of_sendGet {f i : Nat} {fl : Flight Value} {m : GroupcachePeer}
    (hle : c.getsOn n key + c.total (getsToCome n key) ≤ c.getsAsked key)
    (hf : c.flights[f]? = some fl) (hp : fl.phase = .opened)
    (hnear : distance fl.key m < distance fl.key fl.node)
    (hgets : c'.gets = c.gets ++ [{ node := m, key := fl.key, origin := some f, flight := none
                                    phase := .requested }])
    (hflights : c'.flights = c.flights.set f { fl with request := some i, phase := .awaiting i })
    (hremoves : c'.removes = c.removes) :
    c'.getsOn n key + c'.total (getsToCome n key) ≤ c'.getsAsked key := by
  obtain ⟨hon, hasked⟩ := Cluster.gets_counts_concat n key hgets
  have htotal : c'.total (getsToCome n key) + (if m = n ∧ fl.key = key then 1 else 0)
      ≤ c.total (getsToCome n key) := by
    refine Cluster.total_of_sendGet hf ?_ hgets hflights hremoves
    rw [toCome_flight rfl, toCome_get rfl]
    have hopened : (getsToCome n key).flight fl
        = if fl.key = key then comesTo key n fl.node else 0 := by
      simp only [getsToCome, hp, FlightPhase.mayForward, and_true]
    rw [hopened]
    dsimp only
    by_cases hk : fl.key = key
    · subst hk
      have := comesTo_forward (n := n) hnear
      simp only [and_true, if_true]
      omega
    · simp [hk]
  rw [hon, hasked]
  simp only [Option.isNone_some, Bool.false_eq_true, false_and, if_false]
  omega

/-- **The calls on a node and those to come** are as many as the application
has made, at most. -/
theorem Move.gets_le (m : Move c a c') (h : c.Forwarding U)
    (hle : c.getsOn n key + c.total (getsToCome n key) ≤ c.getsAsked key) :
    c'.getsOn n key + c'.total (getsToCome n key) ≤ c'.getsAsked key := by
  cases m with
  | get node k => exact Cluster.gets_le_of_get hle rfl rfl rfl
  | getStep metrics hg hs =>
      exact Cluster.gets_le_of_total hle
        (Cluster.gets_counts_set n key hg rfl hs.same.1 hs.same.2 hs.origin)
        (Cluster.total_of_gets (d := 0) hg hs.toCome_le rfl rfl rfl)
  | openFlight hg hp =>
      refine Cluster.gets_le_of_total hle (Cluster.gets_counts_set n key hg rfl rfl rfl rfl)
        (Cluster.total_of_openFlight (d := 0) hg ?_ rfl rfl rfl)
      simp [getsToCome, hp, GetPhase.mayForward, FlightPhase.mayForward]
  | sendGet metrics hf hp hne hc =>
      have hnear := (h.flights _ _ hf hne _ hc).2
      exact Cluster.gets_le_of_sendGet hle hf hp hnear rfl rfl rfl
  | flightStep metrics hf hs =>
      exact Cluster.gets_le_of_total hle ⟨rfl, rfl⟩
        (Cluster.toCome_of_flights hf hs.not_forward rfl rfl rfl)
  | unwrapped message hf hp =>
      exact Cluster.gets_le_of_total hle ⟨rfl, rfl⟩
        (Cluster.toCome_of_flights hf rfl rfl rfl rfl)
  | lost metrics status hf hp =>
      exact Cluster.gets_le_of_total hle ⟨rfl, rfl⟩
        (Cluster.toCome_of_flights hf rfl rfl rfl rfl)
  | startLoad metrics hf hp =>
      exact Cluster.gets_le_of_total hle ⟨rfl, rfl⟩
        (Cluster.toCome_of_flights hf rfl rfl rfl rfl)
  | finishLoad metrics result hf hp =>
      exact Cluster.gets_le_of_total hle ⟨rfl, rfl⟩
        (Cluster.toCome_of_flights hf (Flight.afterLoad_not_forward ..) rfl rfl rfl)
  | insertMain hf hp =>
      exact Cluster.gets_le_of_total hle ⟨rfl, rfl⟩
        (Cluster.toCome_of_flights hf rfl rfl rfl rfl)
  | insertHot hf hp =>
      exact Cluster.gets_le_of_total hle ⟨rfl, rfl⟩
        (Cluster.toCome_of_flights hf rfl rfl rfl rfl)
  | endFlight hf hp =>
      exact Cluster.gets_le_of_total hle ⟨rfl, rfl⟩
        (Cluster.toCome_of_flights hf rfl rfl rfl rfl)
  | _ => exact Cluster.gets_le_of_total hle ⟨rfl, rfl⟩ (Nat.le_of_eq (Cluster.toCome_eq rfl rfl))

/-! ## The same of `remove` -/

omit [ValueBounds Value] in
theorem RemoveStep.same {r r' : RemoveCall} (h : RemoveStep c r r') :
    r'.node = r.node ∧ r'.key = r.key ∧ r'.origin = r.origin := by
  cases h <;> exact ⟨rfl, rfl, rfl⟩

omit [ValueBounds Value] in
theorem removesToCome_le {r r' : RemoveCall} (hn : r'.node = r.node) (hk : r'.key = r.key)
    (hp : r'.phase.mayForward = true → r.phase.mayForward = true) :
    (removesToCome n key : Weights Value).remove r' + 0
      ≤ (removesToCome n key : Weights Value).remove r := by
  simp only [removesToCome, hn, hk]
  split
  · rename_i hr'
    rw [if_pos ⟨hr'.1, hp hr'.2⟩]
    omega
  · omega

omit [ValueBounds Value] in
theorem toCome_remove {r : RemoveCall} (hp : r.phase.mayForward = true) :
    (removesToCome n key : Weights Value).remove r
      = if r.key = key then comesTo key n r.node else 0 := by
  simp only [removesToCome, hp, and_true]

omit [ValueBounds Value] in
theorem Cluster.removesToCome_eq (hremoves : c'.removes = c.removes) :
    c'.total (removesToCome n key) = c.total (removesToCome n key) := by
  rw [Cluster.total, Cluster.total, hremoves]
  simp [removesToCome]

omit [ValueBounds Value] in
theorem Cluster.removes_le_of_same
    (hle : c.removesOn n key + c.total (removesToCome n key) ≤ c.removesAsked key)
    (hremoves : c'.removes = c.removes) :
    c'.removesOn n key + c'.total (removesToCome n key) ≤ c'.removesAsked key := by
  rw [Cluster.removesOn, Cluster.removesAsked, hremoves, Cluster.removesToCome_eq hremoves]
  exact hle

omit [ValueBounds Value] in
/-- A call that goes on, and makes no other, keeps the bound. -/
theorem Cluster.removes_le_of_set {i : Nat} {r r' : RemoveCall}
    (hle : c.removesOn n key + c.total (removesToCome n key) ≤ c.removesAsked key)
    (hr : c.removes[i]? = some r) (hremoves : c'.removes = c.removes.set i r')
    (hsame : r'.node = r.node ∧ r'.key = r.key ∧ r'.origin = r.origin)
    (hp : r'.phase.mayForward = true → r.phase.mayForward = true) :
    c'.removesOn n key + c'.total (removesToCome n key) ≤ c'.removesAsked key := by
  obtain ⟨hn, hk, ho⟩ := hsame
  have hcounts := Cluster.removes_counts_set n key hr hremoves hn hk ho
  have htotal : c'.total (removesToCome n key) + 0 ≤ c.total (removesToCome n key) := by
    have heq : c'.total (removesToCome n key)
        = ({ c with removes := c'.removes } : Cluster Value).total (removesToCome n key) :=
      Cluster.removesToCome_eq rfl
    rw [heq]
    exact Cluster.total_of_removes hr (removesToCome_le hn hk hp) rfl rfl hremoves
  omega

omit [ValueBounds Value] in
theorem Cluster.removes_le_of_remove {node : GroupcachePeer} {k : String} {b : Nat}
    (hle : c.removesOn n key + c.total (removesToCome n key) ≤ c.removesAsked key)
    (hgets : c'.gets = c.gets) (hflights : c'.flights = c.flights)
    (hremoves : c'.removes
      = c.removes ++ [{ node, key := k, origin := none, began := b, phase := .called }]) :
    c'.removesOn n key + c'.total (removesToCome n key) ≤ c'.removesAsked key := by
  obtain ⟨hon, hasked⟩ := Cluster.removes_counts_concat n key hremoves
  rw [hon, hasked, Cluster.total_of_remove hgets hflights hremoves, toCome_remove rfl]
  dsimp only
  by_cases hk : k = key
  · subst hk
    have hcome := comesTo_once k n node
    simp only [Option.isNone_none, and_true, if_true]
    omega
  · simp only [hk, and_false, if_false]
    omega

omit [ValueBounds Value] in
theorem Cluster.removes_le_of_sendRemove {i : Nat} {r r' call : RemoveCall}
    (hle : c.removesOn n key + c.total (removesToCome n key) ≤ c.removesAsked key)
    (hr : c.removes[i]? = some r) (hp : r.phase = .routing) (hgets : c'.gets = c.gets)
    (hflights : c'.flights = c.flights) (hremoves : c'.removes = c.removes.set i r' ++ [call])
    (hsame : r'.node = r.node ∧ r'.key = r.key ∧ r'.origin = r.origin)
    (hp' : r'.phase.mayForward = false) (hk : call.key = r.key) (ho : call.origin ≠ none)
    (hcall : call.phase = .requested) (hnear : distance r.key call.node < distance r.key r.node) :
    c'.removesOn n key + c'.total (removesToCome n key) ≤ c'.removesAsked key := by
  obtain ⟨hon, hasked⟩ :=
    Cluster.removes_counts_send n key hr hremoves hsame.1 hsame.2.1 hsame.2.2
  have htotal : c'.total (removesToCome n key)
      + (if call.node = n ∧ call.key = key then 1 else 0) ≤ c.total (removesToCome n key) := by
    refine Cluster.total_of_sendRemove hr ?_ hgets hflights hremoves
    rw [toCome_remove (r := r) (by rw [hp]; rfl), toCome_remove (r := call) (by rw [hcall]; rfl),
      hk]
    have hzero : (removesToCome n key : Weights Value).remove r' = 0 := by
      simp [removesToCome, hp']
    by_cases hkey : r.key = key
    · subst hkey
      have := comesTo_forward (n := n) hnear
      simp only [hzero, and_true, if_true]
      omega
    · simp [hzero, hkey]
  have hnone : ¬ (call.origin.isNone = true ∧ call.key = key) := by simp [ho]
  rw [hon, hasked, if_neg hnone]
  omega

theorem Move.removes_le (m : Move c a c') (hU : Addressable U) (h : c.Forwarding U)
    (hle : c.removesOn n key + c.total (removesToCome n key) ≤ c.removesAsked key) :
    c'.removesOn n key + c'.total (removesToCome n key) ≤ c'.removesAsked key := by
  cases m with
  | remove node k => exact Cluster.removes_le_of_remove hle rfl rfl rfl
  | removeStep hr hs =>
      refine Cluster.removes_le_of_set hle hr rfl hs.same fun hp => ?_
      cases hs with
      | received hp' => rw [hp']; rfl
      | _ => cases hp
  | lostRemove status hr hp => exact Cluster.removes_le_of_set hle hr rfl ⟨rfl, rfl, rfl⟩ nofun
  | clearHot hr hp =>
      exact Cluster.removes_le_of_set hle hr rfl ⟨rfl, rfl, rfl⟩ fun _ => by rw [hp]; rfl
  | clearMain hr hp => exact Cluster.removes_le_of_set hle hr rfl ⟨rfl, rfl, rfl⟩ nofun
  | sendRemove hr hp hl hne hc =>
      have hnear := (h.lookup hU (h.removes _ _ hr).1 hl hne _ hc).2
      exact Cluster.removes_le_of_sendRemove hle hr hp rfl rfl rfl ⟨rfl, rfl, rfl⟩ rfl rfl nofun rfl
        hnear
  | _ => exact Cluster.removes_le_of_same hle rfl

/-! ## No amplification -/

/-- Each load is one flight's, and each flight a call has opened on its node. -/
theorem Cluster.loadsOn_le (hinv : c.Inv) (hsharing : c.Sharing) :
    c.loadsOn n key ≤ c.getsOn n key := by
  refine Table.countP_le_countP (R := fun l i => ∃ g f fl, c.gets[i]? = some g ∧
    g.flight = some f ∧ c.flights[f]? = some fl ∧ fl.load = some l) ?_ ?_
  · intro l load hl hp
    obtain ⟨hn, hk⟩ := of_decide_eq_true hp
    obtain ⟨fl, hf, hload, hfn, hfk⟩ := hinv.loads l load hl
    obtain ⟨i, g, hg, hgf⟩ := hsharing.led _ fl hf
    obtain ⟨x, hx, hgn, hgk⟩ := (hinv.gets i g hg).flight _ hgf
    obtain rfl : fl = x := Option.some.inj (hf.symm.trans hx)
    exact ⟨i, g, hg, decide_eq_true ⟨(hgn.symm.trans hfn).trans hn, (hgk.symm.trans hfk).trans hk⟩,
      g, _, fl, hg, hgf, hf, hload⟩
  · rintro l l' i ⟨g, f, fl, hg, hgf, hf, hl⟩ ⟨g', f', fl', hg', hgf', hf', hl'⟩
    obtain rfl : g = g' := Option.some.inj (hg.symm.trans hg')
    obtain rfl : f = f' := Option.some.inj (hgf.symm.trans hgf')
    obtain rfl : fl = fl' := Option.some.inj (hf.symm.trans hf')
    exact Option.some.inj (hl.symm.trans hl')

/-- What the calls of the application cost each node. -/
structure Cluster.Unamplified (c : Cluster Value) : Prop where
  gets : ∀ n key, c.getsOn n key ≤ c.getsAsked key
  loads : ∀ n key, c.loadsOn n key ≤ c.getsAsked key
  removes : ∀ n key, c.removesOn n key ≤ c.removesAsked key

/-- **No amplification.** For each call that the application makes for a key,
a node makes one call for the key and one load at most, in a cluster whose
topology calls do not overlap on a node. -/
theorem no_amplification (hU : Addressable U)
    (h : Reaches Cluster.step (SerialTopology U) (.start .withLocalPeer) c) :
    c.Unamplified := by
  have hbounds : c.Forwarding U ∧ ∀ n key,
      c.getsOn n key + c.total (getsToCome n key) ≤ c.getsAsked key ∧
        c.removesOn n key + c.total (removesToCome n key) ≤ c.removesAsked key := by
    refine h.invariant (I := fun c => c.Forwarding U ∧ ∀ n key,
      c.getsOn n key + c.total (getsToCome n key) ≤ c.getsAsked key ∧
        c.removesOn n key + c.total (removesToCome n key) ≤ c.removesAsked key)
      ⟨.start, fun n key => ⟨Nat.le_refl 0, Nat.le_refl 0⟩⟩ ?_
    rintro s t a ⟨hfwd, hle⟩ hguard hs
    have m := Cluster.step_move hs
    exact ⟨hfwd.step hU hguard m, fun n key =>
      ⟨m.gets_le hfwd (hle n key).1, m.removes_le hU hfwd (hle n key).2⟩⟩
  obtain ⟨hinv, hsharing⟩ := Cluster.reaches_sharing h
  have hgets : ∀ n key, c.getsOn n key ≤ c.getsAsked key := fun n key =>
    (Nat.le_add_right _ _).trans (hbounds.2 n key).1
  exact
    { gets := hgets
      loads := fun n key => (Cluster.loadsOn_le hinv hsharing).trans (hgets n key)
      removes := fun n key => (Nat.le_add_right _ _).trans (hbounds.2 n key).2 }

omit [Platform] [ValueBounds Value] in
/-- The application asks a node twice, and the node forwards one of the calls. -/
theorem no_amplification_sample :
    let _ : Platform := Concrete.platform [Concrete.node 8001, Concrete.node 8002]
    let _ : ValueBounds UInt8 := Concrete.messagePack
    ∃ c : Cluster UInt8, c.Unamplified ∧
      c.gets.map GetCall.node = [Concrete.node 8001, Concrete.node 8001, Concrete.node 8002] := by
  intro _ _
  have hU := Concrete.addressable_nodes [8001, 8002] (by decide)
  have hA : Concrete.node 8001 ∈ {p | p ∈ [8001, 8002].map Concrete.node} := by decide
  obtain ⟨hlookup, -⟩ := Concrete.lookupPeer_paired
  refine ⟨_, no_amplification hU <|
    .head (a := .topology (Concrete.node 8001)
      (.begin (.addPeer (Concrete.node 8002)) fun _ => .connected 0)) ⟨hA, ?_, ?_⟩ rfl <|
    .head (a := .topology (Concrete.node 8001) (.advance 0 [] [])) ⟨hA, trivial⟩ rfl <|
    .head (a := .topology (Concrete.node 8001) (.advance 0 [] [])) ⟨hA, trivial⟩ rfl <|
    .head (a := .topology (Concrete.node 8001) (.advance 0 [] [])) ⟨hA, trivial⟩ rfl <|
    .head (a := .get (Concrete.node 8001) "127.0.0.1:8002_0") hA rfl <|
    .head (a := .get (Concrete.node 8001) "127.0.0.1:8002_0") hA rfl <|
    .head (a := .runGet 0) trivial rfl <| .head (a := .runGet 0) trivial rfl <|
    .head (a := .runGet 0) trivial rfl <|
    .head (a := .runGet 0) trivial (Cluster.step_routing rfl rfl hlookup) <|
    .head (a := .runGet 0) trivial rfl <|
    .single (a := .runFlight 0) trivial rfl, rfl⟩
  · simp [TopologyOp.peers]
  · intro call hcall
    cases hcall

end Groupcache
