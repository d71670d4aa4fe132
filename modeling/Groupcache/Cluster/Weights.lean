import Groupcache.Cluster.Step

/-!
# Weights

How much is still to come of what is in progress: each call and each flight
has a weight, and the weights of a cluster add up. A step changes one record,
or one record and one that it adds, so what it does to the total is read off
these.
-/

namespace Groupcache

variable [Platform] {Value : Type}

structure Weights (Value : Type) where
  get : GetCall Value → Nat
  flight : Flight Value → Nat
  remove : RemoveCall → Nat

namespace Cluster

def total (c : Cluster Value) (w : Weights Value) : Nat :=
  (c.gets.map w.get).sum + (c.flights.map w.flight).sum + (c.removes.map w.remove).sum

variable {c c' : Cluster Value} {w : Weights Value} {i d : Nat}

theorem total_eq (hgets : c'.gets = c.gets) (hflights : c'.flights = c.flights)
    (hremoves : c'.removes = c.removes) : c'.total w = c.total w := by
  rw [total, total, hgets, hflights, hremoves]

/-! ## One record changes -/

theorem total_of_gets {g g' : GetCall Value} (hg : c.gets[i]? = some g)
    (hle : w.get g' + d ≤ w.get g) (hgets : c'.gets = c.gets.set i g')
    (hflights : c'.flights = c.flights) (hremoves : c'.removes = c.removes) :
    c'.total w + d ≤ c.total w := by
  have := Table.sum_set_add (f := w.get) (b := g') hg
  rw [total, total, hgets, hflights, hremoves]
  omega

theorem total_of_flights {fl fl' : Flight Value} (hf : c.flights[i]? = some fl)
    (hle : w.flight fl' + d ≤ w.flight fl) (hgets : c'.gets = c.gets)
    (hflights : c'.flights = c.flights.set i fl') (hremoves : c'.removes = c.removes) :
    c'.total w + d ≤ c.total w := by
  have := Table.sum_set_add (f := w.flight) (b := fl') hf
  rw [total, total, hgets, hflights, hremoves]
  omega

theorem total_of_removes {r r' : RemoveCall} (hr : c.removes[i]? = some r)
    (hle : w.remove r' + d ≤ w.remove r) (hgets : c'.gets = c.gets)
    (hflights : c'.flights = c.flights) (hremoves : c'.removes = c.removes.set i r') :
    c'.total w + d ≤ c.total w := by
  have := Table.sum_set_add (f := w.remove) (b := r') hr
  rw [total, total, hgets, hflights, hremoves]
  omega

/-! ## One record begins another -/

/-- A call leaves what is to come of it to the flight that it opens. -/
theorem total_of_openFlight {g g' : GetCall Value} {fl : Flight Value}
    (hg : c.gets[i]? = some g) (hle : w.get g' + w.flight fl + d ≤ w.get g)
    (hgets : c'.gets = c.gets.set i g') (hflights : c'.flights = c.flights ++ [fl])
    (hremoves : c'.removes = c.removes) : c'.total w + d ≤ c.total w := by
  have := Table.sum_set_add (f := w.get) (b := g') hg
  rw [total, total, hgets, hflights, hremoves, Table.sum_concat]
  omega

/-- A flight leaves some of it to the call that it makes. -/
theorem total_of_sendGet {fl fl' : Flight Value} {g : GetCall Value}
    (hf : c.flights[i]? = some fl) (hle : w.flight fl' + w.get g + d ≤ w.flight fl)
    (hgets : c'.gets = c.gets ++ [g]) (hflights : c'.flights = c.flights.set i fl')
    (hremoves : c'.removes = c.removes) : c'.total w + d ≤ c.total w := by
  have := Table.sum_set_add (f := w.flight) (b := fl') hf
  rw [total, total, hgets, hflights, hremoves, Table.sum_concat]
  omega

theorem total_of_sendRemove {r r' call : RemoveCall} (hr : c.removes[i]? = some r)
    (hle : w.remove r' + w.remove call + d ≤ w.remove r) (hgets : c'.gets = c.gets)
    (hflights : c'.flights = c.flights) (hremoves : c'.removes = c.removes.set i r' ++ [call]) :
    c'.total w + d ≤ c.total w := by
  have := Table.sum_set_add (f := w.remove) (b := r') hr
  rw [total, total, hgets, hflights, hremoves, Table.sum_concat]
  omega

/-- The application calls `get`. -/
theorem total_of_get {g : GetCall Value} (hgets : c'.gets = c.gets ++ [g])
    (hflights : c'.flights = c.flights) (hremoves : c'.removes = c.removes) :
    c'.total w = c.total w + w.get g := by
  rw [total, total, hgets, hflights, hremoves, Table.sum_concat]
  omega

theorem total_of_remove {r : RemoveCall} (hgets : c'.gets = c.gets)
    (hflights : c'.flights = c.flights) (hremoves : c'.removes = c.removes ++ [r]) :
    c'.total w = c.total w + w.remove r := by
  rw [total, total, hgets, hflights, hremoves, Table.sum_concat]
  omega

end Cluster

end Groupcache
