import Mathlib.Algebra.Group.Nat.Defs
import Mathlib.Data.List.Sort
import Mathlib.Data.Set.Function

/-!
# Consistent hashing — the ring

A ring of nodes placed on the 64-bit circle by a hash. `HashRing` is the
interface of a sorted-vector ring: what it keeps (`entries`, a multiset in
hash order) and what its operations do to it. A lookup is by position: the
first entry at or after the key, or the first entry of all when there is
none. What a user of a ring reasons with is the geometric reading of that
scan, `HashRing.get_nearest`: the entry found is one of least CLOCKWISE
DISTANCE from the key.
-/

namespace ConsistentHashing

/-! ## The circle -/

/-- The way from `k` forward to `h` on the 64-bit circle. -/
def clockwise (k h : UInt64) : Nat := (h - k).toNat

theorem clockwise_lt (k h : UInt64) : clockwise k h < 2 ^ 64 :=
  (h - k).toNat_lt

@[simp] theorem clockwise_self (k : UInt64) : clockwise k k = 0 := by
  simp [clockwise]

/-- Two positions at one distance from `k` are one position. -/
theorem clockwise_inj {k a b : UInt64} (h : clockwise k a = clockwise k b) :
    a = b := by
  have hsub : a - k = b - k := UInt64.toNat_inj.mp h
  simpa using hsub

theorem clockwise_of_le {k h : UInt64} (hle : k ≤ h) :
    clockwise k h = h.toNat - k.toNat := by
  have hle' := UInt64.le_iff_toNat_le.mp hle
  have hh := h.toNat_lt
  simp only [clockwise, UInt64.toNat_sub]
  omega

/-- A position behind `k` is reached by going round. -/
theorem clockwise_of_lt {k h : UInt64} (hlt : h < k) :
    clockwise k h = 2 ^ 64 - k.toNat + h.toNat := by
  have hlt' : h.toNat < k.toNat := UInt64.lt_iff_toNat_lt.mp hlt
  have hk := k.toNat_lt
  simp only [clockwise, UInt64.toNat_sub]
  omega

/-- Positions at or after `k` come before those behind it. -/
theorem clockwise_le_of_wrap {k a b : UInt64} (ha : k ≤ a) (hb : b < k) :
    clockwise k a ≤ clockwise k b := by
  have hak := UInt64.le_iff_toNat_le.mp ha
  have hlt := a.toNat_lt
  rw [clockwise_of_le ha, clockwise_of_lt hb]
  omega

/-! ## The interface -/

/-- A ring that keeps its nodes in a vector sorted by hash. -/
structure HashRing (T : Type) (hash : T → UInt64) where
  Ring : Type
  new : Ring
  add : Ring → T → Ring
  remove : Ring → T → Ring
  get : Ring → UInt64 → Option T
  /-- The vector behind the ring. -/
  entries : Ring → List T
  entries_sorted : ∀ r, (entries r).Pairwise fun t u => hash t ≤ hash u
  entries_new : entries new = []
  /-- Adding does not look for a copy that is already there. -/
  entries_add : ∀ r t, (entries (add r t)).Perm (t :: entries r)
  /-- Removing takes out one entry with the node's hash, if there is one. -/
  entries_remove : ∀ r t,
    (∃ u, hash u = hash t ∧ (entries r).Perm (u :: entries (remove r t))) ∨
      ((∀ u ∈ entries r, hash u ≠ hash t) ∧ entries (remove r t) = entries r)
  /-- The first entry at or after the key, else the first entry. -/
  get_eq : ∀ r k,
    get r k = ((entries r).find? fun t => decide (k ≤ hash t)).or (entries r).head?

namespace HashRing

variable {T : Type} {hash : T → UInt64} (H : HashRing T hash)

/-! ## Lookup -/

theorem get_eq_none_iff (r : H.Ring) (k : UInt64) :
    H.get r k = none ↔ H.entries r = [] := by
  rw [H.get_eq]
  cases H.entries r with
  | nil => simp
  | cons t ts => simp

theorem get_mem {r : H.Ring} {k : UInt64} {t : T} (h : H.get r k = some t) :
    t ∈ H.entries r := by
  rw [H.get_eq, Option.or_eq_some_iff] at h
  rcases h with h | ⟨_, h⟩
  · exact List.mem_of_find?_eq_some h
  · exact List.mem_of_mem_head? h

/-- The head of the vector has the least hash. -/
private theorem head_least {r : H.Ring} {t : T}
    (h : (H.entries r).head? = some t) :
    ∀ u ∈ H.entries r, hash t ≤ hash u := by
  have hs := H.entries_sorted r
  cases he : H.entries r with
  | nil => simp
  | cons x xs =>
      rw [he] at h hs
      cases h
      intro u hu
      rcases List.mem_cons.mp hu with rfl | hu
      · exact UInt64.le_refl _
      · exact (List.pairwise_cons.mp hs).1 u hu

/-- **The scan finds the nearest entry.** The vector is sorted, so what
stands before the first entry at or after the key lies behind the key. -/
theorem get_nearest {r : H.Ring} {k : UInt64} {t : T} (h : H.get r k = some t) :
    ∀ u ∈ H.entries r, clockwise k (hash t) ≤ clockwise k (hash u) := by
  intro u hu
  rw [H.get_eq, Option.or_eq_some_iff] at h
  rcases h with h | ⟨hnone, h⟩
  · obtain ⟨hk, pre, post, hsplit, hpre⟩ := List.find?_eq_some_iff_append.mp h
    have hk : k ≤ hash t := of_decide_eq_true hk
    by_cases hku : k ≤ hash u
    · have hle : hash t ≤ hash u := by
        have hs := H.entries_sorted r
        rw [hsplit] at hs hu
        rcases List.mem_append.mp hu with hu | hu
        · exact absurd hku (by simpa using hpre u hu)
        · rcases List.mem_cons.mp hu with rfl | hu
          · exact UInt64.le_refl _
          · exact (List.pairwise_cons.mp (List.pairwise_append.mp hs).2.1).1 u hu
      rw [clockwise_of_le hk, clockwise_of_le hku]
      have := UInt64.le_iff_toNat_le.mp hle
      omega
    · exact clockwise_le_of_wrap hk (UInt64.not_le.mp hku)
  · -- nothing at or after the key: every entry lies behind it
    have hbehind : ∀ v ∈ H.entries r, hash v < k := by
      intro v hv
      simpa using List.find?_eq_none.mp hnone v hv
    have hle := UInt64.le_iff_toNat_le.mp (H.head_least h u hu)
    rw [clockwise_of_lt (hbehind t (List.mem_of_mem_head? h)),
      clockwise_of_lt (hbehind u hu)]
    omega

/-- With distinct hashes the nearest entry is the only one so near, so a
lookup is decided by WHICH entries there are, whatever their number. -/
theorem get_eq_some_of_nearest {r : H.Ring} {k : UInt64} {t : T}
    (hinj : Set.InjOn hash {u | u ∈ H.entries r}) (ht : t ∈ H.entries r)
    (hmin : ∀ u ∈ H.entries r, clockwise k (hash t) ≤ clockwise k (hash u)) :
    H.get r k = some t := by
  cases hg : H.get r k with
  | none =>
      rw [(H.get_eq_none_iff r k).mp hg] at ht
      cases ht
  | some u =>
      have hu := H.get_mem hg
      have hd := Nat.le_antisymm (H.get_nearest hg t ht) (hmin u hu)
      rw [hinj hu ht (clockwise_inj hd)]

/-! ## What the operations do to the entries -/

theorem mem_add {r : H.Ring} {t v : T} :
    v ∈ H.entries (H.add r t) ↔ v = t ∨ v ∈ H.entries r := by
  rw [(H.entries_add r t).mem_iff, List.mem_cons]

theorem mem_of_mem_remove {r : H.Ring} {t v : T}
    (h : v ∈ H.entries (H.remove r t)) : v ∈ H.entries r := by
  rcases H.entries_remove r t with ⟨u, _, hp⟩ | ⟨_, he⟩
  · exact hp.mem_iff.mpr (List.mem_cons_of_mem u h)
  · rwa [he] at h

variable [DecidableEq T]

theorem count_add (r : H.Ring) (t v : T) :
    (H.entries (H.add r t)).count v
      = (H.entries r).count v + if t = v then 1 else 0 := by
  rw [(H.entries_add r t).count_eq, List.count_cons]
  simp

/-- Where the hash tells the node from the entries, removing it takes out
one copy of the node itself. -/
theorem count_remove {r : H.Ring} {t : T}
    (hinj : ∀ u ∈ H.entries r, hash u = hash t → u = t) (v : T) :
    (H.entries (H.remove r t)).count v
      = (H.entries r).count v - if t = v then 1 else 0 := by
  rcases H.entries_remove r t with ⟨u, hu, hp⟩ | ⟨hne, he⟩
  · have hut : u = t := hinj u (hp.mem_iff.mpr List.mem_cons_self) hu
    subst hut
    rw [hp.count_eq, List.count_cons]
    by_cases hv : u = v <;> simp [hv]
  · rw [he]
    by_cases hv : t = v
    · subst hv
      have : (H.entries r).count t = 0 :=
        List.count_eq_zero.mpr fun ht => hne t ht rfl
      simp [this]
    · simp [hv]

/-- Two rings with the same copies of everything are in the same order. -/
theorem entries_eq_of_count {r s : H.Ring}
    (hinj : Set.InjOn hash {u | u ∈ H.entries r})
    (hcount : ∀ t, (H.entries r).count t = (H.entries s).count t) :
    H.entries r = H.entries s := by
  have hp : (H.entries r).Perm (H.entries s) := List.perm_iff_count.mpr hcount
  refine hp.eq_of_pairwise ?_ (H.entries_sorted r) (H.entries_sorted s)
  intro a b ha hb hab hba
  exact hinj ha (hp.mem_iff.mpr hb) (UInt64.le_antisymm hab hba)

/-! ## A sorted vector

The interface is inhabited by what it describes: a vector sorted by hash,
with sorted insertion and removal of the first entry of the node's hash. -/

/-- A vector sorted by hash. -/
abbrev SortedVec (hash : T → UInt64) : Type :=
  {l : List T // l.Pairwise fun t u => hash t ≤ hash u}

private instance totalHash : Std.Total fun t u : T => hash t ≤ hash u :=
  ⟨fun t u => UInt64.le_total (hash t) (hash u)⟩

private instance transHash : IsTrans T fun t u => hash t ≤ hash u :=
  ⟨fun _ _ _ => UInt64.le_trans⟩

/-- The ring kept as a sorted vector. -/
def sortedVec (hash : T → UInt64) : HashRing T hash where
  Ring := SortedVec hash
  new := ⟨[], List.Pairwise.nil⟩
  add r t := ⟨r.1.orderedInsert (fun t u => hash t ≤ hash u) t, r.2.orderedInsert t r.1⟩
  remove r t := ⟨r.1.eraseP fun u => hash u = hash t, r.2.sublist List.eraseP_sublist⟩
  get r k := (r.1.find? fun t => decide (k ≤ hash t)).or r.1.head?
  entries r := r.1
  entries_sorted r := r.2
  entries_new := rfl
  entries_add r t := List.perm_orderedInsert _ t r.1
  entries_remove r t := by
    by_cases h : ∃ u ∈ r.1, hash u = hash t
    · obtain ⟨u, hu, hut⟩ := h
      obtain ⟨a, pre, post, _, ha, hr, he⟩ :=
        List.exists_of_eraseP (p := fun u => decide (hash u = hash t)) hu (by simpa using hut)
      refine .inl ⟨a, by simpa using ha, ?_⟩
      show r.1.Perm (a :: r.1.eraseP fun u => hash u = hash t)
      rw [he, hr]
      exact List.perm_middle
    · simp only [not_exists, not_and] at h
      exact .inr ⟨h, List.eraseP_of_forall_not (by simpa using h)⟩
  get_eq _ _ := rfl

end HashRing

end ConsistentHashing
