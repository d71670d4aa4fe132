import Groupcache.Lib.HashRing
import Mathlib.Algebra.BigOperators.Group.Finset.Basic
import Mathlib.Algebra.Order.BigOperators.Group.Multiset
import Mathlib.Data.Multiset.Count

/-!
# Consistent hashing — owners with several points

Every owner stands on the ring at several points (virtual nodes). What a
ring does with them is read through one abstraction: `Copies`, how many
times each owner stands there. Adding an owner adds one, removing it takes
one away (`Copies.addAll`, `Copies.removeAll`), and a lookup finds a point
of an owner that stands there at least once.

Two results are about rings that know different owners. `Copies.get_agree`:
two rings that each know the other's choice make the same choice.
`Copies.nearest_lt`: a ring that an owner `o` stands on names either `o` or
an owner strictly nearer to the key, so a search handed from owner to owner,
each asking its own ring, gets closer at every hand-over.
-/

namespace ConsistentHashing

variable {T O : Type} {hash : T → UInt64}

namespace HashRing

variable (H : HashRing T hash)

/-- Adding several nodes, in order. -/
def addAll (r : H.Ring) (ts : List T) : H.Ring := ts.foldl H.add r

/-- Removing several nodes, in order. -/
def removeAll (r : H.Ring) (ts : List T) : H.Ring := ts.foldl H.remove r

theorem mem_addAll {r : H.Ring} {ts : List T} {v : T} :
    v ∈ H.entries (H.addAll r ts) ↔ v ∈ ts ∨ v ∈ H.entries r := by
  induction ts generalizing r with
  | nil => simp [addAll]
  | cons t ts ih =>
      have := ih (r := H.add r t)
      simp only [addAll, List.foldl_cons] at this ⊢
      rw [this, H.mem_add, List.mem_cons, or_left_comm, or_assoc]

theorem mem_of_mem_removeAll {r : H.Ring} {ts : List T} {v : T}
    (h : v ∈ H.entries (H.removeAll r ts)) : v ∈ H.entries r := by
  induction ts generalizing r with
  | nil => exact h
  | cons t ts ih => exact H.mem_of_mem_remove (ih h)

variable [DecidableEq T]

theorem count_addAll (r : H.Ring) (ts : List T) (v : T) :
    (H.entries (H.addAll r ts)).count v = (H.entries r).count v + ts.count v := by
  induction ts generalizing r with
  | nil => simp [addAll]
  | cons t ts ih =>
      have := ih (H.add r t)
      simp only [addAll, List.foldl_cons] at this ⊢
      rw [this, H.count_add, List.count_cons, beq_eq_decide]
      simp only [decide_eq_true_eq]
      omega

theorem count_removeAll {S : Set T} (hinj : Set.InjOn hash S) {r : H.Ring}
    {ts : List T} (hr : ∀ t ∈ H.entries r, t ∈ S) (hts : ∀ t ∈ ts, t ∈ S) (v : T) :
    (H.entries (H.removeAll r ts)).count v = (H.entries r).count v - ts.count v := by
  induction ts generalizing r with
  | nil => simp [removeAll]
  | cons t ts ih =>
      have ht : t ∈ S := hts t List.mem_cons_self
      have := ih (r := H.remove r t) (fun u hu => hr u (H.mem_of_mem_remove hu))
        (fun u hu => hts u (List.mem_cons_of_mem t hu))
      simp only [removeAll, List.foldl_cons] at this ⊢
      rw [this, H.count_remove (fun u hu hut => hinj (hr u hu) ht hut), List.count_cons,
        beq_eq_decide]
      simp only [decide_eq_true_eq]
      omega

end HashRing

/-! ## Owners -/

/-- Where the owners of `U` stand: each at different points, no two at one,
and the hash tells all their points apart. -/
structure Placement (hash : T → UInt64) (points : O → List T) (U : Set O) : Prop where
  nodup : ∀ o ∈ U, (points o).Nodup
  disjoint : ∀ a ∈ U, ∀ b ∈ U, ∀ t ∈ points a, t ∈ points b → a = b
  distinct : ∀ a ∈ U, ∀ b ∈ U, ∀ t ∈ points a, ∀ u ∈ points b, hash t = hash u → t = u

/-- The points of `U`. -/
def pointsOf (points : O → List T) (U : Set O) : Set T := {t | ∃ o ∈ U, t ∈ points o}

variable {points : O → List T} {U : Set O}

theorem Placement.injOn (P : Placement hash points U) :
    Set.InjOn hash (pointsOf points U) := by
  rintro t ⟨a, ha, hta⟩ u ⟨b, hb, hub⟩ htu
  exact P.distinct a ha b hb t hta u hub htu

/-! ## How near an owner is -/

/-- The distance from `k` to the nearest point of `o`. -/
def nearest (hash : T → UInt64) (points : O → List T) (k : UInt64) (o : O) : Nat :=
  (points o).foldr (fun t d => min (clockwise k (hash t)) d) (2 ^ 64)

private theorem foldr_min_le {f : T → Nat} {b : Nat} {ts : List T} {t : T} (ht : t ∈ ts) :
    ts.foldr (fun t d => min (f t) d) b ≤ f t := by
  induction ts with
  | nil => cases ht
  | cons u us ih =>
      rcases List.mem_cons.mp ht with rfl | ht
      · exact Nat.min_le_left _ _
      · exact Nat.le_trans (Nat.min_le_right _ _) (ih ht)

private theorem lt_foldr_min {f : T → Nat} {b d : Nat} {ts : List T} (hb : d < b)
    (h : ∀ t ∈ ts, d < f t) : d < ts.foldr (fun t d => min (f t) d) b := by
  induction ts with
  | nil => exact hb
  | cons u us ih =>
      exact Nat.lt_min.mpr ⟨h u List.mem_cons_self,
        ih fun t ht => h t (List.mem_cons_of_mem u ht)⟩

theorem nearest_le {k : UInt64} {o : O} {t : T} (ht : t ∈ points o) :
    nearest hash points k o ≤ clockwise k (hash t) := foldr_min_le ht

theorem lt_nearest {k h : UInt64} {o : O}
    (hlt : ∀ t ∈ points o, clockwise k h < clockwise k (hash t)) :
    clockwise k h < nearest hash points k o := lt_foldr_min (clockwise_lt k h) hlt

/-! ## Who owns a key -/

/-- Of the members, the one whose points come first from the key on. This
says nothing of a ring: it is what the rings are for. -/
def IsOwner (hash : T → UInt64) (points : O → List T) (M : Set O) (k : UInt64) (o : O) : Prop :=
  o ∈ M ∧ ∀ a ∈ M, a ≠ o → nearest hash points k o < nearest hash points k a

namespace IsOwner

variable {M : Set O} {k : UInt64} {o a : O}

theorem unique (h : IsOwner hash points M k o) (h' : IsOwner hash points M k a) : o = a := by
  by_contra hne
  have := h.2 a h'.1 (Ne.symm hne)
  have := h'.2 o h.1 hne
  omega

end IsOwner

/-! ## Copies -/

variable [DecidableEq T] (H : HashRing T hash)

/-- Each owner `o` of `U` stands on the ring `n o` times, with all its
points, and nothing else does. -/
structure Copies (points : O → List T) (U : Set O) (r : H.Ring) (n : O → Nat) : Prop where
  count : ∀ o ∈ U, ∀ t ∈ points o, (H.entries r).count t = n o
  covered : ∀ t ∈ H.entries r, t ∈ pointsOf points U

variable {H} {r s : H.Ring} {n m : O → Nat} {k : UInt64} {t : T} {o : O}

namespace Copies

theorem mem_iff (C : Copies H points U r n) (ho : o ∈ U) (ht : t ∈ points o) :
    t ∈ H.entries r ↔ 0 < n o := by
  rw [← List.count_pos_iff, C.count o ho t ht]

/-- An entry belongs to an owner that stands there. -/
theorem owner (C : Copies H points U r n) (ht : t ∈ H.entries r) :
    ∃ o ∈ U, t ∈ points o ∧ 0 < n o := by
  obtain ⟨o, ho, hto⟩ := C.covered t ht
  exact ⟨o, ho, hto, (C.mem_iff ho hto).mp ht⟩

theorem injOn (C : Copies H points U r n) (P : Placement hash points U) :
    Set.InjOn hash {u | u ∈ H.entries r} :=
  P.injOn.mono C.covered

theorem new : Copies H points U H.new fun _ => 0 where
  count _ _ _ _ := by simp [H.entries_new]
  covered := by simp [H.entries_new]

variable [DecidableEq O]

theorem addAll (C : Copies H points U r n) (P : Placement hash points U) (ho : o ∈ U) :
    Copies H points U (H.addAll r (points o)) (Function.update n o (n o + 1)) where
  count a ha t ht := by
    rw [H.count_addAll, C.count a ha t ht]
    by_cases hao : a = o
    · subst hao
      simp [List.count_eq_one_of_mem (P.nodup a ha) ht]
    · have : (points o).count t = 0 :=
        List.count_eq_zero.mpr fun hto => hao (P.disjoint a ha o ho t ht hto)
      simp [this, hao]
  covered t ht := by
    rcases H.mem_addAll.mp ht with hto | ht
    · exact ⟨o, ho, hto⟩
    · exact C.covered t ht

theorem removeAll (C : Copies H points U r n) (P : Placement hash points U) (ho : o ∈ U) :
    Copies H points U (H.removeAll r (points o)) (Function.update n o (n o - 1)) where
  count a ha t ht := by
    rw [H.count_removeAll P.injOn C.covered (fun u hu => ⟨o, ho, hu⟩), C.count a ha t ht]
    by_cases hao : a = o
    · subst hao
      simp [List.count_eq_one_of_mem (P.nodup a ha) ht]
    · have : (points o).count t = 0 :=
        List.count_eq_zero.mpr fun hto => hao (P.disjoint a ha o ho t ht hto)
      simp [this, hao]
  covered t ht := C.covered t (H.mem_of_mem_removeAll ht)

omit [DecidableEq O]

/-! ### What a lookup finds -/

theorem get_isSome (C : Copies H points U r n) (ho : o ∈ U) (hne : points o ≠ [])
    (hn : 0 < n o) : ∃ t, H.get r k = some t := by
  obtain ⟨t, ht⟩ := List.exists_mem_of_ne_nil _ hne
  have hmem := (C.mem_iff ho ht).mpr hn
  cases hg : H.get r k with
  | some t => exact ⟨t, rfl⟩
  | none =>
      rw [(H.get_eq_none_iff r k).mp hg] at hmem
      cases hmem

/-- A key that hashes to a point of an owner on the ring is that owner's. -/
theorem get_hash (C : Copies H points U r n) (P : Placement hash points U) (ho : o ∈ U)
    (ht : t ∈ points o) (hn : 0 < n o) : H.get r (hash t) = some t :=
  H.get_eq_some_of_nearest (C.injOn P) ((C.mem_iff ho ht).mpr hn)
    (fun u _ => by simp)

/-- **Agreement.** Each ring knows the owner of the other's choice, so
neither choice is nearer than the other. -/
theorem get_agree (C : Copies H points U r n) (D : Copies H points U s m)
    (P : Placement hash points U) {a b : O} {u : T}
    (hr : H.get r k = some t) (ha : a ∈ U) (hta : t ∈ points a) (hma : 0 < m a)
    (hs : H.get s k = some u) (hb : b ∈ U) (hub : u ∈ points b) (hnb : 0 < n b) :
    t = u := by
  have htu := H.get_nearest hr u ((C.mem_iff hb hub).mpr hnb)
  have hut := H.get_nearest hs t ((D.mem_iff ha hta).mpr hma)
  exact P.distinct a ha b hb t hta u hub (clockwise_inj (Nat.le_antisymm htu hut))

/-- **Descent.** On a ring `o` stands on, a lookup that names another owner
names one nearer to the key. -/
theorem nearest_lt (C : Copies H points U r n) (P : Placement hash points U) {a : O}
    (hg : H.get r k = some t) (ha : a ∈ U) (hta : t ∈ points a)
    (ho : o ∈ U) (hn : 0 < n o) (hne : a ≠ o) :
    nearest hash points k a < nearest hash points k o := by
  refine Nat.lt_of_le_of_lt (nearest_le hta) (lt_nearest fun u hu => ?_)
  refine Nat.lt_of_le_of_ne (H.get_nearest hg u ((C.mem_iff ho hu).mpr hn)) fun heq => ?_
  have htu := P.distinct a ha o ho t hta u hu (clockwise_inj heq)
  exact hne (P.disjoint a ha o ho t hta (htu ▸ hu))

/-- **A ring finds the owner** of a key among those that stand on it. -/
theorem isOwner (C : Copies H points U r n) (P : Placement hash points U) {M : Set O}
    (hM : ∀ a ∈ M, a ∈ U ∧ 0 < n a) (hg : H.get r k = some t) (ho : o ∈ M) (ht : t ∈ points o) :
    IsOwner hash points M k o :=
  ⟨ho, fun a ha hne =>
    C.nearest_lt P hg (hM o ho).1 ht (hM a ha).1 (hM a ha).2 (Ne.symm hne)⟩

/-! ### The entries as a multiset -/

/-- The entries in full, when all owners that stand there are in `A`. -/
theorem entries_eq_sum (C : Copies H points U r n) (P : Placement hash points U)
    {A : Finset O} (hA : ∀ o ∈ A, o ∈ U) (hn : ∀ o ∈ U, 0 < n o → o ∈ A) :
    (H.entries r : Multiset T) = ∑ o ∈ A, n o • (points o : Multiset T) := by
  classical
  ext t
  rw [Multiset.count_sum', Multiset.coe_count]
  simp only [Multiset.count_nsmul, Multiset.coe_count]
  by_cases ht : t ∈ H.entries r
  · obtain ⟨o, ho, hto, hpos⟩ := C.owner ht
    rw [Finset.sum_eq_single o, List.count_eq_one_of_mem (P.nodup o ho) hto, Nat.mul_one]
    · exact C.count o ho t hto
    · intro a ha hao
      have : (points a).count t = 0 :=
        List.count_eq_zero.mpr fun hta => hao (P.disjoint a (hA a ha) o ho t hta hto)
      simp [this]
    · exact fun h => absurd (hn o ho hpos) h
  · rw [List.count_eq_zero.mpr ht, eq_comm, Finset.sum_eq_zero]
    intro a ha
    by_cases hta : t ∈ points a
    · have : ¬ 0 < n a := fun hpos => ht ((C.mem_iff (hA a ha) hta).mpr hpos)
      simp [Nat.eq_zero_of_not_pos this]
    · simp [List.count_eq_zero.mpr hta]

/-- Adding an owner adds its points, -/
theorem coe_entries_addAll (r : H.Ring) (ts : List T) :
    (H.entries (H.addAll r ts) : Multiset T) = H.entries r + (ts : Multiset T) := by
  ext t
  rw [Multiset.coe_count, H.count_addAll, Multiset.count_add, Multiset.coe_count,
    Multiset.coe_count]

/-- and removing one that stands there takes them away. -/
theorem coe_entries_removeAll (C : Copies H points U r n) (P : Placement hash points U)
    (ho : o ∈ U) (hn : 0 < n o) :
    (H.entries (H.removeAll r (points o)) : Multiset T) + (points o : Multiset T)
      = H.entries r := by
  ext t
  rw [Multiset.count_add, Multiset.coe_count, Multiset.coe_count, Multiset.coe_count,
    H.count_removeAll P.injOn C.covered (fun u hu => ⟨o, ho, hu⟩)]
  by_cases ht : t ∈ points o
  · rw [C.count o ho t ht, List.count_eq_one_of_mem (P.nodup o ho) ht]
    omega
  · rw [List.count_eq_zero.mpr ht]
    omega

/-- The vector is determined by the copies. -/
theorem entries_eq (C : Copies H points U r n) (D : Copies H points U s m)
    (P : Placement hash points U) (hnm : ∀ o ∈ U, n o = m o) :
    H.entries r = H.entries s := by
  refine H.entries_eq_of_count (C.injOn P) fun t => ?_
  by_cases ht : t ∈ pointsOf points U
  · obtain ⟨o, ho, hto⟩ := ht
    rw [C.count o ho t hto, D.count o ho t hto, hnm o ho]
  · rw [List.count_eq_zero.mpr fun h => ht (C.covered t h),
      List.count_eq_zero.mpr fun h => ht (D.covered t h)]

end Copies

end ConsistentHashing
