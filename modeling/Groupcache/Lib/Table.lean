import Mathlib.Algebra.BigOperators.Group.Finset.Piecewise
import Mathlib.Algebra.BigOperators.Group.List.Basic
import Mathlib.Algebra.GroupWithZero.Nat
import Mathlib.Algebra.Order.BigOperators.Group.List
import Mathlib.Algebra.Order.Group.Nat
import Mathlib.Data.Finset.Card
import Mathlib.Data.Finset.Range
import Mathlib.Data.List.Basic
import Mathlib.Data.List.Induction

/-!
# Tables of records

A list used as a table that only grows: rows are appended and overwritten,
and named by their index. The lemmas say which row an index finds after each
of the two, and `Grows` that every row is still there, as what it has become.
-/

namespace Table

variable {α : Type*} {rows : List α} {i j : Nat} {a b : α}

theorem lt_of_getElem? (h : rows[i]? = some a) : i < rows.length :=
  (List.getElem?_eq_some_iff.mp h).1

/-- What holds of every row holds at every number. -/
theorem forall_mem_iff {P : α → Prop} :
    (∀ a ∈ rows, P a) ↔ ∀ (i : Nat) a, rows[i]? = some a → P a := by
  constructor
  · exact fun h i a ha => h a (List.mem_of_getElem? ha)
  · intro h a ha
    obtain ⟨i, hi⟩ := List.mem_iff_getElem?.mp ha
    exact h i a hi

/-- A row of the longer table is an old one or the new one. -/
theorem append_cases (h : (rows ++ [b])[i]? = some a) :
    rows[i]? = some a ∨ (i = rows.length ∧ a = b) := by
  rcases Nat.lt_trichotomy i rows.length with hlt | heq | hgt
  · rw [List.getElem?_append_left hlt] at h
    exact .inl h
  · subst heq
    rw [List.getElem?_concat_length] at h
    exact .inr ⟨rfl, (Option.some.inj h).symm⟩
  · have := lt_of_getElem? h
    rw [List.length_append, List.length_singleton] at this
    omega

/-- The same for the rows of two tables of one length. -/
theorem append_cases₂ {β : Type*} {rows' : List β} {x y : β} (hlen : rows'.length = rows.length)
    (h : (rows ++ [b])[i]? = some a) (h' : (rows' ++ [y])[i]? = some x) :
    (rows[i]? = some a ∧ rows'[i]? = some x) ∨ (i = rows.length ∧ a = b ∧ x = y) := by
  rcases append_cases h with h | ⟨rfl, rfl⟩
  · rw [List.getElem?_append_left (hlen ▸ lt_of_getElem? h)] at h'
    exact .inl ⟨h, h'⟩
  · rw [← hlen, List.getElem?_concat_length] at h'
    exact .inr ⟨rfl, rfl, (Option.some.inj h').symm⟩

theorem append_of_some (h : rows[i]? = some a) : (rows ++ [b])[i]? = some a := by
  rw [List.getElem?_append_left (lt_of_getElem? h)]
  exact h

/-- A row after one is overwritten is that one or an old one elsewhere. -/
theorem set_cases (h : (rows.set i b)[j]? = some a) :
    (j = i ∧ a = b) ∨ (j ≠ i ∧ rows[j]? = some a) := by
  by_cases hj : j = i
  · subst hj
    have hlt := lt_of_getElem? h
    rw [List.length_set] at hlt
    rw [List.getElem?_set_self hlt] at h
    exact .inl ⟨rfl, (Option.some.inj h).symm⟩
  · rw [List.getElem?_set_ne (Ne.symm hj)] at h
    exact .inr ⟨hj, h⟩

theorem set_self (h : rows[i]? = some a) : (rows.set i b)[i]? = some b :=
  List.getElem?_set_self (lt_of_getElem? h)

theorem set_of_ne (hj : j ≠ i) (h : rows[j]? = some a) : (rows.set i b)[j]? = some a := by
  rwa [List.getElem?_set_ne (Ne.symm hj)]

/-- The row appended to a table with a row overwritten. -/
theorem set_concat_last {d : α} : (rows.set i b ++ [d])[rows.length]? = some d := by
  simp

theorem take_iff {k : Nat} : (rows.take k)[i]? = some a ↔ i < k ∧ rows[i]? = some a := by
  rw [List.getElem?_take]
  split <;> simp [*]

/-- The modified row, or an old one elsewhere. -/
theorem modify_cases {g : α → α} (h : (rows.modify i g)[j]? = some a) :
    (j = i ∧ ∃ b, rows[i]? = some b ∧ a = g b) ∨ (j ≠ i ∧ rows[j]? = some a) := by
  rw [List.getElem?_modify] at h
  by_cases hj : i = j
  · subst hj
    obtain ⟨b, hb, rfl⟩ := Option.map_eq_some_iff.mp (by simpa using h)
    exact .inl ⟨rfl, b, hb, rfl⟩
  · exact .inr ⟨Ne.symm hj, by simpa [hj] using h⟩

theorem modify_concat (rows : List α) (a : α) (g : α → α) :
    (rows ++ [a]).modify rows.length g = rows ++ [g a] := by
  simp [List.modify_eq_take_drop]

/-- Where the rows with a property all have one index there is at most one. -/
theorem length_filter_le_one {p : α → Bool}
    (h : ∀ (i j : Nat) a b, rows[i]? = some a → rows[j]? = some b → p a = true → p b = true →
      i = j) :
    (rows.filter p).length ≤ 1 := by
  induction rows with
  | nil => exact Nat.zero_le _
  | cons x xs ih =>
      by_cases hx : p x = true
      · have hnone : xs.filter p = [] := by
          refine List.filter_eq_nil_iff.mpr fun a ha hpa => ?_
          obtain ⟨i, hi⟩ := List.getElem?_of_mem ha
          exact absurd (h 0 (i + 1) x a rfl hi hx hpa) (Nat.succ_ne_zero i).symm
        rw [List.filter_cons_of_pos hx, hnone]
        exact Nat.le_refl 1
      · rw [List.filter_cons_of_neg hx]
        exact ih fun i j a b hi hj ha hb =>
          Nat.succ.inj (h (i + 1) (j + 1) a b hi hj ha hb)

/-- Where a property fails of the last row at most, what has it is the table
with or without that row. -/
theorem filter_of_last {p : α → Bool}
    (h : ∀ (i : Nat) a, rows[i]? = some a → p a = false → i + 1 = rows.length) :
    rows.filter p = rows ∨ rows.filter p = rows.dropLast := by
  rcases List.eq_nil_or_concat rows with rfl | ⟨rest, a, rfl⟩
  · exact .inl rfl
  · rw [List.concat_eq_append] at h ⊢
    have hrest : rest.filter p = rest := by
      refine List.filter_eq_self.mpr fun x hx => ?_
      by_contra hp
      obtain ⟨i, hi⟩ := List.getElem?_of_mem hx
      have hlast := h i x (append_of_some hi) (by simpa using hp)
      have hlt := lt_of_getElem? hi
      rw [List.length_append, List.length_singleton] at hlast
      omega
    cases hp : p a
    · exact .inr (by simp [hrest, hp])
    · exact .inl (by simp [hrest, hp])

/-! ## Counting rows -/

/-- Overwriting a row by one that counts as it does. -/
theorem countP_set {p : α → Bool} (ha : rows[i]? = some a) (hp : p b = p a) :
    (rows.set i b).countP p = rows.countP p := by
  obtain ⟨hi, rfl⟩ := List.getElem?_eq_some_iff.mp ha
  rw [List.countP_set hi, hp]
  have hpos : p rows[i] = true → 0 < rows.countP p := fun h =>
    List.countP_pos_iff.mpr ⟨rows[i], List.getElem_mem hi, h⟩
  split
  · have := hpos ‹_›
    omega
  · omega

theorem countP_concat {p : α → Bool} :
    (rows ++ [b]).countP p = rows.countP p + if p b then 1 else 0 := by
  rw [List.countP_append, List.countP_singleton]

/-- The rows that count, by their indices. -/
def indices (p : α → Bool) (rows : List α) : Finset Nat :=
  (Finset.range rows.length).filter fun i => (rows[i]?).any p

theorem mem_indices {p : α → Bool} : i ∈ indices p rows ↔ ∃ a, rows[i]? = some a ∧ p a = true := by
  simp only [indices, Finset.mem_filter, Finset.mem_range, Option.any_eq_true]
  exact ⟨And.right, fun h => ⟨lt_of_getElem? h.choose_spec.1, h⟩⟩

theorem card_indices (p : α → Bool) (rows : List α) : (indices p rows).card = rows.countP p := by
  induction rows using List.reverseRecOn with
  | nil => rfl
  | append_singleton rows b ih =>
      have hnew : rows.length ∉ indices p rows := fun h => by
        obtain ⟨a, ha, _⟩ := mem_indices.mp h
        exact Nat.lt_irrefl _ (lt_of_getElem? ha)
      have hmem : ∀ i : Nat, i ∈ indices p (rows ++ [b]) ↔
          i ∈ indices p rows ∨ (i = rows.length ∧ p b = true) := by
        intro i
        rw [mem_indices, mem_indices]
        constructor
        · rintro ⟨a, ha, hp⟩
          rcases append_cases ha with ha | ⟨rfl, rfl⟩
          · exact .inl ⟨a, ha, hp⟩
          · exact .inr ⟨rfl, hp⟩
        · rintro (⟨a, ha, hp⟩ | ⟨rfl, hp⟩)
          · exact ⟨a, append_of_some ha, hp⟩
          · exact ⟨b, List.getElem?_concat_length, hp⟩
      rw [countP_concat, ← ih]
      split
      · rename_i hp
        rw [← Finset.card_insert_of_notMem hnew]
        congr 1
        ext i
        rw [hmem, Finset.mem_insert, or_comm]
        simp [hp]
      · rename_i hp
        rw [Nat.add_zero]
        congr 1
        ext i
        simp [hmem, hp]

/-- Each row of the one table that counts has one of the other, and not two
have the same. -/
theorem countP_le_countP {β : Type*} {rows' : List β} {p : α → Bool} {q : β → Bool}
    {R : Nat → Nat → Prop}
    (h : ∀ (i : Nat) a, rows[i]? = some a → p a = true →
      ∃ (j : Nat) (b : β), rows'[j]? = some b ∧ q b = true ∧ R i j)
    (hR : ∀ i i' j, R i j → R i' j → i = i') : rows.countP p ≤ rows'.countP q := by
  rw [← card_indices, ← card_indices]
  have hchoose : ∀ i : Nat, ∃ j : Nat, i ∈ indices p rows → j ∈ indices q rows' ∧ R i j := by
    intro i
    by_cases hi : i ∈ indices p rows
    · obtain ⟨a, ha, hp⟩ := mem_indices.mp hi
      obtain ⟨j, b, hb, hq, hij⟩ := h i a ha hp
      exact ⟨j, fun _ => ⟨mem_indices.mpr ⟨b, hb, hq⟩, hij⟩⟩
    · exact ⟨0, fun hi' => absurd hi' hi⟩
  choose φ hφ using hchoose
  refine Finset.card_le_card_of_injOn φ (fun i hi => (hφ i hi).1) fun i hi i' hi' heq => ?_
  exact hR i i' (φ i) (hφ i hi).2 (heq ▸ (hφ i' hi').2)

/-! ## Sums over a table -/

section Sum

variable {M : Type*} [AddCommMonoid M] {f : α → M} {d : M}

theorem sum_concat (f : α → M) (rows : List α) (b : α) :
    ((rows ++ [b]).map f).sum = (rows.map f).sum + f b := by
  simp

/-- A row that has `d` more than the one it overwrites adds `d` to the sum. -/
theorem sum_set (ha : rows[i]? = some a) (hd : f b = f a + d) :
    ((rows.set i b).map f).sum = (rows.map f).sum + d := by
  induction rows generalizing i with
  | nil => cases ha
  | cons x xs ih =>
      cases i with
      | zero =>
          cases ha
          rw [List.set_cons_zero, List.map_cons, List.map_cons, List.sum_cons, List.sum_cons, hd,
            add_right_comm]
      | succ i =>
          rw [List.set_cons_succ, List.map_cons, List.map_cons, List.sum_cons, List.sum_cons,
            ih ha, add_assoc]

/-- The same the other way round, for a row that has less. -/
theorem sum_set_of_lt {f : α → Nat} (ha : rows[i]? = some a) (hlt : f b < f a) :
    (rows.map f).sum = ((rows.set i b).map f).sum + (f a - f b) := by
  obtain ⟨hi, rfl⟩ := List.getElem?_eq_some_iff.mp ha
  have hback : (rows.set i b).set i rows[i] = rows := by
    rw [List.set_set, List.set_getElem_self]
  have h : (((rows.set i b).set i rows[i]).map f).sum
      = ((rows.set i b).map f).sum + (f rows[i] - f b) :=
    sum_set (set_self ha) (by omega)
  rwa [hback] at h

/-- What the one row loses the sum loses. -/
theorem sum_set_add {f : α → Nat} (ha : rows[i]? = some a) :
    ((rows.set i b).map f).sum + f a = (rows.map f).sum + f b := by
  rcases Nat.lt_or_ge (f b) (f a) with hlt | hge
  · have := sum_set_of_lt ha hlt
    omega
  · have := sum_set (b := b) (f := f) (d := f b - f a) ha (by omega)
    omega

/-- The sum of what the rows with a property have, and no other row has any of. -/
theorem sum_le_mul_length_filter {f : α → Nat} {p : α → Bool} {B : Nat}
    (hle : ∀ a ∈ rows, p a = true → f a ≤ B) (hzero : ∀ a ∈ rows, p a = false → f a = 0) :
    (rows.map f).sum ≤ B * (rows.filter p).length := by
  induction rows with
  | nil => exact Nat.zero_le _
  | cons x xs ih =>
      have hrest := ih (fun a ha => hle a (List.mem_cons_of_mem x ha))
        (fun a ha => hzero a (List.mem_cons_of_mem x ha))
      rw [List.map_cons, List.sum_cons]
      cases hp : p x
      · rw [hzero x List.mem_cons_self hp, List.filter_cons_of_neg (by simp [hp])]
        omega
      · have := hle x List.mem_cons_self hp
        rw [List.filter_cons_of_pos hp, List.length_cons, Nat.mul_succ]
        omega

/-- What the rows of each group add up to, added up over the groups. -/
theorem sum_groups {ι : Type*} [DecidableEq ι] {group : α → ι} {S : Finset ι} {f : α → M}
    (h : ∀ a ∈ rows, group a ∈ S) :
    ∑ n ∈ S, (rows.map fun a => if group a = n then f a else 0).sum = (rows.map f).sum := by
  induction rows with
  | nil => simp
  | cons x xs ih =>
      have hx : group x ∈ S := h x List.mem_cons_self
      have hxs := ih fun a ha => h a (List.mem_cons_of_mem x ha)
      simp only [List.map_cons, List.sum_cons, Finset.sum_add_distrib, hxs, Finset.sum_ite_eq, hx,
        if_true]

end Sum

/-! ## Counts as sums -/

theorem countP_eq_sum (p : α → Bool) (rows : List α) :
    rows.countP p = (rows.map fun a => (p a).toNat).sum := by
  induction rows with
  | nil => rfl
  | cons x xs ih =>
      rw [List.countP_cons, List.map_cons, List.sum_cons, ih, Nat.add_comm]
      cases p x <;> rfl

/-- Two properties of which each row has as many as it has of a third. -/
theorem countP_add {p q r : α → Bool}
    (h : ∀ a ∈ rows, (p a).toNat + (q a).toNat = (r a).toNat) :
    rows.countP p + rows.countP q = rows.countP r := by
  rw [countP_eq_sum, countP_eq_sum, countP_eq_sum, ← List.sum_map_add]
  exact congrArg List.sum (List.map_congr_left h)

theorem countP_le_add {p q r : α → Bool}
    (h : ∀ a ∈ rows, (p a).toNat ≤ (q a).toNat + (r a).toNat) :
    rows.countP p ≤ rows.countP q + rows.countP r := by
  rw [countP_eq_sum, countP_eq_sum, countP_eq_sum, ← List.sum_map_add]
  exact List.sum_le_sum h

/-! ## Tables that grow -/

/-- Every row is still there, and `R` relates it to what it has become. -/
def Grows (R : α → α → Prop) (rows rows' : List α) : Prop :=
  ∀ (i : Nat) a, rows[i]? = some a → ∃ a', rows'[i]? = some a' ∧ R a a'

namespace Grows

variable {R : α → α → Prop}

theorem refl (hR : ∀ a, R a a) (rows : List α) : Grows R rows rows :=
  fun _ a ha => ⟨a, ha, hR a⟩

theorem append (hR : ∀ a, R a a) (rows : List α) (b : α) : Grows R rows (rows ++ [b]) :=
  fun _ a ha => ⟨a, append_of_some ha, hR a⟩

theorem set (hR : ∀ a, R a a) (ha : rows[i]? = some a) (hab : R a b) :
    Grows R rows (rows.set i b) := by
  intro j x hx
  by_cases hj : j = i
  · subst hj
    obtain rfl : a = x := Option.some.inj (ha.symm.trans hx)
    exact ⟨b, set_self ha, hab⟩
  · exact ⟨x, set_of_ne hj hx, hR x⟩

theorem length_le {rows' : List α} (h : Grows R rows rows') : rows.length ≤ rows'.length := by
  by_contra hlt
  obtain ⟨a', ha', _⟩ := h _ _ (List.getElem?_eq_getElem (Nat.lt_of_not_le hlt))
  exact Nat.lt_irrefl _ (lt_of_getElem? ha')

theorem append_right {rows' : List α} (h : Grows R rows rows') (b : α) :
    Grows R rows (rows' ++ [b]) := by
  intro i a ha
  obtain ⟨a', ha', haa'⟩ := h i a ha
  exact ⟨a', append_of_some ha', haa'⟩

theorem modify (hR : ∀ a, R a a) {g : α → α} (hg : ∀ a, rows[i]? = some a → R a (g a)) :
    Grows R rows (rows.modify i g) := by
  intro j x hx
  by_cases hj : i = j
  · subst hj
    exact ⟨g x, by simp [hx], hg x hx⟩
  · exact ⟨x, by simp [hj, hx], hR x⟩

end Grows

end Table
