import Mathlib.Data.Finset.Card
import Mathlib.Data.List.Chain
import Mathlib.Logic.Relation

/-!
# Descent

A relation between tasks that stand at places and keep a label: along it the
label stays, and a measure of the place, which may depend on the label,
strictly drops. Then a chain of tasks visits no place twice and is shorter
than any set of places it stays in. For places alone, a relation along which
a measure drops has no cycles.
-/

namespace Descent

/-! ## Chains -/

section Chains

variable {ι κ α : Type*} {R : ι → ι → Prop} {label : ι → κ} {place : ι → α} {m : κ → α → Nat}

theorem pairwise
    (hR : ∀ i j, R i j → label j = label i ∧ m (label i) (place j) < m (label i) (place i))
    {path : List ι} (h : path.IsChain R) : path.Pairwise fun i j => place i ≠ place j := by
  let S : ι → ι → Prop := fun i j =>
    label j = label i ∧ m (label i) (place j) < m (label i) (place i)
  -- the label stays, so the measure along the chain is one
  have : IsTrans ι S := ⟨fun i j k hij hjk => by
    obtain ⟨hl, hlt⟩ := hij
    obtain ⟨hl', hlt'⟩ := hjk
    rw [hl] at hl' hlt'
    exact ⟨hl', Nat.lt_trans hlt' hlt⟩⟩
  refine (List.isChain_iff_pairwise.mp (h.imp hR : path.IsChain S)).imp fun hij heq => ?_
  exact Nat.lt_irrefl _ (heq ▸ hij.2)

/-- No place is visited twice. -/
theorem places_nodup
    (hR : ∀ i j, R i j → label j = label i ∧ m (label i) (place j) < m (label i) (place i))
    {path : List ι} (h : path.IsChain R) : (path.map place).Nodup :=
  List.pairwise_map.mpr (pairwise hR h)

/-- A chain that stays in `A` has fewer hops than `A` has places. -/
theorem hops_lt_card [DecidableEq α]
    (hR : ∀ i j, R i j → label j = label i ∧ m (label i) (place j) < m (label i) (place i))
    {path : List ι} (h : path.IsChain R) (hne : path ≠ []) {A : Finset α}
    (hA : ∀ i ∈ path, place i ∈ A) : path.length - 1 < A.card := by
  have hsub : (path.map place).toFinset ⊆ A := by
    intro a ha
    obtain ⟨i, hi, rfl⟩ := List.mem_map.mp (List.mem_toFinset.mp ha)
    exact hA i hi
  have hcard := Finset.card_le_card hsub
  rw [List.toFinset_card_of_nodup (places_nodup hR h), List.length_map] at hcard
  have := List.length_pos_iff.mpr hne
  omega

end Chains

/-! ## Ranks -/

section Rank

variable {α : Type*} {A : Finset α} {m : α → Nat} {a b : α}

/-- How many places of `A` the measure puts below one: a chain along which it
drops goes on for no longer. -/
def rank (A : Finset α) (m : α → Nat) (a : α) : Nat := (A.filter fun b => m b < m a).card

theorem rank_lt (hb : b ∈ A) (h : m b < m a) : rank A m b < rank A m a := by
  apply Finset.card_lt_card
  refine (Finset.ssubset_iff_of_subset fun x hx => ?_).mpr ⟨b, ?_, ?_⟩
  · obtain ⟨hx, hlt⟩ := Finset.mem_filter.mp hx
    exact Finset.mem_filter.mpr ⟨hx, Nat.lt_trans hlt h⟩
  · exact Finset.mem_filter.mpr ⟨hb, h⟩
  · exact fun hself => Nat.lt_irrefl _ (Finset.mem_filter.mp hself).2

theorem rank_lt_card (ha : a ∈ A) : rank A m a < A.card := by
  apply Finset.card_lt_card
  refine (Finset.ssubset_iff_of_subset (Finset.filter_subset _ A)).mpr ⟨a, ha, ?_⟩
  exact fun hself => Nat.lt_irrefl _ (Finset.mem_filter.mp hself).2

end Rank

/-! ## Cycles -/

theorem not_transGen_self {α : Type*} {R : α → α → Prop} {m : α → Nat}
    (hm : ∀ a b, R a b → m b < m a) (a : α) : ¬ Relation.TransGen R a a := by
  have hdrop : ∀ a b, Relation.TransGen R a b → m b < m a := by
    intro a b h
    induction h with
    | single h => exact hm _ _ h
    | tail _ h ih => exact Nat.lt_trans (hm _ _ h) ih
  exact fun h => Nat.lt_irrefl _ (hdrop a a h)

end Descent
