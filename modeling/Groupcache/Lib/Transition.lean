import Mathlib.Logic.Relation

/-!
# Transition systems

A system is an executable step function `step : σ → α → Option σ`, `none`
where the action is not enabled. Two ways to speak of its runs:

- `Reaches step guard s₀`, the states reached by steps that all meet a
  guard on the state before them and the action;
- `Always` and `AlwaysStep`, a property of every state, and of every step,
  along the run of a given list of actions.

`Reaches.invariant` and `always_iff_alwaysStep` are the two inductions.
-/

namespace Transition

variable {σ α : Type*} {step : σ → α → Option σ}

/-! ## Reachable states -/

/-- The states reached from `s₀` by steps that meet the guard. -/
inductive Reaches (step : σ → α → Option σ) (guard : σ → α → Prop) (s₀ : σ) : σ → Prop where
  | refl : Reaches step guard s₀ s₀
  | tail {s t : σ} (a : α) : Reaches step guard s₀ s → guard s a → step s a = some t →
      Reaches step guard s₀ t

namespace Reaches

variable {guard guard' : σ → α → Prop} {s₀ s t : σ} {I : σ → Prop}

theorem invariant (h : Reaches step guard s₀ s) (h₀ : I s₀)
    (hstep : ∀ s t a, I s → guard s a → step s a = some t → I t) : I s := by
  induction h with
  | refl => exact h₀
  | tail a _ hg hs ih => exact hstep _ _ a ih hg hs

theorem mono (h : Reaches step guard s₀ s) (hg : ∀ s a, guard s a → guard' s a) :
    Reaches step guard' s₀ s := by
  induction h with
  | refl => exact .refl
  | tail a _ ha hs ih => exact .tail a ih (hg _ a ha) hs

theorem trans (h : Reaches step guard s₀ s) (h' : Reaches step guard s t) :
    Reaches step guard s₀ t := by
  induction h' with
  | refl => exact h
  | tail a _ ha hs ih => exact .tail a ih ha hs

/-- A run of a system each step of which makes a run of another. -/
theorem project {σ' α' : Type*} {step' : σ' → α' → Option σ'} {before : σ' → α' → Prop}
    {s' t' : σ'} (f : σ' → σ) (h : Reaches step' before s' t')
    (hstep : ∀ s t a, before s a → step' s a = some t → Reaches step guard (f s) (f t)) :
    Reaches step guard (f s') (f t') := by
  induction h with
  | refl => exact .refl
  | tail a _ hg hs ih => exact ih.trans (hstep _ _ a hg hs)

theorem single {a : α} (hg : guard s₀ a) (hs : step s₀ a = some t) :
    Reaches step guard s₀ t := .tail a .refl hg hs

/-- One more action at the front. -/
theorem head {a : α} (hg : guard s₀ a) (hs : step s₀ a = some s)
    (h : Reaches step guard s t) : Reaches step guard s₀ t := (single hg hs).trans h

end Reaches

/-! ## Runs that end -/

/-- No run goes on for ever from the state. -/
def Terminates (step : σ → α → Option σ) (guard : σ → α → Prop) : σ → Prop :=
  Acc fun t s => ∃ a, guard s a ∧ step s a = some t

/-- Runs end where a measure goes down that an invariant bounds. -/
theorem terminates_of_measure {guard : σ → α → Prop} {I : σ → Prop} (m : σ → Nat)
    (hstep : ∀ s t a, I s → guard s a → step s a = some t → I t ∧ m t < m s) (s : σ)
    (hs : I s) : Terminates step guard s := by
  induction hm : m s using Nat.strongRecOn generalizing s with
  | _ k ih =>
      refine .intro s fun t ⟨a, hg, ht⟩ => ?_
      obtain ⟨hI, hlt⟩ := hstep s t a hs hg ht
      exact ih (m t) (hm ▸ hlt) t hI rfl

/-! ## Counting steps -/

/-- The system that counts, beside its steps, those of which `P` holds. -/
def counting (step : σ → α → Option σ) (P : σ → α → Bool) (s : σ × Nat) (a : α) :
    Option (σ × Nat) :=
  (step s.1 a).map fun t => (t, s.2 + if P s.1 a then 1 else 0)

theorem counting_skip {P : σ → α → Bool} {s t : σ} {a : α} {k : Nat} (hs : step s a = some t)
    (hP : P s a = false) : counting step P (s, k) a = some (t, k) := by
  rw [counting, hs, hP]
  rfl

theorem counting_count {P : σ → α → Bool} {s t : σ} {a : α} {k : Nat} (hs : step s a = some t)
    (hP : P s a = true) : counting step P (s, k) a = some (t, k + 1) := by
  rw [counting, hs, hP]
  rfl

namespace Reaches

variable {guard : σ → α → Prop} {P : σ → α → Bool} {s₀ s : σ} {k₀ k : Nat}

/-- An invariant of the states and the count so far. -/
theorem counting_invariant {I : σ → Nat → Prop}
    (h : Reaches (counting step P) (fun s => guard s.1) (s₀, k₀) (s, k)) (h₀ : I s₀ k₀)
    (hstep : ∀ s t a k, I s k → guard s a → step s a = some t →
      I t (k + if P s a then 1 else 0)) : I s k := by
  refine h.invariant (I := fun s => I s.1 s.2) h₀ ?_
  intro s t a hi hg hs
  obtain ⟨t, ht, rfl⟩ := Option.map_eq_some_iff.mp hs
  exact hstep s.1 t a s.2 hi hg ht

/-- A measure that goes down at every step counted, and up at none, bounds
how many there are. -/
theorem count_le {I : σ → Prop} (m : σ → Nat)
    (h : Reaches (counting step P) (fun s => guard s.1) (s₀, 0) (s, k)) (h₀ : I s₀)
    (hstep : ∀ s t a, I s → guard s a → step s a = some t →
      I t ∧ m t + (if P s a then 1 else 0) ≤ m s) : k ≤ m s₀ := by
  have hinv : I s ∧ m s + k ≤ m s₀ := by
    refine h.counting_invariant (I := fun s k => I s ∧ m s + k ≤ m s₀) ⟨h₀, Nat.le_refl _⟩ ?_
    rintro s t a k ⟨hI, hle⟩ hg hs
    obtain ⟨hIt, hdrop⟩ := hstep s t a hI hg hs
    exact ⟨hIt, by omega⟩
  omega

end Reaches

/-! ## Runs without a choice -/

section Deterministic

variable {next : σ → Option σ} {s t u : σ}

/-- Some number of steps lead from one state to the other. -/
def Leads (next : σ → Option σ) : σ → σ → Prop :=
  Relation.ReflTransGen fun s t => next s = some t

/-- The run from the one state ends in the other. -/
def Ends (next : σ → Option σ) (s t : σ) : Prop :=
  Leads next s t ∧ next t = none

theorem Leads.head (hs : next s = some t) (h : Leads next t u) : Leads next s u :=
  Relation.ReflTransGen.head hs h

theorem Leads.single (hs : next s = some t) : Leads next s t :=
  Relation.ReflTransGen.single hs

theorem Leads.trans (h : Leads next s t) (h' : Leads next t u) : Leads next s u :=
  Relation.ReflTransGen.trans h h'

/-- A run ends in one state. -/
theorem Ends.unique (h : Ends next s t) (h' : Ends next s u) : t = u := by
  obtain ⟨hlead, hend⟩ := h
  induction hlead using Relation.ReflTransGen.head_induction_on with
  | refl =>
      rcases Relation.ReflTransGen.cases_head h'.1 with rfl | ⟨v, hv, _⟩
      · rfl
      · cases hend.symm.trans hv
  | head hstep _ ih =>
      rcases Relation.ReflTransGen.cases_head h'.1 with rfl | ⟨v, hv, hrest⟩
      · cases hstep.symm.trans h'.2
      · cases hstep.symm.trans hv
        exact ih ⟨hrest, h'.2⟩

end Deterministic

/-! ## Carrying out actions -/

/-- The actions one after the other; `none` where one is not enabled or does
not meet the guard. -/
def replay (step : σ → α → Option σ) (guard : σ → α → Prop) [∀ s a, Decidable (guard s a)] :
    σ → List α → Option σ
  | s, [] => some s
  | s, a :: as => if guard s a then (step s a).bind fun t => replay step guard t as else none

/-- What is carried out is a run. -/
theorem Reaches.of_replay {guard : σ → α → Prop} [∀ s a, Decidable (guard s a)] {t : σ}
    {as : List α} : ∀ {s : σ}, replay step guard s as = some t → Reaches step guard s t := by
  induction as with
  | nil =>
      intro s h
      cases h
      exact .refl
  | cons a as ih =>
      intro s h
      simp only [replay] at h
      split at h
      · rename_i hg
        obtain ⟨u, hu, h⟩ := Option.bind_eq_some_iff.mp h
        exact .head hg hu (ih h)
      · cases h

/-- So it is where the actions meet the guard in every state. -/
theorem Reaches.of_foldlM {guard : σ → α → Prop} {t : σ} {as : List α}
    (hg : ∀ a ∈ as, ∀ s, guard s a) {s : σ} (h : as.foldlM step s = some t) :
    Reaches step guard s t := by
  induction as generalizing s with
  | nil =>
      cases h
      exact .refl
  | cons a as ih =>
      rw [List.foldlM_cons] at h
      obtain ⟨u, hu, h⟩ := Option.bind_eq_some_iff.mp h
      exact .head (hg a List.mem_cons_self s) hu
        (ih (fun b hb => hg b (List.mem_cons_of_mem a hb)) h)

/-- Where the steps counted are told by their actions, they can be counted in
the list. -/
theorem Reaches.counting_of_foldlM {guard : σ → α → Prop} {P : σ → α → Bool} {p : α → Bool}
    {t : σ} {as : List α} (hg : ∀ a ∈ as, ∀ s, guard s a) (hP : ∀ s a, P s a = p a) {s : σ}
    {k : Nat} (h : as.foldlM step s = some t) :
    Reaches (counting step P) (fun s => guard s.1) (s, k) (t, k + as.countP p) := by
  induction as generalizing s k with
  | nil =>
      cases h
      exact .refl
  | cons a as ih =>
      rw [List.foldlM_cons] at h
      obtain ⟨u, hu, h⟩ := Option.bind_eq_some_iff.mp h
      have hstep : counting step P (s, k) a = some (u, k + if p a then 1 else 0) := by
        rw [counting, hu, hP]
        rfl
      have hrest := ih (k := k + if p a then 1 else 0)
        (fun b hb => hg b (List.mem_cons_of_mem a hb)) h
      rw [List.countP_cons, Nat.add_comm (as.countP p), ← Nat.add_assoc]
      exact .head (hg a List.mem_cons_self s) hstep hrest

/-! ## Along a run -/

/-- `P` in every state of the run of the actions, which ends early where one
is not enabled. -/
def Always (step : σ → α → Option σ) (P : σ → Prop) : σ → List α → Prop
  | s, [] => P s
  | s, a :: as => P s ∧ ∀ t, step s a = some t → Always step P t as

/-- `Q` of every step of the run. -/
def AlwaysStep (step : σ → α → Option σ) (Q : σ → α → Prop) : σ → List α → Prop
  | _, [] => True
  | s, a :: as => ∀ t, step s a = some t → Q s a ∧ AlwaysStep step Q t as

theorem Always.head {P : σ → Prop} {s : σ} {as : List α} (h : Always step P s as) : P s := by
  cases as with
  | nil => exact h
  | cons a as => exact h.1

/-- **A property lost only at bad steps.** If, from a state that has `P`,
the steps that keep it are exactly those of which `Q` holds, then a run has
`P` throughout exactly when `Q` holds of all its steps. -/
theorem always_iff_alwaysStep {I P : σ → Prop} {A : α → Prop} {Q : σ → α → Prop}
    (hI : ∀ s t a, I s → A a → step s a = some t → I t)
    (hPQ : ∀ s t a, I s → A a → P s → step s a = some t → (P t ↔ Q s a)) :
    ∀ (as : List α) (s : σ), (∀ a ∈ as, A a) → I s → P s →
      (Always step P s as ↔ AlwaysStep step Q s as) := by
  intro as
  induction as with
  | nil => intro s _ _ hP; exact iff_of_true hP trivial
  | cons a as ih =>
      intro s hA hs hP
      have ha : A a := hA a List.mem_cons_self
      have hrest : ∀ b ∈ as, A b := fun b hb => hA b (List.mem_cons_of_mem a hb)
      constructor
      · intro h t ht
        have hPt : P t := (h.2 t ht).head
        refine ⟨(hPQ s t a hs ha hP ht).mp hPt, ?_⟩
        exact (ih t hrest (hI s t a hs ha ht) hPt).mp (h.2 t ht)
      · intro h
        refine ⟨hP, fun t ht => ?_⟩
        have hPt : P t := (hPQ s t a hs ha hP ht).mpr (h t ht).1
        exact (ih t hrest (hI s t a hs ha ht) hPt).mpr (h t ht).2

end Transition
