import Groupcache.Lib.Transition

/-!
# Simulation

What is seen of a system are the events that its steps emit; most steps emit
none. A system refines an abstract machine if every sequence of events that
one of its runs emits is one of a run of the machine. That follows from a
relation between the states of the two which each step of the system keeps,
the machine making the step that the event names, or none
(`Simulates.runs`).
-/

namespace Transition

variable {σ τ α ε : Type*}

/-- The events that a run emits, up to a state it reaches. -/
inductive Emits (step : σ → α → Option σ) (guard : σ → α → Prop) (emit : σ → α → σ → Option ε)
    (s₀ : σ) : List ε → σ → Prop where
  | refl : Emits step guard emit s₀ [] s₀
  | tail {events : List ε} {s t : σ} (a : α) : Emits step guard emit s₀ events s → guard s a →
      step s a = some t → Emits step guard emit s₀ (events ++ (emit s a t).toList) t

/-- The runs of an abstract machine, each step of which is an event. -/
inductive Runs (next : τ → ε → τ → Prop) (t₀ : τ) : List ε → τ → Prop where
  | refl : Runs next t₀ [] t₀
  | tail {events : List ε} {t u : τ} (e : ε) : Runs next t₀ events t → next t e u →
      Runs next t₀ (events ++ [e]) u

variable {step : σ → α → Option σ} {guard : σ → α → Prop} {emit : σ → α → σ → Option ε}
  {next : τ → ε → τ → Prop} {s₀ s : σ} {t₀ : τ} {events : List ε}

theorem Emits.trans {events' : List ε} {t : σ} (h : Emits step guard emit s₀ events s)
    (h' : Emits step guard emit s events' t) :
    Emits step guard emit s₀ (events ++ events') t := by
  induction h' with
  | refl => rwa [List.append_nil]
  | tail a _ hg hs ih =>
      rw [← List.append_assoc]
      exact .tail a ih hg hs

/-- One more action at the front. -/
theorem Emits.head {a : α} {t : σ} {o : Option ε} (hg : guard s₀ a) (hs : step s₀ a = some s)
    (he : emit s₀ a s = o) (h : Emits step guard emit s events t) :
    Emits step guard emit s₀ (o.toList ++ events) t := by
  have hone : Emits step guard emit s₀ ([] ++ (emit s₀ a s).toList) s := .tail a .refl hg hs
  rw [he, List.nil_append] at hone
  exact hone.trans h

theorem Emits.of_reaches (h : Reaches step guard s₀ s) (emit : σ → α → σ → Option ε) :
    ∃ events, Emits step guard emit s₀ events s := by
  induction h with
  | refl => exact ⟨[], .refl⟩
  | tail a _ hg hs ih =>
      obtain ⟨events, hrun⟩ := ih
      exact ⟨_, .tail a hrun hg hs⟩

/-- The system that keeps the events beside its state. -/
def recording (step : σ → α → Option σ) (emit : σ → α → σ → Option ε) (s : σ × List ε) (a : α) :
    Option (σ × List ε) :=
  (step s.1 a).map fun t => (t, s.2 ++ (emit s.1 a t).toList)

theorem Emits.of_recording {x : σ × List ε}
    (h : Reaches (recording step emit) (fun x => guard x.1) (s₀, []) x) :
    Emits step guard emit s₀ x.2 x.1 := by
  refine h.invariant (I := fun x => Emits step guard emit s₀ x.2 x.1) .refl ?_
  intro x y a hi hg hs
  obtain ⟨t, ht, rfl⟩ := Option.map_eq_some_iff.mp hs
  exact .tail a hi hg ht

/-- What a relation between states needs for the system to refine the machine. -/
structure Simulates (step : σ → α → Option σ) (guard : σ → α → Prop)
    (emit : σ → α → σ → Option ε) (next : τ → ε → τ → Prop) (R : σ → τ → Prop) : Prop where
  silent : ∀ s t u a, R s u → guard s a → step s a = some t → emit s a t = none → R t u
  event : ∀ s t u a e, R s u → guard s a → step s a = some t → emit s a t = some e →
    ∃ v, next u e v ∧ R t v

/-- **A simulation is a refinement.** -/
theorem Simulates.runs {R : σ → τ → Prop} (sim : Simulates step guard emit next R)
    (h₀ : R s₀ t₀) (h : Emits step guard emit s₀ events s) :
    ∃ t, Runs next t₀ events t ∧ R s t := by
  induction h with
  | refl => exact ⟨t₀, .refl, h₀⟩
  | @tail events s t a _ hg hs ih =>
      obtain ⟨u, hrun, hR⟩ := ih
      cases he : emit s a t with
      | none =>
          rw [Option.toList_none, List.append_nil]
          exact ⟨u, hrun, sim.silent s t u a hR hg hs he⟩
      | some e =>
          obtain ⟨v, hnext, hRv⟩ := sim.event s t u a e hR hg hs he
          exact ⟨v, hrun.tail e hnext, hRv⟩

/-! ## Machines side by side -/

section Each

variable {ι : Type*}

/-- The machines of a family, one of which makes a step. -/
def Each (next : τ → ε → τ → Prop) (t : ι → τ) (e : ι × ε) (u : ι → τ) : Prop :=
  next (t e.1) e.2 (u e.1) ∧ ∀ i, i ≠ e.1 → u i = t i

/-- The events of one of the machines. -/
def eventsOf [DecidableEq ι] (i : ι) (events : List (ι × ε)) : List ε :=
  events.filterMap fun e => if e.1 = i then some e.2 else none

theorem eventsOf_concat [DecidableEq ι] (i : ι) (events : List (ι × ε)) (e : ι × ε) :
    eventsOf i (events ++ [e]) = eventsOf i events ++ if e.1 = i then [e.2] else [] := by
  simp only [eventsOf, List.filterMap_append, List.filterMap_cons, List.filterMap_nil]
  split <;> simp_all

/-- A run of the family is a run of each machine. -/
theorem Runs.each [DecidableEq ι] {t₀ t : ι → τ} {events : List (ι × ε)}
    (h : Runs (Each next) t₀ events t) (i : ι) : Runs next (t₀ i) (eventsOf i events) (t i) := by
  induction h with
  | refl => exact .refl
  | tail e _ hnext ih =>
      rw [eventsOf_concat]
      split
      · rename_i hi
        subst hi
        exact .tail e.2 ih hnext.1
      · rename_i hi
        rw [hnext.2 i (Ne.symm hi), List.append_nil]
        exact ih

end Each

end Transition
