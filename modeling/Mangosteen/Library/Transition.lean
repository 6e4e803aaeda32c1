import Mathlib.Logic.Relation

namespace Mangosteen.Transition

variable {State : Type}

/-- The states that runs come to from an initial state. -/
def Reachable (initial : State → Prop) (step : State → State → Prop) (s : State) : Prop :=
  ∃ s₀, initial s₀ ∧ Relation.ReflTransGen step s₀ s

namespace Reachable

variable {initial : State → Prop} {step : State → State → Prop} {s t : State}

theorem start (h : initial s) : Reachable initial step s := ⟨s, h, .refl⟩

theorem next (h : Reachable initial step s) (hs : step s t) : Reachable initial step t := by
  obtain ⟨s₀, h₀, hr⟩ := h
  exact ⟨s₀, h₀, hr.tail hs⟩

/-- What holds at the start and is kept by every step holds in every run. -/
theorem invariant {I : State → Prop} (h : Reachable initial step s) (hinit : ∀ s, initial s → I s)
    (hstep : ∀ s t, I s → step s t → I t) : I s := by
  obtain ⟨s₀, h₀, hr⟩ := h
  induction hr with
  | refl => exact hinit s₀ h₀
  | tail _ hs ih => exact hstep _ _ ih hs

/-- The same, where a step may use what is already known of every run. -/
theorem invariant_of {I K : State → Prop} (h : Reachable initial step s)
    (hK : ∀ s, Reachable initial step s → K s) (hinit : ∀ s, initial s → I s)
    (hstep : ∀ s t, K s → I s → step s t → I t) : I s := by
  obtain ⟨s₀, h₀, hr⟩ := h
  induction hr with
  | refl => exact hinit s₀ h₀
  | tail hr hs ih => exact hstep _ _ (hK _ ⟨s₀, h₀, hr⟩) ih hs

end Reachable

end Mangosteen.Transition
