import Mangosteen.Library.Transition

namespace Mangosteen.Simulation

open Transition

variable {State Abstract Label : Type}

/-- A transition system whose steps show a label or nothing. -/
structure Labelled (State Label : Type) where
  initial : State → Prop
  step : State → Option Label → State → Prop

namespace Labelled

variable (S : Labelled State Label)

/-- A run, with the labels that its steps show. -/
inductive Run : State → List Label → State → Prop
  | refl {s} : Run s [] s
  | tail {s t u ls} (l : Option Label) (hr : Run s ls t) (hs : S.step t l u) :
      Run s (ls ++ l.toList) u

def Next (s t : State) : Prop := ∃ l, S.step s l t

variable {S}

theorem Run.silent {s t u : State} {ls : List Label} (hr : S.Run s ls t) (hs : S.step t none u) :
    S.Run s ls u := by
  simpa using hr.tail none hs

theorem Run.single {s t : State} {l : Option Label} (hs : S.step s l t) : S.Run s l.toList t :=
  Run.refl.tail l hs

theorem Run.trans {s t u : State} {ls ks : List Label} (h : S.Run s ls t) (h' : S.Run t ks u) :
    S.Run s (ls ++ ks) u := by
  induction h' with
  | refl => simpa using h
  | tail l _ hs ih =>
      rw [← List.append_assoc]
      exact ih.tail l hs

theorem Run.reachable {s t : State} {ls : List Label} (h : S.Run s ls t) (hs : S.initial s) :
    Reachable S.initial S.Next t := by
  induction h with
  | refl => exact .start hs
  | tail l _ hl ih => exact ih.next ⟨l, hl⟩

theorem exists_run {t : State} (h : Reachable S.initial S.Next t) :
    ∃ s ls, S.initial s ∧ S.Run s ls t := by
  obtain ⟨s, hs, hr⟩ := h
  induction hr with
  | refl => exact ⟨s, [], hs, .refl⟩
  | tail _ hl ih =>
      obtain ⟨s, ls, hs, hr⟩ := ih
      obtain ⟨l, hl⟩ := hl
      exact ⟨s, ls ++ l.toList, hs, hr.tail l hl⟩

end Labelled

/-- Whatever the first system shows in a step, the second shows in a run that
ends related again. -/
structure Simulates (C : Labelled State Label) (A : Labelled Abstract Label)
    (R : State → Abstract → Prop) : Prop where
  initial : ∀ s, C.initial s → ∃ a, A.initial a ∧ R s a
  step : ∀ s a l s', Reachable C.initial C.Next s → R s a → C.step s l s' →
    ∃ a', A.Run a l.toList a' ∧ R s' a'

namespace Simulates

variable {C : Labelled State Label} {A : Labelled Abstract Label} {R : State → Abstract → Prop}

theorem run (h : Simulates C A R) {s t : State} {ls : List Label}
    (hr : C.Run s ls t) (hs : C.initial s) : ∃ a b, A.initial a ∧ A.Run a ls b ∧ R t b := by
  induction hr with
  | refl =>
      obtain ⟨a, ha, hR⟩ := h.initial _ hs
      exact ⟨a, a, ha, .refl, hR⟩
  | tail l hr hl ih =>
      obtain ⟨a, b, ha, hb, hR⟩ := ih
      obtain ⟨b', hb', hR'⟩ := h.step _ b l _ (hr.reachable hs) hR hl
      exact ⟨a, b', ha, hb.trans hb', hR'⟩

theorem reachable (h : Simulates C A R) {s : State} (hs : Reachable C.initial C.Next s) :
    ∃ a, Reachable A.initial A.Next a ∧ R s a := by
  obtain ⟨s₀, ls, h₀, hr⟩ := Labelled.exists_run hs
  obtain ⟨a, b, ha, hb, hR⟩ := h.run hr h₀
  exact ⟨b, hb.reachable ha, hR⟩

end Simulates

end Mangosteen.Simulation
