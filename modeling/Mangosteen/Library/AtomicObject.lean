import Mathlib.Logic.Function.Basic
import Mangosteen.Library.Simulation

namespace Mangosteen.AtomicObject

open Simulation Transition

variable {Thread Op Res Local Mem : Type}

/-- Sequential code for each operation: where it starts, what a step does as long
as there is no result. -/
structure Machine (Op Res Local Mem : Type) where
  start : Op → Local
  result : Local → Option Res
  step : Local → Mem → Local × Mem

namespace Machine

variable (M : Machine Op Res Local Mem)

inductive Steps : Local → Mem → Local → Mem → Prop
  | refl {l m} : Steps l m l m
  | tail {l m l' m'} (h : Steps l m l' m') (hr : M.result l' = none) :
      Steps l m (M.step l' m').1 (M.step l' m').2

/-- Run alone from memory `m`, the operation ends with `res` and leaves `m'`. -/
def Yields (op : Op) (m : Mem) (res : Res) (m' : Mem) : Prop :=
  ∃ l, M.Steps (M.start op) m l m' ∧ M.result l = some res

end Machine

section Sequence

variable (M : Machine Op Res Local Mem) (op : Thread → Op) (res : Thread → Option Res)

/-- The operations of a list of threads one after the other, each with its
result. -/
inductive Sequence : List Thread → Mem → Mem → Prop
  | nil {m} : Sequence [] m m
  | cons {t ts m m₁ m₂ r} (hr : res t = some r) (hy : M.Yields (op t) m r m₁)
      (h : Sequence ts m₁ m₂) : Sequence (t :: ts) m m₂

variable {M op res}

theorem Sequence.concat {ts : List Thread} {t : Thread} {m m₁ m₂ : Mem} {r : Res}
    (h : Sequence M op res ts m m₁)
    (hr : res t = some r) (hy : M.Yields (op t) m₁ r m₂) : Sequence M op res (ts ++ [t]) m m₂ := by
  induction h with
  | nil => exact .cons hr hy .nil
  | cons hr' hy' _ ih => exact .cons hr' hy' (ih hy)

theorem Sequence.congr {ts : List Thread} {m m' : Mem} {op' : Thread → Op}
    {res' : Thread → Option Res}
    (h : Sequence M op res ts m m') (hop : ∀ t ∈ ts, op' t = op t)
    (hres : ∀ t ∈ ts, res' t = res t) : Sequence M op' res' ts m m' := by
  induction h with
  | nil => exact .nil
  | cons hr hy _ ih =>
      refine .cons ((hres _ List.mem_cons_self).trans hr) ?_
        (ih (fun t ht => hop t (List.mem_cons_of_mem _ ht)) fun t ht =>
          hres t (List.mem_cons_of_mem _ ht))
      rwa [hop _ List.mem_cons_self]

end Sequence

/-- What the users of an object see. -/
inductive Event (Thread Op Res : Type)
  | call (t : Thread) (op : Op)
  | ret (t : Thread) (res : Option Res)

inductive Status (Op Res : Type)
  | idle
  | called (op : Op)
  | done (res : Res)

structure State (Thread Op Res Mem : Type) where
  memory : Mem
  status : Thread → Status Op Res

variable [DecidableEq Thread]

/-- Each operation takes effect at one moment between its call and its return. -/
inductive Step (M : Machine Op Res Local Mem) :
    State Thread Op Res Mem → Option (Event Thread Op Res) → State Thread Op Res Mem → Prop
  | call {a} (t : Thread) (op : Op) (h : a.status t = .idle) :
      Step M a (some (.call t op)) { a with status := Function.update a.status t (.called op) }
  | effect {a} (t : Thread) {op res m} (h : a.status t = .called op)
      (hy : M.Yields op a.memory res m) : Step M a none ⟨m, Function.update a.status t (.done res)⟩
  | ret {a} (t : Thread) {res} (h : a.status t = .done res) :
      Step M a (some (.ret t (some res))) { a with status := Function.update a.status t .idle }

/-- The object of which every operation is atomic. -/
def atomic (Thread : Type) [DecidableEq Thread] (M : Machine Op Res Local Mem) (m : Mem) :
    Labelled (State Thread Op Res Mem) (Event Thread Op Res) where
  initial a := a = ⟨m, fun _ => .idle⟩
  step := Step M

variable {M : Machine Op Res Local Mem}

/-- What every operation run alone keeps holds of the memory at any time. -/
theorem invariant_memory {I : Mem → Prop} {m : Mem} (h₀ : I m)
    (hop : ∀ op m res m', M.Yields op m res m' → I m → I m') {a : State Thread Op Res Mem}
    (h : Reachable (atomic Thread M m).initial (atomic Thread M m).Next a) : I a.memory := by
  refine h.invariant (I := fun a => I a.memory) (fun a ha => ?_) fun a b hi hs => ?_
  · rw [show a = _ from ha]
    exact h₀
  · obtain ⟨l, hs⟩ := hs
    cases hs with
    | effect t _ hy => exact hop _ _ _ _ hy hi
    | call | ret => exact hi

/-- Pending operations of different threads take effect in the order of a
sequence. -/
theorem Sequence.run {op : Thread → Op} {res : Thread → Option Res} {ts : List Thread}
    {status : Thread → Status Op Res} {m m' : Mem}
    (m₀ : Mem) (h : Sequence M op res ts m m') (hnd : ts.Nodup)
    (hc : ∀ t ∈ ts, status t = .called (op t)) :
    ∃ status', (atomic Thread M m₀).Run ⟨m, status⟩ [] ⟨m', status'⟩ ∧
      (∀ t ∈ ts, ∃ r, res t = some r ∧ status' t = .done r) ∧ ∀ t, t ∉ ts →
      status' t = status t := by
  induction h generalizing status with
  | nil => exact ⟨status, .refl, by simp, fun _ _ => rfl⟩
  | @cons t ts m m₁ m₂ r hr hy _ ih =>
      obtain ⟨hnot, hnd⟩ := List.nodup_cons.mp hnd
      have hne : ∀ u ∈ ts, u ≠ t := fun u hu he => hnot (he ▸ hu)
      obtain ⟨status', hrun, hdone, hsame⟩ :=
        @ih (Function.update status t (.done r)) hnd fun u hu => by
        rw [Function.update_of_ne (hne u hu)]
        exact hc u (List.mem_cons_of_mem _ hu)
      have hfirst :
          (atomic Thread M m₀).Run ⟨m, status⟩ [] ⟨m₁, Function.update status t (.done r)⟩ :=
        Labelled.Run.refl.silent (Step.effect t (hc t List.mem_cons_self) hy)
      refine ⟨status', hfirst.trans hrun, fun u hu => ?_, fun u hu => ?_⟩
      · rcases List.mem_cons.mp hu with rfl | hu
        · exact ⟨r, hr, by rw [hsame u hnot, Function.update_self]⟩
        · exact hdone u hu
      · obtain ⟨hut, hu⟩ : u ≠ t ∧ u ∉ ts := by simpa using hu
        rw [hsame u hu, Function.update_of_ne hut]

end Mangosteen.AtomicObject
