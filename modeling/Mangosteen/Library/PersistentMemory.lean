import Mathlib.Logic.Function.Basic

namespace Mangosteen.PersistentMemory

variable {Actor Loc : Type} {Val : Loc → Type} {Log : Type}

/-- Memory whose stores become durable out of order. Every location has the
value that loads see and the value that survives a power failure; an actor's
flushes stay pending, with the value they were issued for, until its next
fence. The log holds history variables only: no step reads it. -/
structure World (Actor Loc : Type) (Val : Loc → Type) (Log : Type) where
  cur : (l : Loc) → Val l
  per : (l : Loc) → Val l
  pending : Actor → (l : Loc) → Option (Val l)
  log : Log

namespace World

def fence (w : World Actor Loc Val Log) (a : Actor) : World Actor Loc Val Log :=
  { w with
    per := fun l => (w.pending a l).getD (w.per l)
    pending := fun b l => if (w.pending a l).isSome then none else w.pending b l }

@[simp] theorem fence_cur (w : World Actor Loc Val Log) (a : Actor) : (w.fence a).cur = w.cur := rfl

@[simp] theorem fence_log (w : World Actor Loc Val Log) (a : Actor) : (w.fence a).log = w.log := rfl

@[simp] theorem fence_pending_self (w : World Actor Loc Val Log) (a : Actor) (l : Loc) :
    (w.fence a).pending a l = none := by
  cases h : w.pending a l <;> simp [fence, h]

theorem fence_of_none (w : World Actor Loc Val Log) (a b : Actor) (l : Loc)
    (h : w.pending a l = none) :
    (w.fence a).per l = w.per l ∧ (w.fence a).pending b l = w.pending b l := by
  simp [fence, h]

/-- The value now visible at a location is durable, or will be after the
actor's next fence. -/
def Settled (w : World Actor Loc Val Log) (a : Actor) (l : Loc) : Prop :=
  w.pending a l = some (w.cur l) ∨ w.pending a l = none ∧ w.per l = w.cur l

/-- The value now visible at a location is durable, and the actor has no flush
of an older one under way. -/
def Durable (w : World Actor Loc Val Log) (a : Actor) (l : Loc) : Prop :=
  w.pending a l = none ∧ w.per l = w.cur l

theorem Durable.settled {w : World Actor Loc Val Log} {a : Actor} {l : Loc} (h : w.Durable a l) :
    w.Settled a l := .inr h

/-- What an actor has settled is durable once its fence has passed. -/
theorem per_eq_cur_of_fence {w : World Actor Loc Val Log} {a : Actor} {l : Loc}
    (h : w.Settled a l) : (w.fence a).per l = w.cur l := by
  rcases h with h | ⟨hn, hp⟩
  · simp [fence, h]
  · rw [(fence_of_none w a a l hn).1, hp]

theorem durable_fence {w : World Actor Loc Val Log} {a : Actor} {l : Loc} (h : w.Settled a l) :
    (w.fence a).Durable a l :=
  ⟨fence_pending_self w a l, per_eq_cur_of_fence h⟩

theorem settled_fence_other {w : World Actor Loc Val Log} {a b : Actor} {l : Loc}
    (hn : w.pending b l = none) (h : w.Settled a l) : (w.fence b).Settled a l := by
  simpa [Settled, fence_of_none w b b l hn, (fence_of_none w b a l hn).2] using h

variable [DecidableEq Loc]

def store (w : World Actor Loc Val Log) (l : Loc) (v : Val l) (record : Log → Log) :
    World Actor Loc Val Log :=
  { w with cur := Function.update w.cur l v, log := record w.log }

def flush [DecidableEq Actor] (w : World Actor Loc Val Log) (a : Actor) (ls : List Loc) :
    World Actor Loc Val Log :=
  { w with pending := fun b l => if b = a ∧ l ∈ ls then some (w.cur l) else w.pending b l }

/-- A line is written back by the cache at a moment of its own choosing. -/
def writeBack (w : World Actor Loc Val Log) (l : Loc) : World Actor Loc Val Log :=
  { w with
    per := Function.update w.per l (w.cur l)
    pending := fun b => Function.update (w.pending b) l none }

section Simp

variable (w : World Actor Loc Val Log) (a b : Actor) (l m : Loc) (f : Log → Log) (ls : List Loc)

@[simp] theorem store_cur_self (v : Val l) : (w.store l v f).cur l = v := by simp [store]

theorem store_cur_of_ne (v : Val m) (h : l ≠ m) : (w.store m v f).cur l = w.cur l := by
  simp [store, h]

@[simp] theorem store_per (v : Val m) : (w.store m v f).per = w.per := rfl

@[simp] theorem store_pending (v : Val m) : (w.store m v f).pending = w.pending := rfl

@[simp] theorem store_log (v : Val m) : (w.store m v f).log = f w.log := rfl

@[simp] theorem flush_cur [DecidableEq Actor] : (w.flush a ls).cur = w.cur := rfl

@[simp] theorem flush_per [DecidableEq Actor] : (w.flush a ls).per = w.per := rfl

@[simp] theorem flush_log [DecidableEq Actor] : (w.flush a ls).log = w.log := rfl

theorem flush_pending_of_mem [DecidableEq Actor] (h : l ∈ ls) :
    (w.flush a ls).pending a l = some (w.cur l) := by simp [flush, h]

theorem flush_pending_of_not_mem [DecidableEq Actor] (h : l ∉ ls) :
    (w.flush a ls).pending b l = w.pending b l := by simp [flush, h]

theorem flush_pending_of_ne [DecidableEq Actor] (h : b ≠ a) :
    (w.flush a ls).pending b l = w.pending b l := by simp [flush, h]

@[simp] theorem writeBack_cur : (w.writeBack l).cur = w.cur := rfl

@[simp] theorem writeBack_log : (w.writeBack l).log = w.log := rfl

@[simp] theorem writeBack_per_self : (w.writeBack l).per l = w.cur l := by simp [writeBack]

@[simp] theorem writeBack_pending_self : (w.writeBack l).pending a l = none := by simp [writeBack]

theorem writeBack_of_ne (h : l ≠ m) :
    (w.writeBack m).per l = w.per l ∧ (w.writeBack m).pending a l = w.pending a l := by
  simp [writeBack, h]

end Simp

section Settled

variable {w : World Actor Loc Val Log} {a b : Actor} {l m : Loc} {f : Log → Log} {ls : List Loc}

theorem settled_writeBack (m : Loc) (h : w.Settled a l) : (w.writeBack m).Settled a l := by
  by_cases hm : l = m
  · subst m; right; simp
  · simpa [Settled, writeBack_of_ne w a l m hm] using h

theorem durable_writeBack (m : Loc) (h : w.Durable a l) : (w.writeBack m).Durable a l := by
  by_cases hm : l = m
  · subst m; constructor <;> simp
  · simpa [Durable, writeBack_of_ne w a l m hm] using h

theorem settled_store_of_ne {v : Val m} (hm : l ≠ m) (h : w.Settled a l) :
    (w.store m v f).Settled a l := by
  simpa [Settled, store_cur_of_ne w l m f v hm] using h

theorem settled_flush_of_mem [DecidableEq Actor] (h : l ∈ ls) : (w.flush a ls).Settled a l :=
  .inl (flush_pending_of_mem w a l ls h)

theorem settled_flush [DecidableEq Actor] (h : w.Settled a l) : (w.flush a ls).Settled a l := by
  by_cases hl : l ∈ ls
  · exact settled_flush_of_mem hl
  · simpa [Settled, flush_pending_of_not_mem w a a l ls hl] using h

theorem settled_flush_other [DecidableEq Actor] (hab : a ≠ b) (h : w.Settled a l) :
    (w.flush b ls).Settled a l := by
  simpa [Settled, flush_pending_of_ne w b a l ls hab] using h

end Settled

end World

end Mangosteen.PersistentMemory
