import Mathlib.Data.Fin.Tuple.Basic
import Mathlib.Logic.Relation
import Mangosteen.Library.PersistentMemory

namespace Mangosteen.PersistentMemory

variable {Actor Loc : Type} {Val : Loc → Type} {Log α β Phase : Type}

/-- The atomic instructions of a program. An `await` is a loop that repeats one
load for as long as it reads the busy value; a `kernel` instruction is a call
that changes memory at once, and that stops the process where it is undefined. -/
inductive Op (Actor Loc : Type) (Val : Loc → Type) (Log : Type)
  | load (l : Loc)
  | await (l : Loc) (busy : Val l)
  | store (l : Loc) (v : Val l) (record : Log → Log)
  | flush (ls : List Loc)
  | fence
  | record (f : Log → Log)
  | kernel (f : World Actor Loc Val Log → Option (World Actor Loc Val Log))

def Op.Result : Op Actor Loc Val Log → Type
  | .load l | .await l _ => Val l
  | .store _ _ _ | .flush _ | .fence | .record _ | .kernel _ => Unit

inductive Prog (Actor Loc : Type) (Val : Loc → Type) (Log : Type) (α : Type)
  | ret (x : α)
  | op (o : Op Actor Loc Val Log) (next : o.Result → Prog Actor Loc Val Log α)

namespace Prog

def bind : Prog Actor Loc Val Log α → (α → Prog Actor Loc Val Log β) → Prog Actor Loc Val Log β
  | .ret x, f => f x
  | .op o next, f => .op o (fun r => bind (next r) f)

instance : Monad (Prog Actor Loc Val Log) where
  pure := .ret
  bind := bind

@[simp] theorem pure_bind (x : α) (f : α → Prog Actor Loc Val Log β) : pure x >>= f = f x := rfl

@[simp] theorem ret_bind (x : α) (f : α → Prog Actor Loc Val Log β) : .ret x >>= f = f x := rfl

theorem op_bind (o : Op Actor Loc Val Log) (next : o.Result → Prog Actor Loc Val Log α)
    (f : α → Prog Actor Loc Val Log β) :
    .op o next >>= f = .op o (fun r => next r >>= f) := rfl

@[simp] theorem bind_ret (p : Prog Actor Loc Val Log α) : p >>= .ret = p := by
  induction p with
  | ret x => rfl
  | op o next ih => rw [op_bind]; congr 1; funext r; exact ih r

theorem bind_assoc {γ : Type} (p : Prog Actor Loc Val Log α) (f : α → Prog Actor Loc Val Log β)
    (g : β → Prog Actor Loc Val Log γ) : p >>= f >>= g = p >>= fun x => f x >>= g := by
  induction p with
  | ret x => rfl
  | op o next ih => simp only [op_bind]; congr 1; funext r; exact ih r

def load (l : Loc) : Prog Actor Loc Val Log (Val l) := .op (.load l) .ret

def await (l : Loc) (busy : Val l) : Prog Actor Loc Val Log (Val l) := .op (.await l busy) .ret

def storeRecord (l : Loc) (v : Val l) (f : Log → Log) : Prog Actor Loc Val Log Unit :=
  .op (.store l v f) .ret

def store (l : Loc) (v : Val l) : Prog Actor Loc Val Log Unit := storeRecord l v id

def flush (ls : List Loc) : Prog Actor Loc Val Log Unit := .op (.flush ls) .ret

def fence : Prog Actor Loc Val Log Unit := .op .fence .ret

def record (f : Log → Log) : Prog Actor Loc Val Log Unit := .op (.record f) .ret

def kernel (f : World Actor Loc Val Log → Option (World Actor Loc Val Log)) :
    Prog Actor Loc Val Log Unit := .op (.kernel f) .ret

/-- Stores made one after the other, as by `memcpy` or by assignments to the
fields of a record. -/
def storeAll (note : Sigma Val → Log → Log) : List (Sigma Val) → Prog Actor Loc Val Log Unit
  | [] => pure ()
  | s :: ss => do
      storeRecord s.1 s.2 (note s)
      storeAll note ss

/-- A buffer read one location after the other. -/
def loads : {n : Nat} → (l : Fin n → Loc) → Prog Actor Loc Val Log ((k : Fin n) → Val (l k))
  | 0, _ => pure (fun k => k.elim0)
  | _ + 1, l => do
      let v ← load (l 0)
      let vs ← loads (fun k => l k.succ)
      pure (Fin.cons v vs)

end Prog

variable [DecidableEq Actor] [DecidableEq Loc] [∀ l, DecidableEq (Val l)]

def Op.exec (a : Actor) : (o : Op Actor Loc Val Log) → World Actor Loc Val Log →
    Option (o.Result × World Actor Loc Val Log)
  | .load l, w => some (w.cur l, w)
  | .await l busy, w => if w.cur l = busy then none else some (w.cur l, w)
  | .store l v f, w => some ((), w.store l v f)
  | .flush ls, w => some ((), w.flush a ls)
  | .fence, w => some ((), w.fence a)
  | .record f, w => some ((), { w with log := f w.log })
  | .kernel f, w => (f w).map (fun w' => ((), w'))

inductive Label (Actor Loc : Type) (Val : Loc → Type) (Log : Type)
  | op (a : Actor) (o : Op Actor Loc Val Log)
  | writeBack (l : Loc)
  | crash

/-- Processes that run side by side over one memory. A process that has come to
the end of a program goes on with one that its phase allows; a crash puts every
process back to its first program. `admits` says which steps a run may take. -/
structure System (Actor Loc : Type) (Val : Loc → Type) (Log Phase : Type) where
  next : Actor → Phase → Prog Actor Loc Val Log Phase → Prop
  boot : Actor → Prog Actor Loc Val Log Phase
  reboot : World Actor Loc Val Log → World Actor Loc Val Log
  admits : World Actor Loc Val Log → Label Actor Loc Val Log → Prop

structure Config (Actor Loc : Type) (Val : Loc → Type) (Log Phase : Type) where
  world : World Actor Loc Val Log
  prog : Actor → Prog Actor Loc Val Log Phase

namespace System

variable (S : System Actor Loc Val Log Phase)

inductive Step : Config Actor Loc Val Log Phase → Config Actor Loc Val Log Phase → Prop
  | op {w p a o k r w'} (hp : p a = .op o k) (ha : S.admits w (.op a o))
      (he : o.exec a w = some (r, w')) : Step ⟨w, p⟩ ⟨w', Function.update p a (k r)⟩
  | begin {w p a x q} (hp : p a = .ret x) (hq : S.next a x q) :
      Step ⟨w, p⟩ ⟨w, Function.update p a q⟩
  | writeBack {w p} (l) (ha : S.admits w (.writeBack l)) : Step ⟨w, p⟩ ⟨w.writeBack l, p⟩
  | crash {w p} (ha : S.admits w .crash) : Step ⟨w, p⟩ ⟨S.reboot w, S.boot⟩

def Reaches : Config Actor Loc Val Log Phase → Config Actor Loc Val Log Phase → Prop :=
  Relation.ReflTransGen S.Step

/-- The configurations of the runs that start in a given memory. -/
def Reachable (w : World Actor Loc Val Log) (c : Config Actor Loc Val Log Phase) : Prop :=
  S.Reaches ⟨w, S.boot⟩ c

/-- One process can run a program to its end while the others stand still. -/
def Runs (a : Actor) : Prog Actor Loc Val Log α → (α → World Actor Loc Val Log → Prop) →
    World Actor Loc Val Log → Prop
  | .ret x, Q, w => Q x w
  | .op o next, Q, w => S.admits w (.op a o) ∧ ∃ r w', o.exec a w = some (r, w') ∧
      Runs a (next r) Q w'

variable {S}

theorem Runs.mono {a : Actor} {p : Prog Actor Loc Val Log α}
    {Q R : α → World Actor Loc Val Log → Prop}
    {w : World Actor Loc Val Log} (h : S.Runs a p Q w) (hQR : ∀ x w, Q x w → R x w) :
    S.Runs a p R w := by
  induction p generalizing w with
  | ret x => exact hQR x w h
  | op o next ih =>
      obtain ⟨ha, r, w', he, hr⟩ := h
      exact ⟨ha, r, w', he, ih r hr⟩

theorem Runs.bind {a : Actor} {p : Prog Actor Loc Val Log α} {f : α → Prog Actor Loc Val Log β}
    {Q : β → World Actor Loc Val Log → Prop} {w : World Actor Loc Val Log}
    (h : S.Runs a p (fun x w => S.Runs a (f x) Q w) w) : S.Runs a (p >>= f) Q w := by
  induction p generalizing w with
  | ret x => exact h
  | op o next ih =>
      obtain ⟨ha, r, w', he, hr⟩ := h
      exact ⟨ha, r, w', he, ih r hr⟩

/-- A program that runs alone has one end. -/
theorem Runs.and {a : Actor} {p : Prog Actor Loc Val Log α}
    {Q R : α → World Actor Loc Val Log → Prop}
    {w : World Actor Loc Val Log} (h : S.Runs a p Q w) (h' : S.Runs a p R w) :
    S.Runs a p (fun x u => Q x u ∧ R x u) w := by
  induction p generalizing w with
  | ret x => exact ⟨h, h'⟩
  | op o next ih =>
      obtain ⟨ha, r, u, he, hr⟩ := h
      obtain ⟨-, r', u', he', hr'⟩ := h'
      rw [he] at he'
      obtain ⟨rfl, rfl⟩ := Prod.mk.inj (Option.some.inj he')
      exact ⟨ha, r, u, he, ih r hr hr'⟩

/-- A program that one process can finish alone is finished by some run of the
whole system, which leaves the other processes where they are. -/
theorem Runs.reaches {a : Actor} {p : Prog Actor Loc Val Log α}
    {k : α → Prog Actor Loc Val Log Phase}
    {Q : α → World Actor Loc Val Log → Prop} {w : World Actor Loc Val Log}
    {procs : Actor → Prog Actor Loc Val Log Phase} (h : S.Runs a p Q w) (hp : procs a = p >>= k) :
    ∃ x w', S.Reaches ⟨w, procs⟩ ⟨w', Function.update procs a (k x)⟩ ∧ Q x w' := by
  induction p generalizing w procs with
  | ret x =>
      refine ⟨x, w, ?_, h⟩
      rw [show k x = procs a from hp.symm, Function.update_eq_self]
      exact .refl
  | op o next ih =>
      obtain ⟨ha, r, w', he, hr⟩ := h
      obtain ⟨x, w'', hs, hx⟩ := ih r hr (Function.update_self a (next r >>= k) procs)
      rw [Function.update_idem] at hs
      exact ⟨x, w'', .head (.op hp ha he) hs, hx⟩

end System

end Mangosteen.PersistentMemory
