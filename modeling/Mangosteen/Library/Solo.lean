import Mangosteen.Library.Program

namespace Mangosteen.PersistentMemory

variable {Actor Loc : Type} {Val : Loc → Type} {Log α β Phase : Type}
/-- A system in which an actor may take every step. -/
def System.Unrestricted (S : System Actor Loc Val Log Phase) (a : Actor) : Prop :=
  ∀ w o, S.admits w (.op a o)

/-- A system in which an actor may take every step that is not a wait. -/
def System.Lenient (S : System Actor Loc Val Log Phase) (a : Actor) : Prop :=
  ∀ w o, (∀ l busy, o ≠ .await l busy) → S.admits w (.op a o)

theorem System.Unrestricted.lenient {S : System Actor Loc Val Log Phase} {a : Actor}
    (h : S.Unrestricted a) : S.Lenient a :=
  fun w o _ => h w o

variable [DecidableEq Loc]

/-- The memory after a run of stores. -/
def World.stores (note : Sigma Val → Log → Log) : List (Sigma Val) → World Actor Loc Val Log →
    World Actor Loc Val Log
  | [], w => w
  | s :: ss, w => stores note ss (w.store s.1 s.2 (note s))

section Stores

variable {note : Sigma Val → Log → Log}

@[simp] theorem stores_per (ss : List (Sigma Val)) (w : World Actor Loc Val Log) :
    (w.stores note ss).per = w.per := by
  induction ss generalizing w with
  | nil => rfl
  | cons s ss ih => exact ih _

@[simp] theorem stores_pending (ss : List (Sigma Val)) (w : World Actor Loc Val Log) :
    (w.stores note ss).pending = w.pending := by
  induction ss generalizing w with
  | nil => rfl
  | cons s ss ih => exact ih _

@[simp] theorem stores_log (ss : List (Sigma Val)) (w : World Actor Loc Val Log) :
    (w.stores (fun _ => id) ss).log = w.log := by
  induction ss generalizing w with
  | nil => rfl
  | cons s ss ih => exact ih _

theorem stores_cur_of_not_mem {l : Loc} (ss : List (Sigma Val)) (w : World Actor Loc Val Log)
    (hl : ∀ s ∈ ss, l ≠ s.1) : (w.stores note ss).cur l = w.cur l := by
  induction ss generalizing w with
  | nil => rfl
  | cons s ss ih =>
      refine (ih _ fun t ht => hl t (by simp [ht])).trans ?_
      exact World.store_cur_of_ne w l s.1 _ _ (hl s (by simp))

/-- Where every location is given one value only, that value is what is read. -/
theorem stores_cur_of_mem (ss : List (Sigma Val)) (w : World Actor Loc Val Log)
    (hss : ∀ s ∈ ss, ∀ t ∈ ss, s.1 = t.1 → s = t) {s : Sigma Val} (hs : s ∈ ss) :
    (w.stores note ss).cur s.1 = s.2 := by
  induction ss generalizing w with
  | nil => simp at hs
  | cons t ss ih =>
      have hss' : ∀ s ∈ ss, ∀ t ∈ ss, s.1 = t.1 → s = t :=
        fun s hs t ht => hss s (by simp [hs]) t (by simp [ht])
      by_cases hmem : s ∈ ss
      · exact ih _ hss' hmem
      · have hst : s = t := by
          rcases List.mem_cons.mp hs with h | h
          · exact h
          · exact absurd h hmem
        subst hst
        have hne : ∀ t ∈ ss, s.1 ≠ t.1 := by
          intro t ht he
          obtain rfl := hss s (by simp) t (by simp [ht]) he
          exact hmem ht
        exact (stores_cur_of_not_mem ss _ hne).trans (World.store_cur_self w s.1 _ s.2)

end Stores

variable [DecidableEq Actor] [∀ l, DecidableEq (Val l)]

namespace System.Runs

variable {S : System Actor Loc Val Log Phase} {a : Actor} {l : Loc}
  {Q : β → World Actor Loc Val Log → Prop} {w : World Actor Loc Val Log}

theorem pure {x : α} {Q : α → World Actor Loc Val Log → Prop} :
    S.Runs a (Pure.pure x : Prog Actor Loc Val Log α) Q w ↔ Q x w := Iff.rfl

theorem await (hS : S.Unrestricted a) {busy : Val l} {f : Val l → Prog Actor Loc Val Log β}
    (hb : w.cur l ≠ busy) :
    S.Runs a (Prog.await l busy >>= f) Q w ↔ S.Runs a (f (w.cur l)) Q w := by
  have he : (Op.await l busy : Op Actor Loc Val Log).exec a w = some (w.cur l, w) := if_neg hb
  constructor
  · rintro ⟨-, r, w', hr, h⟩
    rw [he] at hr
    cases hr
    exact h
  · exact fun h => ⟨hS _ _, _, _, he, h⟩

variable (hS : S.Lenient a)
include hS

theorem load {f : Val l → Prog Actor Loc Val Log β} :
    S.Runs a (Prog.load l >>= f) Q w ↔ S.Runs a (f (w.cur l)) Q w := by
  refine ⟨?_, fun h => ⟨hS _ _ (by simp), _, _, rfl, h⟩⟩
  rintro ⟨-, r, w', ⟨⟩, h⟩
  exact h

theorem storeRecord {v : Val l} {g : Log → Log} {f : Unit → Prog Actor Loc Val Log β} :
    S.Runs a (Prog.storeRecord l v g >>= f) Q w ↔ S.Runs a (f ()) Q (w.store l v g) := by
  refine ⟨?_, fun h => ⟨hS _ _ (by simp), _, _, rfl, h⟩⟩
  rintro ⟨-, r, w', ⟨⟩, h⟩
  exact h

theorem store {v : Val l} {f : Unit → Prog Actor Loc Val Log β} :
    S.Runs a (Prog.store l v >>= f) Q w ↔ S.Runs a (f ()) Q (w.store l v id) :=
  storeRecord hS

theorem flush {ls : List Loc} {f : Unit → Prog Actor Loc Val Log β} :
    S.Runs a (Prog.flush ls >>= f) Q w ↔ S.Runs a (f ()) Q (w.flush a ls) := by
  refine ⟨?_, fun h => ⟨hS _ _ (by simp), _, _, rfl, h⟩⟩
  rintro ⟨-, r, w', ⟨⟩, h⟩
  exact h

theorem fence {f : Unit → Prog Actor Loc Val Log β} :
    S.Runs a (Prog.fence >>= f) Q w ↔ S.Runs a (f ()) Q (w.fence a) := by
  refine ⟨?_, fun h => ⟨hS _ _ (by simp), _, _, rfl, h⟩⟩
  rintro ⟨-, r, w', ⟨⟩, h⟩
  exact h

theorem record {g : Log → Log} {f : Unit → Prog Actor Loc Val Log β} :
    S.Runs a (Prog.record g >>= f) Q w ↔ S.Runs a (f ()) Q { w with log := g w.log } := by
  refine ⟨?_, fun h => ⟨hS _ _ (by simp), _, _, rfl, h⟩⟩
  rintro ⟨-, r, w', ⟨⟩, h⟩
  exact h

theorem kernel {g : World Actor Loc Val Log → Option (World Actor Loc Val Log)}
    {f : Unit → Prog Actor Loc Val Log β} {v : World Actor Loc Val Log} (hg : g w = some v) :
    S.Runs a (Prog.kernel g >>= f) Q w ↔ S.Runs a (f ()) Q v := by
  have he : (Op.kernel g : Op Actor Loc Val Log).exec a w = some ((), v) := by
    rw [Op.exec, hg]
    rfl
  constructor
  · rintro ⟨-, r, w', hr, h⟩
    rw [he] at hr
    cases hr
    exact h
  · exact fun h => ⟨hS _ _ (by simp), _, _, he, h⟩

theorem storeAll {note : Sigma Val → Log → Log} {ss : List (Sigma Val)}
    {f : Unit → Prog Actor Loc Val Log β} :
    S.Runs a (Prog.storeAll note ss >>= f) Q w ↔ S.Runs a (f ()) Q (w.stores note ss) := by
  induction ss generalizing w with
  | nil => exact Iff.rfl
  | cons s ss ih =>
      rw [Prog.storeAll, Prog.bind_assoc, storeRecord hS]
      exact ih

theorem loads {n : Nat} {l : Fin n → Loc}
    {f : ((k : Fin n) → Val (l k)) → Prog Actor Loc Val Log β} :
    S.Runs a (Prog.loads l >>= f) Q w ↔ S.Runs a (f (fun k => w.cur (l k))) Q w := by
  induction n with
  | zero =>
      rw [show (fun k => w.cur (l k)) = fun k : Fin 0 => k.elim0 from funext fun k => k.elim0]
      exact Iff.rfl
  | succ n ih =>
      rw [Prog.loads, Prog.bind_assoc, load hS, Prog.bind_assoc, ih]
      simp only [Prog.pure_bind]
      have hcons : Fin.cons (w.cur (l 0)) (fun k => w.cur (l k.succ)) = fun k => w.cur (l k) := by
        funext k
        exact Fin.cases rfl (fun k => rfl) k
      rw [hcons]

end System.Runs

namespace System

variable {S : System Actor Loc Val Log Phase} {a : Actor} {c : Config Actor Loc Val Log Phase}
  {v : World Actor Loc Val Log} {procs : Actor → Prog Actor Loc Val Log Phase}
  {p : Prog Actor Loc Val Log α}
  {k : α → Prog Actor Loc Val Log Phase} {Q : α → World Actor Loc Val Log → Prop}

/-- A process goes on alone with what it has left. -/
theorem Reaches.resume (h : S.Reaches c ⟨v, procs⟩) (hp : procs a = p >>= k) (hr : S.Runs a p Q v) :
    ∃ x u, S.Reaches c ⟨u, Function.update procs a (k x)⟩ ∧ Q x u := by
  obtain ⟨x, u, hs, hx⟩ := hr.reaches hp
  exact ⟨x, u, h.trans hs, hx⟩

/-- A process at rest begins a program and runs the first part of it alone. -/
theorem Reaches.start {x : Phase} (h : S.Reaches c ⟨v, procs⟩) (hp : procs a = .ret x)
    (hn : S.next a x (p >>= k)) (hr : S.Runs a p Q v) :
    ∃ x u, S.Reaches c ⟨u, Function.update procs a (k x)⟩ ∧ Q x u := by
  have hb : S.Reaches c ⟨v, Function.update procs a (p >>= k)⟩ := h.tail (.begin hp hn)
  obtain ⟨y, u, hu, hy⟩ := hb.resume (Function.update_self a _ _) hr
  rw [Function.update_idem] at hu
  exact ⟨y, u, hu, hy⟩

end System

end Mangosteen.PersistentMemory
