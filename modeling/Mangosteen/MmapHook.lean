import Mangosteen.SpinLock

namespace Mangosteen.MmapHook

open FlatCombining Transition SpinLock

variable {n : Nat} {Req : Type} {active : Fin n → Prop} {s : State n Req}

/-- In the loop of `event_post_syscall` that takes the lock word. -/
def Spinning (th : Thread n) : Prop := th.hook = .spin ∨ th.hook = .compareExchange

/-- A thread waits in the hook for a word that it holds itself, or that is held
by a writer which waits for its reader flag. -/
def Deadlocked (s : State n Req) : Prop :=
  ∃ t, Spinning (s.thread t) ∧ ((s.thread t).pc.locks = true ∨
    ∃ u, (s.thread u).pc.locks = true ∧ (s.thread u).pc.pastDrain = false ∧
    s.shared.readersSet t = .reading)

/-- A system call that maps memory while the combiner flag is down finds its
thread without the lock word and without a reader flag. -/
def Unheld (th : Thread n) : Prop := th.combiner ≠ 0 ∨ th.pc.locks = false ∧ th.pc.flagged = false

theorem unheld_of_reachable (h : Reachable (Initial active) (Step active Unheld) s) (t : Fin n)
    (hs : Spinning (s.thread t)) :
    (s.thread t).pc.locks = false ∧ (s.thread t).pc.flagged = false := by
  have hinv : ∀ t, Spinning (s.thread t) → (s.thread t).pc.locks = false ∧
      (s.thread t).pc.flagged = false := by
    refine h.invariant (I := fun s => ∀ t, Spinning (s.thread t) →
      (s.thread t).pc.locks = false ∧ (s.thread t).pc.flagged = false) (fun s hs t =>
      ?_) fun s s' hi hs u => ?_
    · rw [hs.thread]
      exact fun _ => ⟨rfl, rfl⟩
    · cases hs with
      | @move t g pc f _ hh hm =>
          by_cases hu : u = t
          · subst hu
            simp [Spinning]
          · dsimp only
            rw [Function.update_of_ne hu]
            exact hi u
      | @hook t g k _ hc hadm hm =>
          by_cases hu : u = t
          · subst hu
            dsimp only
            rw [Function.update_self]
            intro hspin
            generalize hk : (s.thread u).hook = k₀ at hm hadm
            generalize hf : (s.thread u).combiner = f at hm
            cases hm with
            | enterLocking => exact (hadm rfl).resolve_left (by rw [hf]; decide)
            | wordFree _ => exact hi u (.inl hk)
            | exchangeLost _ => exact hi u (.inr hk)
            | enterCombiner _ => rcases hspin with h | h <;> cases h
            | exchange _ => rcases hspin with h | h <;> cases h
            | enqueued => rcases hspin with h | h <;> cases h
            | enqueuedCombiner => rcases hspin with h | h <;> cases h
            | unlock => rcases hspin with h | h <;> cases h
          · dsimp only
            rw [Function.update_of_ne hu]
            exact hi u
  exact hinv t hs

/-- Where no such system call is made under the lock or under a reader flag, the
hook never waits for its own thread. -/
theorem no_hook_deadlock (n : Nat) (Req : Type) (active : Fin n → Prop) (s : State n Req)
    (h : Reachable (Initial active) (Step active Unheld) s) : ¬ Deadlocked s := by
  rintro ⟨t, hs, hwait⟩
  obtain ⟨hl, hf⟩ := unheld_of_reachable h t hs
  rcases hwait with hown | ⟨u, -, -, hr⟩
  · rw [hl] at hown
    cases hown
  · rw [(lockInv_of_reachable h).flag t, hf] at hr
    cases hr

/-- A thread in the hook spins while a session is in progress. -/
theorem no_hook_deadlock_crowded :
    ∃ s : State 4 Unit, Spinning (s.thread 3) ∧ (s.thread 0).pc.locks = true ∧ ¬ Deadlocked s := by
  obtain ⟨s, hs, hc⟩ := exists_crowded Unheld (.inr ⟨rfl, rfl⟩)
  exact ⟨s, .inl hc.hook, by rw [hc.combiner]; rfl, no_hook_deadlock 4 Unit (fun _ => True) s hs⟩

section ProcessCommand

abbrev Anywhere (s s' : State 4 Unit) : Prop := Step (fun _ => True) (fun _ => True) s s'

abbrev Run (s : State 4 Unit) : Prop := Reachable (Initial fun _ => True) Anywhere s

/-- One thread of four has moved. -/
def lone (writers : Nat) (th : Thread 4) : State 4 Unit where
  shared := { (start 4 ()).shared with writers }
  thread := Function.update (fun _ => {}) 0 th

variable {w w' : Nat} {pc pc' : Pc 4} {k k' : Hook}

theorem lone_thread (w : Nat) (th : Thread 4) : (lone w th).thread 0 = th := by
  simp only [lone, Function.update_self]

theorem lone_move (h : Run (lone w ⟨pc, .outside, 0⟩))
    (hm : ∀ th, Move 0 (lone w th).shared (pc, 0) (lone w' th).shared (pc', 0)) :
    Run (lone w' ⟨pc', .outside, 0⟩) := by
  let s := lone w ⟨pc, .outside, 0⟩
  have hmove : Move 0 s.shared ((s.thread 0).pc, (s.thread 0).combiner)
      (lone w' ⟨pc, .outside, 0⟩).shared (pc', 0) := by
    rw [lone_thread]
    exact hm _
  have hstep : Anywhere s _ := .move trivial (by rw [lone_thread]) hmove
  have hend : lone w' ⟨pc', .outside, 0⟩ =
      ⟨(lone w' ⟨pc, .outside, 0⟩).shared, Function.update s.thread 0 ⟨pc', .outside, 0⟩⟩ := by
    simp only [s, lone, Function.update_idem]
  rw [hend]
  exact h.next hstep

theorem lone_hook (hc : pc.callsBack = true) (h : Run (lone w ⟨pc, k, 0⟩))
    (hm : ∀ th, HookMove 0 (lone w th).shared k (lone w th).shared k') :
    Run (lone w ⟨pc, k', 0⟩) := by
  let s := lone w ⟨pc, k, 0⟩
  have hmove : HookMove (s.thread 0).combiner s.shared (s.thread 0).hook s.shared k' := by
    rw [lone_thread]
    exact hm _
  have hstep : Anywhere s _ :=
    .hook trivial (by rw [lone_thread]; exact hc) (fun _ => trivial) hmove
  have hend : lone w ⟨pc, k', 0⟩ =
      ⟨s.shared, Function.update s.thread 0 { s.thread 0 with hook := k' }⟩ := by
    simp only [s, lone, Function.update_idem, Function.update_self]
  rw [hend]
  exact h.next hstep

theorem lone_drain (h : Run (lone 1 ⟨.drain .processCommand 0, .outside, 0⟩))
    {i : Nat} (hi : i ≤ 4) : Run (lone 1 ⟨.drain .processCommand i, .outside, 0⟩) := by
  induction i with
  | zero => exact h
  | succ i ih => exact lone_move (ih (by omega)) fun _ => Move.drainNext ⟨i, hi⟩ rfl

/-- A new connection: `process_command` holds the lock word, and the struct that
it allocates is memory that the allocator maps. -/
theorem process_command_spins : Run (lone 1 ⟨.work .processCommand, .spin, 0⟩) := by
  have hidle : Run (lone 0 ⟨.idle, .outside, 0⟩) := by
    have hstart : lone 0 ⟨.idle, .outside, 0⟩ = start 4 () := by
      simp only [lone, Function.update_eq_self]
      rfl
    rw [hstart]
    exact .start (initial_start 4 () _)
  have hcheck : Run (lone 0 ⟨.checkLock .processCommand, .outside, 0⟩) :=
    lone_move hidle fun _ => .callWriter .processCommand
  have htake : Run (lone 0 ⟨.takeLock .processCommand, .outside, 0⟩) :=
    lone_move hcheck fun _ => .writerFree rfl
  have hdrain : Run (lone 1 ⟨.drain .processCommand 0, .outside, 0⟩) :=
    lone_move htake fun _ => .takeLock rfl
  have hwork : Run (lone 1 ⟨.work .processCommand, .outside, 0⟩) :=
    lone_move (lone_drain hdrain (Nat.le_refl 4)) fun _ => .drained
  exact lone_hook rfl hwork fun _ => .enterLocking

end ProcessCommand

/-- It does where a new connection's struct is allocated. -/
theorem not_no_hook_deadlock :
    ¬ ∀ (n : Nat) (Req : Type) (active : Fin n → Prop) (s : State n Req),
      Reachable (Initial active) (Step active fun _ => True) s → ¬ Deadlocked s := by
  intro h
  refine h 4 Unit _ _ process_command_spins ⟨0, ?_, .inl ?_⟩
  · exact .inl (by rw [lone_thread])
  · rw [lone_thread]
    rfl

end Mangosteen.MmapHook
