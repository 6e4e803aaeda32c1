import Mathlib.Data.Fintype.Sum
import Mathlib.Data.Finset.Max
import Mangosteen.Combining
import Mangosteen.MmapHook

namespace Mangosteen.Completion

open FlatCombining Transition SpinLock Combining MmapHook Relation

variable {n : Nat} {Req : Type} {active : Fin n → Prop} {s s' : State n Req} {t : Fin n}

/-- A step in which nobody begins a call and no system call begins. -/
def Completes (active : Fin n → Prop) (s s' : State n Req) : Prop :=
  Step active Unheld s s' ∧ ∀ t, ((s.thread t).pc = .idle → (s'.thread t).pc = .idle) ∧
    ((s.thread t).hook = .outside → (s'.thread t).hook = .outside)

/-- The state after a step of thread `t` alone. -/
def after (s : State n Req) (t : Fin n) (g : Shared n Req) (th : Thread n) : State n Req :=
  ⟨g, Function.update s.thread t th⟩

@[simp] theorem thread_after_self {g : Shared n Req} {th : Thread n} :
    (after s t g th).thread t = th :=
  Function.update_self ..

@[simp] theorem thread_after_of_ne {g : Shared n Req} {th : Thread n} {u : Fin n} (hu : u ≠ t) :
    (after s t g th).thread u = s.thread u := Function.update_of_ne hu _ _

@[simp] theorem shared_after {g : Shared n Req} {th : Thread n} : (after s t g th).shared = g := rfl

/-- The index of a loop over all slots stays in the array. -/
def InBounds : Pc n → Prop
  | .collect i _ | .scan i _ | .drain _ i => i ≤ n
  | _ => True

/-- What is needed of every state beyond the lock and the task array. -/
structure Sound (active : Fin n → Prop) (s : State n Req) : Prop where
  held : s.shared.writers ≠ 0 → ∃ t, (s.thread t).pc.locks = true ∨ (s.thread t).hook.locks = true
  bounds : ∀ t, InBounds (s.thread t).pc
  absent : ∀ t, ¬ active t → (s.thread t).pc = .idle ∧ (s.thread t).hook = .outside
  awaits : ∀ t, (s.thread t).pc = .awaitDone → s.shared.ready t = .started ∨
    s.shared.ready t = .done
  calls : ∀ t, (s.thread t).hook ≠ .outside → (s.thread t).pc.callsBack = true

theorem inBounds_of_move {g g' : Shared n Req} {pc pc' : Pc n} {f f' : Nat}
    (h : Move t g (pc, f) g' (pc', f')) (hb : InBounds pc) : InBounds pc' := by
  cases h with
  | collectNext i | take i | scanNext i | drainNext i => exact i.isLt
  | collectReady => trivial
  | lockWriter | collected | scanReading | takeLock | drainReading => exact Nat.zero_le n
  | _ => trivial

theorem ready_of_move {g g' : Shared n Req} {pc pc' : Pc n} {f f' : Nat}
    (h : Move t g (pc, f) g' (pc', f'))
    (htake : ∀ i cs, pc = .take i cs → g.ready i = .readyToExecute) {u : Fin n} (hu : u ≠ t)
    (hr : g.ready u = .started ∨ g.ready u = .done) :
    g'.ready u = .started ∨ g'.ready u = .done := by
  cases h with
  | take i =>
      by_cases hi : u = i
      · rw [hi, htake i _ rfl] at hr
        simp at hr
      · simpa [hi] using hr
  | markDone =>
      simp only [Function.update_apply]
      split
      · exact .inr rfl
      · exact hr
  | post | clear | clearOwn => simpa [hu] using hr
  | _ => exact hr

theorem awaits_of_move {g g' : Shared n Req} {pc pc' : Pc n} {f f' : Nat}
    (h : Move t g (pc, f) g' (pc', f')) (hpc : pc' = .awaitDone) : g'.ready t = .started := by
  cases h with
  | started h => exact h
  | _ => cases hpc

theorem sound_of_initial (h : Initial active s) : Sound active s := by
  refine ⟨fun hw => absurd h.writers hw, fun t => ?_, fun t _ => ?_, fun t ht => ?_, fun t ht => ?_⟩
  · rw [h.thread]
    trivial
  · rw [h.thread]
    exact ⟨rfl, rfl⟩
  · rw [h.thread] at ht
    cases ht
  · rw [h.thread] at ht
    exact absurd rfl ht

theorem Sound.move {g : Shared n Req} {pc : Pc n} {f : Nat} (h : Sound active s)
    (htask : TaskInv active s.shared fun t => (s.thread t).pc) (ha : active t)
    (hh : (s.thread t).hook = .outside)
    (hm : Move t s.shared ((s.thread t).pc, (s.thread t).combiner) g (pc, f)) :
    Sound active (after s t g ⟨pc, .outside, f⟩) := by
  refine ⟨fun hw => ?_, fun u => ?_, fun u hu => ?_, fun u hu => ?_, fun u hu => ?_⟩
  · -- who holds the word holds it still, unless it is this thread that gives it back
    have hkeep : s.shared.writers ≠ 0 → (pc.locks = (s.thread t).pc.locks) →
        ∃ u, ((after s t g ⟨pc, .outside, f⟩).thread u).pc.locks = true ∨
          ((after s t g ⟨pc, .outside, f⟩).thread u).hook.locks = true := by
      intro hw hl
      obtain ⟨u, hu⟩ := h.held hw
      refine ⟨u, ?_⟩
      by_cases hut : u = t
      · subst hut
        rw [thread_after_self, hl]
        refine .inl (hu.resolve_right ?_)
        rw [hh]
        simp [Hook.locks]
      · rwa [thread_after_of_ne hut]
    cases SpinLock.effect_of_move hm with
    | quiet hg _ hl => exact hkeep (hg ▸ hw) hl
    | acquire _ _ _ hl => exact ⟨t, .inl (by rw [thread_after_self]; exact hl)⟩
    | release hg => exact absurd hg hw
    | raise hg _ hl hl' | lower hg _ hl hl' => exact hkeep (hg ▸ hw) (hl'.trans hl.symm)
    | enter _ hg => exact absurd hg hw
    | pass _ _ hg _ hl hl' => exact hkeep (hg ▸ hw) (hl'.trans hl.symm)
  · by_cases hut : u = t
    · subst hut
      rw [thread_after_self]
      exact inBounds_of_move hm (h.bounds u)
    · rw [thread_after_of_ne hut]
      exact h.bounds u
  · have hut : u ≠ t := fun he => hu (he ▸ ha)
    rw [thread_after_of_ne hut]
    exact h.absent u hu
  · by_cases hut : u = t
    · subst hut
      rw [thread_after_self] at hu
      exact .inl (awaits_of_move hm hu)
    · rw [thread_after_of_ne hut] at hu
      exact ready_of_move hm (htask.take t) hut (h.awaits u hu)
  · by_cases hut : u = t
    · subst hut
      rw [thread_after_self] at hu
      exact absurd rfl hu
    · rw [thread_after_of_ne hut] at hu ⊢
      exact h.calls u hu

theorem Sound.hook {g : Shared n Req} {k : Hook} (h : Sound active s) (ha : active t)
    (hc : (s.thread t).pc.callsBack = true)
    (hm : HookMove (s.thread t).combiner s.shared (s.thread t).hook g k) :
    Sound active (after s t g { s.thread t with hook := k }) := by
  have hpc : ∀ u, ((after s t g { s.thread t with hook := k }).thread u).pc = (s.thread u).pc := by
    intro u
    by_cases hu : u = t
    · rw [hu, thread_after_self]
    · rw [thread_after_of_ne hu]
  have hready : g.ready = s.shared.ready := (sameTasks_of_hookMove hm).1.ready
  refine ⟨fun hw => ?_, fun u => ?_, fun u hu => ?_, fun u hu => ?_, fun u hu => ?_⟩
  · have hkeep : s.shared.writers ≠ 0 → ((s.thread t).hook.locks = true → k.locks = true) →
        ∃ u, ((after s t g { s.thread t with hook := k }).thread u).pc.locks = true ∨
          ((after s t g { s.thread t with hook := k }).thread u).hook.locks = true := by
      intro hw hl
      obtain ⟨u, hu⟩ := h.held hw
      refine ⟨u, ?_⟩
      by_cases hut : u = t
      · subst hut
        rw [thread_after_self]
        exact hu.imp_right hl
      · rwa [thread_after_of_ne hut]
    generalize (s.thread t).hook = k₀ at hm hkeep
    generalize (s.thread t).combiner = f at hm
    cases hm with
    | exchange => exact ⟨t, .inr (by rw [thread_after_self]; rfl)⟩
    | unlock => exact absurd rfl hw
    | enqueued => exact hkeep hw fun _ => rfl
    | _ => exact hkeep hw (by simp [Hook.locks])
  · simpa only [hpc] using h.bounds u
  · have hut : u ≠ t := fun he => hu (he ▸ ha)
    rw [thread_after_of_ne hut]
    exact h.absent u hu
  · rw [shared_after, hready]
    exact h.awaits u (by simpa only [hpc] using hu)
  · rw [hpc]
    by_cases hut : u = t
    · rwa [hut]
    · rw [thread_after_of_ne hut] at hu
      exact h.calls u hu

theorem sound_of_reachable {admits : Thread n → Prop}
    (h : Reachable (Initial active) (Step active admits) s) : Sound active s := by
  refine h.invariant_of (fun _ => taskInv_of_reachable) (fun _ => sound_of_initial)
    fun s s' htask hi hs => ?_
  cases hs with
  | move ha hh hm => exact hi.move htask ha hh hm
  | hook ha hc _ hm => exact hi.hook ha hc hm

/-- How far a thread is from the end of its call when nothing holds it up. -/
def rank : Pc n → Nat
  | .idle => 0
  | .clear | .writeUnlock | .readUnlock | .release _ => 1
  | .awaitDone | .clearOwn | .readRequest | .work _ => 2
  | .checkWriter => 3
  | .markReaderAsActive => 4
  | .awaitFree => 5
  | .markReaderAsInactive => 6
  | .drain _ i => 3 + (n - i)
  | .takeLock _ => 4 + n
  | .checkLock _ => 5 + n
  | .markDone index cs => 3 + (cs.length - index)
  | .disableCombiner cs => 4 + cs.length
  | .logPayload cs => 5 + cs.length
  | .instrumentStop cs => 6 + cs.length
  | .process index cs => 7 + cs.length + 2 * (cs.length - index)
  | .processRequest index cs => 8 + cs.length + 2 * (cs.length - (index + 1))
  | .enableCombiner cs => 8 + 3 * cs.length
  | .instrumentStart cs => 9 + 3 * cs.length
  | .scan i cs => 10 + 3 * cs.length + (n - i)
  | .take i cs => 11 + n + 3 * cs.length + 8 * (n - i)
  | .collect i cs => 12 + n + 3 * cs.length + 8 * (n - i)
  | .lockWriter => 13 + 9 * n
  | .checkFree => 14 + 9 * n
  | .checkDone => 15 + 9 * n
  | .checkStarted => 16 + 9 * n
  | .post => 17 + 9 * n

/-- Nothing holds the thread up: it has the lock or can take it, and all other
reader flags are down. -/
structure Able (s : State n Req) (t : Fin n) : Prop where
  hook : (s.thread t).hook = .outside
  alone : ∀ u, u ≠ t → s.shared.readersSet u = .notReading
  free : (s.thread t).pc.locks = false → s.shared.writers = 0

/-- The next move of a thread that nothing holds up. -/
structure Advance (s : State n Req) (t : Fin n) (g : Shared n Req) (pc : Pc n) (f : Nat) :
    Prop where
  move : Move t s.shared ((s.thread t).pc, (s.thread t).combiner) g (pc, f)
  rank : rank pc < rank (s.thread t).pc
  alone : ∀ u, u ≠ t → g.readersSet u = .notReading
  free : pc.locks = false → g.writers = 0

section Advance

theorem ready_ne_started (hl : LockInv s) (htask : TaskInv active s.shared fun t => (s.thread t).pc)
    (ht : active t) (hw : s.shared.writers = 0) : s.shared.ready t ≠ .started := by
  intro hr
  cases htask.phase t ht with
  | taken _ _ w hmem => exact hl.word w (.inl (locks_of_mem_pending hmem)) hw
  | fresh h | posted h | finished h | cleared h =>
      rw [h] at hr
      cases hr

theorem exists_advance (hr : Reachable (Initial active) (Step active Unheld) s) (ht : Able s t)
    (hidle : (s.thread t).pc ≠ .idle) : ∃ g pc f, Advance s t g pc f := by
  have hl := lockInv_of_reachable hr
  have hs := sound_of_reachable hr
  have ha : active t := by
    by_contra hna
    exact hidle (hs.absent t hna).1
  have hstarted := ready_ne_started hl (taskInv_of_reachable hr) ha
  have hbounds := hs.bounds t
  have hawaits := hs.awaits t
  have hdown : (s.thread t).pc.flagged = false → ∀ u, s.shared.readersSet u = .notReading := by
    intro hf u
    by_cases hu : u = t
    · subst hu
      cases hread : s.shared.readersSet u with
      | notReading => rfl
      | reading =>
          rw [(hl.flag u).mp hread] at hf
          cases hf
    · exact ht.alone u hu
  obtain ⟨-, halone, hfree⟩ := ht
  have hgo : ∀ {g pc f}, Move t s.shared ((s.thread t).pc, (s.thread t).combiner) g (pc, f) →
      rank pc < rank (s.thread t).pc → (∀ u, u ≠ t → g.readersSet u = .notReading) →
      (pc.locks = false → g.writers = 0) → ∃ g pc f, Advance s t g pc f :=
    fun hm hrank ha hf => ⟨_, _, _, hm, hrank, ha, hf⟩
  generalize (s.thread t).combiner = f at hgo
  generalize (s.thread t).pc = pc at *
  cases pc with
  | idle => exact absurd rfl hidle
  | post => exact hgo .post (by simp [rank]) halone fun _ => hfree rfl
  | checkStarted =>
    exact hgo (.notStarted (hstarted (hfree rfl))) (by simp [rank]) halone fun _ => hfree rfl
  | awaitDone =>
      have hdone := (hawaits rfl).resolve_left (hstarted (hfree rfl))
      exact hgo (.awaited hdone) (by simp [rank]) halone fun _ => hfree rfl
  | checkDone =>
      by_cases hdone : s.shared.ready t = .done
      · exact hgo (.isDone hdone) (by simp [rank]; omega) halone fun _ => hfree rfl
      · exact hgo (.notDone hdone) (by simp [rank]) halone fun _ => hfree rfl
  | clear => exact hgo .clear (by simp [rank]) halone fun _ => hfree rfl
  | checkFree => exact hgo (.lockIsFree (hfree rfl)) (by simp [rank]) halone fun _ => hfree rfl
  | lockWriter =>
    exact hgo (.lockWriter (hfree rfl)) (by simp [rank]; omega) halone (by simp [Pc.locks])
  | collect i cs =>
      rcases Nat.lt_or_eq_of_le hbounds with hlt | rfl
      · by_cases hready : s.shared.ready ⟨i, hlt⟩ = .readyToExecute
        · exact hgo (.collectReady ⟨i, hlt⟩ hready) (by simp [rank]) halone (by simp [Pc.locks])
        · exact hgo (.collectNext ⟨i, hlt⟩ hready) (by simp [rank]; omega)
            halone (by simp [Pc.locks])
      · exact hgo .collected (by simp [rank]; omega) halone (by simp [Pc.locks])
  | take i cs => exact hgo (.take i) (by simp [rank]; omega) halone (by simp [Pc.locks])
  | scan i cs =>
      rcases Nat.lt_or_eq_of_le hbounds with hlt | rfl
      · exact hgo (.scanNext ⟨i, hlt⟩ (hdown rfl _)) (by simp [rank]; omega)
          halone (by simp [Pc.locks])
      · exact hgo .scanned (by simp [rank]) halone (by simp [Pc.locks])
  | instrumentStart cs => exact hgo .instrumentStart (by simp [rank]) halone (by simp [Pc.locks])
  | enableCombiner cs =>
    exact hgo .enableCombiner (by simp [rank]; omega) halone (by simp [Pc.locks])
  | process index cs =>
      rcases Nat.lt_or_ge index cs.length with hlt | hge
      · exact hgo (.process (List.getElem?_eq_getElem hlt)) (by simp [rank]; omega)
          halone (by simp [Pc.locks])
      · exact hgo (.allProcessed hge) (by simp [rank]; omega) halone (by simp [Pc.locks])
  | processRequest index cs => exact hgo .processed (by simp [rank]) halone (by simp [Pc.locks])
  | instrumentStop cs => exact hgo .instrumentStop (by simp [rank]) halone (by simp [Pc.locks])
  | logPayload cs => exact hgo .logPayload (by simp [rank]) halone (by simp [Pc.locks])
  | disableCombiner cs => exact hgo .disableCombiner (by simp [rank]) halone (by simp [Pc.locks])
  | markDone index cs =>
      rcases Nat.lt_or_ge index cs.length with hlt | hge
      · exact hgo (.markDone (List.getElem?_eq_getElem hlt)) (by simp [rank]; omega)
          halone (by simp [Pc.locks])
      · exact hgo (.allMarked hge) (by simp [rank]; omega) halone (by simp [Pc.locks])
  | clearOwn => exact hgo .clearOwn (by simp [rank]) halone (by simp [Pc.locks])
  | writeUnlock => exact hgo .writeUnlock (by simp [rank]) halone fun _ => rfl
  | markReaderAsActive =>
      exact hgo .markReaderAsActive (by simp [rank]) (fun u hu => by simp [hu, halone u hu])
        fun _ => hfree rfl
  | checkWriter => exact hgo (.noWriter (hfree rfl)) (by simp [rank]) halone fun _ => hfree rfl
  | markReaderAsInactive =>
      exact hgo .markReaderAsInactive (by simp [rank]) (fun u hu => by simp [hu, halone u hu])
        fun _ => hfree rfl
  | awaitFree => exact hgo (.writerGone (hfree rfl)) (by simp [rank]) halone fun _ => hfree rfl
  | readRequest => exact hgo .readRequest (by simp [rank]) halone fun _ => hfree rfl
  | readUnlock =>
    exact hgo .readUnlock (by simp [rank]) (fun u hu => by simp [hu, halone u hu]) fun _ =>
      hfree rfl
  | checkLock w => exact hgo (.writerFree (hfree rfl)) (by simp [rank]) halone fun _ => hfree rfl
  | takeLock w => exact hgo (.takeLock (hfree rfl)) (by simp [rank]) halone (by simp [Pc.locks])
  | drain w i =>
      rcases Nat.lt_or_eq_of_le hbounds with hlt | rfl
      · exact hgo (.drainNext ⟨i, hlt⟩ (hdown rfl _)) (by simp [rank]; omega)
          halone (by simp [Pc.locks])
      · exact hgo .drained (by simp [rank]) halone (by simp [Pc.locks])
  | work w => exact hgo .work (by simp [rank]) halone (by simp [Pc.locks])
  | release w => exact hgo .release (by simp [rank]) halone fun _ => rfl

end Advance

section Runs

theorem completes_move {g : Shared n Req} {pc : Pc n} {f : Nat} (ha : active t)
    (hh : (s.thread t).hook = .outside) (hidle : (s.thread t).pc ≠ .idle)
    (hm : Move t s.shared ((s.thread t).pc, (s.thread t).combiner) g (pc, f)) :
    Completes active s (after s t g ⟨pc, .outside, f⟩) := by
  refine ⟨.move ha hh hm, fun u => ?_⟩
  by_cases hu : u = t
  · subst hu
    exact ⟨fun h => absurd h hidle, fun _ => by simp⟩
  · rw [thread_after_of_ne hu]
    exact ⟨id, id⟩

theorem completes_hook {g : Shared n Req} {k : Hook} (ha : active t)
    (hc : (s.thread t).pc.callsBack = true)
    (hh : (s.thread t).hook ≠ .outside)
    (hm : HookMove (s.thread t).combiner s.shared (s.thread t).hook g k) :
    Completes active s (after s t g { s.thread t with hook := k }) := by
  refine ⟨.hook ha hc (fun h => absurd h hh) hm, fun u => ?_⟩
  by_cases hu : u = t
  · subst hu
    rw [thread_after_self]
    exact ⟨id, fun h => absurd h hh⟩
  · rw [thread_after_of_ne hu]
    exact ⟨id, id⟩

theorem reachable_of_run (hr : Reachable (Initial active) (Step active Unheld) s)
    (h : ReflTransGen (Completes active) s s') :
    Reachable (Initial active) (Step active Unheld) s' := by
  induction h with
  | refl => exact hr
  | tail _ hs ih => exact ih.next hs.1

theorem active_of_busy (hr : Reachable (Initial active) (Step active Unheld) s)
    (h : (s.thread t).pc ≠ .idle ∨ (s.thread t).hook ≠ .outside) : active t := by
  by_contra hna
  obtain ⟨hpc, hh⟩ := (sound_of_reachable hr).absent t hna
  exact h.elim (absurd hpc) (absurd hh)

theorem exists_finish (hr : Reachable (Initial active) (Step active Unheld) s) (ht : Able s t) :
    ∃ s', ReflTransGen (Completes active) s s' ∧ (s'.thread t).pc = .idle := by
  induction hk : rank (s.thread t).pc using Nat.strong_induction_on generalizing s with
  | _ k ih =>
      by_cases hidle : (s.thread t).pc = .idle
      · exact ⟨s, .refl, hidle⟩
      · obtain ⟨g, pc, f, hadv⟩ := exists_advance hr ht hidle
        have hs := completes_move (active_of_busy hr (.inl hidle)) ht.hook hidle hadv.move
        obtain ⟨s', hrun, hend⟩ :=
          ih (rank pc) (hk ▸ hadv.rank) (s := after s t g ⟨pc, .outside, f⟩) (hr.next hs.1)
          ⟨by simp, by simpa using hadv.alone, by simpa using hadv.free⟩ (by simp)
        exact ⟨s', .head hs hrun, hend⟩

/-- In the hook for a system call outside of a session. -/
def Borrows (k : Hook) : Prop := k ≠ .outside ∧ k ≠ .enqueue false

theorem unflagged_of_borrows (hr : Reachable (Initial active) (Step active Unheld) s)
    (h : Borrows (s.thread t).hook) : (s.thread t).pc.flagged = false := by
  have hinv : ∀ t, Borrows (s.thread t).hook → (s.thread t).pc.flagged = false := by
    refine hr.invariant (I := fun s => ∀ t, Borrows (s.thread t).hook →
      (s.thread t).pc.flagged = false) (fun s hs t => ?_) fun s s' hi hs u => ?_
    · rw [hs.thread]
      exact fun _ => rfl
    · cases hs with
      | @move t g pc f _ hh hm =>
          by_cases hu : u = t
          · subst hu
            simp [Borrows]
          · dsimp only
            rw [Function.update_of_ne hu]
            exact hi u
      | @hook t g k _ hc hadm hm =>
          by_cases hu : u = t
          · subst hu
            dsimp only
            rw [Function.update_self]
            intro hb
            by_cases hout : (s.thread u).hook = .outside
            · rcases hadm hout with hf | hf
              · generalize (s.thread u).hook = k₀ at hm hout
                generalize (s.thread u).combiner = f at hm hf
                cases hm with
                | enterLocking => exact absurd rfl hf
                | enterCombiner => exact absurd rfl hb.2
                | _ => cases hout
              · exact hf.2
            · refine hi u ⟨hout, fun he => ?_⟩
              generalize (s.thread u).hook = k₀ at hm he
              generalize (s.thread u).combiner = f at hm
              subst he
              cases hm
              exact hb.1 rfl
          · dsimp only
            rw [Function.update_of_ne hu]
            exact hi u
  exact hinv t h

theorem hook_of_flagged (hr : Reachable (Initial active) (Step active Unheld) s)
    (hf : (s.thread t).pc.flagged = true) : (s.thread t).hook = .outside := by
  by_contra hout
  by_cases hk : (s.thread t).hook = .enqueue false
  · have hflag := flagInv_of_reachable hr
    have hcomb := hflag.combines t (hflag.borrowed t hk)
    generalize (s.thread t).pc = pc at hcomb hf
    cases pc <;> first | (cases hcomb; done) | cases hf
  · rw [unflagged_of_borrows hr ⟨hout, hk⟩] at hf
    cases hf

def flags (s : State n Req) : Finset (Fin n) :=
  Finset.univ.filter fun u => s.shared.readersSet u = .reading

theorem mem_flags {u : Fin n} : u ∈ flags s ↔ s.shared.readersSet u = .reading := by simp [flags]

theorem exists_lower (hr : Reachable (Initial active) (Step active Unheld) s)
    (hf : (s.thread t).pc.flagged = true) :
    ∃ s', ReflTransGen (Completes active) s s' ∧ flags s' ⊂ flags s := by
  have hmem : t ∈ flags s := mem_flags.mpr (((lockInv_of_reachable hr).flag t).mpr hf)
  have hlast : ∀ {s' : State n Req} {g pc f}, ReflTransGen (Completes active) s s' →
      (s'.thread t).hook = .outside →
      (s'.thread t).pc ≠ .idle →
      Move t s'.shared ((s'.thread t).pc, (s'.thread t).combiner) g (pc, f) →
      g.readersSet = Function.update s.shared.readersSet t .notReading →
      ∃ s', ReflTransGen (Completes active) s s' ∧ flags s' ⊂ flags s := by
    intro s' g pc f hrun hh hidle hm hg
    have ha := active_of_busy (reachable_of_run hr hrun) (.inl hidle)
    refine ⟨_, hrun.tail (completes_move ha hh hidle hm),
      Finset.ssubset_iff_subset_ne.mpr ⟨fun u hu => ?_, fun he => ?_⟩⟩
    · rw [mem_flags, shared_after, hg] at hu
      by_cases hut : u = t
      · rwa [hut]
      · rw [Function.update_of_ne hut] at hu
        exact mem_flags.mpr hu
    · rw [← he, mem_flags, shared_after, hg, Function.update_self] at hmem
      cases hmem
  have hh := hook_of_flagged hr hf
  have ha : active t := active_of_busy hr (.inl fun hidle => by rw [hidle] at hf; cases hf)
  cases hpc : (s.thread t).pc with
  | readUnlock => exact hlast .refl hh (by simp [hpc]) (by rw [hpc]; exact .readUnlock) rfl
  | markReaderAsInactive =>
    exact hlast .refl hh (by simp [hpc]) (by rw [hpc]; exact .markReaderAsInactive) rfl
  | readRequest =>
      have hs := completes_move ha hh (by simp [hpc]) (by rw [hpc]; exact .readRequest)
      exact hlast (.single hs) (by simp) (by simp)
        (by rw [thread_after_self]; exact .readUnlock) rfl
  | checkWriter =>
      by_cases hw : s.shared.writers = 0
      · have hs := completes_move ha hh (by simp [hpc]) (by rw [hpc]; exact .noWriter hw)
        have hs' : Completes active
            (after s t s.shared ⟨.readRequest, .outside, (s.thread t).combiner⟩) _ :=
          completes_move ha (by simp) (by simp) (by rw [thread_after_self]; exact .readRequest)
        exact hlast (.tail (.single hs) hs') (by simp) (by simp)
          (by rw [thread_after_self]; exact .readUnlock) rfl
      · have hs := completes_move ha hh (by simp [hpc]) (by rw [hpc]; exact .someWriter hw)
        exact hlast (.single hs) (by simp) (by simp)
          (by rw [thread_after_self]; exact .markReaderAsInactive) rfl
  | _ =>
      rw [hpc] at hf
      cases hf

theorem exists_drained (hr : Reachable (Initial active) (Step active Unheld) s) :
    ∃ s', ReflTransGen (Completes active) s s' ∧ ∀ u, s'.shared.readersSet u = .notReading := by
  induction hk : flags s using Finset.strongInduction generalizing s with
  | _ fs ih =>
      by_cases hnone : ∀ u, s.shared.readersSet u = .notReading
      · exact ⟨s, .refl, hnone⟩
      · obtain ⟨u, hu⟩ := not_forall.mp hnone
        have hread : s.shared.readersSet u = .reading := by
          cases h : s.shared.readersSet u with
          | reading => rfl
          | notReading => exact absurd h hu
        obtain ⟨s₁, hrun₁, hlt⟩ := exists_lower hr (((lockInv_of_reachable hr).flag u).mp hread)
        obtain ⟨s₂, hrun₂, hend⟩ := ih _ (hk ▸ hlt) (reachable_of_run hr hrun₁) rfl
        exact ⟨s₂, hrun₁.trans hrun₂, hend⟩

def hookRank : Hook → Nat
  | .outside => 0
  | .enqueue false | .unlock => 1
  | .enqueue true => 2
  | .compareExchange => 3
  | .spin => 4

theorem exists_leave (hr : Reachable (Initial active) (Step active Unheld) s)
    (hfree : Spinning (s.thread t) → s.shared.writers = 0) :
    ∃ s', ReflTransGen (Completes active) s s' ∧ (s'.thread t).hook = .outside := by
  induction hk : hookRank (s.thread t).hook using Nat.strong_induction_on generalizing s with
  | _ k ih =>
      by_cases hout : (s.thread t).hook = .outside
      · exact ⟨s, .refl, hout⟩
      · have hgo : ∀ {g k'}, HookMove (s.thread t).combiner s.shared (s.thread t).hook g k' →
            hookRank k' < hookRank (s.thread t).hook →
            (k' = .compareExchange → g.writers = 0) → k' ≠ .spin →
            ∃ s', ReflTransGen (Completes active) s s' ∧ (s'.thread t).hook = .outside := by
          intro g k' hm hlt hw hns
          have hs :=
            completes_hook (active_of_busy hr (.inr hout))
            ((sound_of_reachable hr).calls t hout) hout hm
          obtain ⟨s', hrun, hend⟩ := ih (hookRank k') (hk ▸ hlt)
            (s := after s t g { s.thread t with hook := k' }) (hr.next hs.1)
            (fun hspin => by
              rw [Spinning, thread_after_self] at hspin
              exact hw (hspin.resolve_left hns)) (by simp)
          exact ⟨s', .head hs hrun, hend⟩
        unfold Spinning at hfree
        generalize (s.thread t).hook = k₀ at *
        generalize (s.thread t).combiner = f at hgo
        cases k₀ with
        | outside => exact absurd rfl hout
        | spin =>
          exact hgo (.wordFree (hfree (.inl rfl))) (by decide)
            (fun _ => hfree (.inl rfl)) (by decide)
        | compareExchange =>
          exact hgo (.exchange (hfree (.inr rfl))) (by decide) (by simp) (by decide)
        | enqueue locked =>
            cases locked with
            | true => exact hgo .enqueued (by decide) (by simp) (by decide)
            | false => exact hgo .enqueuedCombiner (by decide) (by simp) (by decide)
        | unlock => exact hgo .unlock (by decide) (by simp) (by decide)

end Runs

section Busy

/-- Nobody has begun a call or a system call since. -/
def Winds (s s' : State n Req) : Prop :=
  ∀ t, ((s.thread t).pc = .idle → (s'.thread t).pc = .idle) ∧
  ((s.thread t).hook = .outside → (s'.thread t).hook = .outside)

theorem winds_of_run (h : ReflTransGen (Completes active) s s') : Winds s s' := by
  induction h with
  | refl => exact fun _ => ⟨id, id⟩
  | tail _ hs ih =>
    exact fun t => ⟨fun h => (hs.2 t).1 ((ih t).1 h), fun h => (hs.2 t).2 ((ih t).2 h)⟩

open Classical in
/-- The calls and system calls in progress. -/
noncomputable def busy (s : State n Req) : Finset (Fin n ⊕ Fin n) :=
  Finset.univ.filter fun
    | .inl t => (s.thread t).pc ≠ .idle
    | .inr t => (s.thread t).hook ≠ .outside

theorem inl_mem_busy : .inl t ∈ busy s ↔ (s.thread t).pc ≠ .idle := by simp [busy]

theorem inr_mem_busy : .inr t ∈ busy s ↔ (s.thread t).hook ≠ .outside := by simp [busy]

theorem Winds.busy_subset (h : Winds s s') : busy s' ⊆ busy s := by
  rintro (t | t) ht
  · rw [inl_mem_busy] at ht ⊢
    exact fun hidle => ht ((h t).1 hidle)
  · rw [inr_mem_busy] at ht ⊢
    exact fun hout => ht ((h t).2 hout)

theorem Winds.busy_ssubset {c : Fin n ⊕ Fin n} (h : Winds s s') (hc : c ∈ busy s)
    (hc' : c ∉ busy s') : busy s' ⊂ busy s :=
  Finset.ssubset_iff_subset_ne.mpr ⟨h.busy_subset, fun he => hc' (he ▸ hc)⟩

theorem exists_less_busy (hr : Reachable (Initial active) (Step active Unheld) s)
    (hdown : ∀ u, s.shared.readersSet u = .notReading) (hb : (busy s).Nonempty) :
    ∃ s', ReflTransGen (Completes active) s s' ∧ busy s' ⊂ busy s := by
  have hl := lockInv_of_reachable hr
  have hleave : ∀ t, (s.thread t).hook ≠ .outside → (Spinning (s.thread t) → s.shared.writers = 0) →
      ∃ s', ReflTransGen (Completes active) s s' ∧ busy s' ⊂ busy s := by
    intro t hout hfree
    obtain ⟨s', hrun, hend⟩ := exists_leave hr hfree
    exact ⟨s', hrun, (winds_of_run hrun).busy_ssubset (inr_mem_busy.mpr hout)
      (by simpa [inr_mem_busy] using hend)⟩
  have hfinish : ∀ t, (s.thread t).hook = .outside → (s.thread t).pc ≠ .idle →
      ((s.thread t).pc.locks = false → s.shared.writers = 0) →
      ∃ s', ReflTransGen (Completes active) s s' ∧ busy s' ⊂ busy s := by
    intro t hout hidle hfree
    obtain ⟨s', hrun, hend⟩ := exists_finish hr (t := t) ⟨hout, fun u _ => hdown u, hfree⟩
    exact ⟨s', hrun, (winds_of_run hrun).busy_ssubset (inl_mem_busy.mpr hidle)
      (by simpa [inl_mem_busy] using hend)⟩
  by_cases hw : s.shared.writers = 0
  · obtain ⟨t | t, ht⟩ := hb
    · by_cases hout : (s.thread t).hook = .outside
      · exact hfinish t hout (inl_mem_busy.mp ht) fun _ => hw
      · exact hleave t hout fun _ => hw
    · exact hleave t (inr_mem_busy.mp ht) fun _ => hw
  · -- whoever holds the word is not waiting for anything
    obtain ⟨t, ht⟩ := (sound_of_reachable hr).held hw
    by_cases hout : (s.thread t).hook = .outside
    · have hlocks : (s.thread t).pc.locks = true := by
        refine ht.resolve_right ?_
        rw [hout]
        simp [Hook.locks]
      refine hfinish t hout (fun hidle => ?_) fun hnot => ?_
      · rw [hidle] at hlocks
        cases hlocks
      · rw [hnot] at hlocks
        cases hlocks
    · refine hleave t hout fun hspin => absurd ht ?_
      rw [(unheld_of_reachable hr t hspin).1]
      rcases hspin with h | h <;> rw [h] <;> simp [Hook.locks]

theorem exists_quiet (hr : Reachable (Initial active) (Step active Unheld) s) :
    ∃ s', ReflTransGen (Completes active) s s' ∧ busy s' = ∅ := by
  induction hk : busy s using Finset.strongInduction generalizing s with
  | _ bs ih =>
      obtain ⟨s₁, hrun₁, hdown⟩ := exists_drained hr
      have hr₁ := reachable_of_run hr hrun₁
      rcases (busy s₁).eq_empty_or_nonempty with hnone | hsome
      · exact ⟨s₁, hrun₁, hnone⟩
      · obtain ⟨s₂, hrun₂, hlt⟩ := exists_less_busy hr₁ hdown hsome
        have hless : busy s₂ ⊂ bs := hk ▸ hlt.trans_subset (winds_of_run hrun₁).busy_subset
        obtain ⟨s₃, hrun₃, hend⟩ := ih _ hless (reachable_of_run hr₁ hrun₂) rfl
        exact ⟨s₃, (hrun₁.trans hrun₂).trans hrun₃, hend⟩

end Busy

theorem requests_of_completes (h : Completes active s s') :
    s'.shared.requests = s.shared.requests := by
  obtain ⟨hs, hwinds⟩ := h
  cases hs with
  | @move t g pc f ha hh hm =>
      have hidle : (s.thread t).pc = .idle → pc = .idle := by simpa using (hwinds t).1
      cases Combining.effect_of_move hm with
      | quiet hg | read _ hg | lock _ _ hg => exact hg.requests
      | call _ hpc hpc' => cases (hidle hpc).symm.trans hpc'
      | post _ _ hg | seen _ hg | clear _ _ hg | take _ _ _ _ hg
      | process _ _ _ _ _ _ hg | stop _ _ _ hg
      | mark _ _ _ _ _ _ hg | marked _ _ _ _ _ hg | clearOwn _ _ hg | unlock _ _ hg => rw [hg]
  | hook _ _ _ hm => exact (sameTasks_of_hookMove hm).1.requests

theorem requests_of_run (h : ReflTransGen (Completes active) s s') :
    s'.shared.requests = s.shared.requests := by
  induction h with
  | refl => rfl
  | tail _ hs ih => exact (requests_of_completes hs).trans ih

/-- Every call has returned: the lock is free, no reader is inside, and the
requests are those that had been made in `s`, all executed. -/
structure Quiet (active : Fin n → Prop) (s s' : State n Req) : Prop where
  idle : ∀ t, (s'.thread t).pc = .idle
  outside : ∀ t, (s'.thread t).hook = .outside
  free : s'.shared.writers = 0
  down : ∀ t, s'.shared.readersSet t = .notReading
  requests : s'.shared.requests = s.shared.requests
  executed : ∀ t, active t → (s'.shared.executed t).map Prod.fst = s'.shared.requests t
  returned : ∀ t, active t → s'.shared.returned t = (s'.shared.requests t).length

/-- No run comes to a state from which the calls in progress cannot all return:
where the hook is not entered under the lock or a reader flag, the threads can
always be run to the end of their calls without a new one being made. -/
theorem calls_can_complete (n : Nat) (Req : Type) (active : Fin n → Prop) (s : State n Req)
    (h : Reachable (Initial active) (Step active Unheld) s) :
    ∃ s', ReflTransGen (Completes active) s s' ∧ Quiet active s s' := by
  obtain ⟨s', hrun, hnone⟩ := exists_quiet h
  have hr' := reachable_of_run h hrun
  have hl := lockInv_of_reachable hr'
  have htask := taskInv_of_reachable hr'
  have hidle : ∀ t, (s'.thread t).pc = .idle := by
    intro t
    by_contra hne
    simpa [hnone] using inl_mem_busy.mpr hne
  have hout : ∀ t, (s'.thread t).hook = .outside := by
    intro t
    by_contra hne
    simpa [hnone] using inr_mem_busy.mpr hne
  have hcount : ∀ t, active t → s'.shared.returned t = (s'.shared.requests t).length := by
    intro t ht
    have hc := (htask.calls t ht).count
    simp only [hidle] at hc
    exact hc.symm
  refine ⟨s', hrun, hidle, hout, ?_, fun t => ?_, requests_of_run hrun, fun t ht => ?_, hcount⟩
  · by_contra hw
    obtain ⟨t, ht⟩ := (sound_of_reachable hr').held hw
    rw [hidle, hout] at ht
    simp [Pc.locks, Hook.locks] at ht
  · cases hread : s'.shared.readersSet t with
    | notReading => rfl
    | reading =>
        have hf := (hl.flag t).mp hread
        rw [hidle] at hf
        cases hf
  · have hphase := htask.phase t ht
    obtain ⟨-, hlen, -⟩ := hphase.of_fresh (.inl (by rw [hidle]; rfl))
    rw [(htask.calls t ht).order, hlen, hcount t ht, List.take_length]

/-- A session in progress, a reader that waits for it, and a thread in the hook. -/
theorem calls_can_complete_crowded :
    ∃ s s', Crowded s ∧ ReflTransGen (Completes fun _ => True) s s' ∧
    Quiet (fun _ => True) s s' := by
  obtain ⟨s, hs, hc⟩ := exists_crowded Unheld (.inr ⟨rfl, rfl⟩)
  obtain ⟨s', hrun, hquiet⟩ := calls_can_complete 4 Unit (fun _ => True) s hs
  exact ⟨s, s', hc, hrun, hquiet⟩

end Mangosteen.Completion
