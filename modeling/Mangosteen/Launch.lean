import Mathlib.Logic.Function.Basic
import Mangosteen.Library.Transition

namespace Mangosteen.Launch

open Transition

/-- Where `start_front_end` stands. It holds the semaphore from `sem_open` to
`sem_close`. -/
inductive FrontPc
  | semOpen
  | semWait (sem : Nat)
  | restoreMemory
  | semPost (sem : Nat)
  | running
  | ended
  deriving DecidableEq

/-- Where `start_back_end` stands. -/
inductive BackPc
  | semOpen
  | replay (sem : Nat)
  | semPost (sem : Nat)
  | semWait (sem : Nat)
  | semUnlink
  | runConsumer
  | ended
  deriving DecidableEq

/-- The semaphores that were ever created, with the one that the name
`init_semaphore` stands for. -/
structure Semaphores where
  name : Option Nat := none
  value : Nat → Nat := fun _ => 0
  created : Nat := 0

namespace Semaphores

/-- `sem_open` with `O_CREAT` and the initial value zero. -/
def semOpen (s : Semaphores) : Nat × Semaphores :=
  match s.name with
  | some sem => (sem, s)
  | none =>
    (s.created,
      { name := some s.created, value := Function.update s.value s.created 0,
        created := s.created + 1 })

def semPost (s : Semaphores) (sem : Nat) : Semaphores :=
  { s with value := Function.update s.value sem (s.value sem + 1) }

/-- `sem_wait`, once the value allows it. -/
def semWait (s : Semaphores) (sem : Nat) : Semaphores :=
  { s with value := Function.update s.value sem (s.value sem - 1) }

def semUnlink (s : Semaphores) : Semaphores := { s with name := none }

end Semaphores

/-- Launches are numbered; each has a front end and a back end. -/
structure State where
  launches : Nat := 0
  /-- What `new_process` has answered. -/
  isNewProcess : Nat → Bool := fun _ => true
  front : Nat → FrontPc := fun _ => .ended
  back : Nat → BackPc := fun _ => .ended
  semaphores : Semaphores := {}
  /-- `commit_metadata.numberOfRegions`, from which `number_of_entries` is set
  when the region table is opened. -/
  numberOfRegions : Nat := 0
  /-- Entries that `remote_head` and `remote_tail` have passed. -/
  remoteHead : Nat := 0
  remoteTail : Nat := 0
  /-- The launches whose replay loop has ended, and those whose `restore_memory`
  has begun. -/
  replayed : Nat → Bool := fun _ => false
  restored : Nat → Bool := fun _ => false

/-- The steps of all processes that are alive, crashes of single processes, and
launches. `admits` says when a launch may be made. -/
inductive Step (admits : State → Prop) : State → State → Prop
  | launch {s : State} (h : admits s) :
      Step admits s { s with
        launches := s.launches + 1
        isNewProcess := Function.update s.isNewProcess s.launches (s.numberOfRegions == 0)
        front := Function.update s.front s.launches .semOpen
        back := Function.update s.back s.launches .semOpen }
  | frontOpen {s : State} {k : Nat} (h : s.front k = .semOpen) :
      Step admits s { s with
        semaphores := s.semaphores.semOpen.2
        front := Function.update s.front k
          (if s.isNewProcess k then .semPost s.semaphores.semOpen.1
            else .semWait s.semaphores.semOpen.1) }
  | frontWait {s : State} {k sem : Nat} (h : s.front k = .semWait sem)
      (hv : 0 < s.semaphores.value sem) : Step admits s { s with
        semaphores := s.semaphores.semWait sem
        front := Function.update s.front k .restoreMemory
        restored := Function.update s.restored k true }
  | frontRestored {s : State} {k : Nat} (h : s.front k = .restoreMemory) :
      Step admits s { s with front := Function.update s.front k .running }
  | frontPost {s : State} {k sem : Nat} (h : s.front k = .semPost sem) :
      Step admits s { s with
        semaphores := s.semaphores.semPost sem, front := Function.update s.front k .running }
  | publish {s : State} {k : Nat} (h : s.front k = .running) :
      Step admits s { s with remoteTail := s.remoteTail + 1 }
  | backOpen {s : State} {k : Nat} (h : s.back k = .semOpen) :
      Step admits s { s with
        semaphores := s.semaphores.semOpen.2
        back := Function.update s.back k
          (if s.isNewProcess k then .semWait s.semaphores.semOpen.1
            else .replay s.semaphores.semOpen.1) }
  /-- The entry may be a commit entry, which stores the count of regions. -/
  | processEntry {s : State} {k : Nat} (regions : Nat) (h : s.back k = .runConsumer ∨
      ∃ sem, s.back k = .replay sem) (hne : s.remoteHead ≠ s.remoteTail) :
      Step admits s { s with remoteHead := s.remoteHead + 1, numberOfRegions := regions }
  | replayed {s : State} {k sem : Nat} (h : s.back k = .replay sem)
      (heq : s.remoteHead = s.remoteTail) : Step admits s { s with
        back := Function.update s.back k (.semPost sem),
        replayed := Function.update s.replayed k true }
  | backPost {s : State} {k sem : Nat} (h : s.back k = .semPost sem) :
      Step admits s { s with
        semaphores := s.semaphores.semPost sem, back := Function.update s.back k .runConsumer }
  | backWait {s : State} {k sem : Nat} (h : s.back k = .semWait sem)
      (hv : 0 < s.semaphores.value sem) :
      Step admits s { s with
        semaphores := s.semaphores.semWait sem, back := Function.update s.back k .semUnlink }
  | backUnlink {s : State} {k : Nat} (h : s.back k = .semUnlink) :
      Step admits s { s with
        semaphores := s.semaphores.semUnlink, back := Function.update s.back k .runConsumer }
  | frontCrash {s : State} (k : Nat) :
      Step admits s { s with front := Function.update s.front k .ended }
  | backCrash {s : State} (k : Nat) :
      Step admits s { s with back := Function.update s.back k .ended }

/-- The machine before the first launch. -/
def Initial (s : State) : Prop := s = {}

/-- Memory is restored only after the back end of the same launch is through with
its replay loop. -/
def RestoredInOrder (s : State) : Prop := ∀ k, s.restored k = true → s.replayed k = true

/-- The front end has made its last call on the semaphore. -/
def FrontPc.isPast : FrontPc → Bool
  | .restoreMemory | .running | .ended => true
  | _ => false

def BackPc.isPast : BackPc → Bool
  | .runConsumer | .ended => true
  | _ => false

/-- No process of an earlier launch will use the semaphore again, and a recovery
finds none of that name or one whose value is zero. -/
structure Clear (s : State) : Prop where
  front : ∀ k, (s.front k).isPast = true
  back : ∀ k, (s.back k).isPast = true
  value : s.numberOfRegions ≠ 0 → ∀ sem, s.semaphores.name = some sem → s.semaphores.value sem = 0

/-- What holds of the launch in progress as long as its replay is. -/
structure Waiting (s : State) (k : Nat) : Prop where
  name : ∀ sem, s.semaphores.name = some sem → s.semaphores.value sem = 0
  front : s.front k = .semOpen ∨ (∃ sem, s.front k = .semWait sem ∧ s.semaphores.value sem = 0) ∨
    s.front k = .ended
  back : s.back k = .semOpen ∨ (∃ sem, s.back k = .replay sem) ∨ s.back k = .ended

structure LaunchInv (s : State) : Prop where
  frontPast : ∀ k, k + 1 ≠ s.launches → (s.front k).isPast = true
  backPast : ∀ k, k + 1 ≠ s.launches → (s.back k).isPast = true
  unused : ∀ k, s.launches ≤ k → s.replayed k = false ∧ s.restored k = false
  waiting : ∀ k, k + 1 = s.launches → s.isNewProcess k = false → s.replayed k = false → Waiting s k
  fresh : ∀ k, k + 1 = s.launches → s.isNewProcess k = true → ∀ sem, s.front k ≠ .semWait sem
  order : RestoredInOrder s

section Opening

variable {s : Semaphores}

theorem Semaphores.semOpen_name : s.semOpen.2.name = some s.semOpen.1 := by
  rw [semOpen]
  split
  · assumption
  · rfl

theorem Semaphores.semOpen_value (h : ∀ sem, s.name = some sem → s.value sem = 0) :
    s.semOpen.2.value s.semOpen.1 = 0 := by
  rw [semOpen]
  split
  · exact h _ (by assumption)
  · exact Function.update_self ..

theorem Semaphores.semOpen_zero {sem : Nat} (h : s.value sem = 0) : s.semOpen.2.value sem = 0 := by
  rw [semOpen]
  split
  · exact h
  · dsimp only
    by_cases hsem : sem = s.created
    · rw [hsem, Function.update_self]
    · rw [Function.update_of_ne hsem, h]

end Opening

section Moves

variable {s : State} {k : Nat}

theorem LaunchInv.latest_of_front (h : LaunchInv s) (hk : (s.front k).isPast = false) :
    k + 1 = s.launches := by
  by_contra hne
  rw [h.frontPast k hne] at hk
  cases hk

theorem LaunchInv.latest_of_back (h : LaunchInv s) (hk : (s.back k).isPast = false) :
    k + 1 = s.launches := by
  by_contra hne
  rw [h.backPast k hne] at hk
  cases hk

theorem LaunchInv.frontMoves {pc : FrontPc} {sems : Semaphores} (h : LaunchInv s)
    (hpast : k + 1 = s.launches ∨ pc.isPast = true)
    (hfresh : s.isNewProcess k = true → ∀ sem, pc ≠ .semWait sem)
    (hwait : ∀ j, s.isNewProcess j = false → s.replayed j = false →
      j + 1 = s.launches → Waiting s j →
      Waiting { s with semaphores := sems, front := Function.update s.front k pc } j) :
    LaunchInv { s with semaphores := sems, front := Function.update s.front k pc } := by
  refine ⟨fun j hj => ?_, h.backPast, h.unused, fun j hj hn hr => hwait j hn hr hj
    (h.waiting j hj hn hr), fun j hj hn sem => ?_, h.order⟩
  · dsimp only
    by_cases hjk : j = k
    · subst hjk
      rw [Function.update_self]
      exact hpast.resolve_left hj
    · rw [Function.update_of_ne hjk]
      exact h.frontPast j hj
  · dsimp only
    by_cases hjk : j = k
    · subst hjk
      rw [Function.update_self]
      exact hfresh hn sem
    · rw [Function.update_of_ne hjk]
      exact h.fresh j hj hn sem

theorem LaunchInv.backMoves {pc : BackPc} {sems : Semaphores} (h : LaunchInv s)
    (hpast : k + 1 = s.launches ∨ pc.isPast = true)
    (hwait : ∀ j, s.isNewProcess j = false → s.replayed j = false →
      j + 1 = s.launches → Waiting s j →
      Waiting { s with semaphores := sems, back := Function.update s.back k pc } j) :
    LaunchInv { s with semaphores := sems, back := Function.update s.back k pc } := by
  refine ⟨h.frontPast, fun j hj => ?_, h.unused, fun j hj hn hr => hwait j hn hr hj
    (h.waiting j hj hn hr), h.fresh, h.order⟩
  dsimp only
  by_cases hjk : j = k
  · subst hjk
    rw [Function.update_self]
    exact hpast.resolve_left hj
  · rw [Function.update_of_ne hjk]
    exact h.backPast j hj

end Moves

section Waits

variable {s : State} {j : Nat}

/-- While the replay goes on, the values that matter are zero, whoever opens the
semaphore. -/
theorem Waiting.opened (h : Waiting s j) :
    Waiting { s with semaphores := s.semaphores.semOpen.2 } j := by
  refine ⟨fun sem hsem => ?_, ?_, h.back⟩
  · dsimp only at hsem ⊢
    rw [Semaphores.semOpen_name, Option.some.injEq] at hsem
    rw [← hsem]
    exact Semaphores.semOpen_value h.name
  · exact h.front.imp_right (Or.imp_left fun ⟨sem, hf, hv⟩ => ⟨sem, hf, Semaphores.semOpen_zero hv⟩)

theorem Waiting.setFront {pc : FrontPc} (h : Waiting s j)
    (hpc : pc = .semOpen ∨ (∃ sem, pc = .semWait sem ∧ s.semaphores.value sem = 0) ∨ pc = .ended) :
    Waiting { s with front := Function.update s.front j pc } j := by
  refine ⟨h.name, ?_, h.back⟩
  dsimp only
  rwa [Function.update_self]

theorem Waiting.setBack {pc : BackPc} (h : Waiting s j)
    (hpc : pc = .semOpen ∨ (∃ sem, pc = .replay sem) ∨ pc = .ended) :
    Waiting { s with back := Function.update s.back j pc } j := by
  refine ⟨h.name, h.front, ?_⟩
  dsimp only
  rwa [Function.update_self]

theorem Waiting.front_ne (h : Waiting s j) {pc : FrontPc} (hpc : s.front j = pc) :
    pc ≠ .restoreMemory ∧ (∀ sem, pc ≠ .semPost sem) ∧ pc ≠ .running := by
  subst hpc
  rcases h.front with hf | ⟨sem, hf, -⟩ | hf <;> rw [hf] <;> simp

theorem Waiting.back_ne (h : Waiting s j) {pc : BackPc} (hpc : s.back j = pc) :
    (∀ sem, pc ≠ .semPost sem) ∧ (∀ sem, pc ≠ .semWait sem) ∧ pc ≠ .semUnlink := by
  subst hpc
  rcases h.back with hb | ⟨sem, hb⟩ | hb <;> rw [hb] <;> simp

theorem Waiting.otherFront {pc : FrontPc} {k : Nat} (h : Waiting s j) (hk : j ≠ k) :
    Waiting { s with front := Function.update s.front k pc } j := by
  refine ⟨h.name, ?_, h.back⟩
  dsimp only
  rw [Function.update_of_ne hk]
  exact h.front

theorem Waiting.otherBack {pc : BackPc} {k : Nat} (h : Waiting s j) (hk : j ≠ k) :
    Waiting { s with back := Function.update s.back k pc } j := by
  refine ⟨h.name, h.front, ?_⟩
  dsimp only
  rw [Function.update_of_ne hk]
  exact h.back

end Waits

theorem LaunchInv.launch {s : State} (h : LaunchInv s) (hc : Clear s) :
    LaunchInv { s with
      launches := s.launches + 1
      isNewProcess := Function.update s.isNewProcess s.launches (s.numberOfRegions == 0)
      front := Function.update s.front s.launches .semOpen
      back := Function.update s.back s.launches .semOpen } := by
  refine ⟨fun k hk => ?_, fun k hk => ?_, fun k hk => h.unused k (Nat.le_of_succ_le hk),
    fun k hk hn _ => ?_, fun k hk _ sem => ?_, h.order⟩
  · dsimp only at hk ⊢
    rw [Function.update_of_ne (by omega)]
    exact hc.front k
  · dsimp only at hk ⊢
    rw [Function.update_of_ne (by omega)]
    exact hc.back k
  · obtain rfl : k = s.launches := by simpa using hk
    dsimp only at hn
    rw [Function.update_self, beq_eq_false_iff_ne] at hn
    exact ⟨hc.value hn, .inl (Function.update_self ..), .inl (Function.update_self ..)⟩
  · obtain rfl : k = s.launches := by simpa using hk
    dsimp only
    rw [Function.update_self]
    exact fun h => by cases h

theorem LaunchInv.step {s s' : State} (h : LaunchInv s) (hs : Step Clear s s') : LaunchInv s' := by
  cases hs with
  | launch hc => exact h.launch hc
  | @frontOpen k hk =>
      have hlast := h.latest_of_front (by rw [hk]; rfl)
      refine h.frontMoves (.inl hlast) (fun hn sem => ?_) fun j hn hr hj hw => ?_
      · rw [if_pos hn]
        exact fun h => by cases h
      · obtain rfl : j = k := by omega
        refine hw.opened.setFront
          (.inr (.inl ⟨s.semaphores.semOpen.1, ?_, Semaphores.semOpen_value hw.name⟩))
        rw [hn]
        rfl
  | @frontWait k sem hk hv =>
      have hlast := h.latest_of_front (by rw [hk]; rfl)
      have hold : s.isNewProcess k = false := by
        by_contra hn
        exact h.fresh k hlast (by simpa using hn) sem hk
      -- the value is zero for as long as the back end replays
      have hreplayed : s.replayed k = true := by
        by_contra hr
        rcases (h.waiting k hlast hold (by simpa using hr)).front with hf | ⟨sem', hf, hz⟩ | hf
        · rw [hk] at hf
          cases hf
        · rw [hk] at hf
          cases hf
          omega
        · rw [hk] at hf
          cases hf
      have hmoved : LaunchInv { s with
          semaphores := s.semaphores.semWait sem,
          front := Function.update s.front k .restoreMemory } := by
        refine h.frontMoves (.inr rfl) (fun _ _ h => by cases h) fun j _ hr hj _ => ?_
        obtain rfl : j = k := by omega
        rw [hreplayed] at hr
        cases hr
      refine ⟨hmoved.frontPast, hmoved.backPast, fun j hj => ?_, fun j hj hn hr => ?_,
        hmoved.fresh, fun j hj => ?_⟩
      · dsimp only at hj ⊢
        rw [Function.update_of_ne (by omega)]
        exact h.unused j hj
      · obtain ⟨hname, hfront, hback⟩ := hmoved.waiting j hj hn hr
        exact ⟨hname, hfront, hback⟩
      · dsimp only at hj ⊢
        by_cases hjk : j = k
        · rw [hjk, hreplayed]
        · rw [Function.update_of_ne hjk] at hj
          exact h.order j hj
  | @frontRestored k hk =>
      refine h.frontMoves (.inr rfl) (fun _ _ h => by cases h) fun j _ _ _ hw => hw.otherFront ?_
      rintro rfl
      exact (hw.front_ne hk).1 rfl
  | @frontPost k sem hk =>
      have hlast := h.latest_of_front (by rw [hk]; rfl)
      refine h.frontMoves (.inr rfl) (fun _ _ h => by cases h) fun j _ _ hj hw => ?_
      obtain rfl : j = k := by omega
      exact absurd rfl ((hw.front_ne hk).2.1 sem)
  | publish _ =>
      refine ⟨h.frontPast, h.backPast, h.unused, fun j hj hn hr => ?_, h.fresh, h.order⟩
      obtain ⟨hname, hfront, hback⟩ := h.waiting j hj hn hr
      exact ⟨hname, hfront, hback⟩
  | @backOpen k hk =>
      have hlast := h.latest_of_back (by rw [hk]; rfl)
      refine h.backMoves (.inl hlast) fun j hn hr hj hw => ?_
      obtain rfl : j = k := by omega
      refine hw.opened.setBack (.inr (.inl ⟨s.semaphores.semOpen.1, ?_⟩))
      rw [hn]
      rfl
  | processEntry _ _ _ =>
      refine ⟨h.frontPast, h.backPast, h.unused, fun j hj hn hr => ?_, h.fresh, h.order⟩
      obtain ⟨hname, hfront, hback⟩ := h.waiting j hj hn hr
      exact ⟨hname, hfront, hback⟩
  | @replayed k sem hk heq =>
      have hlast := h.latest_of_back (by rw [hk]; rfl)
      refine ⟨h.frontPast, fun j hj => ?_, fun j hj => ?_, fun j hj hn hr => ?_,
        h.fresh, fun j hj => ?_⟩
      · dsimp only at hj ⊢
        rw [Function.update_of_ne (by omega)]
        exact h.backPast j hj
      · dsimp only at hj ⊢
        rw [Function.update_of_ne (by omega)]
        exact h.unused j hj
      · dsimp only at hj hr
        obtain rfl : j = k := by omega
        rw [Function.update_self] at hr
        cases hr
      · dsimp only
        by_cases hjk : j = k
        · rw [hjk, Function.update_self]
        · rw [Function.update_of_ne hjk]
          exact h.order j hj
  | @backPost k sem hk =>
      have hlast := h.latest_of_back (by rw [hk]; rfl)
      refine h.backMoves (.inr rfl) fun j _ _ hj hw => ?_
      obtain rfl : j = k := by omega
      exact absurd rfl ((hw.back_ne hk).1 sem)
  | @backWait k sem hk _ =>
      have hlast := h.latest_of_back (by rw [hk]; rfl)
      refine h.backMoves (.inl hlast) fun j _ _ hj hw => ?_
      obtain rfl : j = k := by omega
      exact absurd rfl ((hw.back_ne hk).2.1 sem)
  | @backUnlink k hk =>
      have hlast := h.latest_of_back (by rw [hk]; rfl)
      refine h.backMoves (.inr rfl) fun j _ _ hj hw => ?_
      obtain rfl : j = k := by omega
      exact absurd rfl (hw.back_ne hk).2.2
  | frontCrash k =>
      refine h.frontMoves (.inr rfl) (fun _ _ h => by cases h) fun j _ _ _ hw => ?_
      by_cases hjk : j = k
      · subst hjk
        exact hw.setFront (.inr (.inr rfl))
      · exact hw.otherFront hjk
  | backCrash k =>
      refine h.backMoves (.inr rfl) fun j _ _ _ hw => ?_
      by_cases hjk : j = k
      · subst hjk
        exact hw.setBack (.inr (.inr rfl))
      · exact hw.otherBack hjk

/-- Where every launch finds the semaphore clear, memory is restored after the
replay in every history. -/
theorem restore_waits_for_replay (s : State) (h : Reachable Initial (Step Clear) s) :
    RestoredInOrder s := by
  have hinv : LaunchInv s := by
    refine h.invariant (fun s hs => ?_) fun s s' hi hs => hi.step hs
    subst hs
    exact ⟨fun _ _ => rfl, fun _ _ => rfl, fun _ _ => ⟨rfl, rfl⟩, fun k hk => by simp at hk,
      fun k hk => by simp at hk, fun _ h => h⟩
  exact hinv.order

/-- A recovery whose front end waits while the back end replays an entry, and then
restores the memory. -/
theorem restore_waits_for_replay_recovered : ∃ s, Reachable Initial (Step Clear) s ∧
    s.isNewProcess 1 = false ∧ s.restored 1 = true ∧ s.remoteHead = 2 ∧ RestoredInOrder s := by
  have hstart : Reachable Initial (Step Clear) {} := .start rfl
  have hclear : Clear {} := ⟨fun _ => rfl, fun _ => rfl, fun h => absurd rfl h⟩
  -- a first run, whose first batch commits five regions and whose second stays in the ring
  have hfirst :=
    (((hstart.next (.launch hclear)).next (.frontOpen (k := 0) rfl)).next
      (.frontPost (k := 0) rfl)).next
    (.backOpen (k := 0) rfl)
  have hconsumer :=
    (hfirst.next (.backWait (k := 0) rfl (by decide))).next (.backUnlink (k := 0) rfl)
  have hcommit :=
    (hconsumer.next (.publish (k := 0) rfl)).next (.processEntry (k := 0) 5 (.inl rfl) (by decide))
  have hleft := hcommit.next (.publish (k := 0) rfl)
  have hcrash := (hleft.next (.frontCrash 0)).next (.backCrash 0)
  -- the recovery
  have hlaunch := hcrash.next (.launch
    ⟨fun k => by cases k <;> rfl, fun k => by cases k <;> rfl, fun _ _ h => by cases h⟩)
  have hwaiting := (hlaunch.next (.frontOpen (k := 1) rfl)).next (.backOpen (k := 1) rfl)
  have hreplay := hwaiting.next (.processEntry (k := 1) 5 (.inr ⟨_, rfl⟩) (by decide))
  have hposted := (hreplay.next (.replayed (k := 1) rfl rfl)).next (.backPost (k := 1) rfl)
  have hrestored := hposted.next (.frontWait (k := 1) rfl (by decide))
  exact ⟨_, hrestored, rfl, rfl, rfl, restore_waits_for_replay _ hrestored⟩

/-- A count that an earlier recovery left behind lets the front end of the next
one pass at once. -/
theorem not_restore_waits_for_replay :
    ¬ ∀ s, Reachable Initial (Step fun _ => True) s → RestoredInOrder s := by
  intro h
  have hstart : Reachable Initial (Step fun _ => True) {} := .start rfl
  -- a first run, whose first batch commits five regions
  have hfirst :=
    (((hstart.next (.launch trivial)).next (.frontOpen (k := 0) rfl)).next
      (.frontPost (k := 0) rfl)).next
    (.backOpen (k := 0) rfl)
  have hconsumer :=
    (hfirst.next (.backWait (k := 0) rfl (by decide))).next (.backUnlink (k := 0) rfl)
  have hcommit :=
    (hconsumer.next (.publish (k := 0) rfl)).next (.processEntry (k := 0) 5 (.inl rfl) (by decide))
  have hcrash := (hcommit.next (.frontCrash 0)).next (.backCrash 0)
  -- a recovery whose back end posts, and whose front end fails before it waits
  have hposted :=
    (((hcrash.next (.launch trivial)).next (.backOpen (k := 1) rfl)).next
      (.replayed (k := 1) rfl rfl)).next
    (.backPost (k := 1) rfl)
  have hleft := (hposted.next (.frontCrash 1)).next (.backCrash 1)
  -- the next recovery
  have hrestored := ((hleft.next (.launch trivial)).next (.frontOpen (k := 2) rfl)).next
    (.frontWait (k := 2) rfl (by decide))
  exact absurd (h _ hrestored 2 rfl) (by decide)

end Mangosteen.Launch
