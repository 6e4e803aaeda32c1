import Mangosteen.Library.ByteMemory
import Mangosteen.ServiceHistory

namespace Mangosteen.TextCopy

open AtomicObject ByteMemory Instrumentation Service Simulation Transition

/-- `op_type` of the example with several threads. -/
inductive Command
  | copyCharacter
  | printStats

/-- Where the linker and `mmap` have put the variables of the example, and the
text. The byte behind the text is the terminator. -/
structure Program where
  arr : Nat
  currentCharacterIndex : Nat
  testString : List UInt8

def memoryBlockSize : Nat := 4096

/-- The index and the block lie apart in mapped memory, and the text with its
terminator fits into the block. -/
structure Program.Placed (p : Program) : Prop where
  block : 4096 ≤ p.arr
  index : 4096 ≤ p.currentCharacterIndex
  apart : p.currentCharacterIndex + 8 ≤ p.arr ∨ p.arr + memoryBlockSize ≤ p.currentCharacterIndex
  fits : p.testString.length < memoryBlockSize

/-- `processCommand` between two accesses: with some bytes of the index loaded,
before each of the two stores, or at its end. -/
inductive Place
  | loadIndex (command : Command) (k value : Nat)
  | storeCharacter (index : Nat)
  | storeIndex (index : Nat)
  | returned

variable (p : Program)

def Program.character (i : Nat) : UInt8 := p.testString.getD i 0

/-- The index as `copyTextBlock` and `printProgress` use it. -/
def Program.withIndex (value : Nat) : Command → Place
  | .copyCharacter => if value ≤ p.testString.length then .storeCharacter value else .returned
  | .printStats => .returned

def Program.callbacks : Callbacks Command Unit Place where
  isReadOnly
    | .copyCharacter => false
    | .printStats => true
  start command := .loadIndex command 0 0
  result
    | .returned => some ()
    | _ => none
  action
    | .loadIndex command k value => .load (p.currentCharacterIndex + k) fun b =>
        if k = 7 then p.withIndex (value + 256 ^ k * b.toNat) command
        else .loadIndex command (k + 1) (value + 256 ^ k * b.toNat)
    | .storeCharacter i => .write (.store (p.arr + i) [p.character i]) (.storeIndex i)
    | .storeIndex i =>
        .write (.store p.currentCharacterIndex
          ((List.range 8).map fun k => UInt8.ofNat ((i + 1) / 256 ^ k))) .returned
    | .returned => .load 0 fun _ => .returned

@[irreducible] def Program.index (m : Nat → UInt8) : Nat := valueAt m p.currentCharacterIndex 8

/-- So many characters of the text are in the block, and nothing behind them. -/
structure Copied (m : Nat → UInt8) (count : Nat) : Prop where
  index : p.index m = count
  bound : count ≤ p.testString.length + 1
  copied : ∀ i < count, m (p.arr + i) = p.character i
  rest : ∀ i, count ≤ i → i < memoryBlockSize → m (p.arr + i) = 0

variable {p}

theorem valueAt_succ (m : Nat → UInt8) (a k : Nat) :
    valueAt m a (k + 1) = valueAt m a k + 256 ^ k * (m (a + k)).toNat := by
  induction k generalizing a with
  | zero => simp [valueAt]
  | succ k ih =>
      rw [valueAt, ih (a + 1), valueAt, Nat.pow_succ, Nat.add_assoc a 1 k,
        Nat.add_comm 1 k, Nat.mul_add,
        ← Nat.mul_assoc, Nat.mul_comm 256, Nat.mul_comm 256, Nat.add_assoc]

theorem valueAt_eq_load (m : Nat → UInt8) (a w : Nat) : valueAt m a w = Memory.load ⟨m, []⟩ a w :=
  rfl

theorem write_of_not_mem {m : Nat → UInt8} {addr a : Nat} {bytes : List UInt8}
    (h : a < addr ∨ addr + bytes.length ≤ a) : write m addr bytes a = m a := by
  rw [write]
  split
  · rw [List.getD_eq_getElem?_getD, List.getElem?_eq_none (by omega), Option.getD_none]
  · rfl

theorem write_of_lt {m : Nat → UInt8} {addr i : Nat} {bytes : List UInt8} (h : i < bytes.length) :
    write m addr bytes (addr + i) = bytes[i] := by
  simp [write, h]

/-- The memory that `copyTextBlock` leaves when it copies character `i`. -/
def Program.copied (p : Program) (m : Nat → UInt8) (i : Nat) : Nat → UInt8 :=
  write (write m (p.arr + i) [p.character i]) p.currentCharacterIndex
    ((List.range 8).map fun k => UInt8.ofNat ((i + 1) / 256 ^ k))

/-- What the callback has done when it comes to a place. -/
def Ran (p : Program) (command : Command) (m : Nat → UInt8) : Place → (Nat → UInt8) → Prop
  | .loadIndex c k value, m' =>
    c = command ∧ m' = m ∧ k < 8 ∧ value = valueAt m p.currentCharacterIndex k
  | .storeCharacter i, m' =>
    command = .copyCharacter ∧ m' = m ∧ i = p.index m ∧ i ≤ p.testString.length
  | .storeIndex i, m' =>
    command = .copyCharacter ∧ m' = write m (p.arr + i) [p.character i] ∧ i = p.index m ∧
      i ≤ p.testString.length
  | .returned, m' => m' = m ∨ p.index m ≤ p.testString.length ∧ m' = p.copied m (p.index m)

theorem step_loadIndex (command : Command) (k value : Nat) (m : Nat → UInt8) :
    p.callbacks.machine.step (.loadIndex command k value) m =
      (if k = 7 then p.withIndex (value + 256 ^ k * (m (p.currentCharacterIndex + k)).toNat) command
        else .loadIndex command (k + 1) (value + 256 ^ k * (m (p.currentCharacterIndex + k)).toNat),
        m) := rfl

theorem step_storeIndex (i : Nat) (m : Nat → UInt8) :
    p.callbacks.machine.step (.storeIndex i) m = (.returned, write m p.currentCharacterIndex
      ((List.range 8).map fun k => UInt8.ofNat ((i + 1) / 256 ^ k))) := rfl

theorem ran_withIndex (command : Command) {m : Nat → UInt8} :
    Ran p command m (p.withIndex (p.index m) command) m := by
  cases command with
  | printStats => exact .inl rfl
  | copyCharacter =>
      rw [Program.withIndex]
      rcases Nat.lt_or_ge p.testString.length (p.index m) with hlt | hle
      · rw [if_neg (Nat.not_le_of_lt hlt)]
        exact .inl rfl
      · rw [if_pos hle]
        exact ⟨rfl, rfl, rfl, hle⟩

theorem ran_of_steps {command : Command} {m m' : Nat → UInt8} {l : Place}
    (h : p.callbacks.machine.Steps (p.callbacks.start command) m l m') : Ran p command m l m' := by
  induction h with
  | refl => exact ⟨rfl, rfl, by decide, rfl⟩
  | @tail l m' _ hr ih =>
      cases l with
      | loadIndex c k value =>
          obtain ⟨rfl, rfl, hk, hv⟩ := ih
          rw [step_loadIndex, hv, ← valueAt_succ]
          by_cases hlast : k = 7
          · have hindex : valueAt m' p.currentCharacterIndex (7 + 1) = p.index m' := by
              rw [Program.index]
            rw [if_pos hlast, hlast, hindex]
            exact ran_withIndex c
          · rw [if_neg hlast]
            exact ⟨rfl, rfl, by omega, rfl⟩
      | storeCharacter i =>
          obtain ⟨hc, rfl, hi, hle⟩ := ih
          exact ⟨hc, rfl, hi, hle⟩
      | storeIndex i =>
          obtain ⟨-, hm, hi, hle⟩ := ih
          rw [step_storeIndex, hm]
          rw [hi] at hle ⊢
          exact Or.inr ⟨hle, rfl⟩
      | returned => cases hr

theorem proper (hp : p.Placed) : p.callbacks.Proper where
  reads req l hro hv hr := by
    obtain ⟨m, m', h⟩ := hv
    have hran := ran_of_steps h
    cases l with
    | loadIndex c k value => exact ⟨_, _, rfl⟩
    | storeCharacter i | storeIndex i =>
        obtain ⟨rfl, -⟩ := hran
        cases hro
    | returned => exact ⟨_, _, rfl⟩
  stores req l access next _ _ _ ha := by
    cases l with
    | loadIndex | returned => cases ha
    | storeCharacter i =>
        cases ha
        exact ⟨_, _, rfl, hp.block.trans (Nat.le_add_right _ _)⟩
    | storeIndex i =>
        cases ha
        exact ⟨_, _, rfl, hp.index⟩

theorem Copied.next (hp : p.Placed) {m : Nat → UInt8} {count : Nat} (h : Copied p m count)
    (hle : count ≤ p.testString.length) : Copied p (p.copied m count) (count + 1) := by
  have hfits := hp.fits
  have hapart := hp.apart
  simp only [memoryBlockSize] at hfits hapart
  have hblock : ∀ i, i < memoryBlockSize → p.copied m count (p.arr + i) =
      write m (p.arr + count) [p.character count] (p.arr + i) := by
    intro i hi
    simp only [memoryBlockSize] at hi
    apply write_of_not_mem
    simp only [List.length_map, List.length_range]
    omega
  refine ⟨?_, by omega, fun i hi => ?_, fun i hi hlt => ?_⟩
  · rw [Program.index, valueAt_eq_load]
    apply Memory.load_of_bytes
    · intro i hi
      simp only [Program.copied]
      rw [write_of_lt (by simpa using hi)]
      simp
    · have : p.testString.length < 4096 := hfits
      omega
  · rw [hblock i (by simp only [memoryBlockSize]; omega)]
    rcases Nat.lt_or_eq_of_le (Nat.lt_succ_iff.mp hi) with hlt | rfl
    · rw [write_of_not_mem (by simp; omega)]
      exact h.copied i hlt
    · rw [write, if_pos (Nat.le_refl _)]
      simp
  · rw [hblock i hlt, write_of_not_mem (by simp; omega)]
    exact h.rest i (by omega) hlt

theorem copied_of_yields (hp : p.Placed) {command : Command} {m m' : Nat → UInt8} {res : Unit}
    (h : p.callbacks.machine.Yields command m res m') (hm : ∃ count, Copied p m count) :
    ∃ count, Copied p m' count := by
  obtain ⟨l, hsteps, hres⟩ := h
  obtain ⟨count, hm⟩ := hm
  have hran := ran_of_steps hsteps
  cases l with
  | loadIndex | storeCharacter | storeIndex => cases hres
  | returned =>
      rcases hran with rfl | ⟨hle, rfl⟩
      · exact ⟨count, hm⟩
      · rw [hm.index] at hle ⊢
        exact ⟨count + 1, hm.next hp hle⟩

/-- `executeTextCopy` sets the index to 0 before it starts the threads, so a run is
one of a single process. In every run the replay of every prefix of the log leaves
a prefix of the text with its index, and the assertion at the end of
`executeTextCopy` holds: once no thread is in a call and the index has come to the
end, the block holds the whole text. -/
theorem text_copied (n : Nat) (p : Program) (hp : p.Placed) (m₀ : Nat → UInt8) (h₀ : Copied p m₀ 0)
    (s : Service.State n Command Unit Place)
    (h : Reachable (service n p.callbacks m₀).initial (service n p.callbacks m₀).Next s) :
    (∀ bs, bs <+: s.published → ∃ count, Copied p (replayed m₀ bs) count) ∧
      ((∀ t, (s.pcs t).role = .outside) → p.testString.length ≤ p.index s.memory →
        ∀ i ≤ p.testString.length, s.memory (p.arr + i) = p.character i) := by
  have hrec : ∀ {s}, Reachable (service n p.callbacks m₀).initial
      (service n p.callbacks m₀).Next s →
      ∃ count, Copied p (replayed m₀ s.published) count := fun h =>
    invariant_replayed (I := fun m => ∃ count, Copied p m count) (proper hp) ⟨0, h₀⟩
      (fun _ _ _ _ _ hy hm => copied_of_yields hp hy hm) h
  refine ⟨fun bs hbs => ?_, fun hidle hend i hi => ?_⟩
  · obtain ⟨s', hs', rfl⟩ := exists_published h hbs
    exact hrec hs'
  rw [(inv_of_reachable (proper hp) h).memory_idle hidle] at hend ⊢
  obtain ⟨count, hc⟩ := hrec h
  rw [hc.index] at hend
  rcases Nat.lt_or_ge i count with hlt | hge
  · exact hc.copied i hlt
  · -- the terminator need not have been copied: the block was cleared before
    have hfits := hp.fits
    rw [hc.rest i hge (by omega), Program.character, List.getD_eq_getElem?_getD,
      List.getElem?_eq_none (by omega)]
    rfl

def hello : Program := ⟨8192, 4096, [104, 101, 108, 108, 111]⟩

theorem copied_hello : Copied hello (fun _ => 0) 0 :=
  ⟨by rw [Program.index]; rfl, Nat.zero_le _, fun _ h => absurd h (Nat.not_lt_zero _),
    fun _ _ _ => rfl⟩

def fresh : Service.State 2 Command Unit Place :=
  ⟨⟨fun _ => 0, fun _ => {}, fun _ => none, fun _ => none, [], []⟩, SpinLock.start 2 .copyCharacter⟩

theorem exists_copied : ∃ s, Reachable (service 2 hello.callbacks fun _ => 0).initial
    (service 2 hello.callbacks fun _ => 0).Next s ∧ s.memory 8192 = 104 ∧
    s.published.length = 1 := by
  have h : (service 2 hello.callbacks fun _ => 0).Run fresh [] fresh := .refl
  have h := h.tail _ (Step.move (t := 0) rfl (.callUpdate .copyCharacter) rfl)
  have h := h.silent (Step.move (t := 0) rfl .post rfl)
  have h := h.silent (Step.move (t := 0) rfl (.notStarted (by decide)) rfl)
  have h := h.silent (Step.move (t := 0) rfl (.notDone (by decide)) rfl)
  have h := h.silent (Step.move (t := 0) rfl (.lockIsFree rfl) rfl)
  have h := h.silent (Step.move (t := 0) rfl (.lockWriter rfl) rfl)
  have h := h.silent (Step.move (t := 0) rfl (.collectReady 0 rfl) rfl)
  have h := h.silent (Step.move (t := 0) rfl (.take 0) rfl)
  have h := h.silent (Step.move (t := 0) rfl (.collectNext 1 (by decide)) rfl)
  have h := h.silent (Step.move (t := 0) rfl .collected rfl)
  have h := h.silent (Step.move (t := 0) rfl (.scanNext 0 rfl) rfl)
  have h := h.silent (Step.move (t := 0) rfl (.scanNext 1 rfl) rfl)
  have h := h.silent (Step.move (t := 0) rfl .scanned rfl)
  have h := h.silent (Step.move (t := 0) rfl .instrumentStart rfl)
  have h := h.silent (Step.move (t := 0) rfl .enableCombiner rfl)
  have h := h.silent (Step.move (t := 0) rfl (.process (i := 0) rfl) rfl)
  have h := h.silent (Step.load (t := 0) rfl rfl rfl rfl rfl)
  have h := h.silent (Step.load (t := 0) rfl rfl rfl rfl rfl)
  have h := h.silent (Step.load (t := 0) rfl rfl rfl rfl rfl)
  have h := h.silent (Step.load (t := 0) rfl rfl rfl rfl rfl)
  have h := h.silent (Step.load (t := 0) rfl rfl rfl rfl rfl)
  have h := h.silent (Step.load (t := 0) rfl rfl rfl rfl rfl)
  have h := h.silent (Step.load (t := 0) rfl rfl rfl rfl rfl)
  have h := h.silent (Step.load (t := 0) rfl rfl rfl rfl rfl)
  have h := h.silent (Step.write (t := 0) rfl rfl rfl rfl rfl rfl)
  have h := h.silent (Step.write (t := 0) rfl rfl rfl rfl rfl rfl)
  have h := h.silent (Step.move (t := 0) rfl .processed rfl)
  have h := h.silent (Step.move (t := 0) rfl (.allProcessed (Nat.le_refl 1)) rfl)
  have h := h.silent (Step.move (t := 0) rfl .instrumentStop rfl)
  have h := h.silent (Step.publish (t := 0) rfl rfl)
  exact ⟨_, h.reachable ⟨SpinLock.initial_start 2 Command.copyCharacter _, rfl⟩, rfl, rfl⟩

theorem text_copied_hello :
    ∃ s : Service.State 2 Command Unit Place, s.memory 8192 = 104 ∧ s.published.length = 1 ∧
    ∀ bs, bs <+: s.published → ∃ count, Copied hello (replayed (fun _ => 0) bs) count := by
  obtain ⟨s, hs, hmem, hlen⟩ := exists_copied
  exact ⟨s, hmem, hlen,
    (text_copied 2 hello ⟨by decide, by decide, by decide, by decide⟩ _ copied_hello s hs).1⟩

end Mangosteen.TextCopy
