import Mangosteen.Library.OpenAddressing
import Mangosteen.LineCollector

namespace Mangosteen.CollectorRuns

open RegisterMachine StateTransition Relation LineCollector

/-- The registers by their contents. -/
def file (dest ptr range rax value rsp counter : Word) : Reg → Word
  | .destination => dest
  | .hashSetPointer => ptr
  | .range => range
  | .rax => rax
  | .valueAtIndex => value
  | .rsp => rsp
  | .counterPointer => counter

section File

variable (d p r a v s c x : Word)

@[simp] theorem update_destination :
    Function.update (file d p r a v s c) .destination x = file x p r a v s c := by
  funext i; cases i <;> rfl

@[simp] theorem update_hashSetPointer :
    Function.update (file d p r a v s c) .hashSetPointer x = file d x r a v s c := by
  funext i; cases i <;> rfl

@[simp] theorem update_range :
    Function.update (file d p r a v s c) .range x = file d p x a v s c := by
  funext i; cases i <;> rfl

@[simp] theorem update_rax : Function.update (file d p r a v s c) .rax x = file d p r x v s c := by
  funext i; cases i <;> rfl

@[simp] theorem update_valueAtIndex :
    Function.update (file d p r a v s c) .valueAtIndex x = file d p r a x s c := by
  funext i; cases i <;> rfl

@[simp] theorem update_rsp : Function.update (file d p r a v s c) .rsp x = file d p r a v x c := by
  funext i; cases i <;> rfl

@[simp] theorem update_counterPointer :
    Function.update (file d p r a v s c) .counterPointer x = file d p r a v s x := by
  funext i; cases i <;> rfl

end File

variable {b : Build} {size : Nat} {d p r a v s c : Word} {m : Word → Word} {e : Env}

/-- A point of the code, with the registers that matter there. -/
def At (pc : Nat) (d p r a s c : Word) (m : Word → Word) (e : Env) (σ : State Reg Env) : Prop :=
  ∃ v fl, σ = ⟨pc, file d p r a v s c, fl, m, e⟩

def position : Label → Nat
  | .insertStubs => 11
  | .tryToInsertStub => 18
  | .checkIfDuplicate => 27
  | .checkNextIndex => 31
  | .processRemainingStubs => 39
  | .useOverflowBuffer => 46
  | .restoreRegisters => 49

theorem target_listing (l : Label) : target (listing b size) l = position l := by
  cases l <;> rfl

theorem eq_file (regs : Reg → Word) :
    regs = file (regs .destination) (regs .hashSetPointer) (regs .range) (regs .rax)
    (regs .valueAtIndex) (regs .rsp) (regs .counterPointer) := by
  funext i; cases i <;> rfl

section Blocks

theorem leads_free (h : m (p + a) = 0) : Leads (listing b size) (At 18 d p r a s c m e)
    (At 39 d (p + a) r a s (c + 1)
      (Function.update (Function.update m (p + a) d) s (c + 1)) e) := by
  rintro σ ⟨v, fl, rfl⟩
  have hrun : Reaches₁ (step (listing b size)) ⟨18, file d p r a v s c, fl, m, e⟩ _ :=
    .head (step_label rfl) <| .head (step_binary rfl) <| .head (step_load rfl) <|
    .head (step_cmp rfl) <|
      .head (step_pass rfl (by simp [Cond.holds, file, BinOp.eval, Operand.value, h])) <|
      .head (step_store rfl) <|
      .head (step_binary rfl) <| .head (step_store rfl) <| .single (step_jmp rfl)
  rw [target_listing] at hrun
  simp only [position, BinOp.eval, file, Operand.value, update_hashSetPointer, Function.update_self,
    BitVec.ofNat_eq_ofNat, BitVec.add_zero, update_valueAtIndex, ne_eq,
    reduceCtorEq, not_false_eq_true,
    Function.update_of_ne, imm32_one, update_counterPointer] at hrun
  exact ⟨_, ⟨_, _, rfl⟩, hrun⟩

theorem leads_duplicate (hne : m (p + a) ≠ 0) (h : m (p + a) = d) :
    Leads (listing b size) (At 18 d p r a s c m e) (At 39 d (p + a) r a s c m e) := by
  rintro σ ⟨v, fl, rfl⟩
  have hrun : Reaches₁ (step (listing b size)) ⟨18, file d p r a v s c, fl, m, e⟩ _ :=
    .head (step_label rfl) <| .head (step_binary rfl) <| .head (step_load rfl) <|
    .head (step_cmp rfl) <|
      .head (step_jump rfl (by simpa [Cond.holds, file, BinOp.eval, Operand.value] using hne)) <|
      .head (step_label rfl) <| .head (step_cmp rfl) <|
      .head (step_pass rfl (by simp [Cond.holds, file, BinOp.eval, Operand.value, h])) <|
      .single (step_jmp rfl)
  rw [target_listing] at hrun
  simp only [position, BinOp.eval, file, Operand.value, update_hashSetPointer, Function.update_self,
    BitVec.ofNat_eq_ofNat, BitVec.add_zero, update_valueAtIndex, ne_eq,
    reduceCtorEq, not_false_eq_true, Function.update_of_ne] at hrun
  exact ⟨_, ⟨_, _, rfl⟩, hrun⟩

theorem leads_next (hne : m (p + a) ≠ 0) (h : m (p + a) ≠ d) :
    Leads (listing b size) (At 18 d p r a s c m e)
    (At 18 d p r (if (a + 8).slt (imm32 b.realHashSetSize) then a + 8 else 0) s c m e) := by
  rintro σ ⟨v, fl, rfl⟩
  have hrun : Reaches₁ (step (listing b size)) ⟨18, file d p r a v s c, fl, m, e⟩ _ :=
    .head (step_label rfl) <| .head (step_binary rfl) <| .head (step_load rfl) <|
    .head (step_cmp rfl) <|
      .head (step_jump rfl (by simpa [Cond.holds, file, BinOp.eval, Operand.value] using hne)) <|
      .head (step_label rfl) <|
      .head (step_cmp rfl) <|
      .head (step_jump rfl (by simp [Cond.holds, file, BinOp.eval, Operand.value, h])) <|
      .head (step_label rfl) <| .head (step_binary rfl) <| .head (step_binary rfl) <|
      .single (step_cmp rfl)
  simp only [target_listing, position, Nat.reduceAdd, BinOp.eval, file, Operand.value,
    update_hashSetPointer,
    Function.update_self, BitVec.ofNat_eq_ofNat, BitVec.add_zero, update_valueAtIndex, ne_eq,
    reduceCtorEq,
    not_false_eq_true, Function.update_of_ne, BitVec.add_sub_cancel,
    imm32_eight, update_rax] at hrun
  by_cases hlt : (a + 8).slt (imm32 b.realHashSetSize) = true
  · have hjump : Cond.holds .l (a + 8, imm32 b.realHashSetSize) = true := hlt
    rw [if_pos hlt]
    have hrun := hrun.trans (.single (step_jump rfl hjump))
    exact ⟨_, ⟨_, _, rfl⟩, hrun⟩
  · have hpass : Cond.holds .l (a + 8, imm32 b.realHashSetSize) = false := by
      simpa [Cond.holds] using hlt
    rw [if_neg hlt]
    have hrun :=
      hrun.trans (.head (step_pass rfl hpass) <| .head (step_binary rfl) <| .head (step_mov rfl) <|
      .single (step_jmp rfl))
    simp only [Option.mem_def, target_listing, position, BinOp.eval, file,
      Operand.value, BitVec.xor_self, update_rax, imm32_zero, BitVec.ofNat_eq_ofNat] at hrun
    exact ⟨_, ⟨_, _, rfl⟩, hrun⟩

theorem leads_end (h : d.slt r = false) :
    Leads (listing b size) (At 11 d p r a s c m e) (At 50 d p r a s c m e) := by
  rintro σ ⟨v, fl, rfl⟩
  have hrun : Reaches₁ (step (listing b size)) ⟨11, file d p r a v s c, fl, m, e⟩ _ :=
    .head (step_label rfl) <| .head (step_cmp rfl) <|
      .head (step_jump rfl (by simp [Cond.holds, file, Operand.value, h])) <|
      .single (step_label rfl)
  exact ⟨_, ⟨_, _, rfl⟩, hrun⟩

theorem leads_home (h : d.slt r = true) : Leads (listing b size) (At 11 d p r a s c m e)
    (At 18 d p r ((imm32 (b.hashSetSize - 1) &&& d) * 8) s c m e) := by
  rintro σ ⟨v, fl, rfl⟩
  have hrun : Reaches₁ (step (listing b size)) ⟨11, file d p r a v s c, fl, m, e⟩ _ :=
    .head (step_label rfl) <| .head (step_cmp rfl) <|
      .head (step_pass rfl (by simp [Cond.holds, file, Operand.value, h])) <|
      .head (step_binary rfl) <|
      .head (step_mov rfl) <| .head (step_binary rfl) <| .single (step_binary rfl)
  simp only [Nat.reduceAdd, BinOp.eval, file, Operand.value, BitVec.xor_self, update_rax,
    Function.update_self,
    ne_eq, reduceCtorEq, not_false_eq_true, Function.update_of_ne, imm32_eight,
    BitVec.ofNat_eq_ofNat] at hrun
  exact ⟨_, ⟨_, _, rfl⟩, hrun⟩

theorem leads_remaining : Leads (listing b size) (At 39 d p r a s c m e)
    (At 11 (d + imm32 b.payloadSize) (p - a) r a s c m e) := by
  rintro σ ⟨v, fl, rfl⟩
  have hrun : Reaches₁ (step (listing b size)) ⟨39, file d p r a v s c, fl, m, e⟩ _ :=
    .head (step_label rfl) <| .head (step_binary rfl) <| .head (step_binary rfl) <|
    .head (step_cmp rfl) <|
      .single (step_jmp rfl)
  simp only [target_listing, position, BinOp.eval, file, Operand.value,
    update_hashSetPointer, ne_eq, reduceCtorEq,
    not_false_eq_true, Function.update_of_ne, update_destination, Function.update_self] at hrun
  exact ⟨_, ⟨_, _, rfl⟩, hrun⟩

end Blocks

/-- A build whose table has a power of two of slots and whose constants fit into
their operands. -/
structure Regular (b : Build) : Prop where
  unchecked : b.disableOverflowBuffer = false
  power : ∃ k, b.hashSetSize = 2 ^ k
  real : b.realHashSetSize = 8 * b.hashSetSize
  fits : b.realHashSetSize < 2 ^ 31
  line_fits : b.payloadSize < 2 ^ 31

/-- The fields of `per_thread_t` that the code reads. -/
def fieldOffsets (b : Build) : List Word :=
  [numberOfHashSetEntriesOffset, hashSetEntriesOffset, combinerOffset b]

/-- Where the data of a thread, its table and its counter lie, apart from each
other. -/
structure Layout (b : Build) where
  threadData : Word
  table : Word
  counter : Word
  slot_ne_counter : ∀ i < b.hashSetSize, table + BitVec.ofNat 64 (8 * i) ≠ counter
  field_ne_counter : ∀ o ∈ fieldOffsets b, threadData + o ≠ counter
  field_ne_slot : ∀ o ∈ fieldOffsets b, ∀ i < b.hashSetSize,
    threadData + o ≠ table + BitVec.ofNat 64 (8 * i)

def Layout.slot (lay : Layout b) (i : Nat) : Word := lay.table + BitVec.ofNat 64 (8 * i)

/-- The memory of a thread, with the eight bytes at its combiner flag, the
contents of its table and the value of its counter. -/
structure Holds (lay : Layout b) (gate : Word) (t : Nat → Word) (count : Word) (m : Word → Word) :
    Prop where
  counterPointer : m (lay.threadData + numberOfHashSetEntriesOffset) = lay.counter
  tablePointer : m (lay.threadData + hashSetEntriesOffset) = lay.table
  combiner : m (lay.threadData + combinerOffset b) = gate
  slots : ∀ i < b.hashSetSize, m (lay.slot i) = t i
  counter : m lay.counter = count

def home (b : Build) (line : Word) : Nat := line.toNat % b.hashSetSize

section Slots

variable {lay : Layout b} {gate : Word} {t : Nat → Word}

theorem Regular.pos (hb : Regular b) : 0 < b.hashSetSize := by
  obtain ⟨k, hk⟩ := hb.power
  rw [hk]
  exact Nat.two_pow_pos k

theorem home_lt (hb : Regular b) (line : Word) : home b line < b.hashSetSize := Nat.mod_lt _ hb.pos

theorem slot_injective (hb : Regular b) {i j : Nat} (hi : i < b.hashSetSize)
    (hj : j < b.hashSetSize) (h : lay.slot i = lay.slot j) : i = j := by
  have hreal := hb.real
  have hfits := hb.fits
  have heq : (BitVec.ofNat 64 (8 * i)).toNat = (BitVec.ofNat 64 (8 * j)).toNat :=
    congrArg BitVec.toNat (BitVec.add_right_inj _ |>.mp h)
  rw [BitVec.toNat_ofNat, BitVec.toNat_ofNat] at heq
  omega

theorem Holds.insert (hb : Regular b) (h : Holds lay gate t c m) {j : Nat} (hj : j < b.hashSetSize)
    (line count : Word) : Holds lay gate (Function.update t j line) count
      (Function.update (Function.update m (lay.slot j) line) lay.counter count) := by
  have hfield : ∀ o ∈ fieldOffsets b,
      Function.update (Function.update m (lay.slot j) line) lay.counter count (lay.threadData + o) =
      m (lay.threadData + o) := by
    intro o ho
    have hslot : lay.threadData + o ≠ lay.slot j := lay.field_ne_slot o ho j hj
    rw [Function.update_of_ne (lay.field_ne_counter o ho), Function.update_of_ne hslot]
  refine ⟨?_, ?_, ?_, fun i hi => ?_, Function.update_self _ _ _⟩
  · rw [hfield _ (by simp [fieldOffsets]), h.counterPointer]
  · rw [hfield _ (by simp [fieldOffsets]), h.tablePointer]
  · rw [hfield _ (by simp [fieldOffsets]), h.combiner]
  · have hcounter : lay.slot i ≠ lay.counter := lay.slot_ne_counter i hi
    rw [Function.update_of_ne hcounter]
    by_cases hij : i = j
    · subst hij
      rw [Function.update_self, Function.update_self]
    · rw [Function.update_of_ne fun h => hij (slot_injective hb hi hj h), Function.update_of_ne hij,
        h.slots i hi]

theorem next_index (hb : Regular b) {i : Nat} (hi : i < b.hashSetSize) :
    (if (BitVec.ofNat 64 (8 * i) + 8).slt (imm32 b.realHashSetSize) then
      BitVec.ofNat 64 (8 * i) + 8 else 0) =
      BitVec.ofNat 64 (8 * OpenAddressing.next b.hashSetSize i) := by
  have hreal := hb.real
  have hfits := hb.fits
  have hadd : BitVec.ofNat 64 (8 * i) + 8 = BitVec.ofNat 64 (8 * (i + 1)) := by
    rw [Nat.mul_succ, BitVec.ofNat_add]
    rfl
  rw [hadd, imm32_ofNat hb.fits, slt_ofNat (by omega) (by omega), OpenAddressing.next]
  by_cases h : i + 1 < b.hashSetSize
  · rw [if_pos (by simp; omega), if_pos h]
  · rw [if_neg (by simp; omega), if_neg h]
    rfl

theorem home_index (hb : Regular b) (line : Word) :
    (imm32 (b.hashSetSize - 1) &&& line) * 8 = BitVec.ofNat 64 (8 * home b line) := by
  have hpos := hb.pos
  have hreal := hb.real
  have hfits := hb.fits
  obtain ⟨k, hk⟩ := hb.power
  have himm : imm32 (b.hashSetSize - 1) = BitVec.ofNat 64 (b.hashSetSize - 1) := by
    rw [← imm32_ofNat (by omega)]
    congr 1
    omega
  apply BitVec.eq_of_toNat_eq
  have hlt := home_lt hb line
  have hand : (imm32 (b.hashSetSize - 1) &&& line).toNat = home b line := by
    rw [himm, BitVec.toNat_and, BitVec.toNat_ofNat,
      Nat.mod_eq_of_lt (show b.hashSetSize - 1 < 2 ^ 64 by omega), Nat.and_comm,
      hk, Nat.and_two_pow_sub_one_eq_mod, ← hk]
    rfl
  rw [BitVec.toNat_mul, hand, BitVec.toNat_ofNat, Nat.mul_comm]
  rfl

end Slots

/-- A point of the code, in terms of the table and of the lines counted since its
start. -/
def Point (lay : Layout b) (gate c₀ : Word) (e : Env) (pc : Nat) (d p r a : Word)
    (s : (Nat → Word) × Nat) (σ : State Reg Env) : Prop :=
  ∃ m, Holds lay gate s.1 (c₀ + BitVec.ofNat 64 s.2) m ∧
  At pc d p r a lay.counter (c₀ + BitVec.ofNat 64 s.2) m e σ

section Loops

variable {lay : Layout b} {gate c₀ line : Word} {s s' : (Nat → Word) × Nat}

theorem leads_seat (hb : Regular b) {i : Nat} (hi : i < b.hashSetSize)
    (h : s.1 i = 0 ∨ s.1 i = line) :
    Leads (listing b size) (Point lay gate c₀ e 18 line lay.table r (BitVec.ofNat 64 (8 * i)) s)
      (Point lay gate c₀ e 39 line (lay.slot i) r (BitVec.ofNat 64 (8 * i))
        (Function.update s.1 i line, if s.1 i = 0 then s.2 + 1 else s.2)) := by
  rintro σ ⟨m, hm, hσ⟩
  have hload : m (lay.table + BitVec.ofNat 64 (8 * i)) = s.1 i := hm.slots i hi
  by_cases hz : s.1 i = 0
  · have hcount : c₀ + BitVec.ofNat 64 s.2 + 1 = c₀ + BitVec.ofNat 64 (s.2 + 1) := by
      rw [BitVec.ofNat_add, BitVec.add_assoc]
      rfl
    obtain ⟨τ, hτ, hrun⟩ := leads_free (hload.trans hz) σ hσ
    rw [hcount] at hτ
    rw [if_pos hz]
    exact ⟨τ, ⟨_, hm.insert hb hi line _, hτ⟩, hrun⟩
  · have hline := h.resolve_left hz
    obtain ⟨τ, hτ, hrun⟩ := leads_duplicate (by rw [hload]; exact hz) (hload.trans hline) σ hσ
    rw [if_neg hz, show Function.update s.1 i line = s.1 by rw [← hline, Function.update_eq_self]]
    exact ⟨τ, ⟨m, hm, hτ⟩, hrun⟩

theorem leads_taken (hb : Regular b) {i : Nat} (hi : i < b.hashSetSize)
    (hz : s.1 i ≠ 0) (h : s.1 i ≠ line) :
    Leads (listing b size) (Point lay gate c₀ e 18 line lay.table r (BitVec.ofNat 64 (8 * i)) s)
      (Point lay gate c₀ e 18 line lay.table r
        (BitVec.ofNat 64 (8 * OpenAddressing.next b.hashSetSize i)) s) := by
  rintro σ ⟨m, hm, hσ⟩
  have hload : m (lay.table + BitVec.ofNat 64 (8 * i)) = s.1 i := hm.slots i hi
  obtain ⟨τ, hτ, hrun⟩ := leads_next (by rw [hload]; exact hz) (by rw [hload]; exact h) σ hσ
  rw [next_index hb hi] at hτ
  exact ⟨τ, ⟨m, hm, hτ⟩, hrun⟩

theorem next_lt (hb : Regular b) (i : Nat) :
    OpenAddressing.next b.hashSetSize i < b.hashSetSize := by
  rw [OpenAddressing.next]
  split
  · assumption
  · exact hb.pos

theorem leads_probe (hb : Regular b) {fuel i j : Nat} (hi : i < b.hashSetSize)
    (h : OpenAddressing.probe b.hashSetSize 0 s.1 line fuel i = some j) :
    Leads (listing b size) (Point lay gate c₀ e 18 line lay.table r (BitVec.ofNat 64 (8 * i)) s)
      (Point lay gate c₀ e 39 line (lay.slot j) r (BitVec.ofNat 64 (8 * j))
        (Function.update s.1 j line, if s.1 j = 0 then s.2 + 1 else s.2)) := by
  induction fuel generalizing i with
  | zero => cases h
  | succ fuel ih =>
      rw [OpenAddressing.probe] at h
      split at h
      · rename_i hseat
        obtain rfl := Option.some.inj h
        exact leads_seat hb hi hseat
      · rename_i htaken
        obtain ⟨hz, hline⟩ := not_or.mp htaken
        exact (leads_taken hb hi hz hline).trans (ih (next_lt hb i) h)

theorem leads_record (hb : Regular b) (hlt : line.slt r = true)
    (h : OpenAddressing.record b.hashSetSize 0 (home b) line s = some s') :
    Leads (listing b size) (fun σ => ∃ a, Point lay gate c₀ e 11 line lay.table r a s σ)
      (fun σ => ∃ a, Point lay gate c₀ e 11 (line + imm32 b.payloadSize) lay.table r a s' σ) := by
  obtain ⟨j, hj, rfl⟩ := Option.map_eq_some_iff.mp h
  rintro σ ⟨a, m, hm, hσ⟩
  obtain ⟨τ, hτ, hrun⟩ := leads_home hlt σ hσ
  rw [home_index hb] at hτ
  obtain ⟨υ, ⟨m', hm', hυ⟩, hrun'⟩ := leads_probe hb (home_lt hb line) hj τ ⟨m, hm, hτ⟩
  obtain ⟨ω, hω, hrun''⟩ := leads_remaining υ hυ
  rw [show lay.slot j - BitVec.ofNat 64 (8 * j) = lay.table from BitVec.add_sub_cancel _ _] at hω
  exact ⟨ω, ⟨_, m', hm', hω⟩, (TransGen.trans hrun hrun').trans hrun''⟩

theorem not_dom_probe (hb : Regular b) (hlt : line.slt r = true)
    (h : OpenAddressing.record b.hashSetSize 0 (home b) line s = none)
    {σ : State Reg Env} {a : Word}
    (hσ : Point lay gate c₀ e 11 line lay.table r a s σ) :
    ¬ (eval (step (listing b size)) σ).Dom := by
  have hfull : ∀ i, i < b.hashSetSize → s.1 i ≠ 0 ∧ s.1 i ≠ line := by
    have hnone := Option.map_eq_none_iff.mp h
    rw [← show OpenAddressing.seat b.hashSetSize (home b) line 0 = home b line from
      Nat.mod_eq_of_lt (home_lt hb line)] at hnone
    intro i hi
    obtain ⟨k, hk, rfl⟩ :
      ∃ k < b.hashSetSize, OpenAddressing.seat b.hashSetSize (home b) line k = i :=
      OpenAddressing.exists_seat line hi
    simpa using OpenAddressing.probe_eq_none hb.pos hnone k hk
  obtain ⟨m, hm, hσ⟩ := hσ
  obtain ⟨τ, hτ, hrun⟩ := leads_home hlt σ hσ
  rw [home_index hb] at hτ
  rw [reaches_eval hrun.to_reflTransGen]
  refine not_dom_eval (C := fun τ => ∃ i, i < b.hashSetSize ∧
    Point lay gate c₀ e 18 line lay.table r (BitVec.ofNat 64 (8 * i)) s τ) ?_ ⟨_,
    home_lt hb line, m, hm, hτ⟩
  rintro τ ⟨i, hi, hτ⟩
  obtain ⟨υ, hυ, hrun⟩ := leads_taken hb hi (hfull i hi).1 (hfull i hi).2 τ hτ
  exact ⟨υ, ⟨_, next_lt hb i, hυ⟩, hrun⟩

/-- The lines from one on, as the loop visits them. -/
def linesFrom (b : Build) (line : Nat) : Nat → List Nat
  | 0 => []
  | k + 1 => line :: linesFrom b (line + b.payloadSize) k

/-- What the code does to the table and to the lines counted so far. -/
def recordLines (b : Build) (lines : List Nat) (s : (Nat → Word) × Nat) :
    Option ((Nat → Word) × Nat) :=
  OpenAddressing.recordAll b.hashSetSize 0 (home b) (lines.map (BitVec.ofNat 64)) s

/-- The code has been left, with the table and the counter as given. -/
def Left (lay : Layout b) (gate c₀ : Word) (e : Env) (s : (Nat → Word) × Nat) (σ : State Reg Env) :
    Prop :=
  σ.pc = 50 ∧ σ.env = e ∧ Holds lay gate s.1 (c₀ + BitVec.ofNat 64 s.2) σ.mem

/-- The range from an aligned address to the end of a store, in lines. -/
structure Spans (b : Build) (start k finish : Nat) : Prop where
  lt : ∀ i < k, start + b.payloadSize * i < finish
  le : finish ≤ start + b.payloadSize * k
  bound : start + b.payloadSize * k < 2 ^ 63

section Lines

variable {start k finish : Nat}

theorem Spans.tail (h : Spans b start (k + 1) finish) :
    Spans b (start + b.payloadSize) k finish := by
  obtain ⟨hlt, hle, hbound⟩ := h
  rw [Nat.mul_succ] at hle hbound
  refine ⟨fun i hi => ?_, by omega, by omega⟩
  have := hlt (i + 1) (by omega)
  rw [Nat.mul_succ] at this
  omega

theorem Spans.slt (h : Spans b start (k + 1) finish) :
    (BitVec.ofNat 64 start).slt (BitVec.ofNat 64 finish) = true := by
  have hfirst := h.lt 0 (Nat.succ_pos k)
  have hle := h.le
  have hbound := h.bound
  rw [slt_ofNat (by omega) (by omega), decide_eq_true_eq]
  omega

theorem Spans.not_slt (h : Spans b start 0 finish) :
    (BitVec.ofNat 64 start).slt (BitVec.ofNat 64 finish) = false := by
  have hle := h.le
  have hbound := h.bound
  rw [slt_ofNat (by omega) (by omega), decide_eq_false_iff_not]
  omega

variable (hb : Regular b)
include hb

theorem payloadSize_next (line : Nat) :
    BitVec.ofNat 64 line + imm32 b.payloadSize = BitVec.ofNat 64 (line + b.payloadSize) := by
  rw [imm32_ofNat hb.line_fits, BitVec.ofNat_add]

theorem leads_recordLines (hs : Spans b start k finish)
    (h : recordLines b (linesFrom b start k) s = some s') : Leads (listing b size)
      (fun σ => ∃ a, Point lay gate c₀ e 11 (BitVec.ofNat 64 start) lay.table
        (BitVec.ofNat 64 finish) a s σ)
      (Left lay gate c₀ e s') := by
  induction k generalizing start s with
  | zero =>
      obtain rfl := Option.some.inj h
      rintro σ ⟨a, m, hm, hσ⟩
      obtain ⟨τ, ⟨v, fl, rfl⟩, hrun⟩ := leads_end hs.not_slt σ hσ
      exact ⟨_, ⟨rfl, rfl, hm⟩, hrun⟩
  | succ k ih =>
      obtain ⟨s₁, h₁, hrest⟩ := Option.bind_eq_some_iff.mp h
      rintro σ hσ
      obtain ⟨τ, hτ, hrun⟩ := leads_record hb hs.slt h₁ σ hσ
      rw [payloadSize_next hb] at hτ
      obtain ⟨υ, hυ, hrun'⟩ := ih hs.tail hrest τ hτ
      exact ⟨υ, hυ, TransGen.trans hrun hrun'⟩

theorem not_dom_recordLines (hs : Spans b start k finish)
    (h : recordLines b (linesFrom b start k) s = none) {σ : State Reg Env} {a : Word}
    (hσ : Point lay gate c₀ e 11 (BitVec.ofNat 64 start) lay.table (BitVec.ofNat 64 finish) a s σ) :
    ¬ (eval (step (listing b size)) σ).Dom := by
  induction k generalizing start s σ a with
  | zero => cases h
  | succ k ih =>
      cases h₁ : OpenAddressing.record b.hashSetSize 0 (home b) (BitVec.ofNat 64 start) s with
      | none => exact not_dom_probe hb hs.slt h₁ hσ
      | some s₁ =>
          rw [linesFrom, recordLines, List.map_cons, OpenAddressing.recordAll, h₁,
            Option.bind_some] at h
          obtain ⟨τ, ⟨a', hτ⟩, hrun⟩ := leads_record hb hs.slt h₁ σ ⟨a, hσ⟩
          rw [payloadSize_next hb] at hτ
          rw [reaches_eval hrun.to_reflTransGen]
          exact ih hs.tail h hτ

end Lines

end Loops

section Gate

variable {lay : Layout b} {gate c₀ : Word} {s : (Nat → Word) × Nat} {regs : Reg → Word}
  {fl : Option (Word × Word)}

theorem leads_closed (h : m (regs .hashSetPointer + combinerOffset b) = 0) :
    ∃ τ, (τ.pc = 50 ∧ τ.env = e ∧ τ.mem = m) ∧
    Reaches₁ (step (listing b size)) ⟨0, regs, fl, m, e⟩ τ := by
  have hrun : Reaches₁ (step (listing b size)) ⟨0, regs, fl, m, e⟩ _ :=
    .head (step_binary rfl) <| .head (step_load rfl) <| .head (step_cmp rfl) <|
      .head (step_jump rfl (by simp [Cond.holds, Operand.value, h])) <| .single (step_label rfl)
  exact ⟨_, ⟨rfl, rfl, rfl⟩, hrun⟩

theorem leads_open_at (hm : Holds lay gate s.1 (c₀ + BitVec.ofNat 64 s.2) m) (hgate : gate ≠ 0)
    (hregs : regs .hashSetPointer = lay.threadData) :
    ∃ τ, (∃ a, At 11 (e.address &&& imm8 (alignmentValue b.payloadSize)) lay.table
      (e.address + imm32 size) a lay.counter
      (c₀ + BitVec.ofNat 64 s.2) m e τ) ∧ Reaches₁ (step (listing b size)) ⟨0,
      regs, fl, m, e⟩ τ := by
  rw [eq_file regs]
  have hrun : Reaches₁ (step (listing b size))
      ⟨0, file (regs .destination) (regs .hashSetPointer) (regs .range)
      (regs .rax) (regs .valueAtIndex) (regs .rsp) (regs .counterPointer), fl, m, e⟩ _ :=
    .head (step_binary rfl) <| .head (step_load rfl) <| .head (step_cmp rfl) <|
      .head (step_pass rfl
        (by simpa [Cond.holds, Operand.value, file, hregs, hm.combiner] using hgate)) <|
      .head (step_load rfl) <| .head (step_load rfl) <| .head (step_load rfl) <|
      .head (step_call rfl) <|
      .head (step_mov rfl) <| .head (step_binary rfl) <| .single (step_binary rfl)
  simp only [hregs, zero_add, Nat.reduceAdd, BinOp.eval, file, Operand.value,
    BitVec.xor_self, update_valueAtIndex,
    ne_eq, reduceCtorEq, not_false_eq_true, Function.update_of_ne, update_rsp, Function.update_self,
    BitVec.ofNat_eq_ofNat, BitVec.add_zero, update_counterPointer,
    update_hashSetPointer, update_range, update_destination] at hrun
  rw [hm.tablePointer, hm.counterPointer, hm.counter] at hrun
  rw [hregs]
  exact ⟨_, ⟨_, _, _, rfl⟩, hrun⟩

theorem leads_open (hm : Holds lay gate s.1 (c₀ + BitVec.ofNat 64 s.2) m) (hgate : gate ≠ 0)
    (hregs : regs .hashSetPointer = lay.threadData) :
    ∃ τ, (∃ a, Point lay gate c₀ e 11 (e.address &&& imm8 (alignmentValue b.payloadSize)) lay.table
      (e.address + imm32 size) a s τ) ∧ Reaches₁ (step (listing b size)) ⟨0, regs, fl, m, e⟩ τ := by
  obtain ⟨τ, ⟨a, hτ⟩, hrun⟩ := leads_open_at hm hgate hregs
  exact ⟨τ, ⟨a, m, hm, hτ⟩, hrun⟩

end Gate

end Mangosteen.CollectorRuns
