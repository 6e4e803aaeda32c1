import Mathlib.Computability.StateTransition
import Mathlib.Logic.Function.Basic

namespace Mangosteen.RegisterMachine

open StateTransition

abbrev Word := BitVec 64

/-- Immediate operands of eight and of 32 bits are extended by their sign. -/
def imm8 (n : Int) : Word := (BitVec.ofInt 8 n).signExtend 64

def imm32 (n : Int) : Word := (BitVec.ofInt 32 n).signExtend 64

variable {Reg Label Env : Type}

inductive Operand (Reg : Type)
  | reg (r : Reg)
  | imm (v : Word)

inductive BinOp
  | add
  | sub
  | and
  | xor
  | imul

inductive Cond
  | e
  | ne
  | l
  | ge

/-- Instructions of a machine with words of 64 bits. A label is an instruction
without effect; a `call` stands for code of another component, given by what it
does to the registers and to the memory that only it uses. -/
inductive Instr (Reg Label Env : Type)
  | mov (dst : Reg) (src : Operand Reg)
  | load (dst base : Reg) (disp : Word)
  | store (base : Reg) (disp : Word) (src : Reg)
  | binary (op : BinOp) (dst : Reg) (src : Operand Reg)
  | cmp (lhs : Reg) (rhs : Operand Reg)
  | jmp (target : Label)
  | jcc (cond : Cond) (target : Label)
  | label (name : Label)
  | call (f : (Reg → Word) → Env → (Reg → Word) × Env)

/-- The flags are those of the comparison of two words, or not known. -/
structure State (Reg Env : Type) where
  pc : Nat
  regs : Reg → Word
  flags : Option (Word × Word)
  mem : Word → Word
  env : Env

def Operand.value (regs : Reg → Word) : Operand Reg → Word
  | .reg r => regs r
  | .imm v => v

def BinOp.eval : BinOp → Word → Word → Word
  | .add, x, y => x + y
  | .sub, x, y => x - y
  | .and, x, y => x &&& y
  | .xor, x, y => x ^^^ y
  | .imul, x, y => x * y

/-- The jumps `jl` and `jge` compare as signed numbers. -/
def Cond.holds : Cond → Word × Word → Bool
  | .e, c => c.1 == c.2
  | .ne, c => c.1 != c.2
  | .l, c => c.1.slt c.2
  | .ge, c => !c.1.slt c.2

variable [DecidableEq Reg] [DecidableEq Label]

def Instr.isLabel (l : Label) : Instr Reg Label Env → Bool
  | .label m => l = m
  | _ => false

def target (prog : List (Instr Reg Label Env)) (l : Label) : Nat := prog.findIdx (Instr.isLabel l)

def exec (prog : List (Instr Reg Label Env)) (σ : State Reg Env) :
    Instr Reg Label Env → Option (State Reg Env)
  | .mov dst src =>
    some { σ with pc := σ.pc + 1, regs := Function.update σ.regs dst (src.value σ.regs) }
  | .load dst base disp =>
      some { σ with
        pc := σ.pc + 1, regs := Function.update σ.regs dst (σ.mem (σ.regs base + disp)) }
  | .store base disp src =>
      some { σ with pc := σ.pc + 1, mem := Function.update σ.mem (σ.regs base + disp) (σ.regs src) }
  | .binary op dst src => some { σ with
      pc := σ.pc + 1, flags := none,
      regs := Function.update σ.regs dst (op.eval (σ.regs dst) (src.value σ.regs)) }
  | .cmp lhs rhs => some { σ with pc := σ.pc + 1, flags := some (σ.regs lhs, rhs.value σ.regs) }
  | .jmp l => some { σ with pc := target prog l }
  | .jcc cond l =>
    σ.flags.map fun c => { σ with pc := if cond.holds c then target prog l else σ.pc + 1 }
  | .label _ => some { σ with pc := σ.pc + 1 }
  | .call f =>
    some { σ with
      pc := σ.pc + 1, regs := (f σ.regs σ.env).1, env := (f σ.regs σ.env).2, flags := none }

def step (prog : List (Instr Reg Label Env)) (σ : State Reg Env) : Option (State Reg Env) :=
  prog[σ.pc]?.bind (exec prog σ)

section Steps

variable {prog : List (Instr Reg Label Env)} {σ τ : State Reg Env}
variable {pc : Nat} {regs : Reg → Word} {fl : Option (Word × Word)} {m : Word → Word} {e : Env}

theorem step_of_fetch {i : Instr Reg Label Env} (h : prog[pc]? = some i) :
    step prog ⟨pc, regs, fl, m, e⟩ = exec prog ⟨pc, regs, fl, m, e⟩ i := by
  rw [step, h, Option.bind_some]

theorem step_mov {dst : Reg} {src : Operand Reg} (h : prog[pc]? = some (.mov dst src)) :
    step prog ⟨pc, regs, fl, m, e⟩ =
    some ⟨pc + 1, Function.update regs dst (src.value regs), fl, m, e⟩ := by
  rw [step_of_fetch h, exec]

theorem step_load {dst base : Reg} {disp : Word} (h : prog[pc]? = some (.load dst base disp)) :
    step prog ⟨pc, regs, fl, m, e⟩ = some ⟨pc + 1, Function.update regs dst (m (regs base + disp)),
      fl, m, e⟩ := by
  rw [step_of_fetch h, exec]

theorem step_store {base src : Reg} {disp : Word} (h : prog[pc]? = some (.store base disp src)) :
    step prog ⟨pc, regs, fl, m, e⟩ =
    some ⟨pc + 1, regs, fl, Function.update m (regs base + disp) (regs src), e⟩ := by
  rw [step_of_fetch h, exec]

theorem step_binary {op : BinOp} {dst : Reg} {src : Operand Reg}
    (h : prog[pc]? = some (.binary op dst src)) : step prog ⟨pc, regs, fl, m, e⟩ =
      some ⟨pc + 1, Function.update regs dst (op.eval (regs dst) (src.value regs)),
        none, m, e⟩ := by
  rw [step_of_fetch h, exec]

theorem step_cmp {lhs : Reg} {rhs : Operand Reg} (h : prog[pc]? = some (.cmp lhs rhs)) :
    step prog ⟨pc, regs, fl, m, e⟩ =
    some ⟨pc + 1, regs, some (regs lhs, rhs.value regs), m, e⟩ := by
  rw [step_of_fetch h, exec]

theorem step_jmp {l : Label} (h : prog[pc]? = some (.jmp l)) :
    step prog ⟨pc, regs, fl, m, e⟩ = some ⟨target prog l, regs, fl, m, e⟩ := by
  rw [step_of_fetch h, exec]

theorem step_label {l : Label} (h : prog[pc]? = some (.label l)) :
    step prog ⟨pc, regs, fl, m, e⟩ = some ⟨pc + 1, regs, fl, m, e⟩ := by
  rw [step_of_fetch h, exec]

theorem step_call {f : (Reg → Word) → Env → (Reg → Word) × Env} (h : prog[pc]? = some (.call f)) :
    step prog ⟨pc, regs, fl, m, e⟩ = some ⟨pc + 1, (f regs e).1, none, m, (f regs e).2⟩ := by
  rw [step_of_fetch h, exec]

theorem step_jump {cond : Cond} {l : Label} {c : Word × Word} (h : prog[pc]? = some (.jcc cond l))
    (hc : cond.holds c = true) :
    step prog ⟨pc, regs, some c, m, e⟩ = some ⟨target prog l, regs, some c, m, e⟩ := by
  rw [step_of_fetch h, exec, Option.map_some, if_pos hc]

theorem step_pass {cond : Cond} {l : Label} {c : Word × Word} (h : prog[pc]? = some (.jcc cond l))
    (hc : cond.holds c = false) :
    step prog ⟨pc, regs, some c, m, e⟩ = some ⟨pc + 1, regs, some c, m, e⟩ := by
  rw [step_of_fetch h, exec, Option.map_some, if_neg (by rw [hc]; decide)]

theorem mem_eval_of_reaches (h : Reaches (step prog) σ τ) (hend : prog[τ.pc]? = none) :
    τ ∈ eval (step prog) σ :=
  mem_eval.mpr ⟨h, by rw [step, hend, Option.bind_none]⟩

end Steps

/-- States from which a run always comes to another one of them are never left. -/
theorem not_dom_eval {σ : Type} {f : σ → Option σ} {C : σ → Prop}
    (hC : ∀ x, C x → ∃ y, C y ∧ Reaches₁ f x y) {x : σ} (hx : C x) : ¬ (eval f x).Dom := by
  intro hd
  obtain ⟨b, hb⟩ := Part.dom_iff_mem.mp hd
  -- by induction on the run, every state of it that is in `C` has a successor
  refine evalInduction (C := fun a => (∃ y, Reaches f a y ∧ C y) → False) hb
    (fun a ha ih => ?_) ⟨x, .refl, hx⟩
  rintro ⟨y, hay, hy⟩
  obtain ⟨z, hz, hyz⟩ := hC y hy
  have haz : Reaches₁ f a z := Relation.TransGen.trans_right hay hyz
  obtain ⟨a', ha', hrest⟩ := Relation.TransGen.head'_iff.mp haz
  exact ih a' ha' ⟨z, hrest, hz⟩

/-- A run from any state of the one kind comes, after at least one step, to one of
the other. -/
def Leads (prog : List (Instr Reg Label Env)) (P Q : State Reg Env → Prop) : Prop :=
  ∀ σ, P σ → ∃ τ, Q τ ∧ Reaches₁ (step prog) σ τ

theorem Leads.trans {prog : List (Instr Reg Label Env)} {P Q R : State Reg Env → Prop}
    (h : Leads prog P Q) (h' : Leads prog Q R) : Leads prog P R := by
  intro σ hσ
  obtain ⟨τ, hτ, hs⟩ := h σ hσ
  obtain ⟨υ, hυ, hs'⟩ := h' τ hτ
  exact ⟨υ, hυ, Relation.TransGen.trans hs hs'⟩

section Words

@[simp] theorem imm32_zero : imm32 0 = 0 := rfl

@[simp] theorem imm32_one : imm32 1 = 1 := rfl

@[simp] theorem imm32_eight : imm32 8 = 8 := rfl

theorem imm32_ofNat {n : Nat} (h : n < 2 ^ 31) : imm32 n = BitVec.ofNat 64 n := by
  have hmsb : (BitVec.ofNat 32 n).msb = false := by
    rw [BitVec.msb_eq_false_iff_two_mul_lt, BitVec.toNat_ofNat]
    omega
  rw [imm32, BitVec.ofInt_natCast, BitVec.signExtend_eq_setWidth_of_msb_false hmsb]
  apply BitVec.eq_of_toNat_eq
  simp only [BitVec.toNat_setWidth, BitVec.toNat_ofNat]
  omega

theorem slt_ofNat {x y : Nat} (hx : x < 2 ^ 63) (hy : y < 2 ^ 63) :
    (BitVec.ofNat 64 x).slt (BitVec.ofNat 64 y) = decide (x < y) := by
  have hint : ∀ {z : Nat}, z < 2 ^ 63 → (BitVec.ofNat 64 z).toInt = z := by
    intro z hz
    rw [BitVec.toInt_eq_toNat_of_lt, BitVec.toNat_ofNat]
    · omega
    · rw [BitVec.toNat_ofNat]
      omega
  rw [BitVec.slt_eq_decide, hint hx, hint hy]
  exact decide_eq_decide.mpr Int.ofNat_lt

theorem and_high_bits {j a : Nat} (hj : j ≤ 64) (ha : a < 2 ^ 64) :
    a &&& (2 ^ 64 - 2 ^ j) = a - a % 2 ^ j := by
  have hmask : 2 ^ 64 - 2 ^ j = (2 ^ (64 - j) - 1) <<< j := by
    rw [Nat.shiftLeft_eq, Nat.sub_mul, ← Nat.pow_add, Nat.sub_add_cancel hj, Nat.one_mul]
  have hround : a - a % 2 ^ j = (a >>> j) <<< j := by
    rw [Nat.shiftLeft_eq, Nat.shiftRight_eq_div_pow]
    have := Nat.div_add_mod a (2 ^ j)
    rw [Nat.mul_comm] at this
    omega
  rw [hmask, hround]
  apply Nat.eq_of_testBit_eq
  intro i
  rw [Nat.testBit_and, Nat.testBit_shiftLeft, Nat.testBit_shiftLeft, Nat.testBit_two_pow_sub_one,
    Nat.testBit_shiftRight]
  by_cases hi : j ≤ i
  · rw [Nat.add_sub_cancel' hi]
    by_cases hi' : i < 64
    · simp [hi, show i - j < 64 - j by omega]
    · have hbit : a.testBit i = false :=
        Nat.testBit_lt_two_pow (ha.trans_le (Nat.pow_le_pow_right (by decide) (by omega)))
      simp [hbit]
  · simp [hi]

end Words

end Mangosteen.RegisterMachine
