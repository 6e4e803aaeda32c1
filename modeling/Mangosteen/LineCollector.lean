import Mangosteen.Library.RegisterMachine

namespace Mangosteen.LineCollector

open RegisterMachine

/-- The settings of `configuration.h` that the emitted code depends on. -/
structure Build where
  payloadSize : Nat
  hashSetSize : Nat
  realHashSetSize : Nat
  disableOverflowBuffer : Bool

/-- The build of the instrumentation as a C program, where
`DISABLE_OVERFLOW_BUFFER` is not defined. -/
def shippedBuild : Build := ⟨32, 1024, 8192, false⟩

inductive Reg
  | destination
  | hashSetPointer
  | range
  | rax
  | valueAtIndex
  | rsp
  | counterPointer
  deriving DecidableEq

inductive Label
  | insertStubs
  | tryToInsertStub
  | checkIfDuplicate
  | checkNextIndex
  | processRemainingStubs
  | useOverflowBuffer
  | restoreRegisters
  deriving DecidableEq

/-- What the code that computes an application's address yields, with what it
leaves in its scratch register, and the buffer of the clean call. -/
structure Env where
  address : Word
  scratch : Word
  overflow : List Word

abbrev Code := List (Instr Reg Label Env)

/-- The instructions before `where`, with the position of the one that
`instr` points to. -/
structure AssemblyArgs where
  ilist : Code := []
  instr : Nat := 0

namespace AssemblyArgs

/-- An instruction that is put before `where`. -/
def preinsert (args : AssemblyArgs) (i : Instr Reg Label Env) : AssemblyArgs :=
  { args with ilist := args.ilist ++ [i] }

/-- An instruction that is put before `where`, and that `instr` then points to. -/
def emit (args : AssemblyArgs) (i : Instr Reg Label Env) : AssemblyArgs :=
  ⟨args.ilist ++ [i], args.ilist.length⟩

/-- An instruction that is put before the one that `instr` points to. -/
def preinsertInstr (args : AssemblyArgs) (i : Instr Reg Label Env) : AssemblyArgs :=
  ⟨args.ilist.insertIdx args.instr i, args.instr + 1⟩

end AssemblyArgs

open AssemblyArgs

/-- `offsetof` of the fields of `per_thread_t`. -/
def numberOfHashSetEntriesOffset : Word := 0

def hashSetEntriesOffset : Word := 8

def combinerOffset (b : Build) : Word := BitVec.ofNat 64 (1112 + 100 * (16 + b.payloadSize))

/-- The eight bits that align an address, for the sizes that have some. -/
def alignmentValue : Nat → Int
  | 256 => 0
  | 128 => -128
  | 64 => -64
  | 32 => -32
  | 8 => -8
  | _ => 0

def incrementEntryCounter (args : AssemblyArgs) : AssemblyArgs := args
  |>.emit (.binary .add .counterPointer (.imm (imm32 1)))
  |>.emit (.store .rsp 0 .counterPointer)

def loadCounterInRegister (args : AssemblyArgs) : AssemblyArgs := args
  |>.preinsert (.load .rsp .hashSetPointer numberOfHashSetEntriesOffset)
  |>.emit (.load .counterPointer .rsp 0)

def checkCombinerState (b : Build) (args : AssemblyArgs) : AssemblyArgs := args
  |>.preinsert (.load .valueAtIndex .hashSetPointer (combinerOffset b))
  |>.emit (.cmp .valueAtIndex (.imm (imm32 0)))
  |>.emit (.jcc .e .restoreRegisters)

def checkRemainingSpaceInHashSet (b : Build) (args : AssemblyArgs) : AssemblyArgs :=
  let args := loadCounterInRegister args
  if b.disableOverflowBuffer then args
    |>.emit (.cmp .counterPointer (.imm (imm32 b.hashSetSize)))
    |>.emit (.jcc .ge .useOverflowBuffer)
  else args

/-- `drutil_insert_get_mem_addr`. -/
def getMemAddr : Instr Reg Label Env := .call fun regs env =>
  (Function.update (Function.update regs .range env.scratch) .destination env.address, env)

def dumpAddressToOverflowBuffer : Instr Reg Label Env := .call fun regs env =>
  (regs, { env with overflow := env.overflow ++ [regs .destination] })

/-- The two jumps at the end of the loop are put before the conditional jump that
was emitted last. -/
def emitHashSetCode (b : Build) (size : Nat) : AssemblyArgs :=
  AssemblyArgs.emit {} (.binary .xor .valueAtIndex (.reg .valueAtIndex))
  |> checkCombinerState b
  |> checkRemainingSpaceInHashSet b
  |>.preinsert (.load .hashSetPointer .hashSetPointer hashSetEntriesOffset)
  |>.preinsert getMemAddr
  |>.emit (.mov .range (.reg .destination))
  |>.emit (.binary .add .range (.imm (imm32 size)))
  |>.emit (.binary .and .destination (.imm (imm8 (alignmentValue b.payloadSize))))
  |>.preinsert (.label .insertStubs)
  |>.emit (.cmp .destination (.reg .range))
  |>.emit (.jcc .ge .restoreRegisters)
  |>.emit (.binary .xor .rax (.reg .rax))
  |>.emit (.mov .rax (.imm (imm32 (b.hashSetSize - 1))))
  |>.emit (.binary .and .rax (.reg .destination))
  |>.emit (.binary .imul .rax (.imm (imm32 8)))
  |>.preinsert (.label .tryToInsertStub)
  |>.emit (.binary .add .hashSetPointer (.reg .rax))
  |>.emit (.load .valueAtIndex .hashSetPointer 0)
  |>.emit (.cmp .valueAtIndex (.imm (imm32 0)))
  |>.emit (.jcc .ne .checkIfDuplicate)
  |>.emit (.store .hashSetPointer 0 .destination)
  |> incrementEntryCounter
  |>.emit (.jmp .processRemainingStubs)
  |>.preinsert (.label .checkIfDuplicate)
  |>.emit (.cmp .valueAtIndex (.reg .destination))
  |>.emit (.jcc .ne .checkNextIndex)
  |>.emit (.jmp .processRemainingStubs)
  |>.preinsert (.label .checkNextIndex)
  |>.emit (.binary .sub .hashSetPointer (.reg .rax))
  |>.emit (.binary .add .rax (.imm (imm32 8)))
  |>.emit (.cmp .rax (.imm (imm32 b.realHashSetSize)))
  |>.emit (.jcc .l .tryToInsertStub)
  |>.emit (.binary .xor .rax (.reg .rax))
  |>.emit (.mov .rax (.imm (imm32 0)))
  |>.emit (.jmp .tryToInsertStub)
  |>.preinsert (.label .processRemainingStubs)
  |>.emit (.binary .sub .hashSetPointer (.reg .rax))
  |>.emit (.binary .add .destination (.imm (imm32 b.payloadSize)))
  |>.emit (.cmp .destination (.reg .range))
  |>.emit (.jcc .ge .restoreRegisters)
  |>.preinsertInstr (.jmp .insertStubs)
  |>.preinsertInstr (.jmp .restoreRegisters)
  |>.preinsert (.label .useOverflowBuffer)
  |>.preinsert getMemAddr
  |>.preinsert dumpAddressToOverflowBuffer
  |>.preinsert (.label .restoreRegisters)

/-- The code that stands before a store of the given size. -/
def storeAddressInHashSet (b : Build) (size : Nat) : Code := (emitHashSetCode b size).ilist

/-- The code of a C build, in the order of the list. -/
def listing (b : Build) (size : Nat) : Code :=
  [ .binary .xor .valueAtIndex (.reg .valueAtIndex),
    .load .valueAtIndex .hashSetPointer (combinerOffset b),
    .cmp .valueAtIndex (.imm (imm32 0)),
    .jcc .e .restoreRegisters,
    .load .rsp .hashSetPointer numberOfHashSetEntriesOffset,
    .load .counterPointer .rsp 0,
    .load .hashSetPointer .hashSetPointer hashSetEntriesOffset,
    getMemAddr,
    .mov .range (.reg .destination),
    .binary .add .range (.imm (imm32 size)),
    .binary .and .destination (.imm (imm8 (alignmentValue b.payloadSize))),
    .label .insertStubs,
    .cmp .destination (.reg .range),
    .jcc .ge .restoreRegisters,
    .binary .xor .rax (.reg .rax),
    .mov .rax (.imm (imm32 (b.hashSetSize - 1))),
    .binary .and .rax (.reg .destination),
    .binary .imul .rax (.imm (imm32 8)),
    .label .tryToInsertStub,
    .binary .add .hashSetPointer (.reg .rax),
    .load .valueAtIndex .hashSetPointer 0,
    .cmp .valueAtIndex (.imm (imm32 0)),
    .jcc .ne .checkIfDuplicate,
    .store .hashSetPointer 0 .destination,
    .binary .add .counterPointer (.imm (imm32 1)),
    .store .rsp 0 .counterPointer,
    .jmp .processRemainingStubs,
    .label .checkIfDuplicate,
    .cmp .valueAtIndex (.reg .destination),
    .jcc .ne .checkNextIndex,
    .jmp .processRemainingStubs,
    .label .checkNextIndex,
    .binary .sub .hashSetPointer (.reg .rax),
    .binary .add .rax (.imm (imm32 8)),
    .cmp .rax (.imm (imm32 b.realHashSetSize)),
    .jcc .l .tryToInsertStub,
    .binary .xor .rax (.reg .rax),
    .mov .rax (.imm (imm32 0)),
    .jmp .tryToInsertStub,
    .label .processRemainingStubs,
    .binary .sub .hashSetPointer (.reg .rax),
    .binary .add .destination (.imm (imm32 b.payloadSize)),
    .cmp .destination (.reg .range),
    .jmp .insertStubs,
    .jmp .restoreRegisters,
    .jcc .ge .restoreRegisters,
    .label .useOverflowBuffer,
    getMemAddr,
    dumpAddressToOverflowBuffer,
    .label .restoreRegisters ]

theorem storeAddressInHashSet_eq {b : Build} (hb : b.disableOverflowBuffer = false) (size : Nat) :
    storeAddressInHashSet b size = listing b size := by
  simp only [storeAddressInHashSet, emitHashSetCode, checkRemainingSpaceInHashSet,
    checkCombinerState,
    loadCounterInRegister, incrementEntryCounter, hb, preinsert, emit, preinsertInstr,
    List.nil_append, List.cons_append,
    List.append_assoc, List.length_cons, List.length_nil, Bool.false_eq_true, if_false]
  rfl

end Mangosteen.LineCollector
