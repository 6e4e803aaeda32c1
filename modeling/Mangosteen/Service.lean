import Mangosteen.Library.AtomicObject
import Mangosteen.Library.RedoLog
import Mangosteen.FlatCombining
import Mangosteen.Transactions

namespace Mangosteen.Service

open FlatCombining Simulation AtomicObject Transition Memory Session Instrumentation Transactions

variable {n : Nat} {Req Res Local : Type}

inductive Action (Local : Type)
  | load (addr : Nat) (next : UInt8 → Local)
  | write (access : Access) (next : Local)

/-- The callbacks of the application that `execute_using_flat_combining` uses.
The code of `processRequestCallBack` is at `start` when it is called, and over
where there is a result: the response that it leaves with the request. -/
structure Callbacks (Req Res Local : Type) where
  isReadOnly : Req → Bool
  start : Req → Local
  result : Local → Option Res
  action : Local → Action Local

def plain : Access → (Nat → UInt8) → Nat → UInt8
  | .store addr bytes, m => write m addr bytes
  | .memcpy dest src size, m => copy m dest src size

/-- The state machine that the application is meant to be: one request at a time,
without recording. -/
def Callbacks.machine (cb : Callbacks Req Res Local) : Machine Req Res Local (Nat → UInt8) where
  start := cb.start
  result := cb.result
  step l m := match cb.action l with
    | .load addr next => (next (m addr), m)
    | .write access next => (next, plain access m)

/-- The rest of the process: its memory, what its threads have recorded, the
callback that a thread runs, the response in each slot, the batches that
`instrument_stop` has still to commit, and those that the log holds. -/
structure Store (n : Nat) (Res Local : Type) where
  memory : Nat → UInt8
  data : Fin n → PerThread
  running : Fin n → Option Local
  answer : Fin n → Option Res
  unpublished : List (List Entry)
  published : List (List Entry)

structure State (n : Nat) (Req Res Local : Type) extends Store n Res Local where
  control : FlatCombining.State n Req

def runsCallback : Pc n → Bool
  | .processRequest _ _ | .readRequest => true
  | _ => false

def respond (cb : Callbacks Req Res Local) (t : Fin n) (slot : Option (Fin n))
    (x : Store n Res Local) : Option (Store n Res Local) := do
  let l ← x.running t
  let res ← cb.result l
  let i ← slot
  pure { x with
    running := Function.update x.running t none, answer := Function.update x.answer i (some res) }

/-- What a move of the thread brings with it. `g` is the task array after the
move. -/
def follow (cb : Callbacks Req Res Local) (t : Fin n) (g : Shared n Req) :
    Pc n → Pc n → Store n Res Local → Option (Option (Event (Fin n) Req Res) × Store n Res Local)
  | .idle, .post, x =>
      if cb.isReadOnly (g.applicationSpecificStruct t) then none
      else some (some (.call t (g.applicationSpecificStruct t)),
        { x with answer := Function.update x.answer t none })
  | .idle, .markReaderAsActive, x =>
      if cb.isReadOnly (g.applicationSpecificStruct t) then
        some (some (.call t (g.applicationSpecificStruct t)),
          { x with answer := Function.update x.answer t none })
      else none
  | .instrumentStart _, _, x =>
      some (none, { x with data := Function.update x.data t (instrumentStart (x.data t)) })
  | .process index cs, .processRequest _ _, x =>
      some (none, { x with
        running :=
          Function.update x.running t
          (cs[index]?.map fun i => cb.start (g.applicationSpecificStruct i)) })
  | .processRequest index cs, _, x => (respond cb t cs[index]? x).map fun x => (none, x)
  | .instrumentStop _, _, x =>
      some (none, { x with
        data := Function.update x.data t {}
        unpublished := loggedBatches x.memory (x.data t) })
  | .logPayload _, _, x => if x.unpublished.isEmpty then some (none, x) else none
  | .checkWriter, .readRequest, x =>
      some (none, { x with
        running := Function.update x.running t (some (cb.start (g.applicationSpecificStruct t))) })
  | .readRequest, _, x => (respond cb t (some t) x).map fun x => (none, x)
  | .clear, _, x | .writeUnlock, _, x | .readUnlock, _, x => some (some (.ret t (x.answer t)), x)
  | _, _, x => some (none, x)

def mapEntry (addr size : Nat) : Hook → List (List Entry)
  | .enqueue true => [[.transientMmap addr size]]
  | .enqueue false => [[.mmap addr size]]
  | _ => []

/-- The memory that a replay of batches makes of the one before them. -/
def replayed (m₀ : Nat → UInt8) (published : List (List Entry)) : Nat → UInt8 :=
  RedoLog.apply (writes (entries published)) m₀

inductive Step (cb : Callbacks Req Res Local) (m₀ : Nat → UInt8) :
    State n Req Res Local → Option (Event (Fin n) Req Res) → State n Req Res Local → Prop
  | move {s : State n Req Res Local} {t : Fin n} {g pc f label x}
      (hh : (s.control.thread t).hook = .outside)
      (hm : Move t s.control.shared ((s.control.thread t).pc,
        (s.control.thread t).combiner) g (pc, f))
      (hf : follow cb t g (s.control.thread t).pc pc s.toStore = some (label, x)) :
      Step cb m₀ s label ⟨x, ⟨g, Function.update s.control.thread t ⟨pc, .outside, f⟩⟩⟩
  | load {s : State n Req Res Local} {t : Fin n} {l addr next}
      (hc : runsCallback (s.control.thread t).pc = true) (hh : (s.control.thread t).hook = .outside)
      (hl : s.running t = some l) (hr : cb.result l = none) (ha : cb.action l = .load addr next) :
      Step cb m₀ s none { s with
        running := Function.update s.running t (some (next (s.memory addr))) }
  | write {s : State n Req Res Local} {t : Fin n} {l access next fe}
      (hc : runsCallback (s.control.thread t).pc = true) (hh : (s.control.thread t).hook = .outside)
      (hl : s.running t = some l) (hr : cb.result l = none) (ha : cb.action l = .write access next)
      (hp : perform access ⟨s.memory, s.data t⟩ = some fe) :
      Step cb m₀ s none { s with
        memory := fe.memory
        data := Function.update s.data t fe.data
        running := Function.update s.running t (some next) }
  | publish {s : State n Req Res Local} {t : Fin n} {cs es rest}
      (hpc : (s.control.thread t).pc = .logPayload cs) (hu : s.unpublished = es :: rest) :
      Step cb m₀ s none { s with unpublished := rest, published := s.published ++ [es] }
  | hook {s : State n Req Res Local} {t : Fin n} {g h} (addr size : Nat)
      (hc : (s.control.thread t).pc.callsBack = true)
      (hm : HookMove (s.control.thread t).combiner s.control.shared (s.control.thread t).hook g h) :
      Step cb m₀ s none { s with
        published := s.published ++ mapEntry addr size (s.control.thread t).hook
        control := ⟨g, Function.update s.control.thread t { s.control.thread t with hook := h }⟩ }

/-- The service, started on memory `m₀`. A slot without a thread is one whose
thread makes no call. -/
def service (n : Nat) (cb : Callbacks Req Res Local) (m₀ : Nat → UInt8) :
    Labelled (State n Req Res Local) (Event (Fin n) Req Res) where
  initial s := Initial (fun _ => True) s.control ∧
    s.toStore = ⟨m₀, fun _ => {}, fun _ => none, fun _ => none, [], []⟩
  step := Step cb m₀

def Callbacks.Visits (cb : Callbacks Req Res Local) (req : Req) (l : Local) : Prop :=
  ∃ m m', cb.machine.Steps (cb.start req) m l m'

/-- What Mangosteen asks of an application: a request that it calls read-only
writes nothing, and the others store to mapped memory, and not by `memcpy`. -/
structure Callbacks.Proper (cb : Callbacks Req Res Local) : Prop where
  reads : ∀ req l, cb.isReadOnly req = true → cb.Visits req l → cb.result l = none → ∃ addr next,
    cb.action l = .load addr next
  stores : ∀ req l access next, cb.isReadOnly req = false → cb.Visits req l → cb.result l = none →
    cb.action l = .write access next → ∃ addr bytes, access = .store addr bytes ∧ 4096 ≤ addr

end Mangosteen.Service
