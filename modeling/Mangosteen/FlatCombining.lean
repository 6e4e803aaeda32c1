import Mathlib.Data.Fin.Basic
import Mathlib.Logic.Function.Basic
import Mangosteen.Library.Transition

namespace Mangosteen.FlatCombining

inductive Ready
  | started
  | done
  | readyToExecute
  | none
  | readyToIntialise
  deriving DecidableEq

inductive Reader
  | reading
  | notReading
  deriving DecidableEq

/-- The writers that do not combine: `process_command` for a new connection, and
callers of `tryWriteLock`. -/
inductive Writer
  | processCommand
  | tryWriteLock
  deriving DecidableEq

/-- Where a thread stands, with the locals of the function it is in. -/
inductive Pc (n : Nat)
  | idle
  -- `exec_rw_flat_combining`
  | post
  | checkStarted
  | awaitDone
  | checkDone
  | clear
  | checkFree
  | lockWriter
  | collect (i : Nat) (commands : List (Fin n))
  | take (i : Fin n) (commands : List (Fin n))
  | scan (i : Nat) (commands : List (Fin n))
  | instrumentStart (commands : List (Fin n))
  | enableCombiner (commands : List (Fin n))
  | process (index : Nat) (commands : List (Fin n))
  | processRequest (index : Nat) (commands : List (Fin n))
  | instrumentStop (commands : List (Fin n))
  | logPayload (commands : List (Fin n))
  | disableCombiner (commands : List (Fin n))
  | markDone (index : Nat) (commands : List (Fin n))
  | clearOwn
  | writeUnlock
  -- `exec_ro`
  | markReaderAsActive
  | checkWriter
  | markReaderAsInactive
  | awaitFree
  | readRequest
  | readUnlock
  -- the other writers
  | checkLock (w : Writer)
  | takeLock (w : Writer)
  | drain (w : Writer) (i : Nat)
  | work (w : Writer)
  | release (w : Writer)

inductive Hook
  | outside
  | spin
  | compareExchange
  | enqueue (locked : Bool)
  | unlock
  deriving DecidableEq

structure Thread (n : Nat) where
  pc : Pc n := .idle
  hook : Hook := .outside
  combiner : Nat := 0

variable {n : Nat} {Req : Type}

/-- The lock word, the reader set and the task array, and what has happened. -/
structure Shared (n : Nat) (Req : Type) where
  writers : Nat
  readersSet : Fin n → Reader
  ready : Fin n → Ready
  applicationSpecificStruct : Fin n → Req
  /-- The requests of a thread's calls of `exec_rw_flat_combining`, in order, and
  how many of these calls have returned. -/
  requests : Fin n → List Req
  returned : Fin n → Nat
  /-- The requests of a slot that were passed to `processRequestCallBack`, each
  with the number of the session that did it. -/
  executed : Fin n → List (Req × Nat)
  stops : Nat

/-- Code of the application or of an allocator runs here, and may map memory. -/
def Pc.callsBack : Pc n → Bool
  | .idle | .enableCombiner _ | .processRequest _ _ | .disableCombiner _
  | .readRequest | .work _ => true
  | _ => false

/-- One step of a thread outside of the hook: a single load, store or
compare-exchange of shared memory, or a call that returns. -/
inductive Move (t : Fin n) : Shared n Req → Pc n × Nat → Shared n Req → Pc n × Nat → Prop
  | callUpdate {g f} (req : Req) :
      Move t g (.idle, f)
        { g with
          applicationSpecificStruct := Function.update g.applicationSpecificStruct t req
          requests := Function.update g.requests t (g.requests t ++ [req]) } (.post, f)
  | post {g f} : Move t g (.post, f) { g with ready := Function.update g.ready t .readyToExecute }
      (.checkStarted, f)
  | started {g f} (h : g.ready t = .started) : Move t g (.checkStarted, f) g (.awaitDone, f)
  | notStarted {g f} (h : g.ready t ≠ .started) : Move t g (.checkStarted, f) g (.checkDone, f)
  | awaited {g f} (h : g.ready t = .done) : Move t g (.awaitDone, f) g (.clear, f)
  | isDone {g f} (h : g.ready t = .done) : Move t g (.checkDone, f) g (.clear, f)
  | notDone {g f} (h : g.ready t ≠ .done) : Move t g (.checkDone, f) g (.checkFree, f)
  | clear {g f} :
      Move t g (.clear, f)
        { g with
          ready := Function.update g.ready t .none
          returned := Function.update g.returned t (g.returned t + 1) } (.idle, f)
  | lockIsFree {g f} (h : g.writers = 0) : Move t g (.checkFree, f) g (.lockWriter, f)
  | lockIsTaken {g f} (h : g.writers ≠ 0) : Move t g (.checkFree, f) g (.checkStarted, f)
  | lockWriter {g f} (h : g.writers = 0) :
      Move t g (.lockWriter, f) { g with writers := 1 } (.collect 0 [], f)
  | lockLost {g f} (h : g.writers ≠ 0) : Move t g (.lockWriter, f) g (.checkStarted, f)
  | collectReady {g f} (i : Fin n) {cs} (h : g.ready i = .readyToExecute) :
      Move t g (.collect i cs, f) g (.take i cs, f)
  | collectNext {g f} (i : Fin n) {cs} (h : g.ready i ≠ .readyToExecute) :
      Move t g (.collect i cs, f) g (.collect (i + 1) cs, f)
  | take {g f} (i : Fin n) {cs} :
      Move t g (.take i cs, f) { g with ready := Function.update g.ready i .started }
        (.collect (i + 1) (cs ++ [i]), f)
  | collected {g f cs} : Move t g (.collect n cs, f) g (.scan 0 cs, f)
  | scanReading {g f} (i : Fin n) {cs} (h : g.readersSet i = .reading) :
      Move t g (.scan i cs, f) g (.collect 0 cs, f)
  | scanNext {g f} (i : Fin n) {cs} (h : g.readersSet i = .notReading) :
      Move t g (.scan i cs, f) g (.scan (i + 1) cs, f)
  | scanned {g f cs} : Move t g (.scan n cs, f) g (.instrumentStart cs, f)
  | instrumentStart {g f cs} : Move t g (.instrumentStart cs, f) g (.enableCombiner cs, 1)
  | enableCombiner {g f cs} : Move t g (.enableCombiner cs, f) g (.process 0 cs, f)
  | process {g f index cs} {i : Fin n} (h : cs[index]? = some i) :
      Move t g (.process index cs, f)
        { g with
          executed :=
            Function.update g.executed i
            (g.executed i ++ [(g.applicationSpecificStruct i, g.stops)]) }
        (.processRequest index cs, f)
  | processed {g f index cs} : Move t g (.processRequest index cs, f) g (.process (index + 1) cs, f)
  | allProcessed {g f index cs} (h : cs.length ≤ index) :
      Move t g (.process index cs, f) g (.instrumentStop cs, f)
  | instrumentStop {g f cs} : Move t g (.instrumentStop cs, f) g (.logPayload cs, 0)
  | logPayload {g f cs} :
      Move t g (.logPayload cs, f) { g with stops := g.stops + 1 } (.disableCombiner cs, f)
  | disableCombiner {g f cs} : Move t g (.disableCombiner cs, f) g (.markDone 0 cs, f)
  | markDone {g f index cs} {i : Fin n} (h : cs[index]? = some i) :
      Move t g (.markDone index cs, f) { g with ready := Function.update g.ready i .done }
        (.markDone (index + 1) cs, f)
  | allMarked {g f index cs} (h : cs.length ≤ index) :
      Move t g (.markDone index cs, f) g (.clearOwn, f)
  | clearOwn {g f} :
      Move t g (.clearOwn, f) { g with ready := Function.update g.ready t .none } (.writeUnlock, f)
  | writeUnlock {g f} :
      Move t g (.writeUnlock, f)
        { g with writers := 0, returned := Function.update g.returned t (g.returned t + 1) }
        (.idle, f)
  | callRead {g f} (req : Req) :
      Move t g (.idle, f)
        { g with applicationSpecificStruct := Function.update g.applicationSpecificStruct t req }
        (.markReaderAsActive, f)
  | markReaderAsActive {g f} :
      Move t g (.markReaderAsActive, f)
        { g with readersSet := Function.update g.readersSet t .reading } (.checkWriter, f)
  | noWriter {g f} (h : g.writers = 0) : Move t g (.checkWriter, f) g (.readRequest, f)
  | someWriter {g f} (h : g.writers ≠ 0) : Move t g (.checkWriter, f) g (.markReaderAsInactive, f)
  | markReaderAsInactive {g f} :
      Move t g (.markReaderAsInactive, f)
        { g with readersSet := Function.update g.readersSet t .notReading } (.awaitFree, f)
  | writerGone {g f} (h : g.writers = 0) : Move t g (.awaitFree, f) g (.markReaderAsActive, f)
  | readRequest {g f} : Move t g (.readRequest, f) g (.readUnlock, f)
  | readUnlock {g f} :
      Move t g (.readUnlock, f) { g with readersSet := Function.update g.readersSet t .notReading }
        (.idle, f)
  | callWriter {g f} (w : Writer) : Move t g (.idle, f) g (.checkLock w, f)
  | writerFree {g f w} (h : g.writers = 0) : Move t g (.checkLock w, f) g (.takeLock w, f)
  | writerBusy {g f} (h : g.writers ≠ 0) : Move t g (.checkLock .tryWriteLock, f) g (.idle, f)
  | takeLock {g f w} (h : g.writers = 0) :
      Move t g (.takeLock w, f) { g with writers := 1 } (.drain w 0, f)
  | takeAgain {g f} (h : g.writers ≠ 0) :
      Move t g (.takeLock .processCommand, f) g (.checkLock .processCommand, f)
  | takeFailed {g f} (h : g.writers ≠ 0) : Move t g (.takeLock .tryWriteLock, f) g (.idle, f)
  | drainReading {g f w} (i : Fin n) (h : g.readersSet i = .reading) :
      Move t g (.drain w i, f) g (.drain w 0, f)
  | drainNext {g f w} (i : Fin n) (h : g.readersSet i = .notReading) :
      Move t g (.drain w i, f) g (.drain w (i + 1), f)
  | drained {g f w} : Move t g (.drain w n, f) g (.work w, f)
  | work {g f w} : Move t g (.work w, f) g (.release w, f)
  | release {g f w} : Move t g (.release w, f) { g with writers := 0 } (.idle, f)

/-- One step inside `event_post_syscall`. Only a thread that is not a combiner
takes the lock word, and it does not wait for readers. -/
inductive HookMove : Nat → Shared n Req → Hook → Shared n Req → Hook → Prop
  | enterLocking {g} : HookMove 0 g .outside g .spin
  | enterCombiner {g f} (h : f ≠ 0) : HookMove f g .outside g (.enqueue false)
  | wordFree {g f} (h : g.writers = 0) : HookMove f g .spin g .compareExchange
  | exchange {g f} (h : g.writers = 0) :
      HookMove f g .compareExchange { g with writers := 1 } (.enqueue true)
  | exchangeLost {g f} (h : g.writers ≠ 0) : HookMove f g .compareExchange g .spin
  | enqueued {g f} : HookMove f g (.enqueue true) g .unlock
  | enqueuedCombiner {g f} : HookMove f g (.enqueue false) g .outside
  | unlock {g f} : HookMove f g .unlock { g with writers := 0 } .outside

structure State (n : Nat) (Req : Type) where
  shared : Shared n Req
  thread : Fin n → Thread n

/-- The steps of the threads, in any order. `active` are the threads that exist,
and `admits` says where a system call may map memory. -/
inductive Step (active : Fin n → Prop) (admits : Thread n → Prop) : State n Req → State n Req → Prop
  | move {s : State n Req} {t : Fin n} {g pc f} (ha : active t) (hh : (s.thread t).hook = .outside)
      (hm : Move t s.shared ((s.thread t).pc, (s.thread t).combiner) g (pc, f)) :
      Step active admits s ⟨g, Function.update s.thread t ⟨pc, .outside, f⟩⟩
  | hook {s : State n Req} {t : Fin n} {g h} (ha : active t) (hc : (s.thread t).pc.callsBack = true)
      (hadm : (s.thread t).hook = .outside → admits (s.thread t))
      (hm : HookMove (s.thread t).combiner s.shared (s.thread t).hook g h) :
      Step active admits s ⟨g, Function.update s.thread t { s.thread t with hook := h }⟩

/-- The state after `allocateFlatCombiningdMemory` and
`mangosteen_initialize_thread`. The slot of a thread that does not exist holds
anything. -/
structure Initial (active : Fin n → Prop) (s : State n Req) : Prop where
  writers : s.shared.writers = 0
  readersSet : ∀ i, s.shared.readersSet i = .notReading
  ready : ∀ i, active i → s.shared.ready i = .none
  requests : ∀ i, s.shared.requests i = []
  returned : ∀ i, s.shared.returned i = 0
  executed : ∀ i, s.shared.executed i = []
  stops : s.shared.stops = 0
  thread : ∀ i, s.thread i = {}

end Mangosteen.FlatCombining
