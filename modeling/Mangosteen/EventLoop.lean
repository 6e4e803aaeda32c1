import Mathlib.Logic.Function.Basic
import Mangosteen.RequestBuffer

namespace Mangosteen.EventLoop

open Connection Transition

/-- The flags that `epoll_ctl` is given and `epoll_wait` reports. -/
structure Events where
  input : Bool := false
  output : Bool := false
  error : Bool := false
  hangup : Bool := false
  deriving DecidableEq

def Events.broken (e : Events) : Bool := e.error || e.hangup

def asks : ReqStatus → Events
  | .reading => { input := true }
  | .writing => { output := true }
  | .ended => {}

/-- What the kernel keeps for a descriptor in an `epoll` instance. A one-shot entry
is disarmed by the event it reports. -/
structure Interest where
  events : Events
  oneshot : Bool
  data : Nat
  armed : Bool

/-- An element of the array that `epoll_wait` fills. `fd` is not in it, but with
the kernel. -/
structure Ready where
  fd : Nat
  data : Nat
  events : Events

def Ready.dataFd (r : Ready) : Nat := r.data % 2 ^ 32

/-- Where a thread stands in `start_event_loop`, with the events of the last
`epoll_wait` that it has not handled. A client is given by its address. -/
inductive Pc
  | starting
  | listening
  | waiting
  | dispatching (batch : List Ready)
  | accepting (batch : List Ready)
  | registering (client : Nat) (batch : List Ready)
  | serving (client : Nat) (batch : List Ready)
  | served (client : Nat) (batch : List Ready)
  | closed (client : Nat) (batch : List Ready)

def Pc.batch : Pc → List Ready
  | .starting | .listening | .waiting => []
  | .dispatching batch | .accepting batch | .registering _ batch
  | .serving _ batch | .served _ batch
  | .closed _ batch => batch

def Pc.current : Pc → Option Nat
  | .registering client _ | .serving client _ | .served client _ | .closed client _ => some client
  | _ => none

structure Loop where
  listenfd : Nat := 0
  interest : Nat → Option Interest := fun _ => none
  pc : Pc := .starting
  clientConnections : Nat := 0

def Loop.register (l : Loop) (fd : Nat) (i : Interest) : Loop :=
  { l with interest := Function.update l.interest fd (some i) }

inductive File
  | listener
  | epoll
  | connection (peer : Nat)
  deriving DecidableEq

/-- `mangosteen_client_t`, with the connection it was made for and the requests
that have been handed over. -/
structure Entry (T : Type) where
  connfd : Nat
  client : Client
  threadEntry : T
  peer : Nat
  earlier : List (List UInt8) := []

inductive Loss
  | hungUp
  | unregistered
  | unarmed
  /-- The lower half of the client's address is the number of the listening socket. -/
  | mistaken
  deriving DecidableEq

structure State (T : Type) where
  files : Nat → Option File := fun _ => none
  heap : Nat → Option (Entry T) := fun _ => none
  loops : T → Loop := fun _ => {}
  connections : Nat := 0
  lost : List (Nat × Loss) := []

variable {T : Type}

namespace State

def setLoop [DecidableEq T] (s : State T) (t : T) (l : Loop) : State T :=
  { s with loops := Function.update s.loops t l }

def setPc [DecidableEq T] (s : State T) (t : T) (pc : Pc) : State T :=
  s.setLoop t { s.loops t with pc }

def openFile (s : State T) (fd : Nat) (f : File) : State T :=
  { s with files := Function.update s.files fd (some f) }

/-- `close`, which takes the descriptor out of every `epoll` instance. -/
def close (s : State T) (fd : Nat) : State T :=
  { s with
    files := Function.update s.files fd none
    loops := fun t => { s.loops t with interest := Function.update (s.loops t).interest fd none } }

def setEntry (s : State T) (a : Nat) (e : Option (Entry T)) : State T :=
  { s with heap := Function.update s.heap a e }

def lose (s : State T) (a : Nat) (why : Loss) : State T := { s with lost := (a, why) :: s.lost }

def accept (s : State T) (t : T) (connfd client : Nat) (req : Nat → UInt8) : State T :=
  ({ s with connections := s.connections + 1 }.openFile connfd (.connection s.connections)).setEntry
  client
    (some { connfd, client := { req }, threadEntry := t, peer := s.connections })

variable (s : State T) {fd fd' a b : Nat}

@[simp] theorem openFile_self (f : File) : (s.openFile fd f).files fd = some f :=
  Function.update_self _ _ _

theorem openFile_of_ne (h : fd' ≠ fd) (f : File) : (s.openFile fd f).files fd' = s.files fd' :=
  Function.update_of_ne h _ _

@[simp] theorem close_self : (s.close fd).files fd = none := Function.update_self _ _ _

theorem close_of_ne (h : fd' ≠ fd) : (s.close fd).files fd' = s.files fd' :=
  Function.update_of_ne h _ _

@[simp] theorem setEntry_self (e : Option (Entry T)) : (s.setEntry a e).heap a = e :=
  Function.update_self _ _ _

theorem setEntry_of_ne (h : b ≠ a) (e : Option (Entry T)) : (s.setEntry a e).heap b = s.heap b :=
  Function.update_of_ne h _ _

theorem setLoop_self [DecidableEq T] (t : T) (l : Loop) : (s.setLoop t l).loops t = l :=
  Function.update_self _ _ _

theorem setLoop_of_ne [DecidableEq T] {t t' : T} (h : t' ≠ t) (l : Loop) :
    (s.setLoop t l).loops t' = s.loops t' :=
  Function.update_of_ne h _ _

end State

@[simp] theorem Loop.register_self (l : Loop) (fd : Nat) (i : Interest) :
    (l.register fd i).interest fd = some i :=
  Function.update_self _ _ _

theorem Loop.register_of_ne (l : Loop) {fd fd' : Nat} (h : fd' ≠ fd) (i : Interest) :
    (l.register fd i).interest fd' = l.interest fd' :=
  Function.update_of_ne h _ _

def maxEvents : Nat := 100

/-- The descriptors that `epoll_wait` reports at once are different, and armed; what
is reported has been asked for, or is an error. -/
structure Polled (l : Loop) (batch : List Ready) : Prop where
  length : 0 < batch.length ∧ batch.length ≤ maxEvents
  nodup : (batch.map (·.fd)).Nodup
  reported : ∀ r ∈ batch, ∃ i, l.interest r.fd = some i ∧ i.armed = true ∧
    r.data = i.data ∧ r.events ≠ {} ∧
    (r.events.input = true → i.events.input = true) ∧
    (r.events.output = true → i.events.output = true)

def disarm (batch : List Ready) (interest : Nat → Option Interest) (fd : Nat) : Option Interest :=
  (interest fd).map fun i => if i.oneshot ∧ fd ∈ batch.map (·.fd) then
  { i with armed := false } else i

def asserted (e : Events) (status : ReqStatus) : Prop :=
  e ≠ {} ∧ (status = .reading → e.input = true) ∧ (status = .writing → e.output = true)

/-- The steps of the threads, each a system call with what leads to it. New
descriptors and addresses are not in use; that is all that is known of them. -/
inductive Step [DecidableEq T] : State T → State T → Prop
  | listen {s : State T} {t : T} {fd : Nat} (hpc : (s.loops t).pc = .starting)
      (hfd : s.files fd = none) (hint : fd < 2 ^ 31) :
      Step s ((s.openFile fd .listener).setLoop t
        { s.loops t with listenfd := fd, pc := .listening })
  /-- `set_up_epoll`. Only half of the union is written. -/
  | setUpEpoll {s : State T} {t : T} {epollfd data : Nat} (hpc : (s.loops t).pc = .listening)
      (hfd : s.files epollfd = none) (hdata : data % 2 ^ 32 = (s.loops t).listenfd) :
      Step s ((s.openFile epollfd .epoll).setLoop t
        { (s.loops t).register (s.loops t).listenfd ⟨{ input := true }, false, data, true⟩ with
          pc := .waiting })
  | wait {s : State T} {t : T} {batch : List Ready} (hpc : (s.loops t).pc = .waiting)
      (hbatch : Polled (s.loops t) batch) :
      Step s (s.setLoop t { s.loops t with
        interest := disarm batch (s.loops t).interest, pc := .dispatching batch })
  | done {s : State T} {t : T} (hpc : (s.loops t).pc = .dispatching []) :
      Step s (s.setPc t .waiting)
  /-- `handle_event` for what it takes for the listening socket. -/
  | notified {s : State T} {t : T} {r : Ready} {batch : List Ready}
      (hpc : (s.loops t).pc = .dispatching (r :: batch)) (hr : r.dataFd = (s.loops t).listenfd) :
      Step s ((if r.fd = (s.loops t).listenfd then s else s.lose r.data .mistaken).setPc
        t (.accepting batch))
  | accept {s : State T} {t : T} {batch : List Ready} {connfd client : Nat} {req : Nat → UInt8}
      (hpc : (s.loops t).pc = .accepting batch) (hfd : s.files connfd = none)
      (hclient : s.heap client = none) :
      Step s ((s.accept t connfd client req).setPc t (.registering client batch))
  | accepted {s : State T} {t : T} {batch : List Ready} (hpc : (s.loops t).pc = .accepting batch) :
      Step s (s.setPc t (.dispatching batch))
  | added {s : State T} {t : T} {batch : List Ready} {client : Nat} {e : Entry T}
      (hpc : (s.loops t).pc = .registering client batch) (he : s.heap client = some e) :
      Step s (s.setLoop t
        { (s.loops t).register e.connfd ⟨{ input := true }, true, client, true⟩ with
        pc := .accepting batch
        clientConnections := (s.loops t).clientConnections + 1 })
  | notAdded {s : State T} {t : T} {batch : List Ready} {client : Nat}
      (hpc : (s.loops t).pc = .registering client batch) :
      Step s ((s.lose client .unregistered).setPc t (.accepting batch))
  /-- `handle_request_event` for a connection that is broken. -/
  | hungUp {s : State T} {t : T} {r : Ready} {batch : List Ready} {e : Entry T}
      (hpc : (s.loops t).pc = .dispatching (r :: batch)) (hr : r.dataFd ≠ (s.loops t).listenfd)
      (hbroken : r.events.broken = true) (he : s.heap r.data = some e) :
      Step s (((s.close e.connfd).lose r.data .hungUp).setPc t (.dispatching batch))
  | request {s : State T} {t : T} {r : Ready} {batch : List Ready} {e : Entry T}
      (hpc : (s.loops t).pc = .dispatching (r :: batch)) (hr : r.dataFd ≠ (s.loops t).listenfd)
      (hbroken : r.events.broken = false) (he : s.heap r.data = some e)
      (hassert : asserted r.events e.client.status) : Step s (s.setPc t (.serving r.data batch))
  | serve {s : State T} {t : T} {batch : List Ready} {client : Nat} {e : Entry T}
      {answers : Answers} {response : List UInt8}
      {o : Outcome} (hpc : (s.loops t).pc = .serving client batch) (he : s.heap client = some e)
      (hanswers : RequestBuffer.Answers.Delivered answers e.client)
      (ho : handleRequestEvent answers response e.client = some o) :
      Step s ((s.setEntry client
        (some { e with client := o.client, earlier := e.earlier ++ o.handed.toList })).setPc t
        (.served client batch))
  | rearmed {s : State T} {t : T} {batch : List Ready} {client : Nat} {e : Entry T}
      (hpc : (s.loops t).pc = .served client batch) (he : s.heap client = some e)
      (hstatus : e.client.status ≠ .ended) (hin : ((s.loops t).interest e.connfd).isSome) :
      Step s (s.setLoop t
        { (s.loops t).register e.connfd ⟨asks e.client.status, true, client, true⟩ with
          pc := .dispatching batch })
  | notRearmed {s : State T} {t : T} {batch : List Ready} {client : Nat} {e : Entry T}
      (hpc : (s.loops t).pc = .served client batch) (he : s.heap client = some e)
      (hstatus : e.client.status ≠ .ended) :
      Step s ((s.lose client .unarmed).setPc t (.dispatching batch))
  | close {s : State T} {t : T} {batch : List Ready} {client : Nat} {e : Entry T}
      (hpc : (s.loops t).pc = .served client batch) (he : s.heap client = some e)
      (hstatus : e.client.status = .ended) :
      Step s ((s.close e.connfd).setPc t (.closed client batch))
  | free {s : State T} {t : T} {batch : List Ready} {client : Nat}
      (hpc : (s.loops t).pc = .closed client batch) :
      Step s ((s.setEntry client none).setPc t (.dispatching batch))

def Started (s : State T) : Prop := s = {}

def Loop.atHand (l : Loop) : List Nat :=
  l.pc.current.toList ++ (l.pc.batch.filter (fun r => r.fd ≠ l.listenfd)).map (·.data)

def Armed (l : Loop) (a : Nat) (e : Entry T) : Prop :=
  l.interest e.connfd = some ⟨asks e.client.status, true, a, true⟩ ∧ e.client.status ≠ .ended

structure Connected (s : State T) (t : T) (a : Nat) (e : Entry T) : Prop where
  live : s.heap a = some e
  owner : e.threadEntry = t
  file : s.files e.connfd = some (.connection e.peer)

structure Shut (s : State T) (t : T) (a : Nat) (e : Entry T) : Prop where
  live : s.heap a = some e
  owner : e.threadEntry = t
  file : ∀ fd, s.files fd ≠ some (.connection e.peer)

def Stranded (s : State T) (t : T) (a : Nat) (e : Entry T) : Loss → Prop
  | .hungUp => Shut s t a e
  | .unregistered | .unarmed | .mistaken => Connected s t a e

/-- What a thread can rely on at every moment, whatever the others do. -/
structure Safe (s : State T) (t : T) : Prop where
  live : ∀ a ∈ (s.loops t).atHand, ∃ e, s.heap a = some e ∧ e.threadEntry = t
  once : (s.loops t).atHand.Nodup
  own : ∀ a ∈ (s.loops t).atHand, (∃ batch, (s.loops t).pc = .closed a batch) ∨
    ∃ e, Connected s t a e
  /-- The assertions on the events hold, and `do_event` finds a status it knows. -/
  asserts : ∀ r ∈ (s.loops t).pc.batch, r.fd ≠ (s.loops t).listenfd → r.events.broken = false →
    ∃ e, s.heap r.data = some e ∧ asserted r.events e.client.status
  status : ∀ a batch, (s.loops t).pc = .serving a batch → ∃ e, s.heap a = some e ∧
    e.client.status ≠ .ended
  whereabouts : ∀ a e, s.heap a = some e → e.threadEntry = t →
    Armed (s.loops t) a e ∧ a ∉ (s.loops t).atHand ∧ a ∉ s.lost.map (·.1) ∨
    ¬ Armed (s.loops t) a e ∧ a ∈ (s.loops t).atHand ∧ a ∉ s.lost.map (·.1) ∨
    ¬ Armed (s.loops t) a e ∧ a ∉ (s.loops t).atHand ∧ a ∈ s.lost.map (·.1)
  leaked : ∀ x ∈ s.lost, ∃ e, s.heap x.1 = some e ∧ (e.threadEntry = t → Stranded s t x.1 e x.2)
  /-- The events of each client are those of a connection on its own. -/
  history : ∀ a e, s.heap a = some e → e.threadEntry = t →
    ∃ req, Reachable (RequestBuffer.Accepted req) RequestBuffer.Event ⟨e.client, e.earlier⟩

end Mangosteen.EventLoop
