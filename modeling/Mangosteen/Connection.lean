import Mathlib.Algebra.Group.Nat.Defs
import Mangosteen.Library.Transition

namespace Mangosteen.Connection

def maxRequestSize : Nat := 2048

inductive ReqStatus
  | reading
  | writing
  | ended
  deriving DecidableEq

/-- `mangosteen_client_t`, as far as the event loop uses it. The request buffer
keeps the bytes of earlier requests behind the first `bytes_read`. -/
structure Client where
  status : ReqStatus := .reading
  req : Nat → UInt8
  bytesRead : Nat := 0
  left : Nat := 0
  responceBuffer : List UInt8 := []
  responseLen : Nat := 0

inductive ReadEnd
  | again
  | failed
  | eof

structure Reads where
  chunks : List (List UInt8)
  last : ReadEnd

inductive SendResult
  | accepted (count : Nat)
  | again
  | failed
  | closed

def copyIn (req : Nat → UInt8) (offset : Nat) (bytes : List UInt8) (i : Nat) : UInt8 :=
  if offset ≤ i then bytes.getD (i - offset) (req i) else req i

def Client.room (c : Client) : Nat := (maxRequestSize + 2 ^ 64 - c.bytesRead) % 2 ^ 64

def Client.receive (c : Client) (bytes : List UInt8) : Client :=
  { c with req := copyIn c.req c.bytesRead bytes, bytesRead := c.bytesRead + bytes.length }

/-- The loop over `read`, up to its last call. Its assertion stands before every
call, and stops the server when it fails. -/
def readChunks : List (List UInt8) → Client → Option Client
  | [], c => if c.room = 0 then none else some c
  | bytes :: chunks, c =>
      if c.room = 0 then none
      else if maxRequestSize < (c.receive bytes).bytesRead then
        some { c.receive bytes with status := .ended }
      else readChunks chunks (c.receive bytes)

def finished (c : Client) : Bool :=
  2 < c.bytesRead && c.req (c.bytesRead - 2) == 13 && c.req (c.bytesRead - 1) == 10

def prepareClientResponse (response : List UInt8) (c : Client) : Option Client :=
  if response.length = 0 then none
  else some { c with
    responseLen := response.length, left := response.length, responceBuffer := response }

def Client.request (c : Client) : List UInt8 := (List.range c.bytesRead).map c.req

/-- What one event has done: the client after it, the request that was handed
to `process_command`, and the bytes that `send` has accepted. -/
structure Outcome where
  client : Client
  handed : Option (List UInt8) := none
  sent : List UInt8 := []

/-- `do_event` in reading mode. The response is what the application answers if
it is asked. -/
def doEventReading (reads : Reads) (response : List UInt8) (c : Client) : Option Outcome := do
  let c ← readChunks reads.chunks c
  if c.status = .ended then
    return { client := c }
  match reads.last with
  | .again =>
      if finished c then
        let request := c.request
        let c ← prepareClientResponse response c
        return { client := { c with bytesRead := 0, status := .writing }, handed := some request }
      else
        return { client := c }
  | .failed => return { client := c }
  | .eof => return { client := { c with status := .ended } }

/-- The loop over `send`, with the bytes accepted so far. It ends early when the
connection is blocked, and sets the status when it is broken. -/
def sendLoop (c : Client) : List SendResult → Nat → List UInt8 → ReqStatus × Nat × List UInt8
  | [], left, sent => (c.status, left, sent)
  | r :: results, left, sent =>
      if left = 0 then (c.status, left, sent)
      else
        match r with
        | .accepted count =>
            sendLoop c results (left - count)
              (sent ++ (c.responceBuffer.drop (c.responseLen - left)).take count)
        | .again => (c.status, left, sent)
        | .failed | .closed => (.ended, left, sent)

def doEventWriting (results : List SendResult) (c : Client) : Outcome :=
  let (status, left, sent) := sendLoop c results c.left []
  if status = .ended then { client := { c with status := .ended }, sent }
  else if left = 0 then
    { client := { c with responseLen := 0, responceBuffer := [], status := .reading }, sent }
  else { client := { c with left }, sent }

inductive Answers
  | reading (reads : Reads)
  | writing (results : List SendResult)

/-- `handle_request_event`, which has armed the connection for what its status
asks for; the answers are those to the calls that `do_event` then makes. -/
def handleRequestEvent (answers : Answers) (response : List UInt8) (c : Client) : Option Outcome :=
  match c.status, answers with
  | .reading, .reading reads => doEventReading reads response c
  | .writing, .writing results => some (doEventWriting results c)
  | _, _ => none

/-- One client that does not pipeline, and the connection it uses. -/
structure Exchange where
  client : Client
  todo : List (List UInt8)
  incoming : List UInt8 := []
  sent : List (List UInt8) := []
  /-- Requests handed to `process_command`, and the responses given to them. -/
  handed : List (List UInt8) := []
  responses : List (List UInt8) := []
  accepted : List UInt8 := []
  lost : Bool := false

/-- The results of `send` that a working connection gives: some of the bytes that
are left, any number of times, or `EAGAIN`. -/
def Sends : List SendResult → Nat → Prop
  | [], left => left = 0
  | .accepted count :: results, left => 0 < count ∧ count ≤ left ∧ Sends results (left - count)
  | .again :: results, left => left ≠ 0 ∧ results = []
  | .failed :: _, _ | .closed :: _, _ => False

def handle (s : Exchange) (unread : List UInt8) (response : List UInt8) : Option Outcome → Exchange
  | none => { s with lost := true }
  | some o =>
      { s with
        client := o.client
        incoming := unread
        handed := s.handed ++ o.handed.toList
        responses := s.responses ++ o.handed.toList.map (fun _ => response)
        accepted := s.accepted ++ o.sent
        lost := o.client.status == .ended }

inductive Step : Exchange → Exchange → Prop
  /-- The next request, once the whole response to the last one has arrived. -/
  | request {s : Exchange} {r : List UInt8} {rest : List (List UInt8)} (htodo : s.todo = r :: rest)
      (hanswered : s.responses.length = s.sent.length)
      (harrived : s.accepted = s.responses.flatten) :
      Step s { s with todo := rest, incoming := s.incoming ++ r, sent := s.sent ++ [r] }
  | readable {s : Exchange} {chunks : List (List UInt8)} {unread response : List UInt8}
      (hlive : s.lost = false)
      (hstatus : s.client.status = .reading) (hchunks : ∀ bytes ∈ chunks, bytes ≠ [])
      (hincoming : s.incoming = chunks.flatten ++ unread) (hresponse : response ≠ []) :
      Step s (handle s unread response
        (handleRequestEvent (.reading ⟨chunks, .again⟩) response s.client))
  | writable {s : Exchange} {results : List SendResult} (hlive : s.lost = false)
      (hstatus : s.client.status = .writing) (hsends : Sends results s.client.left) :
      Step s (handle s s.incoming [] (handleRequestEvent (.writing results) [] s.client))

def Started (requests : List (List UInt8)) (s : Exchange) : Prop :=
  ∃ req, s = { client := { req }, todo := requests }

end Mangosteen.Connection
