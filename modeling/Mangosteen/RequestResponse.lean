import Mathlib.Data.List.Basic
import Mangosteen.Connection

namespace Mangosteen.RequestResponse

open Connection Transition

/-- A request as the protocol has it: three bytes at least, room for one more in
the buffer, and one end marker, at its end. -/
structure Framed (r : List UInt8) : Prop where
  three_le : 3 ≤ r.length
  lt_max : r.length < maxRequestSize
  ending : r[r.length - 2]? = some 13 ∧ r[r.length - 1]? = some 10
  single : ∀ i, r[i]? = some 13 → r[i + 1]? = some 10 → i + 2 = r.length

section Buffer

variable {c : Client} {req : Nat → UInt8} {n : Nat} {bytes : List UInt8}

theorem range_copyIn :
    (List.range (n + bytes.length)).map (copyIn req n bytes) = (List.range n).map req ++ bytes := by
  refine List.ext_getElem (by simp) fun i h h' => ?_
  simp only [List.getElem_map, List.getElem_range, List.getElem_append, List.length_map,
    List.length_range, copyIn]
  split
  · rename_i hle
    have hlt : i - n < bytes.length := by simp at h; omega
    rw [dif_neg (by omega), List.getD_eq_getElem?_getD, List.getElem?_eq_getElem hlt,
      Option.getD_some]
  · rename_i hle
    rw [dif_pos (by omega)]

@[simp] theorem length_request : c.request.length = c.bytesRead := by simp [Client.request]

theorem getElem?_request {i : Nat} (h : i < c.bytesRead) : c.request[i]? = some (c.req i) := by
  simp [Client.request, h]

theorem room_eq (h : c.bytesRead ≤ maxRequestSize) : c.room = maxRequestSize - c.bytesRead := by
  simp only [Client.room, maxRequestSize] at h ⊢
  omega

theorem request_receive (c : Client) (bytes : List UInt8) :
    (c.receive bytes).request = c.request ++ bytes := range_copyIn

theorem readChunks_eq (chunks : List (List UInt8))
    (h : c.bytesRead + chunks.flatten.length < maxRequestSize) :
    ∃ c', readChunks chunks c = some c' ∧ c'.request = c.request ++ chunks.flatten ∧
    c'.status = c.status := by
  have hroom : c.room ≠ 0 := by
    rw [room_eq (by omega)]
    omega
  induction chunks generalizing c with
  | nil => exact ⟨c, by rw [readChunks, if_neg hroom], by simp, rfl⟩
  | cons bytes chunks ih =>
      rw [List.flatten_cons, List.length_append] at h
      have hread : (c.receive bytes).bytesRead = c.bytesRead + bytes.length := rfl
      have hnext : (c.receive bytes).room ≠ 0 := by
        rw [room_eq (by omega)]
        omega
      obtain ⟨c', hc', hreq, hst⟩ := @ih (c.receive bytes) (by omega) hnext
      refine ⟨c', ?_, ?_, hst⟩
      · rw [readChunks, if_neg hroom, if_neg (by omega), hc']
      · rw [hreq, List.flatten_cons, ← List.append_assoc, request_receive]

theorem finished_iff : finished c = true ↔ 2 < c.bytesRead ∧ c.request[c.bytesRead - 2]? = some 13 ∧
    c.request[c.bytesRead - 1]? = some 10 := by
  simp only [finished, Bool.and_eq_true, decide_eq_true_eq, beq_iff_eq, and_assoc]
  refine and_congr_right fun h => ?_
  rw [getElem?_request (by omega), getElem?_request (by omega), Option.some_inj, Option.some_inj]

theorem finished_iff_whole {r rest : List UInt8} (hr : Framed r) (h : c.request ++ rest = r) :
    finished c = true ↔ rest = [] := by
  have hlen : c.bytesRead + rest.length = r.length := by
    rw [← h, List.length_append, length_request]
  have hget : ∀ i, i < c.bytesRead → c.request[i]? = r[i]? := fun i hi => by
    rw [← h, List.getElem?_append_left (by simpa using hi)]
  rw [finished_iff]
  constructor
  · rintro ⟨hlt, h13, h10⟩
    rw [hget _ (by omega)] at h13 h10
    have hone :=
      hr.single (c.bytesRead - 2) h13 (by rwa [show c.bytesRead - 2 + 1 = c.bytesRead - 1 by omega])
    exact List.length_eq_zero_iff.mp (by omega)
  · rintro rfl
    have hthree := hr.three_le
    simp only [List.length_nil, Nat.add_zero] at hlen
    rw [hget _ (by omega), hget _ (by omega), hlen]
    exact ⟨by omega, hr.ending⟩

end Buffer

section Sending

variable {c : Client}

theorem sendLoop_eq {results : List SendResult} {left : Nat} (sent : List UInt8)
    (h : Sends results left) (hleft : left ≤ c.responseLen) :
    ∃ left', left' ≤ left ∧ sendLoop c results left sent = (c.status, left',
      sent ++ (c.responceBuffer.drop (c.responseLen - left)).take (left - left')) := by
  induction results generalizing left sent with
  | nil => exact ⟨left, Nat.le_refl _, by simp [sendLoop]⟩
  | cons r results ih =>
      cases r with
      | accepted count =>
          obtain ⟨hpos, hcount, hrest⟩ := h
          obtain ⟨left', hle, heq⟩ :=
            ih (sent ++ (c.responceBuffer.drop (c.responseLen - left)).take count) hrest (by omega)
          refine ⟨left', by omega, ?_⟩
          rw [sendLoop, if_neg (by omega), heq]
          have hdrop : c.responseLen - (left - count) = c.responseLen - left + count := by omega
          have htake : left - left' = count + (left - count - left') := by omega
          rw [htake, List.take_add, List.append_assoc, hdrop, ← List.drop_drop]
      | again => exact ⟨left, Nat.le_refl _, by simp [sendLoop, h.1]⟩
      | failed => exact h.elim
      | closed => exact h.elim

end Sending

/-- The request bytes that are still on their way, and what is in the buffer of
the last one. -/
inductive Unread (s : Exchange) : Prop
  | nothing (hsent : s.sent = s.handed) (hincoming : s.incoming = [])
      (hread : s.client.bytesRead = 0)
  | rest (r : List UInt8) (hsent : s.sent = s.handed ++ [r])
      (hr : s.client.request ++ s.incoming = r) (hincoming : s.incoming ≠ [])

/-- The response that is being sent. -/
structure Unsent (s : Exchange) (earlier : List (List UInt8)) : Prop where
  responses : s.responses = earlier ++ [s.client.responceBuffer]
  length : s.client.responceBuffer.length = s.client.responseLen
  pos : 0 < s.client.left
  le : s.client.left ≤ s.client.responseLen
  accepted : s.accepted =
    earlier.flatten ++ s.client.responceBuffer.take (s.client.responseLen - s.client.left)

inductive Turn (s : Exchange) : Prop
  | reading (hstatus : s.client.status = .reading) (hunread : Unread s)
      (haccepted : s.accepted = s.responses.flatten)
  | writing (hstatus : s.client.status = .writing) (hsent : s.sent = s.handed)
      (hincoming : s.incoming = [])
      (hread : s.client.bytesRead = 0) (earlier : List (List UInt8)) (hunsent : Unsent s earlier)

structure ExchangeInv (s : Exchange) : Prop where
  live : s.lost = false
  framed : ∀ r ∈ s.todo ++ s.sent, Framed r
  answered : s.responses.length = s.handed.length
  turn : Turn s

theorem ExchangeInv.request {s : Exchange} {r : List UInt8} {rest : List (List UInt8)}
    (h : ExchangeInv s)
    (htodo : s.todo = r :: rest) (hanswered : s.responses.length = s.sent.length)
    (harrived : s.accepted = s.responses.flatten) :
    ExchangeInv { s with todo := rest, incoming := s.incoming ++ r, sent := s.sent ++ [r] } := by
  have hr : Framed r := h.framed r (by simp [htodo])
  refine ⟨h.live, fun x hx => h.framed x ?_, h.answered, ?_⟩
  · rw [htodo]
    simp only [List.mem_append, List.mem_cons] at hx ⊢
    tauto
  · cases h.turn with
    | reading hstatus hunread haccepted =>
        cases hunread with
        | nothing hsent hincoming hread =>
            refine .reading hstatus (.rest r (by simp [hsent]) ?_ ?_) haccepted
            · simp [Client.request, hread, hincoming]
            · have := hr.three_le
              rw [hincoming, List.nil_append]
              rintro rfl
              simp at this
        | rest r' hsent _ _ =>
            rw [h.answered, hsent, List.length_append] at hanswered
            simp at hanswered
    | writing _ _ _ _ earlier hunsent =>
        -- the response is not yet out as a whole
        have hlen := congrArg List.length harrived
        have hpos := hunsent.pos
        have hle := hunsent.le
        rw [hunsent.accepted, hunsent.responses] at hlen
        simp only [List.length_append, List.length_take, List.flatten_append,
          List.flatten_cons, List.flatten_nil, List.append_nil, hunsent.length] at hlen
        omega

section Events

variable {c c' : Client} {chunks : List (List UInt8)} {response : List UInt8}

theorem doEventReading_unfinished (h : readChunks chunks c = some c') (hst : c'.status = .reading)
    (hf : finished c' = false) :
    doEventReading ⟨chunks, .again⟩ response c = some { client := c' } := by
  simp [doEventReading, h, hst, hf]

/-- The client after `process_command` has answered. -/
def answering (response : List UInt8) (c : Client) : Client :=
  { c with
    responseLen := response.length
    left := response.length
    responceBuffer := response
    bytesRead := 0
    status := .writing }

theorem doEventReading_finished (h : readChunks chunks c = some c') (hst : c'.status = .reading)
    (hf : finished c' = true) (hr : response ≠ []) :
    doEventReading ⟨chunks, .again⟩ response c =
      some { client := answering response c', handed := some c'.request } := by
  simp [doEventReading, h, hst, hf, prepareClientResponse, hr, answering]

theorem doEventWriting_eq {results : List SendResult} {left : Nat} {sent : List UInt8}
    (hst : c.status = .writing)
    (h : sendLoop c results c.left [] = (c.status, left, sent)) : doEventWriting results c =
      if left = 0 then
      { client := { c with responseLen := 0, responceBuffer := [], status := .reading }, sent }
      else { client := { c with left }, sent } := by
  simp only [doEventWriting, h, hst]
  rfl

end Events

theorem ExchangeInv.readable {s : Exchange} {chunks : List (List UInt8)}
    {unread response : List UInt8}
    (h : ExchangeInv s) (hstatus : s.client.status = .reading)
    (hincoming : s.incoming = chunks.flatten ++ unread) (hresponse : response ≠ []) :
    ExchangeInv (handle s unread response
      (handleRequestEvent (.reading ⟨chunks, .again⟩) response s.client)) := by
  have hevent : handleRequestEvent (.reading ⟨chunks, .again⟩) response s.client =
      doEventReading ⟨chunks, .again⟩ response s.client := by
        simp only [handleRequestEvent, hstatus]
  rw [hevent]
  cases h.turn with
  | writing hwriting => rw [hstatus] at hwriting; cases hwriting
  | reading _ hunread haccepted =>
      cases hunread with
      | nothing hsent hempty hread =>
          obtain ⟨hflat, hun⟩ := List.append_eq_nil_iff.mp (hincoming.symm.trans hempty)
          obtain ⟨c', hc', hreq, hst⟩ := readChunks_eq (c := s.client) chunks
            (by rw [hread, hflat]; decide)
          have hzero : c'.bytesRead = 0 := by
            rw [← length_request, hreq, List.length_append, length_request, hread, hflat]
            rfl
          rw [doEventReading_unfinished hc' (hst.trans hstatus) (by simp [finished, hzero])]
          refine ⟨by simp [handle, hst, hstatus], h.framed, by simpa [handle] using h.answered, ?_⟩
          refine .reading (hst.trans hstatus) (.nothing ?_ hun hzero) ?_
          · simpa [handle] using hsent
          · simpa [handle] using haccepted
      | rest r hsent hr _ =>
          have hframed : Framed r := h.framed r (by simp [hsent])
          have hlen := congrArg List.length hr
          have hmax := hframed.lt_max
          rw [hincoming] at hr hlen
          simp only [List.length_append, length_request] at hlen
          obtain ⟨c', hc', hreq, hst⟩ := readChunks_eq (c := s.client) chunks (by omega)
          rw [← List.append_assoc, ← hreq] at hr
          by_cases hun : unread = []
          · rw [doEventReading_finished hc' (hst.trans hstatus)
              ((finished_iff_whole hframed hr).mpr hun) hresponse]
            have hwhole : c'.request = r := by rwa [hun, List.append_nil] at hr
            refine ⟨rfl, h.framed, by simp [handle, h.answered], ?_⟩
            refine .writing rfl ?_ hun rfl s.responses
              ⟨?_, rfl, List.length_pos_iff.mpr hresponse, Nat.le_refl _, ?_⟩
            · simp [handle, hsent, hwhole]
            · simp [handle, answering]
            · simp [handle, answering, haccepted]
          · have hnot : finished c' = false := by
              rw [← Bool.not_eq_true, finished_iff_whole hframed hr]
              exact hun
            rw [doEventReading_unfinished hc' (hst.trans hstatus) hnot]
            refine ⟨by simp [handle, hst, hstatus], h.framed, by
              simpa [handle] using h.answered, ?_⟩
            refine .reading (hst.trans hstatus) (.rest r ?_ hr hun) ?_
            · simpa [handle] using hsent
            · simpa [handle] using haccepted

theorem ExchangeInv.writable {s : Exchange} {results : List SendResult} (h : ExchangeInv s)
    (hstatus : s.client.status = .writing) (hsends : Sends results s.client.left) :
    ExchangeInv (handle s s.incoming [] (handleRequestEvent (.writing results) [] s.client)) := by
  have hevent : handleRequestEvent (.writing results) [] s.client =
      some (doEventWriting results s.client) := by
    simp only [handleRequestEvent, hstatus]
  rw [hevent]
  cases h.turn with
  | reading hreading => rw [hstatus] at hreading; cases hreading
  | writing _ hsent hincoming hread earlier hu =>
      obtain ⟨left, hle, hloop⟩ := sendLoop_eq (c := s.client) [] hsends hu.le
      have hpiece :
          s.accepted ++ (s.client.responceBuffer.drop (s.client.responseLen - s.client.left)).take
          (s.client.left - left) = earlier.flatten ++ s.client.responceBuffer.take
          (s.client.responseLen - left) := by
        have hle' := hu.le
        rw [hu.accepted, List.append_assoc, ← List.take_add]
        congr 2
        omega
      rw [List.nil_append] at hloop
      rw [doEventWriting_eq hstatus hloop]
      by_cases hleft : left = 0
      · rw [if_pos hleft]
        refine ⟨rfl, h.framed, by simpa [handle] using h.answered, ?_⟩
        refine .reading rfl (.nothing (by simpa [handle] using hsent) hincoming hread) ?_
        rw [hleft] at hpiece
        simpa [handle, hu.responses, hleft, ← hu.length] using hpiece
      · rw [if_neg hleft]
        refine ⟨by simp [handle, hstatus], h.framed, by simpa [handle] using h.answered, ?_⟩
        refine .writing hstatus (by simpa [handle] using hsent) hincoming hread earlier ?_
        exact ⟨by simpa [handle] using hu.responses, hu.length, Nat.pos_of_ne_zero hleft,
          Nat.le_trans hle hu.le, hpiece⟩

theorem exchangeInv_of_reachable {requests : List (List UInt8)} {s : Exchange}
    (hr : ∀ r ∈ requests, Framed r) (h : Reachable (Started requests) Step s) : ExchangeInv s := by
  refine h.invariant ?_ fun s t hs hst => ?_
  · rintro _ ⟨req, rfl⟩
    exact ⟨rfl, by simpa using hr, rfl, .reading rfl (.nothing rfl rfl rfl) rfl⟩
  · cases hst with
    | request htodo hanswered harrived => exact hs.request htodo hanswered harrived
    | readable _ hstatus _ hincoming hresponse => exact hs.readable hstatus hincoming hresponse
    | writable _ hstatus hsends => exact hs.writable hstatus hsends

/-- What the exchange of requests and responses promises at any moment. -/
structure InStep (s : Exchange) : Prop where
  live : s.lost = false
  /-- Requests are handed over as they were sent, one after the other. -/
  handed : s.handed <+: s.sent
  outstanding : s.sent.length ≤ s.handed.length + 1
  delivered : s.incoming = [] → s.handed = s.sent
  /-- The responses go out byte by byte. -/
  answered : s.responses.length = s.handed.length
  accepted : s.accepted <+: s.responses.flatten
  complete : s.client.status = .reading → s.accepted = s.responses.flatten

/-- A client that does not pipeline has its requests handed over, and the
responses sent back, byte for byte, however both are cut into pieces. -/
theorem request_response (requests : List (List UInt8)) (hr : ∀ r ∈ requests, Framed r)
    (s : Exchange) (h : Reachable (Started requests) Step s) : InStep s := by
  have hi := exchangeInv_of_reachable hr h
  cases hi.turn with
  | reading hstatus hunread haccepted =>
      refine ⟨hi.live, ?_, ?_, ?_, hi.answered, by simp only [haccepted, List.prefix_rfl],
        fun _ => haccepted⟩
      all_goals cases hunread with
      | nothing hsent _ _ => simp [hsent]
      | rest r hsent _ hincoming => simp [hsent, hincoming]
  | writing hstatus hsent hincoming _ earlier hu =>
      refine ⟨hi.live, by simp only [hsent, List.prefix_rfl], by rw [hsent]; exact Nat.le_succ _,
        fun _ => hsent.symm, hi.answered, ?_, ?_⟩
      · rw [hu.accepted, hu.responses, List.flatten_append, List.flatten_singleton]
        exact List.prefix_append_right_inj _ |>.mpr (List.take_prefix _ _)
      · rw [hstatus]
        intro he
        cases he

theorem framed_get : Framed [71, 13, 10] := by
  refine ⟨by decide, by decide, by decide, fun i h13 _ => ?_⟩
  match i with
  | 0 => cases h13
  | 1 => rfl
  | 2 => cases h13
  | _ + 3 => cases h13

theorem request_response_split : InStep (handle
    { client := { req := fun _ => 0 }, todo := [], incoming := [71, 13, 10],
      sent := [[71, 13, 10]] } [10] [79, 75]
    (handleRequestEvent (.reading ⟨[[71], [13]], .again⟩) [79, 75] { req := fun _ => 0 })) := by
  refine request_response [[71, 13, 10]] (by simpa using framed_get) _ ?_
  refine .next (.next (.start ⟨fun _ => 0, rfl⟩) (.request rfl rfl rfl)) ?_
  exact .readable rfl rfl (by simp) rfl (by simp)

end Mangosteen.RequestResponse
