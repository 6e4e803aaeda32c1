import Mangosteen.RequestResponse

namespace Mangosteen.RequestBuffer

open Connection Transition RequestResponse

/-- The counts that `read` is asked for within one event. -/
def asked : List (List UInt8) → Client → List Nat
  | [], c => if c.room = 0 then [] else [c.room]
  | bytes :: chunks, c =>
      if c.room = 0 then []
      else if maxRequestSize < (c.receive bytes).bytesRead then [c.room]
      else c.room :: asked chunks (c.receive bytes)

/-- Data that `read` may return: something, and no more than it was asked for. -/
def Delivers : List (List UInt8) → Client → Prop
  | [], _ => True
  | bytes :: chunks, c => bytes ≠ [] ∧ bytes.length ≤ c.room ∧ Delivers chunks (c.receive bytes)

/-- A connection that waits for data. Its buffer has `MAX_REQUEST_SIZE` bytes. -/
structure Receiving (c : Client) : Prop where
  status : c.status = .reading
  fits : c.bytesRead ≤ maxRequestSize

/-- The event brings a request to its end. -/
def Completes (reads : Reads) (c : Client) : Prop :=
  reads.last = .again ∧ ∃ c', readChunks reads.chunks c = some c' ∧ finished c' = true

/-- A client that sends too much loses its connection, and nothing else happens. -/
structure EndsOversized (reads : Reads) (c : Client) : Prop where
  asserts : (readChunks reads.chunks c).isSome
  asks : ∀ n ∈ asked reads.chunks c, 0 < n
  ends : maxRequestSize ≤ c.bytesRead + reads.chunks.flatten.length → ¬ Completes reads c →
    ∀ response, ∃ o, doEventReading reads response c = some o ∧ o.client.status = .ended

section Reading

variable {c c' : Client} {chunks : List (List UInt8)}

theorem asked_pos (chunks : List (List UInt8)) (c : Client) : ∀ n ∈ asked chunks c, 0 < n := by
  induction chunks generalizing c with
  | nil =>
      intro n hn
      rw [asked] at hn
      split at hn
      · cases hn
      · rename_i hroom
        rw [List.mem_singleton.mp hn]
        exact Nat.pos_of_ne_zero hroom
  | cons bytes chunks ih =>
      intro n hn
      rw [asked] at hn
      split at hn
      · cases hn
      · rename_i hroom
        split at hn
        · rw [List.mem_singleton.mp hn]
          exact Nat.pos_of_ne_zero hroom
        · rcases List.mem_cons.mp hn with rfl | hn
          · exact Nat.pos_of_ne_zero hroom
          · exact ih _ n hn

theorem Delivers.total_le (h : Delivers chunks c) (hc : c.bytesRead ≤ maxRequestSize) :
    c.bytesRead + chunks.flatten.length ≤ maxRequestSize := by
  induction chunks generalizing c with
  | nil => simpa using hc
  | cons bytes chunks ih =>
      obtain ⟨-, hlen, hrest⟩ := h
      rw [room_eq hc] at hlen
      have hread : (c.receive bytes).bytesRead = c.bytesRead + bytes.length := rfl
      have htotal := ih hrest (by omega)
      rw [List.flatten_cons, List.length_append]
      omega

/-- With the buffer full, the check for a request that is too big is not reached:
the assertion comes first. -/
theorem readChunks_full (h : Delivers chunks c) (hc : c.bytesRead ≤ maxRequestSize)
    (hfull : c.bytesRead + chunks.flatten.length = maxRequestSize) :
    readChunks chunks c = none := by
  induction chunks generalizing c with
  | nil =>
      have hroom : c.room = 0 := by
        rw [room_eq hc, ← hfull]
        simp
      rw [readChunks, if_pos hroom]
  | cons bytes chunks ih =>
      obtain ⟨-, hlen, hrest⟩ := h
      rw [room_eq hc] at hlen
      have hread : (c.receive bytes).bytesRead = c.bytesRead + bytes.length := rfl
      rw [List.flatten_cons, List.length_append] at hfull
      rw [readChunks]
      split
      · rfl
      · rw [if_neg (by omega)]
        exact ih hrest (by omega) (by omega)

end Reading

/-- Oversized requests end their connection as long as there are none: what has
been received is less than `MAX_REQUEST_SIZE` bytes. -/
theorem oversized_request_ends (c : Client) (hc : Receiving c) (reads : Reads)
    (h : Delivers reads.chunks c) :
    EndsOversized reads c ↔ c.bytesRead + reads.chunks.flatten.length < maxRequestSize := by
  constructor
  · intro hends
    refine Nat.lt_of_le_of_ne (h.total_le hc.fits) fun hfull => ?_
    have hsome := hends.asserts
    rw [readChunks_full h hc.fits hfull] at hsome
    cases hsome
  · intro hlt
    obtain ⟨c', hc', -, -⟩ := readChunks_eq reads.chunks hlt
    exact ⟨by rw [hc']; rfl, asked_pos reads.chunks c, fun hle => absurd hle (Nat.not_le.mpr hlt)⟩

theorem receiving_fresh (req : Nat → UInt8) : Receiving { req } := ⟨rfl, Nat.zero_le _⟩

theorem oversized_request_ends_short :
    EndsOversized ⟨[[71], [13, 10]], .again⟩ { req := fun _ => 0 } :=
  (oversized_request_ends { req := fun _ => 0 } (receiving_fresh _) ⟨[[71], [13, 10]], .again⟩
    ⟨by simp, by decide, by simp, by decide, trivial⟩).mpr (by decide)

/-- 2048 bytes in one piece stop the server. -/
theorem not_oversized_request_ends :
    ¬ ∀ c, Receiving c → ∀ reads, Delivers reads.chunks c → EndsOversized reads c := by
  intro hall
  have hlength : (List.replicate maxRequestSize (0 : UInt8)).length = maxRequestSize :=
    List.length_replicate
  have hdelivers : Delivers [List.replicate maxRequestSize 0] { req := fun _ => 0 } := by
    refine ⟨List.ne_nil_of_length_pos (by rw [hlength]; decide), ?_, trivial⟩
    rw [hlength, room_eq (Nat.zero_le _)]
    exact Nat.le_refl _
  have hends :=
    hall { req := fun _ => 0 } (receiving_fresh _)
    ⟨[List.replicate maxRequestSize 0], .again⟩ hdelivers
  have hsome := hends.asserts
  rw [readChunks_full hdelivers (Nat.zero_le _) (by simp)] at hsome
  cases hsome

/-- A connection, with the requests that have been handed over. -/
structure Conn where
  client : Client
  earlier : List (List UInt8) := []

def Answers.Delivered : Answers → Client → Prop
  | .reading reads, c => Delivers reads.chunks c
  | .writing _, _ => True

/-- What `handle_accept_events` sets up, with a buffer as `malloc` returns it. -/
def Accepted (req : Nat → UInt8) (s : Conn) : Prop := s = { client := { req } }

inductive Event : Conn → Conn → Prop
  | handled {s : Conn} {answers : Answers} {response : List UInt8} {o : Outcome}
      (hanswers : Answers.Delivered answers s.client)
      (ho : handleRequestEvent answers response s.client = some o) :
      Event s { client := o.client, earlier := s.earlier ++ o.handed.toList }

/-- The byte that earlier requests have left at a place of the buffer: that of the
last one long enough to reach it. -/
def leftover (req : Nat → UInt8) (earlier : List (List UInt8)) (i : Nat) : UInt8 :=
  (earlier.reverse.findSome? (·[i]?)).getD (req i)

/-- The client when `process_command` is called, if the event comes to it. -/
def loaded (reads : Reads) (c : Client) : Option Client := do
  let c ← readChunks reads.chunks c
  if c.status = .ended then none
  else
    match reads.last with
    | .again => if finished c then some c else none
    | .failed | .eof => none

/-- The buffer that the callback is given. -/
def buffer (c : Client) : List UInt8 := (List.range maxRequestSize).map c.req

section Buffer

variable {req : Nat → UInt8} {earlier : List (List UInt8)} {c c' : Client} {s : Conn}

theorem maxRequestSize_pos : 0 < maxRequestSize := by decide

theorem leftover_concat (r : List UInt8) (i : Nat) :
    leftover req (earlier ++ [r]) i = r[i]?.getD (leftover req earlier i) := by
  rw [leftover, List.reverse_append, List.reverse_singleton,
    List.singleton_append, List.findSome?_cons]
  cases r[i]? <;> rfl

/-- What is read of the current request lies over what the earlier ones left. -/
structure Layered (req : Nat → UInt8) (earlier : List (List UInt8)) (c : Client) : Prop where
  lt_max : c.bytesRead < maxRequestSize
  bytes : ∀ i, c.req i = c.request[i]?.getD (leftover req earlier i)

theorem Layered.receive (h : Layered req earlier c) {bytes : List UInt8}
    (hfits : c.bytesRead + bytes.length < maxRequestSize) :
    Layered req earlier (c.receive bytes) := by
  refine ⟨hfits, fun i => ?_⟩
  rw [request_receive]
  rcases Nat.lt_or_ge i c.bytesRead with hi | hi
  · rw [List.getElem?_append_left (by simpa using hi), ← h.bytes i]
    exact if_neg (Nat.not_le.mpr hi)
  · have hrest : c.request[i]? = none := List.getElem?_eq_none (by simpa using hi)
    have hold := h.bytes i
    rw [hrest, Option.getD_none] at hold
    rw [List.getElem?_append_right (by simpa using hi), length_request, ← hold]
    have hnew : (c.receive bytes).req i = bytes.getD (i - c.bytesRead) (c.req i) := if_pos hi
    rw [hnew, List.getD_eq_getElem?_getD]

theorem Layered.readChunks {chunks : List (List UInt8)} (h : Layered req earlier c)
    (hd : Delivers chunks c)
    (hc : readChunks chunks c = some c') : Layered req earlier c' ∧ c'.status = c.status := by
  induction chunks generalizing c with
  | nil =>
      rw [Connection.readChunks] at hc
      split at hc
      · cases hc
      · obtain rfl := Option.some.inj hc
        exact ⟨h, rfl⟩
  | cons bytes chunks ih =>
      have htotal := Delivers.total_le hd (Nat.le_of_lt h.lt_max)
      rw [List.flatten_cons, List.length_append] at htotal
      have hread : (c.receive bytes).bytesRead = c.bytesRead + bytes.length := rfl
      rw [Connection.readChunks] at hc
      split at hc
      · cases hc
      · rw [if_neg (by omega)] at hc
        rcases Nat.lt_or_ge (c.bytesRead + bytes.length) maxRequestSize with hlt | hge
        · have hrest := ih (h.receive hlt) hd.2.2 hc
          exact hrest
        · rw [readChunks_full hd.2.2 (by omega) (by omega)] at hc
          cases hc

theorem doEventReading_cases {reads : Reads} {response : List UInt8} {o : Outcome}
    (h : doEventReading reads response c = some o) :
    (∃ c', loaded reads c = some c' ∧ o.handed = some c'.request ∧
      o.client = answering response c') ∨
      ∃ c', Connection.readChunks reads.chunks c = some c' ∧ o.handed = none ∧
      loaded reads c = none ∧
        (o.client = c' ∨ o.client = { c' with status := .ended }) := by
  obtain ⟨c', hc', h⟩ := Option.bind_eq_some_iff.mp h
  have hloaded : loaded reads c = if c'.status = .ended then none else
      match reads.last with
      | .again => if finished c' then some c' else none
      | .failed | .eof => none := by
    rw [loaded, hc']
    rfl
  split at h
  · rename_i hended
    obtain rfl := Option.some.inj h
    exact .inr ⟨c', hc', rfl, by rw [hloaded, if_pos hended], .inl rfl⟩
  · rename_i hlive
    rw [if_neg hlive] at hloaded
    cases hlast : reads.last with
    | again =>
        rw [hlast] at h hloaded
        by_cases hf : finished c' = true
        · simp only [hf, if_true, prepareClientResponse] at h hloaded
          by_cases hr : response.length = 0
          · rw [if_pos hr] at h
            cases h
          · rw [if_neg hr] at h
            obtain rfl := Option.some.inj h
            exact .inl ⟨c', hloaded, rfl, rfl⟩
        · simp only [hf] at h hloaded
          obtain rfl := Option.some.inj h
          exact .inr ⟨c', hc', rfl, hloaded, .inl rfl⟩
    | failed =>
        rw [hlast] at h hloaded
        obtain rfl := Option.some.inj h
        exact .inr ⟨c', hc', rfl, hloaded, .inl rfl⟩
    | eof =>
        rw [hlast] at h hloaded
        obtain rfl := Option.some.inj h
        exact .inr ⟨c', hc', rfl, hloaded, .inr rfl⟩

theorem loaded_eq_some {reads : Reads} (h : loaded reads c = some c') :
    Connection.readChunks reads.chunks c = some c' := by
  obtain ⟨c₁, hc₁, h⟩ := Option.bind_eq_some_iff.mp h
  split at h
  · cases h
  · split at h
    · split at h
      · obtain rfl := Option.some.inj h
        exact hc₁
      · cases h
    · cases h
    · cases h

theorem doEventWriting_req (results : List SendResult) (c : Client) :
    (doEventWriting results c).client.req = c.req ∧
    (doEventWriting results c).client.bytesRead = c.bytesRead ∧
      (doEventWriting results c).handed = none := by
  simp only [doEventWriting]
  split
  · exact ⟨rfl, rfl, rfl⟩
  · split <;> exact ⟨rfl, rfl, rfl⟩

theorem Layered.congr (h : Layered req earlier c) (hreq : c'.req = c.req)
    (hread : c'.bytesRead = c.bytesRead) : Layered req earlier c' := by
  refine ⟨by rw [hread]; exact h.lt_max, fun i => ?_⟩
  rw [Client.request, hreq, hread]
  exact h.bytes i

theorem Layered.handed (h : Layered req earlier c) (response : List UInt8) :
    Layered req (earlier ++ [c.request]) (answering response c) := by
  refine ⟨maxRequestSize_pos, fun i => ?_⟩
  have hnone : (answering response c).request = [] := rfl
  rw [hnone, List.getElem?_nil, Option.getD_none, leftover_concat]
  exact h.bytes i

theorem layered_of_reachable (h : Reachable (Accepted req) Event s) :
    Layered req s.earlier s.client := by
  refine h.invariant (I := fun s => Layered req s.earlier s.client) ?_ fun s t hs hst => ?_
  · rintro _ rfl
    exact ⟨maxRequestSize_pos, fun i => rfl⟩
  · obtain ⟨hanswers, ho⟩ := hst
    rename_i answers response o
    rw [handleRequestEvent.eq_def] at ho
    split at ho
    · rename_i reads _
      rcases doEventReading_cases ho with ⟨c', hl, hh, hcl⟩ | ⟨c', hc', hh, -, hcl⟩
      · have hlayer := (hs.readChunks hanswers (loaded_eq_some hl)).1
        rw [hh, hcl]
        exact hlayer.handed response
      · have hlayer := (hs.readChunks hanswers hc').1
        rw [hh, Option.toList_none, List.append_nil]
        rcases hcl with hcl | hcl
        · rw [hcl]
          exact hlayer
        · rw [hcl]
          exact hlayer.congr rfl rfl
    · rename_i results _
      obtain rfl := Option.some.inj ho
      obtain ⟨hreq, hread, hh⟩ := doEventWriting_req results s.client
      rw [hh, Option.toList_none, List.append_nil]
      exact hs.congr hreq hread
    · cases ho

/-- The connections that wait for a request are all of the kind that `Receiving`
describes. -/
theorem receiving_of_reachable (h : Reachable (Accepted req) Event s)
    (hstatus : s.client.status = .reading) : Receiving s.client :=
  ⟨hstatus, Nat.le_of_lt (layered_of_reachable h).lt_max⟩

end Buffer

/-- A request comes to `process_command` after the earlier ones, on a connection
whose buffer was `req` at first. -/
def Arrives (req : Nat → UInt8) (earlier : List (List UInt8)) (c : Client) : Prop :=
  ∃ s reads, Reachable (Accepted req) Event s ∧ s.client.status = .reading ∧ s.earlier = earlier ∧
    Delivers reads.chunks s.client ∧ loaded reads s.client = some c

theorem Arrives.layered {req : Nat → UInt8} {earlier : List (List UInt8)} {c : Client}
    (h : Arrives req earlier c) : Layered req earlier c := by
  obtain ⟨s, reads, hs, -, rfl, hd, hl⟩ := h
  exact ((layered_of_reachable hs).readChunks hd (loaded_eq_some hl)).1

theorem buffer_eq_iff {c₁ c₂ : Client} :
    buffer c₁ = buffer c₂ ↔ ∀ i, i < maxRequestSize → c₁.req i = c₂.req i := by
  rw [buffer, buffer, List.map_inj_left]
  simp only [List.mem_range]

/-- Two histories that end with the same request give the callback the same buffer
exactly if they have left the same bytes behind the end of the request. -/
theorem request_buffer_same (req₁ req₂ : Nat → UInt8) (earlier₁ earlier₂ : List (List UInt8))
    (c₁ c₂ : Client)
    (h₁ : Arrives req₁ earlier₁ c₁) (h₂ : Arrives req₂ earlier₂ c₂)
    (hreq : c₁.request = c₂.request) : buffer c₁ = buffer c₂ ↔
      ∀ i, c₁.request.length ≤ i → i < maxRequestSize →
      leftover req₁ earlier₁ i = leftover req₂ earlier₂ i := by
  rw [buffer_eq_iff]
  constructor
  · intro hall i hle hlt
    have hbytes := hall i hlt
    rw [h₁.layered.bytes, h₂.layered.bytes, ← hreq, List.getElem?_eq_none hle] at hbytes
    exact hbytes
  · intro hall i hlt
    rw [h₁.layered.bytes, h₂.layered.bytes, ← hreq]
    rcases Nat.lt_or_ge i c₁.request.length with hi | hi
    · rw [List.getElem?_eq_getElem hi]
      rfl
    · rw [hall i hi hlt]

section Histories

/-- A connection whose buffer was all zero. -/
def zeroed : Client := { req := fun _ => 0 }

/-- The connection after a first request, and a response of one byte. -/
def second (first : List UInt8) : Conn where
  client :=
    { answering [79] (zeroed.receive first) with
      responseLen := 0, responceBuffer := [], status := .reading }
  earlier := [first]

theorem doEventReading_of_loaded {reads : Reads} {response : List UInt8} {c c' : Client}
    (h : loaded reads c = some c') (hr : response ≠ []) :
    doEventReading reads response c =
    some { client := answering response c', handed := some c'.request } := by
  obtain ⟨c₁, hc₁, h⟩ := Option.bind_eq_some_iff.mp h
  split at h
  · cases h
  · rename_i hlive
    split at h
    · rename_i hlast
      split at h
      · rename_i hf
        obtain rfl := Option.some.inj h
        simp [doEventReading, hc₁, hlive, hlast, hf, prepareClientResponse, hr, answering]
      · cases h
    · cases h
    · cases h

theorem reachable_second {first : List UInt8} (hd : Delivers [first] zeroed)
    (hl : loaded ⟨[first], .again⟩ zeroed = some (zeroed.receive first)) :
    Reachable (Accepted fun _ => 0) Event (second first) := by
  have hread : Reachable (Accepted fun _ => 0) Event
      { client := answering [79] (zeroed.receive first), earlier := [first] } := by
    have hevent := doEventReading_of_loaded hl (show [79] ≠ [] by simp)
    have hrequest : (zeroed.receive first).request = first := by
      rw [request_receive]
      rfl
    rw [hrequest] at hevent
    have hstep := @Event.handled { client := zeroed } (.reading ⟨[first], .again⟩) [79] _ hd hevent
    exact .next (.start rfl) hstep
  have hstep :=
    @Event.handled { client := answering [79] (zeroed.receive first), earlier := [first] }
    (.writing [.accepted 1]) [] _ trivial rfl
  exact hread.next hstep

theorem arrives_first (r : List UInt8) (hd : Delivers [r] zeroed)
    (hl : loaded ⟨[r], .again⟩ zeroed = some (zeroed.receive r)) :
    Arrives (fun _ => 0) [] (zeroed.receive r) :=
  ⟨{ client := zeroed }, ⟨[r], .again⟩, .start rfl, rfl, rfl, hd, hl⟩

theorem arrives_second (first r : List UInt8) (hf : Delivers [first] zeroed)
    (hlf : loaded ⟨[first], .again⟩ zeroed = some (zeroed.receive first))
    (hd : Delivers [r] (second first).client)
    (hl : loaded ⟨[r], .again⟩ (second first).client = some ((second first).client.receive r)) :
    Arrives (fun _ => 0) [first] ((second first).client.receive r) :=
  ⟨second first, ⟨[r], .again⟩, reachable_second hf hlf, rfl, rfl, hd, hl⟩

end Histories

theorem request_buffer_same_longer :
    buffer (zeroed.receive [119, 120, 121, 13, 10]) =
    buffer ((second [97, 13, 10]).client.receive [119, 120, 121, 13, 10]) := by
  refine (request_buffer_same (fun _ => 0) (fun _ => 0) [] [[97, 13, 10]] _ _
    (arrives_first _ ⟨by simp, by decide, trivial⟩ rfl)
    (arrives_second _ _ ⟨by simp, by decide, trivial⟩ rfl ⟨by simp, by decide, trivial⟩ rfl)
    rfl).mpr fun i hi _ => ?_
  have hshort : ([97, 13, 10] : List UInt8)[i]? = none :=
    List.getElem?_eq_none (Nat.le_trans (by decide) hi)
  simp [leftover, hshort]

/-- Behind a request of three bytes the callback finds the end of an earlier one. -/
theorem not_request_buffer_same : ¬ ∀ req₁ req₂ earlier₁ earlier₂ c₁ c₂, Arrives req₁ earlier₁ c₁ →
    Arrives req₂ earlier₂ c₂ → c₁.request = c₂.request → buffer c₁ = buffer c₂ := by
  intro hall
  have hsame := hall _ _ _ _ _ _ (arrives_first [120, 13, 10] ⟨by simp, by decide, trivial⟩ rfl)
    (arrives_second [97, 98, 99, 100, 13, 10] [120, 13, 10] ⟨by simp, by decide, trivial⟩ rfl
      ⟨by simp, by decide, trivial⟩ rfl) rfl
  have hbyte := buffer_eq_iff.mp hsame 3 (by decide)
  exact absurd hbyte (by decide)

end Mangosteen.RequestBuffer
