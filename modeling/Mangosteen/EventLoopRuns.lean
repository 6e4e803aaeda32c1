import Mathlib.Data.List.Nodup
import Mangosteen.EventLoop

namespace Mangosteen.EventLoop

open Connection Transition

variable {T : Type} {s s' : State T} {t t' : T} {l l' : Loop} {a b fd : Nat}
  {e d : Entry T} {i : Interest} {pc : Pc} {batch : List Ready}

/-- What no thread changes for the others. Connections are not mixed up, and clients
are lost once. -/
structure Sound (s : State T) : Prop where
  peers : ∀ {a b e d}, s.heap a = some e → s.heap b = some d → e.peer = d.peer → a = b
  peer_lt : ∀ {a e}, s.heap a = some e → e.peer < s.connections
  file_lt : ∀ {fd k}, s.files fd = some (.connection k) → k < s.connections
  file : ∀ {fd fd' k}, s.files fd = some (.connection k) →
    s.files fd' = some (.connection k) → fd = fd'
  lost : (s.lost.map (·.1)).Nodup
  lost_live : ∀ x ∈ s.lost, ∃ e, s.heap x.1 = some e
  history : ∀ {a e}, s.heap a = some e →
    ∃ req, Reachable (RequestBuffer.Accepted req) RequestBuffer.Event ⟨e.client, e.earlier⟩

def Unarmed (l : Loop) (fd : Nat) : Prop := ∀ i, l.interest fd = some i → i.armed = false

/-- An entry of the `epoll` instance. -/
def Registered (s : State T) (t : T) (l : Loop) (fd : Nat) (i : Interest) : Prop :=
  fd = l.listenfd ∧ i.oneshot = false ∧ i.data % 2 ^ 32 = fd ∨ ∃ e, Connected s t i.data e ∧
  e.connfd = fd ∧ i.oneshot = true ∧
    (i.armed = true → i.events = asks e.client.status ∧ e.client.status ≠ .ended)

/-- An event that has not been handled. -/
def Pending (s : State T) (t : T) (l : Loop) (r : Ready) : Prop :=
  ∃ e, Connected s t r.data e ∧ e.connfd = r.fd ∧ Unarmed l r.fd ∧ e.client.status ≠ .ended ∧
    (r.events.broken = false → asserted r.events e.client.status)

/-- A client that the thread is at work on, and that no other event is about. -/
def Working (s : State T) (t : T) (l : Loop) (a : Nat) (batch : List Ready) (P : ReqStatus → Prop) :
    Prop :=
  ∃ e, Connected s t a e ∧ Unarmed l e.connfd ∧ (∀ r ∈ batch, r.fd ≠ e.connfd) ∧ P e.client.status

def Current (s : State T) (t : T) (l : Loop) : Pc → Prop
  | .registering a batch => Working s t l a batch (· = .reading)
  | .serving a batch => Working s t l a batch (· ≠ .ended)
  | .served a batch => Working s t l a batch fun _ => True
  | .closed a _ => ∃ e, Shut s t a e
  | _ => True

/-- A client that is lost, for this reason. -/
def Lost (s : State T) (t : T) (l : Loop) (a : Nat) (e : Entry T) (why : Loss) : Prop :=
  ¬ Armed l a e ∧ a ∉ l.atHand ∧ Stranded s t a e why

/-- The invariant of a thread whose loop is `l`. -/
structure LoopInv (s : State T) (t : T) (l : Loop) : Prop where
  idle : l.pc = .starting ∨ l.pc = .listening → ∀ fd, l.interest fd = none
  listener : l.pc ≠ .starting → s.files l.listenfd = some .listener
  registered : ∀ {fd i}, l.interest fd = some i → Registered s t l fd i
  nodup : (l.pc.batch.map (·.fd)).Nodup
  batch : ∀ r ∈ l.pc.batch, r.fd = l.listenfd ∧ r.dataFd = l.listenfd ∨ Pending s t l r
  current : Current s t l l.pc
  lost : ∀ x ∈ s.lost, ∀ e, s.heap x.1 = some e → e.threadEntry = t → Lost s t l x.1 e x.2
  whereabouts : ∀ {a e}, s.heap a = some e → e.threadEntry = t → Armed l a e ∨
    a ∈ l.atHand ∨ a ∈ s.lost.map (·.1)

/-- A step of the thread `t`, as the others see it. -/
structure Frame (t : T) (s s' : State T) : Prop where
  heap : ∀ {a e}, e.threadEntry ≠ t → (s'.heap a = some e ↔ s.heap a = some e)
  files : ∀ {fd}, s.files fd = some .listener → s'.files fd = some .listener
  connected : ∀ {t' a e}, t' ≠ t → Connected s t' a e → Connected s' t' a e
  shut : ∀ {t' a e}, t' ≠ t → Shut s t' a e → Shut s' t' a e
  lost : ∀ x ∈ s.lost, x ∈ s'.lost
  new : ∀ x ∈ s'.lost, x ∈ s.lost ∨ ∀ e, s'.heap x.1 = some e → e.threadEntry = t

section Basic

theorem mem_atHand :
    a ∈ l.atHand ↔ l.pc.current = some a ∨ ∃ r ∈ l.pc.batch, r.fd ≠ l.listenfd ∧ r.data = a := by
  simp [Loop.atHand, and_assoc]

theorem Connected.entry (h : Connected s t a e) (h' : Connected s t' a d) : e = d :=
  Option.some.inj (h.live.symm.trans h'.live)

theorem Connected.unique (hs : Sound s) (h : Connected s t a e) (h' : Connected s t' b d)
    (hfd : e.connfd = d.connfd) : a = b := by
  have hfile := h.file
  rw [hfd, h'.file] at hfile
  exact hs.peers h.live h'.live (File.connection.inj (Option.some.inj hfile)).symm

theorem Shut.not_connected (h : Shut s t a e) (h' : Connected s t' a d) : False := by
  obtain rfl : e = d := Option.some.inj (h.live.symm.trans h'.live)
  exact h.file _ h'.file

theorem Unarmed.not_armed (h : Unarmed l e.connfd) : ¬ Armed l a e :=
  fun ha => Bool.noConfusion (h _ ha.1)

theorem Connected.ne_listener (h : Connected s t a e) (hf : s.files fd = some .listener) :
    e.connfd ≠ fd := by
  rintro rfl
  rw [h.file] at hf
  cases hf

theorem Pending.ne_listenfd {r : Ready} (h : Pending s t l r)
    (hf : s.files l.listenfd = some .listener) : r.fd ≠ l.listenfd := by
  obtain ⟨e, he, hfd, -⟩ := h
  exact hfd ▸ he.ne_listener hf

theorem Registered.armed (h : Registered s t l fd i) (hin : l.interest fd = some i)
    (ha : i.armed = true) :
    fd = l.listenfd ∨ ∃ e, Connected s t i.data e ∧ e.connfd = fd ∧ Armed l i.data e := by
  refine h.imp And.left ?_
  rintro ⟨e, he, rfl, hone, hask⟩
  obtain ⟨hevents, hstatus⟩ := hask ha
  refine ⟨e, he, rfl, ?_, hstatus⟩
  cases i
  simp_all

end Basic

section Imp

variable (hc : ∀ {a e}, Connected s t a e → Connected s' t a e)
include hc

theorem Registered.imp (h : Registered s t l fd i) : Registered s' t l fd i :=
  Or.imp_right (fun ⟨e, he, hrest⟩ => ⟨e, hc he, hrest⟩) h

theorem Pending.imp {r : Ready} (h : Pending s t l r) : Pending s' t l r := by
  obtain ⟨e, he, hrest⟩ := h
  exact ⟨e, hc he, hrest⟩

theorem Working.imp {P : ReqStatus → Prop} (h : Working s t l a batch P) :
    Working s' t l a batch P := by
  obtain ⟨e, he, hrest⟩ := h
  exact ⟨e, hc he, hrest⟩

theorem Current.imp (hs : ∀ {a e}, Shut s t a e → Shut s' t a e) (h : Current s t l pc) :
    Current s' t l pc := by
  cases pc with
  | registering | serving | served =>
      simp only [Current] at h ⊢
      exact Working.imp hc h
  | closed =>
      obtain ⟨e, he⟩ := h
      exact ⟨e, hs he⟩
  | _ => trivial

end Imp

theorem Stranded.imp {why : Loss} (h : Stranded s t a e why)
    (hc : Connected s t a e → Connected s' t a e)
    (hs : Shut s t a e → Shut s' t a e) : Stranded s' t a e why := by
  cases why with
  | hungUp => exact hs h
  | _ => exact hc h

theorem LoopInv.frame (h : LoopInv s t' l) (hf : Frame t s s') (ht : t' ≠ t) : LoopInv s' t' l := by
  have hheap : ∀ {a e}, e.threadEntry = t' → (s'.heap a = some e ↔ s.heap a = some e) :=
    fun ho => hf.heap (ho ▸ ht)
  refine ⟨h.idle, fun hpc => hf.files (h.listener hpc),
    fun hi => (h.registered hi).imp (hf.connected ht), h.nodup,
    fun r hr => (h.batch r hr).imp_right (Pending.imp (hf.connected ht)),
    h.current.imp (hf.connected ht) (hf.shut ht), fun x hx e he ho => ?_, fun he ho => ?_⟩
  · rcases hf.new x hx with hold | hnew
    · obtain ⟨harmed, hhand, hwhy⟩ := h.lost x hold e ((hheap ho).mp he) ho
      exact ⟨harmed, hhand, hwhy.imp (hf.connected ht) (hf.shut ht)⟩
    · exact absurd (ho.symm.trans (hnew e he)) ht
  · rcases h.whereabouts ((hheap ho).mp he) ho with harmed | hhand | hlost
    · exact .inl harmed
    · exact .inr (.inl hhand)
    · obtain ⟨x, hx, rfl⟩ := List.mem_map.mp hlost
      exact .inr (.inr (List.mem_map_of_mem (hf.lost x hx)))

section Own

theorem LoopInv.not_lost (h : LoopInv s t l) (he : s.heap a = some e) (ho : e.threadEntry = t)
    (ha : a ∈ l.atHand) : a ∉ s.lost.map (·.1) := by
  intro hlost
  obtain ⟨x, hx, rfl⟩ := List.mem_map.mp hlost
  exact (h.lost x hx e he ho).2.1 ha

theorem LoopInv.pending (h : LoopInv s t l) {r : Ready} (hr : r ∈ l.pc.batch)
    (hfd : r.fd ≠ l.listenfd) : Pending s t l r :=
  (h.batch r hr).resolve_left fun hl => hfd hl.1

theorem Working.not_mem {P : ReqStatus → Prop} (hw : Working s t l a batch P)
    {r : Ready} (hr : r ∈ batch) (hp : Pending s t l r) : r.data ≠ a := by
  rintro rfl
  obtain ⟨e, he, -, hne, -⟩ := hw
  obtain ⟨d, hd, hfd, -⟩ := hp
  exact hne r hr (he.entry hd ▸ hfd.symm)

theorem LoopInv.current_of (h : LoopInv s t l) (hpc : l.pc = pc) : Current s t l pc :=
  hpc ▸ h.current

theorem LoopInv.ne_listenfd {r : Ready} (h : LoopInv s t l) (hpc : l.pc = .dispatching (r :: batch))
    (hr : r.dataFd ≠ l.listenfd) : r.fd ≠ l.listenfd := by
  rcases h.batch r (by simp [hpc, Pc.batch]) with ⟨-, hdata⟩ | hp
  · exact absurd hdata hr
  · exact hp.ne_listenfd (h.listener (by simp [hpc]))

theorem LoopInv.head {r : Ready} (h : LoopInv s t l) (hpc : l.pc = .dispatching (r :: batch))
    (hr : r.fd ≠ l.listenfd) : Working s t l r.data batch (· ≠ .ended) := by
  obtain ⟨e, he, hfd, hun, hstatus, -⟩ := h.pending (by simp [hpc, Pc.batch]) hr
  refine ⟨e, he, hfd ▸ hun, fun x hx => ?_, hstatus⟩
  have hnd := h.nodup
  rw [hpc] at hnd
  rw [hfd]
  rintro heq
  exact (List.nodup_cons.mp hnd).1 (List.mem_map.mpr ⟨x, hx, heq⟩)

theorem LoopInv.setPc (h : LoopInv s t l) (hpc : l.pc ≠ .starting)
    (hidle : pc ≠ .starting ∧ pc ≠ .listening)
    (hbatch : pc.batch <:+ l.pc.batch) (hcur : Current s t l pc)
    (hhand : ∀ a, a ∈ { l with pc }.atHand ↔ a ∈ l.atHand) : LoopInv s t { l with pc } := by
  refine ⟨fun hp => (hp.elim hidle.1 hidle.2).elim, fun _ => h.listener hpc, fun hi => ?_,
    ?_, fun r hr => ?_, ?_, fun x hx e he ho => ?_, fun he ho => ?_⟩
  · exact h.registered hi
  · exact h.nodup.sublist (hbatch.sublist.map _)
  · exact h.batch r (hbatch.subset hr)
  · cases pc <;> exact hcur
  · obtain ⟨harmed, hnot, hwhy⟩ := h.lost x hx e he ho
    exact ⟨harmed, fun ha => hnot ((hhand _).mp ha), hwhy⟩
  · rw [hhand]
    exact h.whereabouts he ho

theorem LoopInv.lose {why : Loss} (h : LoopInv s t l) (hpc : l.pc ≠ .starting)
    (hidle : pc ≠ .starting ∧ pc ≠ .listening)
    (hbatch : pc.batch <:+ l.pc.batch) (hcur : pc.current = none) (he : s.heap a = some e)
    (harmed : ¬ Armed l a e) (hwhy : Stranded s t a e why)
    (hhand : ∀ b, b ∈ { l with pc }.atHand ↔ b ∈ l.atHand ∧ b ≠ a) :
    LoopInv (s.lose a why) t { l with pc } := by
  have hconn : ∀ {b e}, Connected s t b e → Connected (s.lose a why) t b e :=
    fun h => ⟨h.live, h.owner, h.file⟩
  have hshut : ∀ {b e}, Shut s t b e → Shut (s.lose a why) t b e :=
    fun h => ⟨h.live, h.owner, h.file⟩
  refine ⟨fun hp => (hp.elim hidle.1 hidle.2).elim, fun _ => h.listener hpc,
    fun hi => (h.registered hi).imp hconn,
    h.nodup.sublist (hbatch.sublist.map _), fun r hr => (h.batch r (hbatch.subset hr)).imp_right
    (Pending.imp hconn), ?_, fun x hx d hd hdo => ?_, fun {b d} hd hdo => ?_⟩
  · cases pc <;> trivial
  · rcases List.mem_cons.mp hx with rfl | hx
    · obtain rfl : d = e := Option.some.inj (hd.symm.trans he)
      exact ⟨harmed, fun ha => ((hhand _).mp ha).2 rfl, hwhy.imp hconn hshut⟩
    · obtain ⟨harmed, hnot, hwhy⟩ := h.lost x hx d hd hdo
      exact ⟨harmed, fun ha => hnot ((hhand _).mp ha).1, hwhy.imp hconn hshut⟩
  · change _ ∨ _ ∨ b ∈ a :: s.lost.map (·.1)
    rcases h.whereabouts hd hdo with harmed | hold | hlost
    · exact .inl harmed
    · by_cases hb : b = a
      · exact .inr (.inr (hb ▸ List.mem_cons_self))
      · exact .inr (.inl ((hhand b).mpr ⟨hold, hb⟩))
    · exact .inr (.inr (List.mem_cons_of_mem _ hlost))

theorem LoopInv.arm {n : Nat} {P : ReqStatus → Prop} (h : LoopInv s t l) (hpc : l.pc ≠ .starting)
    (hidle : pc ≠ .starting ∧ pc ≠ .listening) (hbatch : pc.batch = batch)
    (hold : l.pc.batch = batch)
    (hcur : pc.current = none) (hw : Working s t l a batch P) (he : s.heap a = some e)
    (hstatus : e.client.status ≠ .ended)
    (hand : a ∈ l.atHand) (hhand : ∀ b, b ∈ { l with pc }.atHand ↔ b ∈ l.atHand ∧ b ≠ a) :
    LoopInv s t { l.register e.connfd ⟨asks e.client.status, true, a, true⟩ with
      pc, clientConnections := n } := by
  obtain ⟨d, hconn, hun, hne, -⟩ := hw
  obtain rfl : d = e := Option.some.inj (hconn.live.symm.trans he)
  have hother : ∀ {fd}, fd ≠ d.connfd →
      (l.register d.connfd ⟨asks d.client.status, true, a, true⟩).interest fd =
      l.interest fd := fun hfd =>
    l.register_of_ne hfd _
  have hself := l.register_self d.connfd ⟨asks d.client.status, true, a, true⟩
  refine ⟨fun hp => (hp.elim hidle.1 hidle.2).elim, fun _ => h.listener hpc, fun {fd i} hi => ?_,
    ?_, fun r hr => ?_, ?_, fun x hx b hb hbo => ?_, fun {b c} hb hbo => ?_⟩
  · by_cases hfd : fd = d.connfd
    · subst hfd
      obtain rfl := Option.some.inj (hself.symm.trans hi)
      exact .inr ⟨d, hconn, rfl, rfl, fun _ => ⟨rfl, hstatus⟩⟩
    · exact h.registered ((hother hfd).symm.trans hi)
  · rw [hbatch, ← hold]
    exact h.nodup
  · rw [hbatch] at hr
    refine (h.batch r (hold ▸ hr)).imp_right ?_
    rintro ⟨c, hc, hfd, hcun, hrest⟩
    exact ⟨c, hc, hfd, fun i hi => hcun i ((hother (hne r hr)).symm.trans hi), hrest⟩
  · cases pc <;> trivial
  · obtain ⟨harmed, hnot, hwhy⟩ := h.lost x hx b hb hbo
    refine ⟨fun ha => ?_, fun ha => hnot ((hhand _).mp ha).1, hwhy⟩
    by_cases hfd : b.connfd = d.connfd
    · have hin := ha.1
      rw [hfd, hself] at hin
      have hxa : a = x.1 := congrArg Interest.data (Option.some.inj hin)
      exact h.not_lost he hconn.owner hand (hxa ▸ List.mem_map_of_mem hx)
    · exact harmed ⟨(hother hfd).symm.trans ha.1, ha.2⟩
  · by_cases hba : b = a
    · subst hba
      obtain rfl : d = c := Option.some.inj (he.symm.trans hb)
      exact .inl ⟨hself, hstatus⟩
    · rcases h.whereabouts hb hbo with harmed | hin | hlost
      · refine .inl ⟨(hother fun hfd => ?_).trans harmed.1, harmed.2⟩
        exact Bool.noConfusion (hun _ (hfd ▸ harmed.1))
      · exact .inr (.inl ((hhand b).mpr ⟨hin, hba⟩))
      · exact .inr (.inr hlost)

section Wait

theorem disarm_eq_some (h : disarm batch l.interest fd = some i) :
    ∃ j, l.interest fd = some j ∧ i.events = j.events ∧
    i.oneshot = j.oneshot ∧ i.data = j.data ∧ (i.armed = true → i = j) ∧
    (j.oneshot = true → fd ∈ batch.map (·.fd) → i.armed = false) := by
  obtain ⟨j, hj, rfl⟩ := Option.map_eq_some_iff.mp h
  refine ⟨j, hj, ?_⟩
  split
  · exact ⟨rfl, rfl, rfl, Bool.noConfusion, fun _ _ => rfl⟩
  · rename_i hnot
    exact ⟨rfl, rfl, rfl, fun _ => rfl, fun hone hmem => absurd ⟨hone, hmem⟩ hnot⟩

theorem disarm_of_not_mem (h : fd ∉ batch.map (·.fd)) :
    disarm batch l.interest fd = l.interest fd := by
  simp only [disarm, h, and_false, if_false]
  exact Option.map_id'

theorem asserted_of_reported {ev : Events} {status : ReqStatus} (hne : ev ≠ {})
    (hbroken : ev.broken = false)
    (hin : ev.input = true → (asks status).input = true)
    (hout : ev.output = true → (asks status).output = true) : asserted ev status := by
  obtain ⟨input, output, error, hangup⟩ := ev
  obtain ⟨rfl, rfl⟩ : error = false ∧ hangup = false := by simpa [Events.broken] using hbroken
  refine ⟨hne, ?_, ?_⟩
  · rintro rfl
    cases output with
    | false => cases input <;> simp_all
    | true => cases hout rfl
  · rintro rfl
    cases input with
    | false => cases output <;> simp_all
    | true => cases hin rfl

theorem LoopInv.wait (h : LoopInv s t l) (hpc : l.pc = .waiting) (hb : Polled l batch) :
    LoopInv s t { l with interest := disarm batch l.interest, pc := .dispatching batch } := by
  have hstart : l.pc ≠ .starting := by simp [hpc]
  have hlisten := h.listener hstart
  have hnone : ∀ a, a ∉ l.atHand := by simp [mem_atHand, hpc, Pc.current, Pc.batch]
  have harmed : ∀ {a : Nat} {e : Entry T},
      Armed { l with interest := disarm batch l.interest, pc := .dispatching batch } a e →
        Armed l a e := by
    rintro a e ⟨hi, hstatus⟩
    obtain ⟨j, hj, -, -, -, heq, -⟩ := disarm_eq_some hi
    exact ⟨hj.trans (congrArg some (heq rfl).symm), hstatus⟩
  -- an event that is not of the listening socket is of a client that waits
  have hready : ∀ r ∈ batch, r.fd ≠ l.listenfd → ∃ e, Connected s t r.data e ∧ e.connfd = r.fd ∧
      Armed l r.data e := by
    intro r hr hfd
    obtain ⟨i, hi, ha, hdata, -⟩ := hb.reported r hr
    rw [hdata]
    exact ((h.registered hi).armed hi ha).resolve_left hfd
  refine ⟨fun hp => hp.elim nofun nofun, fun _ => hlisten, fun hi => ?_, hb.nodup,
    fun r hr => ?_, trivial, fun x hx e he ho => ?_, fun {a e} he ho => ?_⟩
  · obtain ⟨j, hj, hevents, hone, hdata, heq, -⟩ := disarm_eq_some hi
    rcases h.registered hj with ⟨hfd, hj1, hjd⟩ | ⟨e, he, hfd, hj1, hask⟩
    · exact .inl ⟨hfd, hone.trans hj1, hdata ▸ hjd⟩
    · refine .inr ⟨e, hdata ▸ he, hfd, hone.trans hj1, fun ha => ?_⟩
      obtain rfl := heq ha
      exact hask ha
  · obtain ⟨i, hi, ha, hdata, hne, hin, hout⟩ := hb.reported r hr
    rcases h.registered hi with ⟨hfd, -, hid⟩ | ⟨e, he, hfd, hone, hask⟩
    · refine .inl ⟨hfd, ?_⟩
      rw [Ready.dataFd, hdata, hid, hfd]
    · obtain ⟨hevents, hstatus⟩ := hask ha
      refine .inr ⟨e, hdata ▸ he, hfd, fun k hk => ?_, hstatus, fun hbroken => ?_⟩
      · obtain ⟨j, hj, -, -, -, -, hoff⟩ := disarm_eq_some hk
        obtain rfl : i = j := Option.some.inj (hi.symm.trans hj)
        exact hoff hone (List.mem_map_of_mem hr)
      · rw [hevents] at hin hout
        exact asserted_of_reported hne hbroken hin hout
  · obtain ⟨hlost, -, hwhy⟩ := h.lost x hx e he ho
    refine ⟨fun ha => hlost (harmed ha), fun hmem => ?_, hwhy⟩
    obtain ⟨r, hr, hfd, hrx⟩ := (mem_atHand.mp hmem).resolve_left (by simp [Pc.current])
    obtain ⟨d, hd, -, ha⟩ := hready r hr hfd
    rw [hrx] at hd ha
    obtain rfl : d = e := Option.some.inj (hd.live.symm.trans he)
    exact hlost ha
  · rcases h.whereabouts he ho with ha | hin | hlost
    · by_cases hmem : e.connfd ∈ batch.map (·.fd)
      · obtain ⟨r, hr, hfd⟩ := List.mem_map.mp hmem
        obtain ⟨i, hi, -, hdata, -⟩ := hb.reported r hr
        rw [hfd] at hi
        obtain rfl := Option.some.inj (ha.1.symm.trans hi)
        refine .inr (.inl (mem_atHand.mpr (.inr ⟨r, hr, ?_, hdata⟩)))
        rcases h.registered ha.1 with ⟨-, hone, -⟩ | ⟨d, hd, hdfd, -⟩
        · cases hone
        · rw [hfd, ← hdfd]
          exact hd.ne_listener hlisten
      · exact .inl ⟨(disarm_of_not_mem hmem).trans ha.1, ha.2⟩
    · exact absurd hin (hnone a)
    · exact .inr (.inr hlost)

end Wait

section Files

variable {f : File}

theorem ne_of_file (h : s.files fd = some f) {fd' : Nat} (hfd : s.files fd' = none) : fd ≠ fd' := by
  rintro rfl
  rw [h] at hfd
  cases hfd

theorem Connected.openFile (h : Connected s t a e) (hfd : s.files fd = none) :
    Connected (s.openFile fd f) t a e :=
  ⟨h.live, h.owner, (s.openFile_of_ne (ne_of_file h.file hfd) f).trans h.file⟩

theorem Shut.openFile (h : Shut s t a e) (hf : f ≠ .connection e.peer) :
    Shut (s.openFile fd f) t a e := by
  refine ⟨h.live, h.owner, fun fd' => ?_⟩
  by_cases he : fd' = fd
  · rw [he, s.openFile_self]
    exact fun heq => hf (Option.some.inj heq)
  · rw [s.openFile_of_ne he]
    exact h.file fd'

theorem LoopInv.listen (h : LoopInv s t l) (hpc : l.pc = .starting) (hfd : s.files fd = none) :
    LoopInv (s.openFile fd .listener) t { l with listenfd := fd, pc := .listening } := by
  have hidle := h.idle (.inl hpc)
  have hnone : ∀ a, a ∉ l.atHand := by simp [mem_atHand, hpc, Pc.current, Pc.batch]
  refine ⟨fun _ => hidle, fun _ => s.openFile_self _, fun {fd i} hi => ?_, .nil, nofun, trivial,
    fun x hx e he ho => ?_, fun he ho => ?_⟩
  · simp [hidle] at hi
  · refine ⟨fun ha => by simp [Armed, hidle] at ha, by simp [mem_atHand, Pc.current, Pc.batch], ?_⟩
    exact (h.lost x hx e he ho).2.2.imp (Connected.openFile · hfd) (Shut.openFile · (by simp))
  · rcases h.whereabouts he ho with ha | hin | hlost
    · simp [Armed, hidle] at ha
    · exact absurd hin (hnone _)
    · exact .inr (.inr hlost)

theorem LoopInv.setUpEpoll {data : Nat} (h : LoopInv s t l) (hpc : l.pc = .listening)
    (hfd : s.files fd = none)
    (hdata : data % 2 ^ 32 = l.listenfd) : LoopInv (s.openFile fd .epoll) t
      { l.register l.listenfd ⟨{ input := true }, false, data, true⟩ with pc := .waiting } := by
  have hidle := h.idle (.inr hpc)
  have hnone : ∀ a, a ∉ l.atHand := by simp [mem_atHand, hpc, Pc.current, Pc.batch]
  have honly : ∀ {fd i}, (l.register l.listenfd ⟨{ input := true }, false, data, true⟩).interest
      fd = some i → fd = l.listenfd ∧ ⟨{ input := true }, false, data, true⟩ = i := by
    intro fd i hi
    by_cases he : fd = l.listenfd
    · subst he
      rw [l.register_self] at hi
      exact ⟨rfl, Option.some.inj hi⟩
    · rw [l.register_of_ne he, hidle] at hi
      cases hi
  refine ⟨fun hp => hp.elim nofun nofun, fun _ => ?_, fun hi => ?_, .nil, nofun, trivial,
    fun x hx e he ho => ?_, fun he ho => ?_⟩
  · have hlisten := h.listener (by simp [hpc])
    exact (s.openFile_of_ne (ne_of_file hlisten hfd) _).trans hlisten
  · obtain ⟨rfl, rfl⟩ := honly hi
    exact .inl ⟨rfl, rfl, hdata⟩
  · refine ⟨fun ha => ?_, by simp [mem_atHand, Pc.current, Pc.batch], ?_⟩
    · cases congrArg Interest.oneshot (honly ha.1).2
    · exact (h.lost x hx e he ho).2.2.imp (Connected.openFile · hfd) (Shut.openFile · (by simp))
  · rcases h.whereabouts he ho with ha | hin | hlost
    · simp [Armed, hidle] at ha
    · exact absurd hin (hnone _)
    · exact .inr (.inr hlost)

variable {req : Nat → UInt8}

theorem Connected.accept (h : Connected s t a e) (hfd : s.files fd = none) (hb : s.heap b = none) :
    Connected (s.accept t' fd b req) t a e := by
  refine ⟨(State.setEntry_of_ne _ ?_ _).trans h.live, h.owner, (Connected.openFile h hfd).file⟩
  rintro rfl
  rw [h.live] at hb
  cases hb

theorem Shut.accept (h : Shut s t a e) (hs : Sound s) (hb : s.heap b = none) :
    Shut (s.accept t' fd b req) t a e := by
  refine ⟨(State.setEntry_of_ne _ ?_ _).trans h.live, h.owner, (Shut.openFile h ?_).file⟩
  · rintro rfl
    rw [h.live] at hb
    cases hb
  · have hlt := hs.peer_lt h.live
    simp only [ne_eq, File.connection.injEq]
    omega

theorem LoopInv.accept (h : LoopInv s t l) (hs : Sound s) (hpc : l.pc = .accepting batch)
    (hfd : s.files fd = none)
    (ha : s.heap a = none) :
    LoopInv (s.accept t fd a req) t { l with pc := .registering a batch } := by
  have hlisten := h.listener (by simp [hpc])
  have hbatch := h.batch
  rw [hpc] at hbatch
  have hfree : l.interest fd = none := by
    by_contra hne
    obtain ⟨i, hi⟩ := Option.ne_none_iff_exists'.mp hne
    rcases h.registered hi with ⟨rfl, -⟩ | ⟨e, he, hefd, -⟩
    · exact ne_of_file hlisten hfd rfl
    · exact ne_of_file he.file hfd hefd
  have hhand : ∀ b, b ∈ { l with pc := .registering a batch }.atHand ↔ b = a ∨ b ∈ l.atHand := by
    intro b
    simp [mem_atHand, hpc, Pc.current, Pc.batch, eq_comm]
  have hold : ∀ {b e}, (s.accept t fd a req).heap b = some e → b ≠ a →
      s.heap b = some e := fun he hb =>
    (State.setEntry_of_ne _ hb _).symm.trans he
  refine ⟨fun hp => hp.elim nofun nofun, fun _ => ?_,
    fun hi => (h.registered hi).imp (Connected.accept · hfd ha), ?_,
    fun r hr => (hbatch r hr).imp_right (Pending.imp (Connected.accept · hfd ha)), ?_,
    fun x hx e he ho => ?_, fun {b e} he ho => ?_⟩
  · exact (State.openFile_of_ne _ (ne_of_file hlisten hfd) _).trans hlisten
  · have hnd := h.nodup
    rwa [hpc] at hnd
  · refine ⟨_, ⟨State.setEntry_self _ _, rfl, State.openFile_self _ _⟩,
      fun i hi => ?_, fun r hr => ?_, rfl⟩
    · exact absurd hi (by simp [hfree])
    · rcases hbatch r hr with ⟨hrfd, -⟩ | ⟨d, hd, hdfd, -⟩
      · exact hrfd ▸ ne_of_file hlisten hfd
      · exact hdfd ▸ ne_of_file hd.file hfd
  · have hxa : x.1 ≠ a := by
      rintro rfl
      obtain ⟨d, hd⟩ := hs.lost_live x hx
      rw [ha] at hd
      cases hd
    obtain ⟨harmed, hnot, hwhy⟩ := h.lost x hx e (hold he hxa) ho
    refine ⟨harmed, fun hin => ?_, hwhy.imp (Connected.accept · hfd ha) (Shut.accept · hs ha)⟩
    exact ((hhand _).mp hin).elim hxa hnot
  · rw [hhand]
    by_cases hb : b = a
    · exact .inr (.inl (.inl hb))
    · exact (h.whereabouts (hold he hb) ho).imp_right (Or.imp_left .inr)

end Files

section Entries

theorem LoopInv.serve {P : ReqStatus → Prop} (h : LoopInv s t l) (hpc : l.pc ≠ .starting)
    (hidle : pc ≠ .starting ∧ pc ≠ .listening)
    (hcurrent : pc = .served a batch) (hbatch : l.pc.batch = batch) (hw : Working s t l a batch P)
    (he : s.heap a = some e)
    (hand : a ∈ l.atHand) (hconnfd : d.connfd = e.connfd) (hpeer : d.peer = e.peer)
    (ho : d.threadEntry = e.threadEntry)
    (hhand : ∀ b, b ∈ { l with pc }.atHand ↔ b ∈ l.atHand) :
    LoopInv (s.setEntry a (some d)) t { l with pc } := by
  obtain ⟨e', hconn, hun, hne, hP⟩ := hw
  obtain rfl : e = e' := Option.some.inj (he.symm.trans hconn.live)
  have hother : ∀ {b c}, b ≠ a → Connected s t b c →
      Connected (s.setEntry a (some d)) t b c := fun hb hc =>
    ⟨(s.setEntry_of_ne hb _).trans hc.live, hc.owner, hc.file⟩
  have hself : Connected (s.setEntry a (some d)) t a d :=
    ⟨s.setEntry_self _, ho.trans hconn.owner, by
    rw [hconnfd, hpeer]
    exact hconn.file⟩
  subst hcurrent
  refine ⟨fun hp => hp.elim nofun nofun, fun _ => h.listener hpc, fun {fd i} hi => ?_,
    hbatch ▸ h.nodup, fun r hr => ?_,
    ⟨d, hself, hconnfd ▸ hun, fun r hr => hconnfd ▸ hne r hr, trivial⟩, fun x hx c hc hco => ?_,
    fun {b c} hc hco => ?_⟩
  · refine (h.registered hi).imp_right ?_
    rintro ⟨c, hc, hfd, hone, hask⟩
    by_cases hia : i.data = a
    · obtain rfl : e = c := (hia ▸ hconn : Connected s t i.data e).entry hc
      refine ⟨d, hia ▸ hself, hconnfd.trans hfd, hone, fun harmed => ?_⟩
      exact Bool.noConfusion ((hun i (hfd ▸ hi)).symm.trans harmed)
    · exact ⟨c, hother hia hc, hfd, hone, hask⟩
  · refine (h.batch r (hbatch ▸ hr)).imp_right fun hp => ?_
    have hra := Working.not_mem ⟨e, hconn, hun, hne, hP⟩ hr hp
    obtain ⟨c, hc, hrest⟩ := hp
    exact ⟨c, hother hra hc, hrest⟩
  · have hxa : x.1 ≠ a := fun hxa => h.not_lost he hconn.owner hand (hxa ▸ List.mem_map_of_mem hx)
    obtain ⟨harmed, hnot, hwhy⟩ := h.lost x hx c ((s.setEntry_of_ne hxa _).symm.trans hc) hco
    refine ⟨harmed, fun hin => hnot ((hhand _).mp hin), hwhy.imp (hother hxa) fun hshut => ?_⟩
    exact ⟨(s.setEntry_of_ne hxa _).trans hshut.live, hshut.owner, hshut.file⟩
  · rw [hhand]
    by_cases hb : b = a
    · exact .inr (.inl (hb ▸ hand))
    · exact h.whereabouts ((s.setEntry_of_ne hb _).symm.trans hc) hco

theorem LoopInv.free (h : LoopInv s t l) (hpc : l.pc = .closed a batch) :
    LoopInv (s.setEntry a none) t { l with pc := .dispatching batch } := by
  obtain ⟨e, hshut⟩ : ∃ e, Shut s t a e := h.current_of hpc
  have hother : ∀ {b c}, Connected s t b c → Connected (s.setEntry a none) t b c :=
    fun {b c} hc => by
    refine ⟨(s.setEntry_of_ne ?_ _).trans hc.live, hc.owner, hc.file⟩
    rintro rfl
    exact hshut.not_connected hc
  have hnd := h.nodup
  have hbatch := h.batch
  rw [hpc] at hnd hbatch
  have hhand : ∀ {b}, b ∈ l.atHand → b ≠ a → b ∈ { l with pc := .dispatching batch }.atHand := by
    intro b hin hb
    simp only [mem_atHand, hpc, Pc.current, Pc.batch, Option.some.injEq] at hin ⊢
    exact .inr (hin.resolve_left fun hab => hb hab.symm)
  have hsub : ∀ {b}, b ∈ { l with pc := .dispatching batch }.atHand → b ∈ l.atHand := by
    intro b hin
    simp only [mem_atHand, hpc, Pc.current, Pc.batch] at hin ⊢
    exact .inr (hin.resolve_left nofun)
  have hne : ∀ {b c}, (s.setEntry a none).heap b = some c → b ≠ a := by
    rintro b c hc rfl
    rw [s.setEntry_self] at hc
    cases hc
  refine ⟨fun hp => hp.elim nofun nofun, fun _ => h.listener (by simp [hpc]),
    fun hi => (h.registered hi).imp hother, hnd,
    fun r hr => (hbatch r hr).imp_right (Pending.imp hother), trivial, fun x hx c hc hco => ?_,
    fun {b c} hc hco => ?_⟩
  · have hxa := hne hc
    obtain ⟨harmed, hnot, hwhy⟩ := h.lost x hx c ((s.setEntry_of_ne hxa _).symm.trans hc) hco
    refine ⟨harmed, fun hin => hnot (hsub hin), hwhy.imp hother fun hshut => ?_⟩
    exact ⟨(s.setEntry_of_ne hxa _).trans hshut.live, hshut.owner, hshut.file⟩
  · have hba := hne hc
    exact (h.whereabouts ((s.setEntry_of_ne hba _).symm.trans hc) hco).imp_right
      (Or.imp_left fun hin => hhand hin hba)

end Entries

section Close

theorem Connected.close (hs : Sound s) (hc : Connected s t b d) (he : Connected s t' a e)
    (hb : b ≠ a) : Connected (s.close e.connfd) t b d :=
  ⟨hc.live, hc.owner, (s.close_of_ne fun hfd => hb (hc.unique hs he hfd)).trans hc.file⟩

theorem Shut.close (h : Shut s t a e) (fd : Nat) : Shut (s.close fd) t a e := by
  refine ⟨h.live, h.owner, fun fd' => ?_⟩
  by_cases hfd : fd' = fd
  · rw [hfd, s.close_self]
    exact nofun
  · rw [s.close_of_ne hfd]
    exact h.file fd'

theorem Connected.shut (hs : Sound s) (h : Connected s t a e) : Shut (s.close e.connfd) t a e := by
  refine ⟨h.live, h.owner, fun fd' => ?_⟩
  by_cases hfd : fd' = e.connfd
  · rw [hfd, s.close_self]
    exact nofun
  · rw [s.close_of_ne hfd]
    exact fun hfile => hfd (hs.file hfile h.file)

theorem LoopInv.close {P : ReqStatus → Prop} (h : LoopInv s t l) (hs : Sound s)
    (hpc : l.pc ≠ .starting)
    (hbatch : l.pc.batch = batch ∨ ∃ r, l.pc.batch = r :: batch) (hw : Working s t l a batch P)
    (he : s.heap a = some e)
    (hand : a ∈ l.atHand)
    (hhand : ∀ b, b ∈ { l with pc := .closed a batch }.atHand ↔ b ∈ l.atHand) :
    LoopInv (s.close e.connfd) t
    { l with interest := Function.update l.interest e.connfd none, pc := .closed a batch } := by
  obtain ⟨e', hconn, hun, hne, hP⟩ := hw
  obtain rfl : e = e' := Option.some.inj (he.symm.trans hconn.live)
  have hsuffix : batch <:+ l.pc.batch := by
    rcases hbatch with heq | ⟨r, heq⟩
    · exact heq ▸ List.suffix_refl _
    · exact heq ▸ List.suffix_cons _ _
  have hin : ∀ {fd i}, Function.update l.interest e.connfd none fd = some i → fd ≠ e.connfd ∧
      l.interest fd = some i := by
    intro fd i hi
    by_cases hfd : fd = e.connfd
    · rw [hfd, Function.update_self] at hi
      cases hi
    · rw [Function.update_of_ne hfd] at hi
      exact ⟨hfd, hi⟩
  refine ⟨fun hp => hp.elim nofun nofun, fun _ => ?_, fun {fd i} hi => ?_,
    h.nodup.sublist (hsuffix.sublist.map _),
    fun r hr => ?_, ⟨e, hconn.shut hs⟩, fun x hx c hc hco => ?_, fun {b c} hc hco => ?_⟩
  · exact (s.close_of_ne (hconn.ne_listener (h.listener hpc)).symm).trans (h.listener hpc)
  · obtain ⟨hfd, hi⟩ := hin hi
    refine (h.registered hi).imp_right ?_
    rintro ⟨c, hc, hcfd, hrest⟩
    refine ⟨c, hc.close hs hconn ?_, hcfd, hrest⟩
    intro hia
    obtain rfl : e = c := (hia ▸ hconn : Connected s t i.data e).entry hc
    exact hfd hcfd.symm
  · refine (h.batch r (hsuffix.subset hr)).imp_right fun hp => ?_
    have hra := Working.not_mem ⟨e, hconn, hun, hne, hP⟩ hr hp
    obtain ⟨c, hc, hcfd, hcun, hrest⟩ := hp
    exact ⟨c, hc.close hs hconn hra, hcfd, fun i hi => hcun i (hin hi).2, hrest⟩
  · have hxa : x.1 ≠ a := fun hxa => h.not_lost he hconn.owner hand (hxa ▸ List.mem_map_of_mem hx)
    obtain ⟨harmed, hnot, hwhy⟩ := h.lost x hx c hc hco
    refine ⟨fun ha => harmed ⟨(hin ha.1).2, ha.2⟩, fun hmem => hnot ((hhand _).mp hmem), ?_⟩
    exact hwhy.imp (fun hc => hc.close hs hconn hxa) fun hshut => hshut.close _
  · rcases h.whereabouts hc hco with harmed | hmem | hlost
    · refine .inl ⟨(Function.update_of_ne (fun hfd => ?_) _ _).trans harmed.1, harmed.2⟩
      exact Bool.noConfusion (hun _ (hfd ▸ harmed.1))
    · exact .inr (.inl ((hhand b).mpr hmem))
    · exact .inr (.inr hlost)

end Close

end Own

section Others

theorem Frame.refl : Frame t s s :=
  ⟨fun _ => .rfl, id, fun _ => id, fun _ => id, fun _ => id, fun _ => .inl⟩

theorem Frame.trans {u : State T} (h : Frame t s s') (h' : Frame t s' u) : Frame t s u := by
  refine ⟨fun he => (h'.heap he).trans (h.heap he), fun hf => h'.files (h.files hf),
    fun ht hc => h'.connected ht (h.connected ht hc),
    fun ht hs => h'.shut ht (h.shut ht hs), fun x hx => h'.lost x (h.lost x hx), fun x hx => ?_⟩
  rcases h'.new x hx with hx | hnew
  · refine (h.new x hx).imp_right fun hnew e he => ?_
    by_contra ht
    exact ht (hnew e ((h'.heap ht).mp he))
  · exact .inr hnew

theorem Frame.openFile {f : File} (hfd : s.files fd = none) (hf : ∀ k, f ≠ .connection k) :
    Frame t s (s.openFile fd f) :=
  ⟨fun _ => .rfl, fun h => (s.openFile_of_ne (ne_of_file h hfd) f).trans h,
    fun _ h => h.openFile hfd, fun _ h => h.openFile (hf _), fun _ => id, fun _ => .inl⟩

theorem Frame.lose {why : Loss} (he : s.heap a = some e) (ho : e.threadEntry = t) :
    Frame t s (s.lose a why) := by
  refine ⟨fun _ => .rfl, id, fun _ h => ⟨h.live, h.owner, h.file⟩,
    fun _ h => ⟨h.live, h.owner, h.file⟩, fun _ => List.mem_cons_of_mem _, fun x hx => ?_⟩
  rcases List.mem_cons.mp hx with rfl | hx
  · refine .inr fun d hd => ?_
    rwa [← Option.some.inj (he.symm.trans hd)]
  · exact .inl hx

theorem Frame.accept {req : Nat → UInt8} (hs : Sound s) (hfd : s.files fd = none)
    (ha : s.heap a = none) : Frame t s (s.accept t fd a req) := by
  refine ⟨fun {b e} he => ?_, fun h => (State.openFile_of_ne _ (ne_of_file h hfd) _).trans h,
    fun _ h => h.accept hfd ha, fun _ h => h.accept hs ha, fun _ => id, fun _ => .inl⟩
  by_cases hb : b = a
  · subst hb
    constructor
    · intro hnew
      exact absurd (congrArg Entry.threadEntry
        (Option.some.inj ((State.setEntry_self _ _).symm.trans hnew)).symm) he
    · intro hold
      rw [ha] at hold
      cases hold
  · exact iff_of_eq (congrArg (· = some e) (State.setEntry_of_ne _ hb _))

theorem Frame.setEntry {o : Option (Entry T)} (he : s.heap a = some e) (hown : e.threadEntry = t)
    (ho : ∀ d, o = some d → d.threadEntry = t) : Frame t s (s.setEntry a o) := by
  have hne : ∀ {b c}, s.heap b = some c → c.threadEntry ≠ t → b ≠ a := by
    rintro b c hc hct rfl
    exact hct (Option.some.inj (hc.symm.trans he) ▸ hown)
  refine ⟨fun {b c} hc => ?_, id, fun ht h => ⟨?_, h.owner, h.file⟩,
    fun ht h => ⟨?_, h.owner, h.file⟩, fun _ => id, fun _ => .inl⟩
  · constructor
    · intro hnew
      by_cases hb : b = a
      · subst hb
        exact absurd (ho c ((s.setEntry_self o).symm.trans hnew)) hc
      · exact (s.setEntry_of_ne hb _).symm.trans hnew
    · exact fun hold => (s.setEntry_of_ne (hne hold hc) _).trans hold
  · exact (s.setEntry_of_ne (hne h.live (h.owner ▸ ht)) _).trans h.live
  · exact (s.setEntry_of_ne (hne h.live (h.owner ▸ ht)) _).trans h.live

theorem Frame.close (hs : Sound s) (he : Connected s t a e) : Frame t s (s.close e.connfd) := by
  refine ⟨fun _ => .rfl, fun hf => ?_, fun {t' b d} ht h => h.close hs he ?_, fun _ h => h.close _,
    fun _ => id, fun _ => .inl⟩
  · exact (s.close_of_ne (he.ne_listener hf).symm).trans hf
  · rintro rfl
    have hed : d = e := Option.some.inj (h.live.symm.trans he.live)
    exact ht (h.owner.symm.trans (hed ▸ he.owner))

end Others

section Sound

theorem Sound.openFile {f : File} (h : Sound s) (hf : ∀ k, f ≠ .connection k) :
    Sound (s.openFile fd f) := by
  have hold : ∀ {fd' k}, (s.openFile fd f).files fd' = some (.connection k) →
      s.files fd' = some (.connection k) := by
    intro fd' k hk
    by_cases hfd : fd' = fd
    · rw [hfd, s.openFile_self] at hk
      exact absurd (Option.some.inj hk) (hf k)
    · rwa [s.openFile_of_ne hfd] at hk
  exact ⟨h.peers, h.peer_lt, fun hk => h.file_lt (hold hk),
    fun hk hk' => h.file (hold hk) (hold hk'), h.lost, h.lost_live, h.history⟩

theorem Sound.close (h : Sound s) (fd : Nat) : Sound (s.close fd) := by
  have hold : ∀ {fd' k}, (s.close fd).files fd' = some (.connection k) →
      s.files fd' = some (.connection k) := by
    intro fd' k hk
    by_cases hfd : fd' = fd
    · rw [hfd, s.close_self] at hk
      cases hk
    · rwa [s.close_of_ne hfd] at hk
  exact ⟨h.peers, h.peer_lt, fun hk => h.file_lt (hold hk),
    fun hk hk' => h.file (hold hk) (hold hk'), h.lost, h.lost_live, h.history⟩

theorem Sound.lose {why : Loss} (h : Sound s) (he : s.heap a = some e) (ha : a ∉ s.lost.map (·.1)) :
    Sound (s.lose a why) := by
  refine ⟨h.peers, h.peer_lt, h.file_lt, h.file, List.nodup_cons.mpr ⟨ha, h.lost⟩,
    fun x hx => ?_, h.history⟩
  rcases List.mem_cons.mp hx with rfl | hx
  · exact ⟨e, he⟩
  · exact h.lost_live x hx

theorem Sound.accept {req : Nat → UInt8} (h : Sound s) (ha : s.heap a = none) :
    Sound (s.accept t fd a req) := by
  have hheap : ∀ {b e}, (s.accept t fd a req).heap b = some e →
      b = a ∧ e = { connfd := fd, client := { req }, threadEntry := t, peer := s.connections } ∨
      b ≠ a ∧ s.heap b = some e := by
    intro b e he
    by_cases hb : b = a
    · subst hb
      exact .inl ⟨rfl, (Option.some.inj ((State.setEntry_self _ _).symm.trans he)).symm⟩
    · exact .inr ⟨hb, (State.setEntry_of_ne _ hb _).symm.trans he⟩
  have hfile : ∀ {fd' k}, (s.accept t fd a req).files fd' = some (.connection k) →
      fd' = fd ∧ k = s.connections ∨ s.files fd' = some (.connection k) := by
    intro fd' k hk
    by_cases hfd : fd' = fd
    · subst hfd
      exact .inl ⟨rfl,
        (File.connection.inj (Option.some.inj ((State.openFile_self _ _).symm.trans hk))).symm⟩
    · exact .inr ((State.openFile_of_ne _ hfd _).symm.trans hk)
  refine ⟨fun {b c e d} he hd hpeer => ?_, fun he => ?_, fun hk => ?_, fun hk hk' => ?_, h.lost,
    fun x hx => ?_, fun he => ?_⟩
  · rcases hheap he with ⟨rfl, rfl⟩ | ⟨-, hb⟩
    · rcases hheap hd with ⟨rfl, -⟩ | ⟨-, hc⟩
      · rfl
      · exact absurd (h.peer_lt hc) (hpeer ▸ Nat.lt_irrefl _)
    · rcases hheap hd with ⟨rfl, rfl⟩ | ⟨-, hc⟩
      · exact absurd (h.peer_lt hb) (hpeer ▸ Nat.lt_irrefl _)
      · exact h.peers hb hc hpeer
  · rcases hheap he with ⟨-, rfl⟩ | ⟨-, he⟩
    · exact Nat.lt_succ_self _
    · exact Nat.lt_succ_of_lt (h.peer_lt he)
  · rcases hfile hk with ⟨-, rfl⟩ | hk
    · exact Nat.lt_succ_self _
    · exact Nat.lt_succ_of_lt (h.file_lt hk)
  · rcases hfile hk with ⟨rfl, rfl⟩ | hold
    · rcases hfile hk' with ⟨rfl, -⟩ | hold'
      · rfl
      · exact absurd (h.file_lt hold') (Nat.lt_irrefl _)
    · rcases hfile hk' with ⟨rfl, rfl⟩ | hold'
      · exact absurd (h.file_lt hold) (Nat.lt_irrefl _)
      · exact h.file hold hold'
  · obtain ⟨d, hd⟩ := h.lost_live x hx
    refine ⟨d, (State.setEntry_of_ne _ ?_ _).trans hd⟩
    intro hxa
    rw [hxa, ha] at hd
    cases hd
  · rcases hheap he with ⟨-, rfl⟩ | ⟨-, he⟩
    · exact ⟨req, .start rfl⟩
    · exact h.history he

theorem Sound.serve (h : Sound s) (he : s.heap a = some e) (hpeer : d.peer = e.peer)
    (hd : ∃ req, Reachable (RequestBuffer.Accepted req) RequestBuffer.Event ⟨d.client, d.earlier⟩) :
    Sound (s.setEntry a (some d)) := by
  have hheap : ∀ {b c}, (s.setEntry a (some d)).heap b = some c → b = a ∧ c = d ∨
      b ≠ a ∧ s.heap b = some c := by
    intro b c hc
    by_cases hb : b = a
    · subst hb
      exact .inl ⟨rfl, (Option.some.inj ((s.setEntry_self _).symm.trans hc)).symm⟩
    · exact .inr ⟨hb, (s.setEntry_of_ne hb _).symm.trans hc⟩
  have hsame : ∀ {b c}, (s.setEntry a (some d)).heap b = some c → ∃ c', s.heap b = some c' ∧
      c.peer = c'.peer := by
    intro b c hc
    rcases hheap hc with ⟨rfl, rfl⟩ | ⟨-, hc⟩
    · exact ⟨e, he, hpeer⟩
    · exact ⟨c, hc, rfl⟩
  refine ⟨fun hb hc hbc => ?_, fun hb => ?_, h.file_lt, h.file, h.lost,
    fun x hx => ?_, fun hb => ?_⟩
  · obtain ⟨b', hb', hbp⟩ := hsame hb
    obtain ⟨c', hc', hcp⟩ := hsame hc
    exact h.peers hb' hc' (hbp.symm.trans (hbc.trans hcp))
  · obtain ⟨b', hb', hbp⟩ := hsame hb
    exact hbp ▸ h.peer_lt hb'
  · obtain ⟨c, hc⟩ := h.lost_live x hx
    by_cases hxa : x.1 = a
    · exact ⟨d, hxa ▸ s.setEntry_self _⟩
    · exact ⟨c, (s.setEntry_of_ne hxa _).trans hc⟩
  · rcases hheap hb with ⟨-, rfl⟩ | ⟨-, hb⟩
    · exact hd
    · exact h.history hb

theorem Sound.free (h : Sound s) (ha : a ∉ s.lost.map (·.1)) : Sound (s.setEntry a none) := by
  have hheap : ∀ {b c}, (s.setEntry a none).heap b = some c → s.heap b = some c := by
    intro b c hc
    by_cases hb : b = a
    · rw [hb, s.setEntry_self] at hc
      cases hc
    · rwa [s.setEntry_of_ne hb] at hc
  refine ⟨fun hb hc => h.peers (hheap hb) (hheap hc), fun hb => h.peer_lt (hheap hb), h.file_lt,
    h.file, h.lost, fun x hx => ?_, fun hb => h.history (hheap hb)⟩
  obtain ⟨c, hc⟩ := h.lost_live x hx
  refine ⟨c, (s.setEntry_of_ne ?_ _).trans hc⟩
  rintro rfl
  exact ha (List.mem_map_of_mem hx)

end Sound

section Steps

structure Inv (s : State T) : Prop where
  sound : Sound s
  loops : ∀ t, LoopInv s t (s.loops t)

theorem inv_started : Inv ({} : State T) := by
  refine ⟨⟨nofun, nofun, nofun, nofun, .nil, nofun, nofun⟩, fun t => ?_⟩
  exact ⟨fun _ _ => rfl, fun h => absurd rfl h, nofun, .nil, nofun, trivial, nofun, nofun⟩

theorem LoopInv.congr (h : LoopInv s t l) (hh : s'.heap = s.heap) (hf : s'.files = s.files)
    (hl : s'.lost = s.lost) : LoopInv s' t l := by
  have hc : ∀ {a e}, Connected s t a e → Connected s' t a e :=
    fun h => ⟨by rw [hh, h.live], h.owner, by rw [hf, h.file]⟩
  have hs : ∀ {a e}, Shut s t a e → Shut s' t a e :=
    fun h => ⟨by rw [hh, h.live], h.owner, fun fd => by rw [hf]; exact h.file fd⟩
  refine ⟨h.idle, fun hpc => by rw [hf, h.listener hpc],
    fun hi => (h.registered hi).imp hc, h.nodup,
    fun r hr => (h.batch r hr).imp_right (Pending.imp hc), h.current.imp hc hs,
    fun x hx e he ho => ?_, fun he ho => ?_⟩
  · rw [hl] at hx
    rw [hh] at he
    obtain ⟨harmed, hhand, hwhy⟩ := h.lost x hx e he ho
    exact ⟨harmed, hhand, hwhy.imp hc hs⟩
  · rw [hh] at he
    rw [hl]
    exact h.whereabouts he ho

theorem Inv.step_of [DecidableEq T] (h : Inv s) (hs : Sound s') (hf : Frame t s s')
    (hloops : ∀ t', t' ≠ t → s'.loops t' = s.loops t')
    (hown : LoopInv s' t l) : Inv (s'.setLoop t l) := by
  refine ⟨⟨hs.peers, hs.peer_lt, hs.file_lt, hs.file, hs.lost, hs.lost_live, hs.history⟩,
    fun t' => ?_⟩
  by_cases ht : t' = t
  · subst ht
    rw [s'.setLoop_self]
    exact hown.congr rfl rfl rfl
  · rw [s'.setLoop_of_ne ht, hloops t' ht]
    exact ((h.loops t').frame hf ht).congr rfl rfl rfl

theorem Inv.setLoop [DecidableEq T] (h : Inv s) (hown : LoopInv s t l) : Inv (s.setLoop t l) :=
  h.step_of h.sound .refl (fun _ _ => rfl) hown

theorem Inv.loops_close (h : Inv s) (he : Connected s t a e) (ht : t' ≠ t) :
    (s.close e.connfd).loops t' = s.loops t' := by
  have hnone : (s.loops t').interest e.connfd = none := by
    by_contra hne
    obtain ⟨i, hi⟩ := Option.ne_none_iff_exists'.mp hne
    have hl := h.loops t'
    rcases hl.registered hi with ⟨hfd, -⟩ | ⟨d, hd, hfd, -⟩
    · have hpc : (s.loops t').pc ≠ .starting := fun hpc => hne (hl.idle (.inl hpc) _)
      exact he.ne_listener (hl.listener hpc) hfd
    · obtain rfl := hd.unique h.sound he hfd
      have hde : d = e := Option.some.inj (hd.live.symm.trans he.live)
      exact ht (hd.owner.symm.trans (hde ▸ he.owner))
  change { s.loops t' with interest := Function.update (s.loops t').interest e.connfd none } =
    s.loops t'
  rw [← hnone, Function.update_eq_self]

theorem LoopInv.atHand_rest {P : ReqStatus → Prop} (h : LoopInv s t l) (pc : Pc)
    (hw : Working s t l a batch P) (hbatch : pc.batch = batch)
    (hcur : pc.current = none) (hsuffix : batch <:+ l.pc.batch)
    (hsplit : ∀ b, b ∈ l.atHand ↔ b = a ∨ b ∈ { l with pc }.atHand) :
    ∀ b, b ∈ { l with pc }.atHand ↔ b ∈ l.atHand ∧ b ≠ a := by
  intro b
  rw [hsplit]
  refine ⟨fun hb => ⟨.inr hb, ?_⟩, fun hb => hb.1.resolve_left hb.2⟩
  rintro rfl
  rcases mem_atHand.mp hb with hnone | ⟨r, hr, hfd, hdata⟩
  · rw [hcur] at hnone
    cases hnone
  · rw [hbatch] at hr
    exact hw.not_mem hr (h.pending (hsuffix.subset hr) hfd) hdata

theorem Inv.lose [DecidableEq T] {P : ReqStatus → Prop} {why : Loss} (h : Inv s)
    (hw : Working s t (s.loops t) a batch P) (hwhy : why ≠ .hungUp)
    (hpc : (s.loops t).pc ≠ .starting) (hidle : pc ≠ .starting ∧ pc ≠ .listening)
    (hbatch : pc.batch = batch)
    (hcur : pc.current = none) (hsuffix : batch <:+ (s.loops t).pc.batch)
    (hsplit : ∀ b, b ∈ (s.loops t).atHand ↔ b = a ∨ b ∈ { s.loops t with pc }.atHand) :
    Inv ((s.lose a why).setPc t pc) := by
  have hl := h.loops t
  have hhand := hl.atHand_rest pc hw hbatch hcur hsuffix hsplit
  obtain ⟨e, he, hun, -⟩ := hw
  have hand : a ∈ (s.loops t).atHand := (hsplit a).mpr (.inl rfl)
  have hstranded : Stranded s t a e why := by
    cases why with
    | hungUp => exact absurd rfl hwhy
    | _ => exact he
  exact h.step_of (h.sound.lose he.live (hl.not_lost he.live he.owner hand))
    (.lose he.live he.owner) (fun _ _ => rfl)
    (hl.lose hpc hidle (hbatch ▸ hsuffix) hcur he.live hun.not_armed hstranded hhand)

theorem Inv.arm [DecidableEq T] {P : ReqStatus → Prop} (h : Inv s) (pc : Pc) (n : Nat)
    (hw : Working s t (s.loops t) a batch P) (he : s.heap a = some e)
    (hstatus : e.client.status ≠ .ended) (hpc : (s.loops t).pc ≠ .starting)
    (hidle : pc ≠ .starting ∧ pc ≠ .listening)
    (hbatch : pc.batch = batch) (hcur : pc.current = none) (hold : (s.loops t).pc.batch = batch)
    (hsplit : ∀ b, b ∈ (s.loops t).atHand ↔ b = a ∨ b ∈ { s.loops t with pc }.atHand) :
    Inv (s.setLoop t { (s.loops t).register e.connfd ⟨asks e.client.status, true, a, true⟩ with
      pc, clientConnections := n }) := by
  have hl := h.loops t
  exact h.setLoop (hl.arm hpc hidle hbatch hold hcur hw he hstatus ((hsplit a).mpr (.inl rfl))
    (hl.atHand_rest pc hw hbatch hcur (hold ▸ List.suffix_refl _) hsplit))

theorem Inv.step [DecidableEq T] (h : Inv s) (hstep : Step s s') : Inv s' := by
  cases hstep with
  | @listen t fd hpc hfd hint =>
      exact h.step_of (h.sound.openFile nofun) (.openFile hfd nofun) (fun _ _ => rfl)
        ((h.loops t).listen hpc hfd)
  | @setUpEpoll t epollfd data hpc hfd hdata =>
      exact h.step_of (h.sound.openFile nofun) (.openFile hfd nofun) (fun _ _ => rfl)
        ((h.loops t).setUpEpoll hpc hfd hdata)
  | @wait t batch hpc hbatch => exact h.setLoop ((h.loops t).wait hpc hbatch)
  | @done t hpc =>
      refine h.setLoop ((h.loops t).setPc (by simp [hpc]) (by simp) ?_ trivial fun a => ?_)
      · simp [Pc.batch]
      · simp [mem_atHand, hpc, Pc.current, Pc.batch]
  | @notified t r batch hpc hr =>
      split
      · rename_i hfd
        refine h.setLoop ((h.loops t).setPc (by simp [hpc]) (by simp) ?_ trivial fun a => ?_)
        · simp [hpc, Pc.batch]
        · simp [mem_atHand, hpc, Pc.current, Pc.batch, hfd]
      · rename_i hfd
        refine h.lose ((h.loops t).head hpc hfd) nofun (by simp [hpc])
          (by simp) rfl rfl ?_ fun b => ?_
        · simp [hpc, Pc.batch]
        · simp [mem_atHand, hpc, Pc.current, Pc.batch, hfd, eq_comm]
  | @accept t batch connfd client req hpc hfd hclient =>
      exact h.step_of (h.sound.accept hclient) (.accept h.sound hfd hclient) (fun _ _ => rfl)
        ((h.loops t).accept h.sound hpc hfd hclient)
  | @accepted t batch hpc =>
      refine h.setLoop ((h.loops t).setPc (by simp [hpc]) (by simp) ?_ trivial fun a => ?_)
      · simp [hpc, Pc.batch]
      · simp [mem_atHand, hpc, Pc.current, Pc.batch]
  | @added t batch client e hpc he =>
      have hw : Working s t (s.loops t) client batch (· = .reading) := (h.loops t).current_of hpc
      obtain ⟨d, hd, -, -, hstatus⟩ := id hw
      obtain rfl : d = e := Option.some.inj (hd.live.symm.trans he)
      have harm :=
        h.arm (.accepting batch) ((s.loops t).clientConnections + 1) hw he (by simp [hstatus])
        (by simp [hpc]) (by simp) rfl rfl (by simp [hpc, Pc.batch])
        (by simp [mem_atHand, hpc, Pc.current, Pc.batch, eq_comm])
      rwa [hstatus] at harm
  | @notAdded t batch client hpc =>
      have hw : Working s t (s.loops t) client batch (· = .reading) := (h.loops t).current_of hpc
      refine h.lose hw nofun (by simp [hpc]) (by simp) rfl rfl ?_ fun b => ?_
      · simp [hpc, Pc.batch]
      · simp [mem_atHand, hpc, Pc.current, Pc.batch, eq_comm]
  | @hungUp t r batch e hpc hr hbroken he =>
      have hl := h.loops t
      have hfd := hl.ne_listenfd hpc hr
      have hw := hl.head hpc hfd
      have hsplit : ∀ b, b ∈ (s.loops t).atHand ↔ b = r.data ∨
          b ∈ { s.loops t with pc := .dispatching batch }.atHand := by
        simp [mem_atHand, hpc, Pc.current, Pc.batch, hfd, eq_comm]
      have hhand := hl.atHand_rest (.dispatching batch) hw rfl rfl (by simp [hpc, Pc.batch]) hsplit
      have hclosed : ∀ b, b ∈ { s.loops t with pc := .closed r.data batch }.atHand ↔
          b ∈ (s.loops t).atHand := by
        simp [mem_atHand, hpc, Pc.current, Pc.batch, hfd, eq_comm]
      have hand : r.data ∈ (s.loops t).atHand := (hsplit _).mpr (.inl rfl)
      have hclose :=
        hl.close h.sound (by simp [hpc]) (.inr ⟨r, by simp [hpc, Pc.batch]⟩) hw he hand hclosed
      obtain ⟨d, hd, -⟩ := hw
      obtain rfl : d = e := Option.some.inj (hd.live.symm.trans he)
      refine h.step_of ((h.sound.close _).lose he (hl.not_lost he hd.owner hand))
        ((Frame.close h.sound hd).trans (.lose he hd.owner)) (fun t' ht => h.loops_close hd ht) ?_
      refine hclose.lose nofun (by simp) (List.suffix_refl _) rfl he (fun ha => ?_)
        (hd.shut h.sound) fun b => ?_
      · simp [Armed] at ha
      · exact (hhand b).trans (and_congr_left' (hclosed b).symm)
  | @request t r batch e hpc hr hbroken he hassert =>
      have hl := h.loops t
      have hfd := hl.ne_listenfd hpc hr
      refine h.setLoop (hl.setPc (by simp [hpc]) (by simp) ?_ (hl.head hpc hfd) fun a => ?_)
      · simp [hpc, Pc.batch]
      · simp [mem_atHand, hpc, Pc.current, Pc.batch, hfd]
  | @serve t batch client e answers response o hpc he hanswers ho =>
      have hl := h.loops t
      have hw : Working s t (s.loops t) client batch (· ≠ .ended) := hl.current_of hpc
      obtain ⟨d, hd, -⟩ := id hw
      obtain rfl : d = e := Option.some.inj (hd.live.symm.trans he)
      obtain ⟨req, hreq⟩ := h.sound.history he
      refine h.step_of (h.sound.serve he rfl ⟨req, hreq.next (.handled hanswers ho)⟩)
        (.setEntry he hd.owner fun c hc => Option.some.inj hc ▸ hd.owner) (fun _ _ => rfl) ?_
      refine hl.serve (by simp [hpc]) (by simp) rfl (by simp [hpc, Pc.batch]) hw he
        (by simp [mem_atHand, hpc, Pc.current]) rfl rfl rfl fun b => ?_
      simp [mem_atHand, hpc, Pc.current, Pc.batch]
  | @rearmed t batch client e hpc he hstatus hin =>
      have hw : Working s t (s.loops t) client batch fun _ => True := (h.loops t).current_of hpc
      exact h.arm (.dispatching batch) (s.loops t).clientConnections hw he hstatus
        (by simp [hpc]) (by simp) rfl rfl (by simp [hpc, Pc.batch])
        (by simp [mem_atHand, hpc, Pc.current, Pc.batch, eq_comm])
  | @notRearmed t batch client e hpc he hstatus =>
      have hw : Working s t (s.loops t) client batch fun _ => True := (h.loops t).current_of hpc
      refine h.lose hw nofun (by simp [hpc]) (by simp) rfl rfl ?_ fun b => ?_
      · simp [hpc, Pc.batch]
      · simp [mem_atHand, hpc, Pc.current, Pc.batch, eq_comm]
  | @close t batch client e hpc he hstatus =>
      have hl := h.loops t
      have hw : Working s t (s.loops t) client batch fun _ => True := hl.current_of hpc
      obtain ⟨d, hd, -⟩ := id hw
      obtain rfl : d = e := Option.some.inj (hd.live.symm.trans he)
      refine h.step_of (h.sound.close _) (Frame.close h.sound hd)
        (fun t' ht => h.loops_close hd ht) ?_
      refine hl.close h.sound (by simp [hpc]) (.inl (by simp [hpc, Pc.batch])) hw he
        (by simp [mem_atHand, hpc, Pc.current]) fun b => ?_
      simp [mem_atHand, hpc, Pc.current, Pc.batch]
  | @free t batch client hpc =>
      have hl := h.loops t
      obtain ⟨e, he⟩ : ∃ e, Shut s t client e := hl.current_of hpc
      have hlost := hl.not_lost he.live he.owner (by simp [mem_atHand, hpc, Pc.current])
      exact h.step_of (h.sound.free hlost) (.setEntry he.live he.owner nofun)
        (fun _ _ => rfl) (hl.free hpc)

end Steps

section Safe

theorem LoopInv.atHand_cases (h : LoopInv s t l) (ha : a ∈ l.atHand) :
    (∃ e, Connected s t a e ∧ Unarmed l e.connfd) ∨
    ∃ e batch, l.pc = .closed a batch ∧ Shut s t a e := by
  rcases mem_atHand.mp ha with hcur | ⟨r, hr, hfd, rfl⟩
  · have hc := h.current
    cases hpc : l.pc with
    | registering b batch | serving b batch | served b batch =>
        rw [hpc] at hcur hc
        obtain rfl : b = a := Option.some.inj hcur
        obtain ⟨e, he, hun, -⟩ := hc
        exact .inl ⟨e, he, hun⟩
    | closed b batch =>
        rw [hpc] at hcur hc
        obtain rfl : b = a := Option.some.inj hcur
        obtain ⟨e, he⟩ := hc
        exact .inr ⟨e, batch, rfl, he⟩
    | _ =>
        rw [hpc] at hcur
        cases hcur
  · obtain ⟨e, he, hefd, hun, -⟩ := h.pending hr hfd
    exact .inl ⟨e, he, hefd ▸ hun⟩

theorem LoopInv.not_armed (h : LoopInv s t l) (ha : a ∈ l.atHand) (he : s.heap a = some e) :
    ¬ Armed l a e := by
  intro harmed
  rcases h.atHand_cases ha with ⟨d, hd, hun⟩ | ⟨d, batch, -, hd⟩
  · obtain rfl : d = e := Option.some.inj (hd.live.symm.trans he)
    exact hun.not_armed harmed
  · rcases h.registered harmed.1 with ⟨-, hone, -⟩ | ⟨c, hc, -⟩
    · cases hone
    · exact hd.not_connected hc

theorem LoopInv.nodup_atHand (h : LoopInv s t l) : l.atHand.Nodup := by
  have hbatch : ((l.pc.batch.filter (fun r => r.fd ≠ l.listenfd)).map (·.data)).Nodup := by
    refine List.Nodup.map_on (fun x hx y hy hxy => ?_) ((h.nodup.of_map _).filter _)
    obtain ⟨hx, hxfd⟩ := List.mem_filter.mp hx
    obtain ⟨hy, hyfd⟩ := List.mem_filter.mp hy
    obtain ⟨d, hd, hdfd, -⟩ := h.pending hx (by simpa using hxfd)
    obtain ⟨e, he, hefd, -⟩ := h.pending hy (by simpa using hyfd)
    obtain rfl : d = e := hd.entry (hxy ▸ he)
    exact List.inj_on_of_nodup_map h.nodup hx hy (hdfd.symm.trans hefd)
  refine List.Nodup.append ?_ hbatch fun a ha hb => ?_
  · cases l.pc.current <;> simp
  · obtain ⟨r, hr, rfl⟩ := List.mem_map.mp hb
    obtain ⟨hr, hfd⟩ := List.mem_filter.mp hr
    have hp := h.pending hr (by simpa using hfd)
    have hcur := h.current
    cases hpc : l.pc with
    | registering b batch | serving b batch | served b batch =>
        rw [hpc] at ha hcur hr
        obtain rfl : b = r.data := by simpa [Pc.current, eq_comm] using ha
        simp only [Current] at hcur
        exact hcur.not_mem hr hp rfl
    | closed b batch =>
        rw [hpc] at ha hcur
        obtain rfl : b = r.data := by simpa [Pc.current, eq_comm] using ha
        obtain ⟨d, hd⟩ := hcur
        obtain ⟨e, he, -⟩ := hp
        exact hd.not_connected he
    | _ => simp [hpc, Pc.current] at ha

theorem Inv.safe (h : Inv s) (t : T) : Safe s t := by
  have hl := h.loops t
  refine ⟨fun a ha => ?_, hl.nodup_atHand, fun a ha => ?_, fun r hr hfd hbroken => ?_,
    fun a batch hpc => ?_, fun a e he ho => ?_, fun x hx => ?_, fun a e he _ => h.sound.history he⟩
  · rcases hl.atHand_cases ha with ⟨e, he, -⟩ | ⟨e, batch, -, he⟩
    · exact ⟨e, he.live, he.owner⟩
    · exact ⟨e, he.live, he.owner⟩
  · rcases hl.atHand_cases ha with ⟨e, he, -⟩ | ⟨e, batch, hpc, -⟩
    · exact .inr ⟨e, he⟩
    · exact .inl ⟨batch, hpc⟩
  · obtain ⟨e, he, -, -, -, hassert⟩ := hl.pending hr hfd
    exact ⟨e, he.live, hassert hbroken⟩
  · obtain ⟨e, he, -, -, hstatus⟩ : Working s t (s.loops t) a batch (· ≠ .ended) :=
      hl.current_of hpc
    exact ⟨e, he.live, hstatus⟩
  · by_cases hlost : a ∈ s.lost.map (·.1)
    · obtain ⟨x, hx, rfl⟩ := List.mem_map.mp hlost
      obtain ⟨harmed, hhand, -⟩ := hl.lost x hx e he ho
      exact .inr (.inr ⟨harmed, hhand, hlost⟩)
    · by_cases hhand : a ∈ (s.loops t).atHand
      · exact .inr (.inl ⟨hl.not_armed hhand he, hhand, hlost⟩)
      · refine .inl ⟨?_, hhand, hlost⟩
        exact (hl.whereabouts he ho).resolve_right fun hor => hor.elim hhand hlost
  · obtain ⟨e, he⟩ := h.sound.lost_live x hx
    exact ⟨e, he, fun ho => (hl.lost x hx e he ho).2.2⟩

variable [DecidableEq T]

theorem inv_of_reachable (h : Reachable Started Step s) : Inv s :=
  h.invariant (fun _ hs => hs ▸ inv_started) fun _ _ hs hst => hs.step hst

/-- Whatever the threads do and the kernel reports, no client is used or closed
after it has been freed or by another thread, and each is served as if it were
alone. Those that are never freed are those that hung up, that `epoll_ctl` did not
take, or whose address looks like the listening socket. -/
theorem event_loop_safe (s : State T) (h : Reachable Started Step s) (t : T) : Safe s t :=
  (inv_of_reachable h).safe t

/-- The first bytes of a request have been read. -/
theorem event_loop_safe_served :
    ∃ s : State Bool, (s.loops true).pc = .served 4096 [] ∧ Safe s true := by
  have h₀ : Reachable Started Step ({} : State Bool) := .start rfl
  have h₁ := h₀.next (@Step.listen Bool _ _ true 3 rfl rfl (by decide))
  have h₂ := h₁.next (@Step.setUpEpoll Bool _ _ true 4 3 rfl rfl rfl)
  have h₃ :=
    h₂.next (@Step.wait Bool _ _ true [⟨3, 3, { input := true }⟩] rfl ⟨by decide, by simp, by
    simp only [List.mem_singleton, forall_eq]
    exact ⟨⟨{ input := true }, false, 3, true⟩, rfl, rfl, rfl, by decide, fun _ => rfl, nofun⟩⟩)
  have h₄ := h₃.next (@Step.notified Bool _ _ true _ _ rfl rfl)
  have h₅ := h₄.next (@Step.accept Bool _ _ true _ 5 4096 (fun _ => 0) rfl rfl rfl)
  have h₆ := h₅.next (@Step.added Bool _ _ true _ 4096 _ rfl rfl)
  have h₇ := (h₆.next (@Step.accepted Bool _ _ true _ rfl)).next (@Step.done Bool _ _ true rfl)
  have h₈ :=
    h₇.next (@Step.wait Bool _ _ true [⟨5, 4096, { input := true }⟩] rfl ⟨by decide, by simp, by
    simp only [List.mem_singleton, forall_eq]
    exact ⟨⟨{ input := true }, true, 4096, true⟩, rfl, rfl, rfl, by decide, fun _ => rfl, nofun⟩⟩)
  have h₉ :=
    h₈.next (@Step.request Bool _ _ true _ _ _ rfl (by decide) rfl rfl
      ⟨by decide, fun _ => rfl, nofun⟩)
  have h₁₀ :=
    h₉.next (@Step.serve Bool _ _ true _ _ _ (.reading ⟨[[71]], .again⟩) [] _ rfl rfl
      ⟨by simp, by decide, trivial⟩ rfl)
  exact ⟨_, rfl, event_loop_safe _ h₁₀ true⟩

end Safe

end Mangosteen.EventLoop
