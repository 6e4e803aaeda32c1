import Mangosteen.Transactions
import Mangosteen.WriteAhead

namespace Mangosteen.Atomicity

open PersistentMemory Prog Memory RingBuffer BackEnd Session Slots Channel
  SoloRing Overrun SoloBackEnd Delivery WriteAhead Instrumentation Transactions

variable {N : Nat}

/-- A front end that runs one transaction after the other, and the back end. The
program of a transaction is its `instrument_stop`: the writes before it are to
the front end's own memory. No memory is mapped between transactions, so there
are no sessions of the `mmap` hook here. -/
def transactionSystem (N : Nat) (allowed : List Access → Prop)
    (admits : State → Label Actor Loc Val Log → Prop)
    (memory : Nat → UInt8) : System Actor Loc Val Log FrontEnd where
  next a s p := match a with
    | .frontEnd =>
      ∃ xs s', allowed xs ∧ performAll xs ⟨s.memory, instrumentStart s.data⟩ = some s' ∧
        p = (do let data ← instrumentStop N s'.memory s'.data; .ret ⟨s'.memory, data⟩)
    | .backEnd => p = (do runConsumer N; .ret s)
  boot _ := .ret ⟨memory, {}⟩
  reboot w := w
  admits w label := label ≠ .crash ∧ admits w label

theorem instrumentStop_bind (s : FrontEnd) :
    (do let data ← instrumentStop N s.memory s.data; .ret ⟨s.memory, data⟩ : Code FrontEnd) =
      (do session N (loggedBatches s.memory s.data) s.memory; .ret ⟨s.memory, {}⟩) := by
  rw [instrumentStop_eq, Prog.bind_assoc]
  rfl

/-- Transactions serve a property `I` of their sessions, when a transaction that
starts from the memory of the last session keeps it. -/
theorem serves_transactionSystem {allowed : List Access → Prop}
    {admits : State → Label Actor Loc Val Log → Prop}
    {memory : Nat → UInt8} {I : List SessionRecord → Prop}
    {J : (Nat → UInt8) → List SessionRecord → Prop} (hstart : J memory [])
    (hstep : ∀ m xs s start ss, allowed xs → performAll xs ⟨m, instrumentStart {}⟩ = some s →
      I ss → J m ss → I (⟨start, loggedBatches s.memory s.data, s.memory⟩ :: ss) ∧
        J s.memory (⟨start, loggedBatches s.memory s.data, s.memory⟩ :: ss)) :
    Serves (transactionSystem N allowed admits memory) N I
      (fun x ss => x.data = {} ∧ J x.memory ss) where
  front := by
    rintro x _ ⟨xs, s, hallowed, hs, rfl⟩
    refine ⟨loggedBatches s.memory s.data, s.memory, ⟨s.memory, {}⟩, instrumentStop_bind s,
      commit_not_mem_loggedBatches s.data, ?_⟩
    rintro start ss hI ⟨hdata, hJ⟩
    rw [hdata] at hs
    obtain ⟨hI, hJ⟩ := hstep x.memory xs s start ss hallowed hs hI hJ
    exact ⟨hI, rfl, hJ⟩
  back := by
    rintro x _ rfl
    exact ⟨x, rfl⟩
  frontBoot := ⟨_, rfl, rfl, hstart⟩
  backBoot := ⟨_, rfl⟩
  noCrash _ h := h.1 rfl

/-- The count does not lie strictly inside the entries of a session. -/
def Whole (s : SessionRecord) (n : Nat) : Prop :=
  n ≤ s.start ∨ s.start + (entries s.batches).length ≤ n

/-- A replay from the durable head up to the durable tail meets all entries of a
session or none. -/
def AllOrNone (w : State) (s : SessionRecord) : Prop :=
  durableHead w ≤ s.start ∧ s.start + (entries s.batches).length ≤ durableTail w ∨
    s.start + (entries s.batches).length ≤ durableHead w ∨ durableTail w ≤ s.start

/-- Whenever the system may crash, the log that a restart replays is in its
slots, and it cuts no transaction in two. -/
structure Atomic (N : Nat) (w : State) : Prop where
  durable : HeadDurable N w
  published : ∀ s ∈ w.log.sessions, Whole s w.log.published
  replayed : ∀ s ∈ w.log.sessions, AllOrNone w s

section Whole

theorem getElem?_of_aligned {ss : List SessionRecord} {s : SessionRecord} (h : Aligned ss)
    (hs : s ∈ ss) {i : Nat} (hi : i < (entries s.batches).length) :
    (entries (logged ss))[s.start + i]? = (entries s.batches)[i]? := by
  induction ss with
  | nil => cases hs
  | cons r ss ih =>
      rw [logged, entries_append]
      rcases List.mem_cons.mp hs with rfl | hs
      · rw [h.1, List.getElem?_append_right (Nat.le_add_right _ _), Nat.add_sub_cancel_left]
      · have hold := ih h.2 hs
        have hlt : s.start + i < (entries (logged ss)).length := by
          rw [List.getElem?_eq_getElem hi] at hold
          exact (List.getElem?_eq_some_iff.mp hold).1
        rw [List.getElem?_append_left hlt, hold]

theorem AtBoundary.whole {es fs : List Entry} {ss : List SessionRecord}
    {s : SessionRecord} {k : Nat}
    (h : AtBoundary es k) (hes : es <+: entries (logged ss)) (ha : Aligned ss) (hs : s ∈ ss)
    (hbatch : s.batches = [fs]) (hplain : .commit ∉ fs) : Whole s k := by
  by_contra hcut
  rw [Whole, hbatch, entries, List.flatMap_singleton, closed, List.length_append,
    List.length_singleton, not_or] at hcut
  rcases h.of_isPrefix hes with rfl | hk
  · exact hcut.1 (Nat.zero_le _)
  · have hlen : (entries s.batches).length = fs.length + 1 := by
      rw [hbatch, entries, List.flatMap_singleton, closed, List.length_append,
        List.length_singleton]
    have hget := getElem?_of_aligned ha hs (i := k - 1 - s.start) (by omega)
    rw [show s.start + (k - 1 - s.start) = k - 1 by omega, hk, hbatch, entries,
      List.flatMap_singleton, closed, List.getElem?_append_left (by omega)] at hget
    exact hplain (List.mem_of_getElem? hget.symm)

end Whole

/-- Every session logs a single batch. -/
def Single (ss : List SessionRecord) : Prop := ∀ s ∈ ss, ∃ es, s.batches = [es]

theorem mem_logged {ss : List SessionRecord} {s : SessionRecord} {es : List Entry} (hs : s ∈ ss)
    (hes : es ∈ s.batches) : es ∈ logged ss := by
  induction ss with
  | nil => cases hs
  | cons r ss ih =>
      rw [logged]
      rcases List.mem_cons.mp hs with rfl | hs
      · exact List.mem_append_right _ hes
      · exact List.mem_append_left _ (ih hs)

theorem atomic_of_ringInv {w : State} (h : RingInv N true Single w) : Atomic N w := by
  have hwhole : ∀ s ∈ w.log.sessions, ∀ k, AtBoundary w.log.enqueued k → Whole s k := by
    intro s hs k hk
    obtain ⟨es, hes⟩ := h.extra s hs
    exact AtBoundary.whole hk h.history.enqueued h.history.aligned hs hes
      (h.history.plain es (mem_logged hs (by simp [hes])))
  refine ⟨headDurable_of_ringInv h, fun s hs => hwhole s hs _ h.history.published, fun s hs => ?_⟩
  rcases hwhole s hs _ (atBoundary_durableHead h.history) with hh | hh
  · rcases hwhole s hs _ (atBoundary_durableTail h.history) with ht | ht
    · exact .inr (.inr ht)
    · exact .inl ⟨hh, ht⟩
  · exact .inr (.inl hh)

theorem memcpyArray_performAll {xs : List Access} (hxs : xs.filter isMemcpy = []) {s s' : FrontEnd}
    (h : performAll xs s = some s') : s'.data.memcpyArray = s.data.memcpyArray := by
  induction xs generalizing s with
  | nil => cases h; rfl
  | cons x xs ih =>
      obtain ⟨s₁, h₁, h₂⟩ := Option.bind_eq_some_iff.mp h
      cases x with
      | memcpy dest src size => simp [isMemcpy] at hxs
      | store addr bytes =>
          rw [ih (by simpa [isMemcpy] using hxs) h₂]
          obtain ⟨data, hd, rfl⟩ := Option.map_eq_some_iff.mp h₁
          rw [storeAddressInHashSet] at hd
          split at hd
          · cases hd; rfl
          · exact memcpyArray_insertLines hd

/-- Transactions are atomic across crashes, in every run without `memcpy` whose
full producers refresh their head to a durable one. -/
theorem transaction_atomic (N : Nat) (hN : 2 ≤ N) (bytes : Cell → UInt8)
    (regions : List (Nat × Nat)) (memory : Nat → UInt8) (c : Config Actor Loc Val Log FrontEnd)
    (h : (transactionSystem N (fun xs => xs.filter isMemcpy = [])
      (admitsHead N true) memory).Reachable (initial bytes regions) c) : Atomic N c.world := by
  refine atomic_of_ringInv
    (ringInv_of_reachable (serves_transactionSystem (J := fun _ _ => True) trivial ?_) hN
    (by simp [Single]) (fun _ _ h => h.2) h)
  intro m xs s start ss hxs hs hI _
  refine ⟨fun r hr => ?_, trivial⟩
  rcases List.mem_cons.mp hr with rfl | hr
  · exact ⟨_, by rw [loggedBatches, memcpyArray_performAll hxs hs]; rfl⟩
  · exact hI r hr

section Logged

/-- A thread that has stored to the line at 8192 only. -/
def oneLine (es : List MemcpyEntry) : PerThread where
  combiner := 1
  hashSetEntries := Function.update (fun _ => 0) 0 8192
  numberOfHashSetEntries := 1
  memcpyArray := es

theorem lines_oneLine (es : List MemcpyEntry) : (oneLine es).lines = [8192] := by
  have hrest : ((List.range 1023).map Nat.succ).map (oneLine es).hashSetEntries =
      ((List.range 1023).map Nat.succ).map (fun _ => 0) := by
    refine List.map_congr_left fun i hi => ?_
    obtain ⟨j, -, rfl⟩ := List.mem_map.mp hi
    exact Function.update_of_ne (Nat.succ_ne_zero j) 8192 (fun _ => 0)
  rw [PerThread.lines, show hashSetSize = 1023 + 1 from rfl, List.range_succ_eq_map,
    List.map_cons, hrest,
    show (oneLine es).hashSetEntries 0 = 8192 from rfl, List.filter_cons_of_pos (by decide),
    List.filter_eq_nil_iff.mpr (by simp)]

theorem lenient_transactionSystem {allowed : List Access → Prop}
    {memory : Nat → UInt8} (dur : Bool) :
    (transactionSystem N allowed (admitsHead N dur) memory).Lenient .frontEnd :=
  fun _ _ ho => ⟨by simp, admitsHead_of_ne_await N dur ho⟩

theorem unrestricted_transactionSystem {allowed : List Access → Prop}
    {memory : Nat → UInt8} (dur : Bool) :
    (transactionSystem N allowed (admitsHead N dur) memory).Unrestricted .backEnd :=
  fun _ _ => ⟨by simp, trivial⟩

variable {allowed : List Access → Prop} {admits : State → Label Actor Loc Val Log → Prop}

theorem reachable_transactionSystem {memory : Nat → UInt8} {w : State} :
    (transactionSystem N allowed admits memory).Reachable w
    ⟨w, atRest ⟨memory, {}⟩ ⟨memory, {}⟩⟩ := by
  have : (transactionSystem N allowed admits memory).boot = atRest ⟨memory, {}⟩ ⟨memory, {}⟩ := by
    funext a; cases a <;> rfl
  rw [← this]
  exact .refl

theorem opens_store {m₀ m : Nat → UInt8} (h : allowed [.store 8192 [1]]) :
    Opens (transactionSystem N allowed admits m₀) N ⟨m, {}⟩ [[redoEntry (write m 8192 [1]) 8192]]
      (write m 8192 [1]) ⟨write m 8192 [1], {}⟩ := by
  refine ⟨[.store 8192 [1]], ⟨write m 8192 [1], oneLine []⟩, h, rfl, ?_⟩
  rw [instrumentStop_bind, loggedBatches, lines_oneLine]
  rfl

/-- Two transactions have been logged, the first of which the consumer has
applied and committed. -/
theorem transaction_atomic_logged : ∃ c,
    (transactionSystem ringBufferSize (fun xs => xs.filter isMemcpy = [])
      (admitsHead ringBufferSize true)
      fun _ => 0).Reachable (initial (fun _ => 0) []) c ∧ c.world.log.sessions.length = 2 ∧
    c.world.log.published = 4 ∧ c.world.log.committed = 2 ∧ Atomic ringBufferSize c.world := by
  have hF : (transactionSystem ringBufferSize (fun xs => xs.filter isMemcpy = [])
      (admitsHead ringBufferSize true)
      fun _ => 0).Lenient .frontEnd := lenient_transactionSystem true
  obtain ⟨u, hu, ht⟩ :=
    transfer_move hF (unrestricted_transactionSystem true) (by decide) (by decide)
    (level_initial (fun _ => 0) []) reachable_transactionSystem (opens_store rfl) rfl
  obtain ⟨v, hv, hlog⟩ := one_move hF (by decide) (by decide) ht.level hu rfl (opens_store rfl)
  refine ⟨_, hv, ?_, ?_, ?_, transaction_atomic ringBufferSize (by decide) (fun _ => 0) [] _ _ hv⟩
  · show v.log.sessions.length = 2
    rw [hlog.sessions, ht.sessions]
    rfl
  · show v.log.published = 4
    rw [hlog.published, hlog.enqueued, ht.enqueued]
    rfl
  · show v.log.committed = 2
    rw [hlog.back, ht.committed, ht.dequeued]
    rfl

end Logged

section Cut

theorem lines_memcpy : (⟨4096, 4096 + 32⟩ : MemcpyEntry).lines = [4096] := by decide +kernel

/-- Transactions with no condition on them or on the steps of the run. -/
def anyTransactions (N : Nat) (memory : Nat → UInt8) : System Actor Loc Val Log FrontEnd :=
  transactionSystem N Fits (fun _ _ => True) memory

theorem unrestricted_anyTransactions (memory : Nat → UInt8) (a : Actor) :
    (anyTransactions N memory).Unrestricted a := fun _ _ => ⟨by simp, trivial⟩

theorem reachable_anyTransactions (memory : Nat → UInt8) (bytes : Cell → UInt8)
    (regions : List (Nat × Nat)) : (anyTransactions N memory).Reachable (initial bytes regions)
      ⟨initial bytes regions, atRest ⟨memory, {}⟩ ⟨memory, {}⟩⟩ :=
  reachable_transactionSystem

theorem next_anyTransactions (memory : Nat → UInt8) {xs : List Access}
    {m : Nat → UInt8} {s : FrontEnd}
    (hxs : Fits xs) (hs : performAll xs ⟨m, instrumentStart {}⟩ = some s) :
    (anyTransactions N memory).next .frontEnd ⟨m, {}⟩
      (do session N (loggedBatches s.memory s.data) s.memory; .ret ⟨s.memory, {}⟩) :=
  ⟨xs, s, hxs, hs, (instrumentStop_bind s).symm⟩

theorem batch_move {Phase : Type} {S : System Actor Loc Val Log Phase}
    (hF : S.Unrestricted .frontEnd) {w₀ w : State}
    {procs : Actor → Code Phase} {x y : Phase} {es : List Entry} {bs : List (List Entry)}
    {memory : Nat → UInt8}
    {head tail : Nat} (h : S.Reachable w₀ ⟨w, procs⟩) (hx : procs .frontEnd = .ret x)
    (hn : S.next .frontEnd x (do session N (es :: bs) memory; .ret y))
    (hh : w.cur .lastPersistedHead = head)
    (ht : w.cur .lastPersistedTail = tail) (hle : head ≤ tail)
    (hfit : tail + (entries [es]).length < N) : ∃ p, S.Reachable w₀ ⟨logBatches tail [es]
      { w with
        log :=
          { w.log with sessions := ⟨w.log.enqueued.length, es :: bs, memory⟩ :: w.log.sessions } },
      Function.update procs .frontEnd p⟩ := by
  rw [session_eq_starting, Prog.bind_assoc] at hn
  obtain ⟨_, v, hv, rfl, rfl⟩ := h.start hx hn (runs_starting hF.lenient)
  rw [show es :: bs = [es] ++ bs from rfl] at hv
  simp only [batches_append, Prog.bind_assoc] at hv
  have hrun : S.Runs .frontEnd (batches N [es] (w.cur .lastPersistedHead, w.cur .lastPersistedTail))
      (fun _ u => u = logBatches tail [es]
        { w with
          log :=
            { w.log with sessions := ⟨w.log.enqueued.length, es :: bs, memory⟩ :: w.log.sessions }
            })
      { w with
        log :=
          { w.log with sessions := ⟨w.log.enqueued.length, es :: bs, memory⟩ :: w.log.sessions } }
          := by
    rw [← Prog.bind_ret (batches N _ _), hh, ht, runs_batches hF.lenient hle hfit]
    exact System.Runs.pure.mpr rfl
  obtain ⟨_, u, hu, rfl⟩ := hv.resume (Function.update_self _ _ _) hrun
  rw [Function.update_idem] at hu
  exact ⟨_, hu⟩

/-- A transaction with a copy and a store is cut by `remote_tail` after the
first of its two commits. -/
theorem exists_cut (hN : 4 < N) (memory : Nat → UInt8) (bytes : Cell → UInt8)
    (regions : List (Nat × Nat)) :
    ∃ c, (anyTransactions N memory).Reachable (initial bytes regions) c ∧
    c.world.log.published = 2 ∧
      ∃ s ∈ c.world.log.sessions, s.start = 0 ∧ (entries s.batches).length = 4 := by
  have hfits : Fits [.memcpy 4096 0 32, .store 8192 [1]] :=
    ⟨by simp [InRange], by decide +kernel, by decide⟩
  have hs : performAll [.memcpy 4096 0 32, .store 8192 [1]] ⟨memory, instrumentStart {}⟩ =
      some ⟨write (copy memory 4096 0 32) 8192 [1], oneLine [⟨4096, 4096 + 32⟩]⟩ := rfl
  have hb : ∀ m, loggedBatches m (oneLine [⟨4096, 4096 + 32⟩]) =
      [[redoEntry m 4096], [redoEntry m 8192]] := by
    intro m
    rw [loggedBatches, lines_oneLine, show (oneLine [⟨4096, 4096 + 32⟩]).memcpyArray =
      [⟨4096, 4096 + 32⟩] from rfl, List.map_singleton, lines_memcpy]
    rfl
  have hn := next_anyTransactions (N := N) memory hfits hs
  simp only [hb] at hn
  obtain ⟨p, hp⟩ := batch_move (unrestricted_anyTransactions memory .frontEnd)
    (reachable_anyTransactions memory bytes regions) rfl hn rfl rfl le_rfl
    (Nat.lt_of_succ_lt (Nat.lt_of_succ_lt hN))
  exact ⟨_, hp, rfl, _, List.mem_cons_self, rfl, rfl⟩

theorem not_transaction_atomic : ¬ ∀ c, (anyTransactions ringBufferSize (fun _ => 0)).Reachable
    (initial (fun _ => 0) []) c → Atomic ringBufferSize c.world := by
  intro h
  obtain ⟨c, hc, hp, s, hs, hstart, hlen⟩ :=
    exists_cut (N := ringBufferSize) (by decide) (fun _ => 0) (fun _ => 0) []
  rcases (h c hc).published s hs with hle | hle
  · omega
  · omega

end Cut

end Mangosteen.Atomicity
