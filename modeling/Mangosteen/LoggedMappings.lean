import Mangosteen.RegionMap

namespace Mangosteen.LoggedMappings

open PersistentMemory Prog Memory RingBuffer BackEnd Session Channel Delivery Isolation RegionMap
open RecoveredTable (addedRegion tableOf)

def sysMmap : Nat := 9

def sysMunmap : Nat := 11

structure LastSyscall where
  sysnum : Nat
  addr : BitVec 64
  size : BitVec 64

def eventPreSyscall (sysnum : Nat) (addr size : BitVec 64) (last : LastSyscall) : LastSyscall :=
  if sysnum ≠ sysMmap ∧ sysnum ≠ sysMunmap then last else ⟨sysnum, addr, size⟩

/-- The map entry that is filled from `data->lastSyscall`. -/
def mapEntry (combiner : Nat) (last : LastSyscall) : Entry :=
  if combiner = 0 then .transientMmap last.addr.toNat last.size.toNat
    else .mmap last.addr.toNat last.size.toNat

/-- What `event_post_syscall` leaves in `data->lastSyscall`, and the entry that it
enqueues; nothing where its assertion fails. -/
def eventPostSyscall (sysnum : Nat) (result : BitVec 64) (combiner : Nat) (last : LastSyscall) :
    Option (LastSyscall × Option Entry) :=
  if sysnum ≠ sysMmap ∧ sysnum ≠ sysMunmap then some (last, none)
  else if last.sysnum = sysMmap then
    if last.addr = 0 then
      -- the result of a call that failed is `-errno`, and this is `EPERM` only
      if result = -1 then none else some ({ last with addr := result },
        some (mapEntry combiner { last with addr := result }))
    else some (last, some (mapEntry combiner last))
  else some (last, none)

/-- The kernel returns an error number, negated. -/
def Failed (result : BitVec 64) : Prop := -4095 ≤ result.toInt ∧ result.toInt < 0

instance (result : BitVec 64) : Decidable (Failed result) := inferInstanceAs (Decidable (_ ∧ _))

/-- A call of `mmap` with what the kernel makes of it. With `MAP_FIXED` the address
is no hint. -/
structure MmapCall where
  thread : Nat
  combiner : Nat
  hint : BitVec 64
  fixed : Bool
  size : BitVec 64
  result : BitVec 64
  placed : fixed = true → ¬ Failed result → result = hint

/-- The hooks before and after a call. -/
def mmap (c : MmapCall) (threads : Nat → LastSyscall) :
    Option ((Nat → LastSyscall) × Option Entry) :=
  (eventPostSyscall sysMmap c.result c.combiner
    (eventPreSyscall sysMmap c.hint c.size (threads c.thread))).map
    fun r => (Function.update threads c.thread r.1, r.2)

/-- The entry of the mapping that the kernel returned. -/
def realEntry (c : MmapCall) : Option Entry :=
  if Failed c.result then none
  else if c.combiner = 0 then some (.transientMmap c.result.toNat c.size.toNat)
  else some (.mmap c.result.toNat c.size.toNat)

/-- For every call of the sequence the entry of its mapping is enqueued, and nothing
for one that failed. Where the assertion fails nothing is, and the process ends. -/
def LogsReal : List MmapCall → (Nat → LastSyscall) → Prop
  | [], _ => True
  | c :: cs, threads => match mmap c threads with
      | none => realEntry c = none
      | some (after, e) => e = realEntry c ∧ LogsReal cs after

/-- The call succeeds, and where it has a hint the kernel follows it. -/
def Exact (c : MmapCall) : Prop := ¬ Failed c.result ∧ (c.hint = 0 ∨ c.result = c.hint)

/-- The one failure that the assertion is for. -/
def Stops (c : MmapCall) : Prop := c.hint = 0 ∧ c.result = -1

instance (c : MmapCall) : Decidable (Exact c) := inferInstanceAs (Decidable (_ ∧ _))

instance (c : MmapCall) : Decidable (Stops c) := inferInstanceAs (Decidable (_ ∧ _))

def AllExact : List MmapCall → Prop
  | [] => True
  | c :: cs => Stops c ∨ Exact c ∧ AllExact cs

section Hooks

variable {c : MmapCall} {cs : List MmapCall} {threads after : Nat → LastSyscall} {e : Entry}

/-- The address that is logged. -/
def loggedAddr (c : MmapCall) : BitVec 64 := if c.hint = 0 then c.result else c.hint

def loggedEntry (c : MmapCall) : Entry := mapEntry c.combiner ⟨sysMmap, loggedAddr c, c.size⟩

theorem eventPostSyscall_mmap (c : MmapCall) :
    eventPostSyscall sysMmap c.result c.combiner ⟨sysMmap, c.hint, c.size⟩ =
    if c.hint = 0 then
      if c.result = -1 then none
      else some (⟨sysMmap, c.result, c.size⟩,
        some (mapEntry c.combiner ⟨sysMmap, c.result, c.size⟩))
    else some (⟨sysMmap, c.hint, c.size⟩,
      some (mapEntry c.combiner ⟨sysMmap, c.hint, c.size⟩)) := by
  rw [eventPostSyscall, if_neg fun h => h.1 rfl, if_pos rfl]

theorem eventPreSyscall_mmap (addr size : BitVec 64) (last : LastSyscall) :
    eventPreSyscall sysMmap addr size last = ⟨sysMmap, addr, size⟩ := by
  rw [eventPreSyscall, if_neg fun h => h.1 rfl]

theorem mmap_of_stops (h : Stops c) : mmap c threads = none := by
  rw [mmap, eventPreSyscall_mmap, eventPostSyscall_mmap, if_pos h.1, if_pos h.2, Option.map_none]

theorem mmap_of_not_stops (h : ¬ Stops c) :
    mmap c threads = some (Function.update threads c.thread ⟨sysMmap, loggedAddr c, c.size⟩,
      some (loggedEntry c)) := by
  rw [mmap, eventPreSyscall_mmap, eventPostSyscall_mmap, loggedEntry, loggedAddr]
  by_cases hz : c.hint = 0
  · rw [if_pos hz, if_neg fun hr => h ⟨hz, hr⟩, if_pos hz, Option.map_some]
  · rw [if_neg hz, if_neg hz, Option.map_some]

theorem failed_of_stops (h : Stops c) : Failed c.result := by
  rw [h.2]
  decide

theorem realEntry_of_failed (h : Failed c.result) : realEntry c = none := if_pos h

theorem realEntry_of_success (h : ¬ Failed c.result) :
    realEntry c = some (mapEntry c.combiner ⟨sysMmap, c.result, c.size⟩) := by
  rw [realEntry, if_neg h, mapEntry]
  split <;> rfl

theorem mapEntry_inj {combiner : Nat} {addr addr' size : BitVec 64} :
    mapEntry combiner ⟨sysMmap, addr, size⟩ = mapEntry combiner ⟨sysMmap, addr', size⟩ ↔
    addr = addr' := by
  rw [mapEntry, mapEntry]
  split
  · rw [Entry.transientMmap.injEq, BitVec.toNat_inj, eq_self, and_true]
  · rw [Entry.mmap.injEq, BitVec.toNat_inj, eq_self, and_true]

theorem loggedEntry_eq_iff : some (loggedEntry c) = realEntry c ↔ Exact c := by
  by_cases hf : Failed c.result
  · rw [realEntry_of_failed hf]
    exact iff_of_false (by simp) fun h => h.1 hf
  · rw [realEntry_of_success hf, Option.some_inj, loggedEntry, mapEntry_inj, loggedAddr,
      Exact, and_iff_right hf]
    by_cases hz : c.hint = 0
    · rw [if_pos hz]
      exact iff_of_true rfl (.inl hz)
    · rw [if_neg hz, or_iff_right hz, eq_comm]

theorem logsReal_iff : LogsReal cs threads ↔ AllExact cs := by
  induction cs generalizing threads with
  | nil => exact Iff.rfl
  | cons c cs ih =>
      rw [LogsReal, AllExact]
      by_cases hs : Stops c
      · rw [mmap_of_stops hs]
        exact iff_of_true (realEntry_of_failed (failed_of_stops hs)) (.inl hs)
      · rw [mmap_of_not_stops hs]
        simp only [hs, false_or, loggedEntry_eq_iff, ih]

end Hooks

/-- The part of the hook that writes to the ring. -/
def logEntry (N : Nat) (memory : Nat → UInt8) : Entry → Code Unit
  | .mmap addr size => Session.eventPostSyscall N memory true addr size
  | .transientMmap addr size => Session.eventPostSyscall N memory false addr size
  | .redo _ _ | .commit => pure ()

/-- The calls are made one after the other, with the back end at work on what they
log. A front end whose assertion has failed does not go on. -/
def hookSystem (N : Nat) (cs : List MmapCall) (threads : Nat → LastSyscall) :
    System Actor Loc Val Log (List MmapCall × (Nat → LastSyscall)) where
  next a x p := match a with
    | .frontEnd => ∃ c rest after e memory, x.1 = c :: rest ∧ mmap c x.2 = some (after, some e) ∧
        p = (do logEntry N memory e; pure (rest, after))
    | .backEnd => p = (do runConsumer N; pure x)
  boot _ := .ret (cs, threads)
  reboot w := w
  admits w label := label ≠ .crash ∧ admitsHead N false w label

/-- The records and the fixed mappings of the back end are those of mappings that
the kernel returned, in the order of the calls. -/
def MapsReal (regions : List (Nat × Nat)) (cs : List MmapCall) (w : State) : Prop :=
  ∃ es, es <+: cs.filterMap realEntry ∧ w.cur .uncommitedNumberOfEntries =
  (tableOf regions es).length ∧
    (∀ i r, (tableOf regions es)[i]? = some r → IsRange w.cur i r) ∧
    w.cur .addressMap = mapsOf regions es

section Runs

variable {N : Nat} {c : MmapCall} {cs : List MmapCall} {threads : Nat → LastSyscall}
  {regions : List (Nat × Nat)}

theorem logEntry_eq (memory : Nat → UInt8) :
    logEntry N memory (loggedEntry c) = session N [[loggedEntry c]] memory := by
  rw [loggedEntry, mapEntry]
  split
  · exact Session.eventPostSyscall_eq N memory false _ _
  · exact Session.eventPostSyscall_eq N memory true _ _

theorem loggedEntry_ne_commit : loggedEntry c ≠ .commit := by
  rw [loggedEntry, mapEntry]
  split <;> simp

/-- Every entry a batch of its own. -/
def singly (es : List Entry) : List (List Entry) := es.map fun e => [e]

def LoggedBy (done : List MmapCall) (ss : List SessionRecord) : Prop :=
  logged ss = singly (done.filterMap realEntry)

theorem LoggedBy.concat {done : List MmapCall} {ss : List SessionRecord} {start : Nat}
    {memory : Nat → UInt8} (h : LoggedBy done ss) (hc : some (loggedEntry c) = realEntry c) :
    LoggedBy (done ++ [c]) (⟨start, [[loggedEntry c]], memory⟩ :: ss) := by
  have hreal : [c].filterMap realEntry = [loggedEntry c] := by
    rw [List.filterMap_cons_some hc.symm, List.filterMap_nil]
  rw [LoggedBy, logged, h, List.filterMap_append, hreal, singly, singly,
    List.map_append, List.map_singleton]

theorem serves_hookSystem (hcs : AllExact cs) : Serves (hookSystem N cs threads) N
    (fun ss => ∃ done, done <+: cs ∧ LoggedBy done ss)
    (fun x ss => AllExact x.1 ∧ ∃ done, done ++ x.1 = cs ∧ LoggedBy done ss) where
  front := by
    rintro ⟨todo, threads⟩ p ⟨c, rest, after, e, memory, rfl, hmmap, rfl⟩
    by_cases hs : Stops c
    · rw [mmap_of_stops hs] at hmmap
      cases hmmap
    · rw [mmap_of_not_stops hs] at hmmap
      obtain ⟨rfl, he⟩ := Prod.mk.inj (Option.some.inj hmmap)
      obtain rfl := Option.some.inj he
      refine ⟨[[loggedEntry c]], memory, _, by rw [logEntry_eq]; rfl, ?_, fun start ss _ hj => ?_⟩
      · simpa using loggedEntry_ne_commit.symm
      · obtain ⟨hexact, done, hdone, hlogged⟩ := hj
        obtain ⟨hc, hrest⟩ := hexact.resolve_left hs
        have hnext : LoggedBy (done ++ [c]) (⟨start, [[loggedEntry c]], memory⟩ :: ss) :=
          hlogged.concat (loggedEntry_eq_iff.mpr hc)
        have hall : done ++ [c] ++ rest = cs := by
          rw [List.append_assoc]
          exact hdone
        exact ⟨⟨_, ⟨rest, hall⟩, hnext⟩, hrest, _, hall, hnext⟩
  back := by
    rintro x p rfl
    exact ⟨x, rfl⟩
  frontBoot := ⟨_, rfl, hcs, [], rfl, rfl⟩
  backBoot := ⟨_, rfl⟩
  noCrash _ h := h.1 rfl

theorem filter_entries_singly {es : List Entry} (h : .commit ∉ es) :
    (entries (singly es)).filter (· ≠ .commit) = es := by
  induction es with
  | nil => rfl
  | cons e es ih =>
      have hne : e ≠ .commit := fun he => h (by simp [he])
      have hrest := ih fun hmem => h (by simp [hmem])
      simpa [singly, entries, closed, hne] using hrest

theorem commit_notMem_real : .commit ∉ cs.filterMap realEntry := by
  intro h
  obtain ⟨c, -, hc⟩ := List.mem_filterMap.mp h
  rw [realEntry] at hc
  split at hc
  · cases hc
  · split at hc <;> cases hc

theorem mapsReal_of_reachable (hN : 2 ≤ N) (hcs : AllExact cs) {bytes : Cell → UInt8}
    {c : Config Actor Loc Val Log (List MmapCall × (Nat → LastSyscall))}
    (h : (hookSystem N cs threads).Reachable (initial bytes regions) c)
    {x : List MmapCall × (Nat → LastSyscall)}
    (hrest : c.prog .backEnd = .ret x) : MapsReal regions cs c.world := by
  have hring : RingInv N false (fun ss => ∃ done, done <+: cs ∧ LoggedBy done ss) c.world :=
    ringInv_of_reachable (serves_hookSystem hcs) hN ⟨[], List.nil_prefix, rfl⟩ (fun _ _ h => h.2) h
  obtain ⟨done, hdone, hlogged⟩ := hring.extra
  have hs := rest_of_serves (serves_hookSystem hcs) h hrest
  have htaken : c.world.log.dequeued <+: entries (singly (done.filterMap realEntry)) := by
    rw [← hlogged]
    exact hring.history.dequeued.trans hring.history.enqueued
  refine ⟨c.world.log.dequeued.filter (· ≠ .commit), ?_, ?_, ?_, ?_⟩
  · have hfilter := htaken.filter (· ≠ .commit)
    rw [filter_entries_singly commit_notMem_real] at hfilter
    exact hfilter.trans (hdone.filterMap realEntry)
  · rw [tableOf_filter]
    exact Kept.counted hs.handled
  · rw [tableOf_filter]
    exact Kept.ranges hs.handled
  · rw [mapsOf_filter]
    exact Kept.mapped hs.handled

end Runs

/-- The logged mappings of a sequence of calls are the real ones, and so are those
of the back end whenever it is between two entries. -/
structure RealMappings (N : Nat) (cs : List MmapCall) (threads : Nat → LastSyscall) : Prop where
  logs : LogsReal cs threads
  maps : ∀ bytes regions c x, (hookSystem N cs threads).Reachable (initial bytes regions) c →
    c.prog .backEnd = .ret x → MapsReal regions cs c.world

/-- They are exactly if every call that is made succeeds, with a null address or at
the address that it asks for. -/
theorem logged_mappings_real (N : Nat) (hN : 2 ≤ N) (cs : List MmapCall)
    (threads : Nat → LastSyscall) : RealMappings N cs threads ↔ AllExact cs := by
  constructor
  · exact fun h => logsReal_iff.mp h.logs
  · exact fun h =>
      ⟨logsReal_iff.mpr h, fun bytes regions c x hc hx => mapsReal_of_reachable hN h hc hx⟩

/-- Memory wherever the kernel puts it, and a page at an address of its own. -/
def placedCalls : List MmapCall :=
  [⟨0, 1, 0, false, 8192, 0x7f0000000000, by decide⟩,
    ⟨1, 0, 0x10000, true, 4096, 0x10000, by decide⟩]

theorem logged_mappings_real_placed : RealMappings ringBufferSize placedCalls fun _ => ⟨0, 0, 0⟩ :=
  (logged_mappings_real ringBufferSize (by decide) placedCalls _).mpr
    (.inr ⟨by decide, .inr ⟨by decide, trivial⟩⟩)

/-- A hint that is not followed, and a call that fails. -/
def strayCalls : List MmapCall :=
  [⟨0, 1, 0x10000, false, 4096, 0x7f0000000000, by decide⟩, ⟨0, 1, 0, false, 4096, -12, by decide⟩]

theorem not_logged_mappings_real : ¬ ∀ cs threads, RealMappings ringBufferSize cs threads := by
  intro h
  have hexact := logsReal_iff.mp (h strayCalls fun _ => ⟨0, 0, 0⟩).logs
  rcases hexact with hstops | ⟨hexact, -⟩
  · revert hstops
    decide
  · revert hexact
    decide

end Mangosteen.LoggedMappings
