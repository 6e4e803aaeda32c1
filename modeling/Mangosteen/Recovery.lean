import Mangosteen.Library.RedoLog
import Mangosteen.Library.Termination
import Mangosteen.Restart
import Mangosteen.Session
import Mangosteen.Slots
import Mangosteen.Transactions

namespace Mangosteen.Recovery

open PersistentMemory Prog Memory RingBuffer RegionTable BackEnd Session Slots Restart Transactions

/-- Where `start_back_end` stands between two rounds of its replay loop. -/
inductive Phase
  | replaying
  | replayed
  deriving DecidableEq

/-- Recoveries of the back end, each of which may be cut short by a power failure
at any moment. Besides the regions that `remap_backend` maps, a recovering process
has the memory `held`, which it does not itself use. -/
def recoverySystem (N : Nat) (held : Nat → Bool) : System Actor Loc Val Log Phase where
  next a x p := a = .backEnd ∧ x = .replaying ∧
    p = (do let more ← replay N held; pure (if more then .replaying else .replayed))
  boot a := match a with
    | .frontEnd => .ret .replayed
    | .backEnd => startBackEnd >>= fun _ => .ret .replaying
  reboot := launchMangosteen
  admits _ _ := True

/-- The address space that `remap_backend` makes from the records in memory. -/
def remapped (mem : (l : Loc) → Val l) : Nat → List Mapping
  | 0 => []
  | n + 1 => ⟨mem (.recordAddress n), mem (.recordSize n), .file n⟩ :: remapped mem n

/-- The bytes that entries write, in the files where the addresses are mapped. -/
def fileWrites (ms : List Mapping) (es : List Entry) : List (Cell × UInt8) :=
  (writes es).map fun x => (translate ms x.1, x.2)

/-- A process can store what entries write. -/
def Writable (held : Nat → Bool) (ms : List Mapping) (es : List Entry) : Prop :=
  ∀ addr payload, .redo addr payload ∈ es → accessible held ms addr = true

/-- A ring that is found after a power failure, with batches of redo entries from
`remote_head` up to `remote_tail`. The last commit has left as many records in
the table as it says. -/
structure PersistedRing (N h : Nat) (bs : List (List Entry)) (w : State) : Prop where
  redo : ∀ es ∈ bs, ∀ e ∈ es, ∃ addr payload, e = .redo addr payload
  fits : (entries bs).length < N
  head : w.per .remoteHead = h % N
  tail : w.per .remoteTail = (h + (entries bs).length) % N
  slots : ∀ i e, (entries bs)[i]? = some e → Holds w.per ((h + i) % N) e
  regions : w.per .uncommitedNumberOfEntries = (w.per .commitMetadata).numberOfRegions

/-- The locations that a recovery of these entries reads or writes. -/
def Relied (N h n : Nat) : Loc → Prop
  | .entryType slot | .entryAddr slot | .entrySize slot
  | .payload slot _ => ∃ i, i < n ∧ slot = (h + i) % N
  | .remoteHead | .remoteTail | .commitMetadata | .uncommitedNumberOfEntries
  | .recordAddress _ | .recordSize _
  | .byte (.file _ _) => True
  | _ => False

/-- A back end that is about to apply the entries for the first time. All that
came before is durable, and what the entries write is mapped where a recovery
would map it. What a live back end commits to transient memory that has been
mapped over a region is lost, so it does not count here. -/
structure Serving (N h : Nat) (bs : List (List Entry)) (w : State) : Prop where
  durable : ∀ l, Relied N h (entries bs).length l → ∀ a, w.Durable a l
  mapped : fileWrites (w.cur .addressMap) (entries bs) =
    fileWrites (remapped w.per (w.per .commitMetadata).numberOfRegions) (entries bs)
  localHead : w.cur .globalLocalHead = h % N
  localTail : ∃ j, j ≤ (entries bs).length ∧ w.cur .globalLocalTail = (h + j) % N
  shown : w.cur .lastPersistedTail = (h + (entries bs).length) % N

/-- The consumer of a ring to which nothing is added. -/
def consumerSystem (N : Nat) : System Actor Loc Val Log Unit where
  next a _ p := a = .backEnd ∧ p = runConsumer N
  boot _ := .ret ()
  reboot w := w
  admits _ label := label ≠ .crash

/-- The state in which the first power failure finds the ring: before any entry
has been applied, or at any moment while the consumer applies them. -/
def Interrupted (N h : Nat) (bs : List (List Entry)) (w w' : State) : Prop :=
  w' = w ∨ Serving N h bs w ∧ ∃ c, (consumerSystem N).Reachable w c ∧ c.world = w'

/-- The region files after all entries have been applied once, in their order. -/
def replayedImage (bs : List (List Entry)) (w : State) : Cell → UInt8 :=
  RedoLog.apply (fileWrites (remapped w.per (w.per .commitMetadata).numberOfRegions) (entries bs))
    (fun cell => w.per (.byte cell))

/-- A recovery that is not held up, comes to an end, and leaves the ring empty and
the files as they should be, whether there is a power failure then or not. -/
structure Recovers (N : Nat) (held : Nat → Bool) (files : Cell → UInt8)
    (c : Config Actor Loc Val Log Phase) : Prop where
  unhindered : ∀ o next, c.prog .backEnd = .op o next → (o.exec .backEnd c.world).isSome
  continues : c.prog .backEnd = .ret .replayed ∨ ∃ d, (recoverySystem N held).Advances .backEnd c d
  ends : Acc (fun d c => (recoverySystem N held).Advances .backEnd c d) c
  drained : c.prog .backEnd = .ret .replayed → c.world.cur .remoteHead = c.world.cur .remoteTail
  image : c.prog .backEnd = .ret .replayed →
    ∀ i o, c.world.cur (.byte (.file i o)) = files (.file i o) ∧
    c.world.per (.byte (.file i o)) = files (.file i o)

section Replay

variable (N h : Nat) (bs : List (List Entry)) (w₀ : State) (live : Prop)

/-- The bytes written by the first `k` entries. -/
def written (k : Nat) : Nat :=
  (fileWrites (remapped w₀.per (w₀.per .commitMetadata).numberOfRegions)
    ((entries bs).take k)).length

/-- What a location may hold once the first `k` entries are durably committed: a
byte of a file any value that it takes from then on, and what replay does not
change its first value. -/
def Ok (k : Nat) : (l : Loc) → Val l → Prop
  | .byte (.file i o), v =>
    RedoLog.Since (fileWrites (remapped w₀.per (w₀.per .commitMetadata).numberOfRegions)
      (entries bs)) (fun cell => w₀.per (.byte cell)) (written bs w₀ k) (.file i o) v
  | .commitMetadata, v => v.numberOfRegions = (w₀.per .commitMetadata).numberOfRegions
  | .remoteHead, _ => True
  | l, v => Relied N h (entries bs).length l → v = w₀.per l

/-- What a power failure may find at any moment. -/
structure ReplayInv (w : State) : Prop where
  quiet : ∀ i o, w.pending .frontEnd (.byte (.file i o)) = none
  values : ∃ k k', k' ≤ k ∧ k ≤ (entries bs).length ∧
    Tracks w .backEnd .remoteHead ((h + k) % N) ((h + k') % N) ∧ w.Every (Ok N h bs w₀ k)

def replayProtocol : Protocol Actor Loc Val Log where
  inv := ReplayInv N h bs w₀
  rely a u v := match a with
    | .frontEnd => True
    | .backEnd => Undisturbed (fun _ => True) .backEnd u v
  live := live
  rely_refl a w := by
    cases a with
    | frontEnd => trivial
    | backEnd => exact .refl _ _ _
  rely_trans a u v w h h' := by
    cases a with
    | frontEnd => trivial
    | backEnd => exact h.trans h'

variable {N h bs w₀ live} {u v w : State} {held : Nat → Bool} {ms : List Mapping} {b : Nat}

theorem allows_backEnd (hi : ReplayInv N h bs w₀ v) :
    (replayProtocol N h bs w₀ live).Allows .backEnd u v :=
  Protocol.allows_of_other Actor.eq_frontEnd hi trivial

theorem fileWrites_append (ms : List Mapping) (es fs : List Entry) :
    fileWrites ms (es ++ fs) = fileWrites ms es ++ fileWrites ms fs := by
  simp [fileWrites, writes]

theorem written_mono {j k : Nat} (hjk : j ≤ k) : written bs w₀ j ≤ written bs w₀ k := by
  obtain ⟨es, hes⟩ : (entries bs).take j <+: (entries bs).take k := List.take_prefix_take_left hjk
  rw [written, written, ← hes, fileWrites_append, List.length_append]
  exact Nat.le_add_right _ _

theorem Ok.of_le {j k : Nat} (hjk : j ≤ k) (l : Loc) (v : Val l) (hv : Ok N h bs w₀ k l v) :
    Ok N h bs w₀ j l v := by
  cases l with
  | byte cell =>
      cases cell with
      | file i o => exact RedoLog.Since.of_le hv (written_mono hjk)
      | anonymous a => exact hv
  | _ => exact hv

theorem Ok.eq_of_slotOf {k i : Nat} {l : Loc} {x : Val l} (hx : Ok N h bs w₀ k l x)
    (hi : i < (entries bs).length) (hl : slotOf l = some ((h + i) % N)) : x = w₀.per l := by
  cases l with
  | entryType | entryAddr | entrySize | payload => exact hx ⟨i, hi, Option.some.inj hl⟩
  | _ => cases hl

section Inv

variable {k k' : Nat}

theorem count_unique {j : Nat} (hn : (entries bs).length < N) (hj : j ≤ (entries bs).length)
    (hk : k ≤ (entries bs).length) (hmod : (h + j) % N = (h + k) % N) : j = k := by
  rcases Nat.le_total j k with hle | hle
  · have := Cyclic.eq_of_mod_eq (show h + j ≤ h + k by omega) (by omega) hmod
    omega
  · have := Cyclic.eq_of_mod_eq (show h + k ≤ h + j by omega) (by omega) hmod.symm
    omega

theorem ReplayInv.values_at (hi : ReplayInv N h bs w₀ w) (hn : (entries bs).length < N)
    (hk : k ≤ (entries bs).length) (hhead : w.cur .remoteHead = (h + k) % N) :
    ∃ k', k' ≤ k ∧ Tracks w .backEnd .remoteHead ((h + k) % N) ((h + k') % N) ∧
    w.Every (Ok N h bs w₀ k) := by
  obtain ⟨j, j', hj', hj, ht, hv⟩ := hi.values
  obtain rfl := count_unique hn hj hk (ht.cur.symm.trans hhead)
  exact ⟨j', hj', ht, hv⟩

theorem ReplayInv.store {l : Loc} {x : Val l} (hi : ReplayInv N h bs w₀ w) (hl : l ≠ .remoteHead)
    (hx : ∀ k, w.cur .remoteHead = (h + k) % N → k ≤ (entries bs).length → Ok N h bs w₀ k l x)
    (f : Log → Log) : ReplayInv N h bs w₀ (w.store l x f) := by
  obtain ⟨k, k', hk', hk, ht, hv⟩ := hi.values
  exact ⟨hi.quiet, k, k', hk', hk, ht.store_of_ne hl.symm, hv.store (hx k ht.cur hk) f⟩

theorem ReplayInv.flush (hi : ReplayInv N h bs w₀ w) (ls : List Loc) :
    ReplayInv N h bs w₀ (w.flush .backEnd ls) := by
  obtain ⟨k, k', hk', hk, ht, hv⟩ := hi.values
  refine ⟨fun i o => ?_, k, k', hk', hk, ht.flush, hv.flush _ ls⟩
  rw [World.flush_pending_of_ne w _ _ _ ls (by decide)]
  exact hi.quiet i o

theorem ReplayInv.fence (hi : ReplayInv N h bs w₀ w) : ReplayInv N h bs w₀ (w.fence .backEnd) := by
  obtain ⟨k, k', hk', hk, ht, hv⟩ := hi.values
  refine ⟨fun i o => ?_, k, k', hk', hk, ht.fence (fun hb => absurd rfl hb), hv.fence _⟩
  cases hl : w.pending .backEnd (.byte (.file i o)) with
  | none => rw [(World.fence_of_none w _ _ _ hl).2]; exact hi.quiet i o
  | some _ => simp [World.fence, hl]

theorem ReplayInv.record (hi : ReplayInv N h bs w₀ w) (g : Log) :
    ReplayInv N h bs w₀ { w with log := g } := by
  obtain ⟨k, k', hk', hk, ht, hv⟩ := hi.values
  exact ⟨hi.quiet, k, k', hk', hk, ht.untouched (.record g), hv.record g⟩

theorem ReplayInv.writeBack (hi : ReplayInv N h bs w₀ w) (l : Loc) :
    ReplayInv N h bs w₀ (w.writeBack l) := by
  obtain ⟨k, k', hk', hk, ht, hv⟩ := hi.values
  refine ⟨fun i o => ?_, k, k', hk', hk, ht.writeBack l, hv.writeBack l⟩
  by_cases hm : .byte (.file i o) = l
  · subst hm; simp
  · rw [(World.writeBack_of_ne w _ _ l hm).2]; exact hi.quiet i o

theorem ReplayInv.launch (hi : ReplayInv N h bs w₀ w) : ReplayInv N h bs w₀ (launchMangosteen w) ∧
    ∃ k, k ≤ (entries bs).length ∧ w.per .remoteHead = (h + k) % N ∧
    (launchMangosteen w).Every (Ok N h bs w₀ k) := by
  obtain ⟨k, k', hk', hk, ht, hv⟩ := hi.values
  obtain ⟨j, hj, hper, hv⟩ : ∃ j, j ≤ (entries bs).length ∧ w.per .remoteHead = (h + j) % N ∧
    w.Every (Ok N h bs w₀ j) := by
    rcases ht.per with hp | hp
    · exact ⟨k, hk, hp, hv⟩
    · exact ⟨k', hk'.trans hk, hp, hv.mono (Ok.of_le hk')⟩
  have hfail : (powerFailure w).Every (Ok N h bs w₀ j) := by
    intro l
    have hl : Ok N h bs w₀ j l ((volatileValue l).getD (w.per l)) := by
      cases l with
      | byte cell =>
          cases cell with
          | file i o => exact (hv (.byte (.file i o))).2.1
          | anonymous a => exact False.elim
      | globalLocalHead | globalLocalTail | sequenceNumber | semaphore
      | addressMap => exact False.elim
      | _ => exact (hv _).2.1
    exact ⟨hl, hl, fun a x hx => by cases hx⟩
  have hall : (launchMangosteen w).Every (Ok N h bs w₀ j) := by
    refine World.Every.store
      (World.Every.store (World.Every.store (World.Every.store (World.Every.store hfail ?_ _)
      ?_ _) ?_ _) ?_ _) ?_ _ <;> exact fun hl => False.elim hl
  refine ⟨⟨fun i o => rfl, j, j, le_rfl, hj, ⟨?_, ?_, .inl rfl⟩, hall⟩, j, hj, hper, hall⟩
  · rw [launchMangosteen_cur w (by decide) (by decide) (by decide) (by decide) (by decide)]
    exact hper
  · exact .inl hper

end Inv

/-- The back end with `t` entries taken, `k` of them committed, and `p` bytes of
them written. -/
structure Placed (N h : Nat) (bs : List (List Entry)) (w₀ : State) (ms : List Mapping) (k t p : Nat)
    (dirty : List Loc) (w : State) : Prop where
  localHead : w.cur .globalLocalHead = (h + t) % N
  localTail : ∃ j, t ≤ j ∧ j ≤ (entries bs).length ∧ w.cur .globalLocalTail = (h + j) % N
  shown : w.cur .lastPersistedTail = (h + (entries bs).length) % N
  head : w.cur .remoteHead = (h + k) % N
  mapped : w.cur .addressMap = ms
  bytes : ∀ i o, RedoLog.Since
    (fileWrites (remapped w₀.per (w₀.per .commitMetadata).numberOfRegions) (entries bs))
    (fun cell => w₀.per (.byte cell)) p (.file i o) (w.cur (.byte (.file i o)))
  settled : ∀ i o, .byte (.file i o) ∉ dirty → w.Settled .backEnd (.byte (.file i o))

structure Replaying (N h : Nat) (bs : List (List Entry)) (w₀ : State) (ms : List Mapping)
    (k t p : Nat) (dirty : List Loc) (w : State) :
    Prop extends Placed N h bs w₀ ms k t p dirty w where
  durable : w.Durable .backEnd .remoteHead

/-- The back end between two entries: those since the last commit are no commit
entries. -/
structure Rested (N h : Nat) (bs : List (List Entry)) (w₀ : State)
    (held : Nat → Bool) (ms : List Mapping) (b k d : Nat) (w : State) : Prop
    extends Replaying N h bs w₀ ms k d (written bs w₀ d) [] w where
  committed_le : k ≤ d
  taken_le : d ≤ (entries bs).length
  reached : ∀ i addr payload, b ≤ i → i < d → (entries bs)[i]? = some (.redo addr payload) →
    accessible held ms addr = true
  since : ∀ i, k ≤ i → i < d → (entries bs)[i]? ≠ some .commit
  flushed : k = d → ∀ i o, w.Durable .backEnd (.byte (.file i o))

/-- An address space in which a back end can apply the entries. In a `live`
protocol, where it never stops, every store of theirs has to succeed. -/
structure Mapped (bs : List (List Entry)) (w₀ : State) (live : Prop) (held : Nat → Bool)
    (ms : List Mapping) : Prop where
  sends : fileWrites ms (entries bs) =
    fileWrites (remapped w₀.per (w₀.per .commitMetadata).numberOfRegions) (entries bs)
  writable : live → Writable held ms (entries bs)

theorem fileWrites_singleton {ms ms' : List Mapping} {es : List Entry} {e : Entry}
    (h : fileWrites ms es = fileWrites ms' es) (he : e ∈ es) :
    fileWrites ms [e] = fileWrites ms' [e] := by
  rw [fileWrites, fileWrites, List.map_inj_left] at h ⊢
  intro x hx
  refine h x ?_
  simp only [writes, List.flatMap_cons, List.flatMap_nil, List.append_nil] at hx
  exact List.mem_flatMap.mpr ⟨e, he, hx⟩

section Steps

variable {k t p d : Nat} {dirty : List Loc}

theorem Placed.congr (hs : Placed N h bs w₀ ms k t p dirty u) (hc : v.cur = u.cur)
    (hset : ∀ l, u.Settled .backEnd l → v.Settled .backEnd l) :
    Placed N h bs w₀ ms k t p dirty v := by
  refine ⟨?_, ?_, ?_, ?_, ?_, fun i o => ?_, fun i o hl => hset _ (hs.settled i o hl)⟩
  · rw [hc]; exact hs.localHead
  · rw [hc]; exact hs.localTail
  · rw [hc]; exact hs.shown
  · rw [hc]; exact hs.head
  · rw [hc]; exact hs.mapped
  · rw [hc]; exact hs.bytes i o

theorem Placed.stable (hs : Placed N h bs w₀ ms k t p dirty u)
    (hr : (replayProtocol N h bs w₀ live).rely .backEnd u v) : Placed N h bs w₀ ms k t p dirty v :=
  hs.congr (funext fun l => hr.cur l trivial) fun l => hr.settled l trivial

theorem Replaying.stable (hs : Replaying N h bs w₀ ms k t p dirty u)
    (hr : (replayProtocol N h bs w₀ live).rely .backEnd u v) :
    Replaying N h bs w₀ ms k t p dirty v :=
  ⟨hs.toPlaced.stable hr, hr.durable _ trivial hs.durable⟩

theorem Rested.stable (hs : Rested N h bs w₀ held ms b k d u)
    (hr : (replayProtocol N h bs w₀ live).rely .backEnd u v) : Rested N h bs w₀ held ms b k d v :=
  { hs with
    toReplaying := hs.toReplaying.stable hr
    flushed := fun hkd i o => hr.durable _ trivial (hs.flushed hkd i o) }

theorem Replaying.record (hs : Replaying N h bs w₀ ms k t p dirty w) (g : Log) :
    Replaying N h bs w₀ ms k t p dirty { w with log := g } :=
  ⟨hs.toPlaced.congr rfl fun _ hl => hl, hs.durable⟩

theorem Placed.store (hs : Placed N h bs w₀ ms k t p dirty w) {l : Loc} {x : Val l} (f : Log → Log)
    (hgh : l ≠ .globalLocalHead) (hgt : l ≠ .globalLocalTail) (hpt : l ≠ .lastPersistedTail)
    (hh : l ≠ .remoteHead)
    (hm : l ≠ .addressMap) (hb : ∀ c, l ≠ .byte c) :
    Placed N h bs w₀ ms k t p dirty (w.store l x f) := by
  have hcur : ∀ m, m ≠ l → (w.store l x f).cur m = w.cur m :=
    fun m hm => World.store_cur_of_ne w m l f x hm
  refine ⟨?_, ?_, ?_, ?_, ?_, fun i o => ?_, fun i o hd => ?_⟩
  · rw [hcur _ hgh.symm]; exact hs.localHead
  · rw [hcur _ hgt.symm]; exact hs.localTail
  · rw [hcur _ hpt.symm]; exact hs.shown
  · rw [hcur _ hh.symm]; exact hs.head
  · rw [hcur _ hm.symm]; exact hs.mapped
  · rw [hcur _ (hb _).symm]; exact hs.bytes i o
  · exact World.settled_store_of_ne (hb _).symm (hs.settled i o hd)

theorem Replaying.store (hs : Replaying N h bs w₀ ms k t p dirty w) {l : Loc}
    {x : Val l} (f : Log → Log)
    (hgh : l ≠ .globalLocalHead) (hgt : l ≠ .globalLocalTail) (hpt : l ≠ .lastPersistedTail)
    (hh : l ≠ .remoteHead)
    (hm : l ≠ .addressMap) (hb : ∀ c, l ≠ .byte c) :
    Replaying N h bs w₀ ms k t p dirty (w.store l x f) :=
  ⟨hs.toPlaced.store f hgh hgt hpt hh hm hb, (Untouched.store hh.symm).durable hs.durable⟩

theorem Placed.flush (hs : Placed N h bs w₀ ms k t p dirty w) (ls : List Loc) :
    Placed N h bs w₀ ms k t p dirty (w.flush .backEnd ls) :=
  hs.congr rfl fun _ hl => World.settled_flush hl

theorem Replaying.flush (hs : Replaying N h bs w₀ ms k t p dirty w) (ls : List Loc)
    (hh : .remoteHead ∉ ls) : Replaying N h bs w₀ ms k t p dirty (w.flush .backEnd ls) :=
  ⟨hs.toPlaced.flush ls, (Untouched.flush hh).durable hs.durable⟩

theorem Placed.fence (hs : Placed N h bs w₀ ms k t p dirty w) :
    Placed N h bs w₀ ms k t p dirty (w.fence .backEnd) :=
  hs.congr rfl fun _ hl => (World.durable_fence hl).settled

theorem Replaying.fence (hs : Replaying N h bs w₀ ms k t p dirty w) :
    Replaying N h bs w₀ ms k t p dirty (w.fence .backEnd) :=
  ⟨hs.toPlaced.fence, World.durable_fence hs.durable.settled⟩

theorem ReplayInv.holds (hi : ReplayInv N h bs w₀ w) (hr : PersistedRing N h bs w₀)
    {i : Nat} {e : Entry} (he : (entries bs)[i]? = some e) : Holds w.cur ((h + i) % N) e := by
  intro s hs
  obtain ⟨k, k', -, -, -, hv⟩ := hi.values
  rw [(hv s.1).1.eq_of_slotOf (List.getElem?_eq_some_iff.mp he).1 (slotOf_of_mem hs)]
  exact hr.slots i e he s hs

theorem Rested.lt_of_ne (hs : Rested N h bs w₀ held ms b k d w) (hk : k ≠ (entries bs).length) :
    d < (entries bs).length := by
  refine lt_of_le_of_ne hs.taken_le ?_
  rintro rfl
  -- the last entry of all is a commit entry
  have hlast : (entries bs)[(entries bs).length - 1]? = some .commit := by
    induction bs using List.reverseRecOn with
    | nil => exact absurd (Nat.le_zero.mp hs.committed_le) hk
    | append_singleton bs es _ =>
        rw [entries_append, ← List.getLast?_eq_getElem?]
        simp [entries, closed]
  exact hs.since _ (by have := hs.committed_le; omega) (by have := hs.committed_le; omega) hlast

end Steps

section Rules

variable {β X : Type} {S : System Actor Loc Val Log X} {Q : β → State → Prop} {k d : Nat}

/-- A consumer that has taken less than there is does not wait; one that waits has
taken all there is. -/
theorem ensures_waitForEntry (hr : PersistedRing N h bs w₀) (hw : ReplayInv N h bs w₀ w)
    (hs : Rested N h bs w₀ held ms b k d w)
    (hd : d < (entries bs).length ∨ ∀ u o, S.admits u (.op .backEnd o) → (o.exec .backEnd u).isSome)
    {tail : Nat} (htail : w.cur .globalLocalTail = tail) {f : Unit → Code β}
    (hf : ∀ u j, d < j → j ≤ (entries bs).length → u.cur .globalLocalTail = (h + j) % N →
      ReplayInv N h bs w₀ u →
      Rested N h bs w₀ held ms b k d u →
      Ensures S (replayProtocol N h bs w₀ live) .backEnd (f ()) Q u) :
    Ensures S (replayProtocol N h bs w₀ live) .backEnd
    (waitForEntry ((h + d) % N) tail >>= f) Q w := by
  have hfit := hr.fits
  have hle := hs.taken_le
  obtain ⟨j, hdj, hj, ht⟩ := hs.localTail
  rw [waitForEntry]
  split
  · rw [Prog.bind_assoc]
    refine Ensures.await (fun _ u hru hu ha => ?_) fun u hru hu _ hne => ?_
    · rcases hd with hd | hS
      · rw [(hs.stable hru).shown]
        exact (Cyclic.mod_ne_of_lt (by omega) (by omega)).symm
      · intro hb
        have hsome := hS u _ ha
        simp [Op.exec, hb] at hsome
    have hs := hs.stable hru
    rw [hs.shown] at hne ⊢
    have hlt : d < (entries bs).length := lt_of_le_of_ne hle fun heq => hne (by rw [heq])
    refine Ensures.store fun u hru hu => ?_
    have hs := hs.stable hru
    have hcur : ∀ m, m ≠ .globalLocalTail →
        (u.store .globalLocalTail ((h + (entries bs).length) % N) id).cur m = u.cur m :=
      fun m hm => World.store_cur_of_ne u m _ _ _ hm
    have hi := hu.store (l := .globalLocalTail) (x := (h + (entries bs).length) % N) (by decide)
      (fun _ _ _ => False.elim) id
    refine ⟨allows_backEnd hi, hf _ _ hlt le_rfl (World.store_cur_self _ _ _ _) hi
      ⟨⟨⟨?_, ?_, ?_, ?_, ?_, fun i o => ?_, fun i o hl => ?_⟩, ?_⟩, hs.committed_le, hle,
        hs.reached, hs.since, fun hkd i o => ?_⟩⟩
    · rw [hcur _ (by decide)]; exact hs.localHead
    · exact ⟨_, hle, le_rfl, World.store_cur_self _ _ _ _⟩
    · rw [hcur _ (by decide)]; exact hs.shown
    · rw [hcur _ (by decide)]; exact hs.head
    · rw [hcur _ (by decide)]; exact hs.mapped
    · rw [hcur _ (by simp)]; exact hs.bytes i o
    · exact World.settled_store_of_ne (by simp) (hs.settled i o hl)
    · exact (Untouched.store (by decide)).durable hs.durable
    · exact (Untouched.store (by simp)).durable (hs.flushed hkd i o)
  · rename_i hne
    refine hf w j (lt_of_le_of_ne hdj fun heq => hne ?_) hj ht hw hs
    rw [heq, ← ht, htail]

theorem ensures_ringBufferDequeue (hr : PersistedRing N h bs w₀)
    (hs : Rested N h bs w₀ held ms b k d w)
    (hd : d < (entries bs).length ∨ ∀ u o, S.admits u (.op .backEnd o) → (o.exec .backEnd u).isSome)
    {f : Nat → Code β}
    (hf : ∀ u, d < (entries bs).length → ReplayInv N h bs w₀ u →
      Replaying N h bs w₀ ms k (d + 1) (written bs w₀ d) [] u →
      Ensures S (replayProtocol N h bs w₀ live) .backEnd (f ((h + d) % N)) Q u) :
    Ensures S (replayProtocol N h bs w₀ live) .backEnd (ringBufferDequeue N >>= f) Q w := by
  have hfit := hr.fits
  simp only [ringBufferDequeue, Prog.bind_assoc]
  refine Ensures.load fun u hru hu => ?_
  have hs := hs.stable hru
  rw [hs.localHead]
  refine Ensures.load fun u hru hu => ?_
  have hs := hs.stable hru
  refine ensures_waitForEntry hr hu hs hd rfl fun u j hdj hj ht hu hs => ?_
  rw [nextIndex_mod (by omega)]
  refine Ensures.store fun v hrv hv => ?_
  have hs := (hs.stable hrv).toReplaying
  have ht : v.cur .globalLocalTail = (h + j) % N := (hrv.cur _ trivial).trans ht
  have hi := hv.store (l := .globalLocalHead) (x := (h + d + 1) % N) (by decide)
    (fun _ _ _ => False.elim) id
  have hcur : ∀ m, m ≠ .globalLocalHead →
      (v.store .globalLocalHead ((h + d + 1) % N) id).cur m = v.cur m :=
    fun m hm => World.store_cur_of_ne v m _ _ _ hm
  refine ⟨allows_backEnd hi, hf _ (by omega) hi
    ⟨⟨World.store_cur_self _ _ _ _, ?_, ?_, ?_, ?_, fun i o => ?_, fun i o hl => ?_⟩, ?_⟩⟩
  · exact ⟨j, hdj, hj, (hcur _ (by decide)).trans ht⟩
  · rw [hcur _ (by decide)]; exact hs.shown
  · rw [hcur _ (by decide)]; exact hs.head
  · rw [hcur _ (by decide)]; exact hs.mapped
  · rw [hcur _ (by simp)]; exact hs.bytes i o
  · exact World.settled_store_of_ne (by simp) (hs.settled i o hl)
  · exact (Untouched.store (by decide)).durable hs.durable

theorem redoStores_eq (ms : List Mapping) (addr : Nat) (payload : Payload) :
    redoStores ms addr payload =
      (fileWrites ms [.redo addr payload]).map (fun x => (⟨.byte x.1, x.2⟩ : Sigma Val)) := by
  simp [redoStores, fileWrites, writes, entryWrites]

theorem getElem?_fileWrites {e : Entry} (he : (entries bs)[d]? = some e)
    {j : Nat} {x : Cell × UInt8}
    (hx : (fileWrites (remapped w₀.per (w₀.per .commitMetadata).numberOfRegions) [e])[j]? =
      some x) :
    (fileWrites (remapped w₀.per (w₀.per .commitMetadata).numberOfRegions) (entries bs))[written bs
      w₀ d + j]? = some x := by
  have hsplit : entries bs = (entries bs).take d ++ ([e] ++ (entries bs).drop (d + 1)) := by
    obtain ⟨hd, hget⟩ := List.getElem?_eq_some_iff.mp he
    rw [List.singleton_append, ← hget, ← List.drop_eq_getElem_cons hd, List.take_append_drop]
  have hj := (List.getElem?_eq_some_iff.mp hx).1
  rw [hsplit, fileWrites_append, fileWrites_append, written,
    List.getElem?_append_right (Nat.le_add_right _ _),
    Nat.add_sub_cancel_left, List.getElem?_append_left hj]
  exact hx

theorem written_succ {e : Entry} (he : (entries bs)[d]? = some e) : written bs w₀ (d + 1) =
    written bs w₀ d + (fileWrites (remapped w₀.per (w₀.per .commitMetadata).numberOfRegions)
      [e]).length := by
  rw [written, List.take_add_one, he, Option.toList_some, fileWrites_append, List.length_append]
  rfl

theorem Replaying.write {e : Entry} {j : Nat} {x : Cell × UInt8} {dirty : List Loc}
    (hr : PersistedRing N h bs w₀) (he : (entries bs)[d]? = some e)
    (hx : (fileWrites (remapped w₀.per (w₀.per .commitMetadata).numberOfRegions) [e])[j]? = some x)
    (hkd : k ≤ d)
    (hi : ReplayInv N h bs w₀ w)
    (hs : Replaying N h bs w₀ ms k (d + 1) (written bs w₀ d + j) dirty w)
    (hdirty : .byte x.1 ∈ dirty) (f : Log → Log) :
    ReplayInv N h bs w₀ (w.store (.byte x.1) x.2 f) ∧
      Replaying N h bs w₀ ms k (d + 1) (written bs w₀ d + (j + 1)) dirty
      (w.store (.byte x.1) x.2 f) := by
  have hd := (List.getElem?_eq_some_iff.mp he).1
  have hcur : ∀ m, m ≠ .byte x.1 → (w.store (.byte x.1) x.2 f).cur m = w.cur m :=
    fun m hm => World.store_cur_of_ne w m (.byte x.1) f x.2 hm
  have hbyte : ∀ c, (w.store (.byte x.1) x.2 f).cur (.byte c) =
      Function.update (fun c => w.cur (.byte c)) x.1 x.2 c := by
    intro c
    by_cases hc : c = x.1
    · subst hc
      rw [World.store_cur_self, Function.update_self]
    · rw [hcur _ (by simpa using hc), Function.update_of_ne hc]
  have hsince : ∀ i o, RedoLog.Since
      (fileWrites (remapped w₀.per (w₀.per .commitMetadata).numberOfRegions) (entries bs))
      (fun cell => w₀.per (.byte cell)) (written bs w₀ d + (j + 1)) (.file i o)
      ((w.store (.byte x.1) x.2 f).cur (.byte (.file i o))) := by
    intro i o
    rw [hbyte]
    exact RedoLog.Since.write (x := fun c => w.cur (.byte c)) (getElem?_fileWrites he hx)
      (hs.bytes i o)
  refine ⟨hi.store (by simp) (fun k' hk' hle => ?_) f,
    ⟨?_, ?_, ?_, ?_, ?_, hsince, fun i o hl => ?_⟩, ?_⟩
  · obtain rfl := count_unique hr.fits (hkd.trans hd.le) hle (hs.head.symm.trans hk')
    cases hc : x.1 with
    | file i o =>
        have hnew := hsince i o
        rw [← hc, World.store_cur_self] at hnew
        rw [hc] at hnew
        exact hnew.of_le ((written_mono hkd).trans (Nat.le_add_right _ _))
    | anonymous a => exact False.elim
  · rw [hcur _ (by simp)]; exact hs.localHead
  · rw [hcur _ (by simp)]; exact hs.localTail
  · rw [hcur _ (by simp)]; exact hs.shown
  · rw [hcur _ (by simp)]; exact hs.head
  · rw [hcur _ (by simp)]; exact hs.mapped
  · refine World.settled_store_of_ne ?_ (hs.settled i o hl)
    rintro heq
    exact hl (heq ▸ hdirty)
  · exact (Untouched.store (by simp)).durable hs.durable

theorem ensures_applyRedo {addr : Nat} {payload : Payload} (hr : PersistedRing N h bs w₀)
    (hm : Mapped bs w₀ live held ms)
    (he : (entries bs)[d]? = some (.redo addr payload)) (hkd : k ≤ d)
    (hs : Replaying N h bs w₀ ms k (d + 1) (written bs w₀ d) [] w) {f : Unit → Code β}
    (hf : accessible held ms addr = true → ∀ u, ReplayInv N h bs w₀ u →
      Replaying N h bs w₀ ms k (d + 1) (written bs w₀ (d + 1)) [] u →
      Ensures S (replayProtocol N h bs w₀ live) .backEnd (f ()) Q u) :
    Ensures S (replayProtocol N h bs w₀ live) .backEnd (applyRedo held addr payload >>= f) Q w := by
  simp only [applyRedo, Prog.bind_assoc]
  refine Ensures.load fun u hru hu => ?_
  have hs := hs.stable hru
  rw [hs.mapped]
  have hmem := List.mem_of_getElem? he
  split
  case isFalse hno => exact Ensures.stuck fun hl => hno (hm.writable hl addr payload hmem)
  rename_i hacc
  have hms := fileWrites_singleton hm.sends hmem
  rw [redoStores_eq, Prog.bind_assoc]
  set ws := fileWrites ms [.redo addr payload] with hws
  let dirty : List Loc := ws.map fun x => .byte x.1
  refine Ensures.storeAll
    (J := fun ss v => ∃ j, ss = (ws.drop j).map (fun x => (⟨.byte x.1, x.2⟩ : Sigma Val)) ∧
    j ≤ ws.length ∧ Replaying N h bs w₀ ms k (d + 1) (written bs w₀ d + j) dirty v) hu ⟨0, rfl,
    Nat.zero_le _, ?_⟩ ?_ ?_ ?_
  · exact { hs with settled := fun i o _ => hs.settled i o (by simp) }
  · rintro ss v v' ⟨j, rfl, hj, hv⟩ hrv _
    exact ⟨j, rfl, hj, hv.stable hrv⟩
  · rintro s ss v ⟨j, hss, hj, hv⟩ hvi
    have hlt : j < ws.length := by
      by_contra hge
      rw [List.drop_of_length_le (by omega)] at hss
      cases hss
    rw [List.drop_eq_getElem_cons hlt, List.map_cons] at hss
    obtain ⟨rfl, rfl⟩ := List.cons.inj hss
    have hget : (fileWrites (remapped w₀.per (w₀.per .commitMetadata).numberOfRegions)
        [.redo addr payload])[j]? = some ws[j] := by rw [← hms]; exact List.getElem?_eq_getElem hlt
    have hmem : .byte ws[j].1 ∈ dirty := List.mem_map_of_mem (List.getElem_mem hlt)
    obtain ⟨hi, hv⟩ := hv.write hr he hget hkd hvi hmem (noteWrite ⟨.byte ws[j].1, ws[j].2⟩)
    exact ⟨allows_backEnd hi, j + 1, rfl, hlt, hv⟩
  · rintro v hvi ⟨j, hss, hj, hv⟩
    obtain rfl : j = ws.length := by
      have hlen := congrArg List.length hss
      simp at hlen
      omega
    refine Ensures.flush fun v' hrv hv' => ?_
    have hv := hv.stable hrv
    refine ⟨allows_backEnd (hv'.flush _), hf hacc _ (hv'.flush _) ?_⟩
    rw [written_succ he, ← hms]
    refine { hv.flush _ (by simp) with settled := fun i o _ => ?_ }
    by_cases hl : .byte (.file i o) ∈ dirty
    · exact World.settled_flush_of_mem (by simpa [dirty] using hl)
    · exact World.settled_flush (hv.settled i o hl)

theorem Ok.of_nonfile {k k' : Nat} {l : Loc} {x : Val l} (hx : Ok N h bs w₀ k l x)
    (hl : ∀ i o, l ≠ .byte (.file i o)) : Ok N h bs w₀ k' l x := by
  cases l with
  | byte cell =>
      cases cell with
      | file i o => exact absurd rfl (hl i o)
      | anonymous a => exact hx
  | _ => exact hx

theorem Replaying.commit (hr : PersistedRing N h bs w₀) (hi : ReplayInv N h bs w₀ w) (hkd : k ≤ d)
    (hd : d ≤ (entries bs).length) (hs : Replaying N h bs w₀ ms k d (written bs w₀ d) [] w)
    (hdur : ∀ i o, w.Durable .backEnd (.byte (.file i o))) (f : Log → Log) :
    ReplayInv N h bs w₀ (w.store .remoteHead ((h + d) % N) f) ∧
      Placed N h bs w₀ ms d d (written bs w₀ d) [] (w.store .remoteHead ((h + d) % N) f) := by
  obtain ⟨k', hk', ht, hv⟩ := hi.values_at hr.fits (hkd.trans hd) hs.head
  have hall : w.Every (Ok N h bs w₀ d) := by
    intro l
    by_cases hl : ∃ i o, l = .byte (.file i o)
    · obtain ⟨i, o, rfl⟩ := hl
      refine ⟨hs.bytes i o, ?_, fun a x hx => ?_⟩
      · rw [(hdur i o).2]; exact hs.bytes i o
      · cases a with
        | frontEnd => rw [hi.quiet] at hx; cases hx
        | backEnd => rw [(hdur i o).1] at hx; cases hx
    · have hne : ∀ i o, l ≠ .byte (.file i o) := fun i o h => hl ⟨i, o, h⟩
      exact ⟨(hv l).1.of_nonfile hne, (hv l).2.1.of_nonfile hne,
        fun a x hx => ((hv l).2.2 a x hx).of_nonfile hne⟩
  have hcur : ∀ m, m ≠ .remoteHead → (w.store .remoteHead ((h + d) % N) f).cur m = w.cur m :=
    fun m hm => World.store_cur_of_ne w m _ f _ hm
  have hok : Ok N h bs w₀ d .remoteHead ((h + d) % N) := trivial
  refine ⟨⟨hi.quiet, d, k, hkd, hd, ht.store_self hs.durable, hall.store hok f⟩, ?_, ?_, ?_,
    World.store_cur_self _ _ _ _, ?_, fun i o => ?_, fun i o hl => ?_⟩
  · rw [hcur _ (by decide)]; exact hs.localHead
  · rw [hcur _ (by decide)]; exact hs.localTail
  · rw [hcur _ (by decide)]; exact hs.shown
  · rw [hcur _ (by decide)]; exact hs.mapped
  · rw [hcur _ (by simp)]; exact hs.bytes i o
  · exact World.settled_store_of_ne (by simp) (hs.settled i o hl)

theorem ensures_prepareCommit {p : Nat} (hr : PersistedRing N h bs w₀)
    (hs : Replaying N h bs w₀ ms k d p [] w) {f : Unit → Code β}
    (hf : ∀ u, ReplayInv N h bs w₀ u → Replaying N h bs w₀ ms k d p [] u →
      (∀ i o, u.Durable .backEnd (.byte (.file i o))) →
      Ensures S (replayProtocol N h bs w₀ live) .backEnd (f ()) Q u) :
    Ensures S (replayProtocol N h bs w₀ live) .backEnd (prepareCommit >>= f) Q w := by
  simp only [prepareCommit, regionTableCommit, Prog.bind_assoc]
  refine Ensures.load fun u hru hu => ?_
  have hs := hs.stable hru
  have hcount : u.cur .uncommitedNumberOfEntries = (w₀.per .commitMetadata).numberOfRegions := by
    obtain ⟨k, k', -, -, -, hv⟩ := hu.values
    exact ((hv .uncommitedNumberOfEntries).1 trivial).trans hr.regions
  rw [hcount]
  refine Ensures.load fun u hru hu => ?_
  have hs := hs.stable hru
  refine Ensures.storeRecord fun v hrv hv => ?_
  have hi :=
    hv.store (l := .commitMetadata)
    (x := ⟨(w₀.per .commitMetadata).numberOfRegions, u.cur .globalLocalHead⟩)
    (by decide) (fun _ _ _ => rfl) (fun g => { g with
      commits :=
        ⟨⟨(w₀.per .commitMetadata).numberOfRegions, u.cur .globalLocalHead⟩,
          g.dequeued.length, g.writes.length⟩ ::
        g.commits })
  refine ⟨allows_backEnd hi, ?_⟩
  have hs := (hs.stable hrv).store (l := .commitMetadata)
    (x := ⟨(w₀.per .commitMetadata).numberOfRegions, u.cur .globalLocalHead⟩) (fun g => { g with
      commits :=
        ⟨⟨(w₀.per .commitMetadata).numberOfRegions, u.cur .globalLocalHead⟩,
          g.dequeued.length, g.writes.length⟩ ::
        g.commits }) (by decide) (by decide) (by decide) (by decide) (by decide) (by simp)
  refine Ensures.flush fun u hru hu => ⟨allows_backEnd (hu.flush _), ?_⟩
  have hs := (hs.stable hru).flush [.commitMetadata] (by simp)
  refine Ensures.fence fun u hru hu => ⟨allows_backEnd hu.fence, ?_⟩
  have hs := (hs.stable hru).fence
  refine Ensures.fence fun u hru hu => ⟨allows_backEnd hu.fence, ?_⟩
  have hs := (hs.stable hru).fence
  refine Ensures.load fun u hru hu => ?_
  have hs := hs.stable hru
  refine Ensures.store fun v hrv hv => ?_
  refine ⟨allows_backEnd
    (hv.store (l := .numberOfEntries) (by decide) (fun _ _ _ => False.elim) id), ?_⟩
  have hs :=
    (hs.stable hrv).store (l := .numberOfEntries) (x := u.cur .uncommitedNumberOfEntries) id
    (by decide) (by decide) (by decide) (by decide) (by decide) (by simp)
  refine Ensures.flush fun u hru hu => ⟨allows_backEnd (hu.flush _), ?_⟩
  have hs := (hs.stable hru).flush [.numberOfEntries, .uncommitedNumberOfEntries] (by simp)
  refine Ensures.fence fun u hru hu => ⟨allows_backEnd hu.fence, ?_⟩
  have hs := (hs.stable hru).fence
  refine Ensures.fence fun u hru hu => ⟨allows_backEnd hu.fence, ?_⟩
  have hs := hs.stable hru
  exact hf _ hu.fence hs.fence fun i o => World.durable_fence (hs.settled i o (by simp))

theorem ensures_ringBufferCommitDequeuedEntries (hr : PersistedRing N h bs w₀) (hkd : k ≤ d)
    (hd : d ≤ (entries bs).length)
    (hs : Replaying N h bs w₀ ms k d (written bs w₀ d) [] w)
    (hdur : ∀ i o, w.Durable .backEnd (.byte (.file i o))) {f : Unit → Code β}
    (hf : ∀ u, ReplayInv N h bs w₀ u → Replaying N h bs w₀ ms d d (written bs w₀ d) [] u →
      Ensures S (replayProtocol N h bs w₀ live) .backEnd (f ()) Q u) :
    Ensures S (replayProtocol N h bs w₀ live) .backEnd
    (ringBufferCommitDequeuedEntries >>= f) Q w := by
  simp only [ringBufferCommitDequeuedEntries, Prog.bind_assoc]
  refine Ensures.load fun u hru hu => ?_
  have hs := hs.stable hru
  have hdur := fun i o => hru.durable _ trivial (hdur i o)
  rw [hs.localHead]
  refine Ensures.storeRecord fun u hru hu => ?_
  obtain ⟨hi, hp⟩ :=
    (hs.stable hru).commit hr hu hkd hd (fun i o => hru.durable _ trivial (hdur i o))
    (fun g => { g with committed := g.dequeued.length, committedBefore := g.committed })
  refine ⟨allows_backEnd hi, ?_⟩
  refine Ensures.flush fun u hru hu => ⟨allows_backEnd (hu.flush _), ?_⟩
  have hp := (hp.stable hru).flush [.remoteHead]
  have hset : (u.flush .backEnd [.remoteHead]).Settled .backEnd .remoteHead :=
    World.settled_flush_of_mem (by simp)
  refine Ensures.fence fun u hru hu => ⟨allows_backEnd hu.fence, ?_⟩
  have hs : Replaying N h bs w₀ ms d d (written bs w₀ d) [] (u.fence .backEnd) :=
    ⟨(hp.stable hru).fence, World.durable_fence (hru.settled _ trivial hset)⟩
  refine Ensures.load fun u hru hu => ?_
  have hs := hs.stable hru
  refine Ensures.store fun v hrv hv => ?_
  have hi := hv.store (l := .lastPersistedHead) (x := u.cur .remoteHead) (by decide)
    (fun _ _ _ => False.elim) id
  exact ⟨allows_backEnd hi, hf _ hi ((hs.stable hrv).store id (by decide) (by decide) (by decide)
    (by decide) (by decide) (by simp))⟩

theorem redo_or_commit (hr : PersistedRing N h bs w₀) {e : Entry} (he : (entries bs)[d]? = some e) :
    e = .commit ∨ ∃ addr payload, e = .redo addr payload := by
  have hmem := List.mem_of_getElem? he
  simp only [entries, List.mem_flatMap, closed, List.mem_append, List.mem_singleton] at hmem
  obtain ⟨es, hes, hmem | rfl⟩ := hmem
  · exact .inr (hr.redo es hes e hmem)
  · exact .inl rfl

theorem ensures_processEntry (hr : PersistedRing N h bs w₀) (hm : Mapped bs w₀ live held ms)
    (hs : Rested N h bs w₀ held ms b k d w)
    (hd : d < (entries bs).length ∨ ∀ u o, S.admits u (.op .backEnd o) → (o.exec .backEnd u).isSome)
    {f : Unit → Code β}
    (hf : ∀ k' u, ReplayInv N h bs w₀ u → Rested N h bs w₀ held ms b k' (d + 1) u →
      Ensures S (replayProtocol N h bs w₀ live) .backEnd (f ()) Q u) :
    Ensures S (replayProtocol N h bs w₀ live) .backEnd (processEntry N held >>= f) Q w := by
  have hkd := hs.committed_le
  have hsince := hs.since
  have hreached := hs.reached
  simp only [processEntry, Prog.bind_assoc]
  refine ensures_ringBufferDequeue hr hs hd fun u hd hu hs => ?_
  have he := List.getElem?_eq_getElem hd
  generalize (entries bs)[d] = e at he
  refine Ensures.load fun u hru hu => ?_
  have hs := hs.stable hru
  rw [(hu.holds hr he).entryType]
  rcases redo_or_commit hr he with rfl | ⟨addr, payload, rfl⟩
  · simp only [Entry.entryType, handleEntry, recordDequeued, Prog.bind_assoc, commitRbBatch_eq]
    refine Ensures.record fun u hru hu => ⟨allows_backEnd (hu.record _), ?_⟩
    have hs := (hs.stable hru).record { u.log with dequeued := u.log.dequeued ++ [.commit] }
    have hwritten : written bs w₀ (d + 1) = written bs w₀ d := written_succ he
    rw [← hwritten] at hs
    refine ensures_prepareCommit hr hs fun u hu hs hdur => ?_
    refine ensures_ringBufferCommitDequeuedEntries hr (by omega) hd hs hdur fun u hu hs => ?_
    refine Ensures.fence fun u hru hu => ⟨allows_backEnd hu.fence, ?_⟩
    have hs := hs.stable hru
    refine hf (d + 1) _ hu.fence ⟨hs.fence, le_rfl, hd, fun i addr payload hi hlt hredo => ?_,
      fun i hi hlt => by omega, fun _ i o => World.durable_fence (hs.settled i o (by simp))⟩
    rcases Nat.lt_succ_iff_lt_or_eq.mp hlt with hlt | rfl
    · exact hreached i addr payload hi hlt hredo
    · rw [he] at hredo; cases hredo
  · simp only [Entry.entryType, handleEntry, recordDequeued, Prog.bind_assoc]
    refine Ensures.load fun u hru hu => ?_
    have hs := hs.stable hru
    rw [(hu.holds hr he).redo.1]
    refine Ensures.loads (R := fun k v => v = payload k)
      (fun k v _ hv => (hv.holds hr he).redo.2 k) hu fun p u hp hru hu => ?_
    obtain rfl : p = payload := funext hp
    have hs := hs.stable hru
    refine Ensures.record fun u hru hu => ⟨allows_backEnd (hu.record _), ?_⟩
    have hs := (hs.stable hru).record { u.log with dequeued := u.log.dequeued ++ [.redo addr p] }
    refine ensures_applyRedo hr hm he hkd hs fun hacc u hu hs =>
      hf k u hu ⟨hs, by omega, hd, fun i _ _ hi hlt hredo => ?_, fun i hi hlt => ?_, by omega⟩
    · rcases Nat.lt_succ_iff_lt_or_eq.mp hlt with hlt | rfl
      · exact hreached i _ _ hi hlt hredo
      · rw [he] at hredo
        cases hredo
        exact hacc
    · rcases Nat.lt_succ_iff_lt_or_eq.mp hlt with hlt | rfl
      · exact hsince i hi hlt
      · rw [he]; simp

theorem ensures_replay (hr : PersistedRing N h bs w₀) (hm : Mapped bs w₀ live held ms)
    (hs : Rested N h bs w₀ held ms b k d w) {f : Bool → Code β}
    (hdone : ∀ u, ReplayInv N h bs w₀ u → Rested N h bs w₀ held ms b (entries bs).length
      (entries bs).length u → Ensures S (replayProtocol N h bs w₀ live) .backEnd (f false) Q u)
    (hmore : ∀ k' u, d < (entries bs).length → ReplayInv N h bs w₀ u →
      Rested N h bs w₀ held ms b k' (d + 1) u →
      Ensures S (replayProtocol N h bs w₀ live) .backEnd (f true) Q u) :
    Ensures S (replayProtocol N h bs w₀ live) .backEnd (replay N held >>= f) Q w := by
  simp only [replay, Prog.bind_assoc]
  refine Ensures.load fun u hru hu => ?_
  have hs := hs.stable hru
  rw [hs.head]
  refine Ensures.load fun u hru hu => ?_
  have hs := hs.stable hru
  have htail : u.cur .remoteTail = (h + (entries bs).length) % N := by
    obtain ⟨k, k', -, -, -, hv⟩ := hu.values
    exact ((hv .remoteTail).1 trivial).trans hr.tail
  rw [htail]
  have hkd := hs.committed_le
  have hdn := hs.taken_le
  split
  · rename_i heq
    obtain rfl := count_unique hr.fits (hkd.trans hdn) le_rfl heq
    obtain rfl : d = (entries bs).length := by omega
    exact hdone u hu hs
  · rename_i hne
    have hd := hs.lt_of_ne fun hk => hne (by rw [hk])
    rw [Prog.bind_assoc]
    exact ensures_processEntry hr hm hs (.inl hd) fun k' u hu hs => hmore k' u hd hu hs

theorem ensures_runConsumer (hr : PersistedRing N h bs w₀) (hm : Mapped bs w₀ live forked ms)
    (hs : Rested N h bs w₀ forked ms b k d w)
    (hS : ∀ u o, S.admits u (.op .backEnd o) → (o.exec .backEnd u).isSome) :
    Ensures S (replayProtocol N h bs w₀ live) .backEnd (runConsumer N)
    (fun _ v => ∃ k d, Rested N h bs w₀ forked ms b k d v) w := by
  rw [runConsumer]
  refine Ensures.load fun u hru hu => ?_
  have hs := hs.stable hru
  refine Ensures.load fun v hrv hv => ?_
  have hs := hs.stable hrv
  split
  · exact Ensures.pure fun v hrv _ => ⟨k, d, hs.stable hrv⟩
  · rw [← bind_ret (processEntry N forked)]
    exact ensures_processEntry hr hm hs (.inr hS) fun k' u _ hs => Ensures.ret fun v hrv _ =>
      ⟨k', d + 1, hs.stable hrv⟩

theorem written_length : written bs w₀ (entries bs).length =
    (fileWrites (remapped w₀.per (w₀.per .commitMetadata).numberOfRegions)
      (entries bs)).length := by
  rw [written, List.take_length]

theorem Rested.image (hs : Rested N h bs w₀ held ms b (entries bs).length (entries bs).length w)
    (i o : Nat) : w.cur (.byte (.file i o)) = replayedImage bs w₀ (.file i o) ∧
      w.per (.byte (.file i o)) = replayedImage bs w₀ (.file i o) := by
  have hbytes := hs.bytes i o
  rw [written_length] at hbytes
  have hcur := hbytes.eq
  exact ⟨hcur, (hs.flushed rfl i o).2.trans hcur⟩

theorem ensures_remapRegions {n i : Nat} {A : State → Prop} {f : Unit → Code β}
    (hw : ReplayInv N h bs w₀ w) (hA : A w)
    (hmap : w.cur .addressMap = remapped w₀.per i)
    (hn : n + i = (w₀.per .commitMetadata).numberOfRegions)
    (hstable : ∀ u v, A u → (replayProtocol N h bs w₀ live).rely .backEnd u v → A v)
    (hstore : ∀ u (ms : List Mapping), A u → A (u.store .addressMap ms id))
    (hf : ∀ u, ReplayInv N h bs w₀ u → A u →
      u.cur .addressMap = remapped w₀.per (w₀.per .commitMetadata).numberOfRegions →
      Ensures S (replayProtocol N h bs w₀ live) .backEnd (f ()) Q u) :
    Ensures S (replayProtocol N h bs w₀ live) .backEnd (remapRegions n i >>= f) Q w := by
  induction n generalizing i w with
  | zero =>
      refine hf w hw hA ?_
      rw [hmap, ← hn, Nat.zero_add]
  | succ n ih =>
      simp only [remapRegions, mapFixed, Prog.bind_assoc]
      refine Ensures.load fun u hru hu => ?_
      have haddr : u.cur (.recordAddress i) = w₀.per (.recordAddress i) := by
        obtain ⟨k, k', -, -, -, hv⟩ := hu.values
        exact (hv (.recordAddress i)).1 trivial
      have hA := hstable _ _ hA hru
      have hmap := (hru.cur .addressMap trivial).trans hmap
      refine Ensures.load fun u hru hu => ?_
      have hsize : u.cur (.recordSize i) = w₀.per (.recordSize i) := by
        obtain ⟨k, k', -, -, -, hv⟩ := hu.values
        exact (hv (.recordSize i)).1 trivial
      have hA := hstable _ _ hA hru
      have hmap := (hru.cur .addressMap trivial).trans hmap
      rw [haddr, hsize]
      refine Ensures.load fun u hru hu => ?_
      have hA := hstable _ _ hA hru
      have hmap := (hru.cur .addressMap trivial).trans hmap
      rw [hmap]
      refine Ensures.store fun u hru hu => ?_
      have hA :=
        hstore u (⟨w₀.per (.recordAddress i), w₀.per (.recordSize i), .file i⟩ :: remapped w₀.per i)
        (hstable _ _ hA hru)
      have hi := hu.store (l := .addressMap)
        (x := ⟨w₀.per (.recordAddress i), w₀.per (.recordSize i), .file i⟩ :: remapped w₀.per i)
        (by decide) (fun _ _ _ => False.elim) id
      exact ⟨allows_backEnd hi, ih hi hA (World.store_cur_self _ _ _ _) (by omega)⟩

/-- The back end before it has mapped any memory, with the first `k` entries
committed. -/
structure Launched (N h : Nat) (bs : List (List Entry)) (w₀ : State) (k : Nat) (w : State) :
    Prop where
  committed_le : k ≤ (entries bs).length
  localHead : w.cur .globalLocalHead = (h + k) % N
  localTail : w.cur .globalLocalTail = (h + (entries bs).length) % N
  shown : w.cur .lastPersistedTail = (h + (entries bs).length) % N
  head : w.cur .remoteHead = (h + k) % N
  durable : w.Durable .backEnd .remoteHead
  bytes : ∀ i o, Ok N h bs w₀ k (.byte (.file i o)) (w.cur (.byte (.file i o)))
  flushed : ∀ i o, w.Durable .backEnd (.byte (.file i o))

theorem Launched.congr (hs : Launched N h bs w₀ k u)
    (hc : ∀ l, l ≠ .addressMap → l ≠ .numberOfEntries → v.cur l = u.cur l)
    (hd : ∀ l, l ≠ .addressMap → l ≠ .numberOfEntries → u.Durable .backEnd l →
      v.Durable .backEnd l) : Launched N h bs w₀ k v := by
  refine ⟨hs.committed_le, ?_, ?_, ?_, ?_, hd _ (by decide) (by decide) hs.durable,
    fun i o => ?_, fun i o => ?_⟩
  · rw [hc _ (by decide) (by decide)]; exact hs.localHead
  · rw [hc _ (by decide) (by decide)]; exact hs.localTail
  · rw [hc _ (by decide) (by decide)]; exact hs.shown
  · rw [hc _ (by decide) (by decide)]; exact hs.head
  · rw [hc _ (by simp) (by simp)]; exact hs.bytes i o
  · exact hd _ (by simp) (by simp) (hs.flushed i o)

theorem Launched.stable (hs : Launched N h bs w₀ k u)
    (hr : (replayProtocol N h bs w₀ live).rely .backEnd u v) : Launched N h bs w₀ k v :=
  hs.congr (fun l _ _ => hr.cur l trivial) fun l _ _ => hr.durable l trivial

theorem Launched.rested (hs : Launched N h bs w₀ k w) (hmap : w.cur .addressMap = ms) :
    Rested N h bs w₀ held ms k k k w :=
  ⟨⟨⟨hs.localHead, ⟨_, hs.committed_le, le_rfl, hs.localTail⟩, hs.shown, hs.head, hmap, hs.bytes,
      fun i o _ => (hs.flushed i o).settled⟩, hs.durable⟩, le_rfl, hs.committed_le,
      fun i _ _ hi hlt => by omega,
    fun i hi hlt => by omega, fun _ => hs.flushed⟩

theorem ReplayInv.launched (hr : PersistedRing N h bs w₀) (hi : ReplayInv N h bs w₀ w) :
    ∃ k, Launched N h bs w₀ k (launchMangosteen w) := by
  obtain ⟨-, k, hk, hhead, hv⟩ := hi.launch
  have hdur : ∀ l, l ≠ .globalLocalTail → l ≠ .globalLocalHead → l ≠ .lastPersistedHead →
      l ≠ .lastPersistedTail →
      l ≠ .numberOfEntries → (launchMangosteen w).Durable .backEnd l := fun l h₁ h₂ h₃ h₄ h₅ =>
    ⟨rfl, (launchMangosteen_cur w h₁ h₂ h₃ h₄ h₅).symm⟩
  have htail : w.per .remoteTail = (h + (entries bs).length) % N := by
    obtain ⟨k, k', -, -, -, hv⟩ := hi.values
    exact ((hv .remoteTail).2.1 trivial).trans hr.tail
  refine ⟨k, hk, ?_, ?_, ?_, ?_, hdur _ (by decide) (by decide) (by decide) (by decide) (by decide),
    fun i o => (hv (.byte (.file i o))).1, fun i o => hdur _ (by simp) (by simp)
    (by simp) (by simp) (by simp)⟩
  · rw [launchMangosteen_globalLocalHead]; exact hhead
  · rw [← htail]
    simp [launchMangosteen, regionTableCreateOrOpen, ringBufferCreateAndInitialise,
      World.store_cur_of_ne, powerFailure, volatileValue]
  · rw [← htail]
    simp [launchMangosteen, regionTableCreateOrOpen, ringBufferCreateAndInitialise,
      World.store_cur_of_ne, powerFailure, volatileValue]
  · rw [launchMangosteen_cur w (by decide) (by decide) (by decide) (by decide) (by decide)]
    exact hhead

theorem ensures_startBackEnd {f : Unit → Code β} (hs : Launched N h bs w₀ k w)
    (hmap : w.cur .addressMap = [])
    (hcount : w.cur .numberOfEntries = (w₀.per .commitMetadata).numberOfRegions)
    (hf : ∀ u, ReplayInv N h bs w₀ u → Rested N h bs w₀ held
        (remapped w₀.per (w₀.per .commitMetadata).numberOfRegions) k k k u →
      Ensures S (replayProtocol N h bs w₀ live) .backEnd (f ()) Q u) :
    Ensures S (replayProtocol N h bs w₀ live) .backEnd (startBackEnd >>= f) Q w := by
  simp only [startBackEnd, remapBackend, Prog.bind_assoc]
  refine Ensures.load fun u hru hu => ?_
  have hs := hs.stable hru
  rw [(hru.cur .numberOfEntries trivial).trans hcount]
  refine ensures_remapRegions (A := Launched N h bs w₀ k) hu hs
    ((hru.cur .addressMap trivial).trans hmap) (Nat.add_zero _)
    (fun _ _ hA hr => hA.stable hr) (fun u ms hA => ?_) fun u hu hs hmap => ?_
  · exact hA.congr (fun l hl _ => World.store_cur_of_ne u l _ _ _ hl) fun l hl _ =>
      (Untouched.store hl).durable
  have hs : Rested N h bs w₀ held _ k k k u := hs.rested hmap
  refine Ensures.load fun u hru hu => ?_
  have hs := hs.stable hru
  refine Ensures.store fun v hrv hv => ?_
  have hi :=
    hv.store (l := .numberOfEntries) (x := (u.cur .commitMetadata).numberOfRegions) (by decide)
    (fun _ _ _ => False.elim) id
  refine ⟨allows_backEnd hi, ?_⟩
  have hs := hs.stable hrv
  have hle := hs.taken_le
  have hs :=
    hs.toReplaying.store (l := .numberOfEntries) (x := (u.cur .commitMetadata).numberOfRegions) id
    (by decide) (by decide) (by decide) (by decide) (by decide) (by simp)
  refine Ensures.flush fun u hru hu => ⟨allows_backEnd (hu.flush _), ?_⟩
  have hs := (hs.stable hru).flush [.numberOfEntries, .uncommitedNumberOfEntries] (by simp)
  refine Ensures.fence fun u hru hu => ⟨allows_backEnd hu.fence, ?_⟩
  have hs := hs.stable hru
  exact hf _ hu.fence ⟨hs.fence, le_rfl, hle, fun i _ _ hi hlt => by omega,
    fun i hi hlt => by omega, fun _ i o => World.durable_fence (hs.settled i o (by simp))⟩

end Rules

/-- What is known between two rounds of the replay loop, with at most `m` more to
come. -/
def AtRound (N h : Nat) (bs : List (List Entry)) (w₀ : State) (held : Nat → Bool) (b m : Nat)
    (x : Phase) (w : State) : Prop :=
  match x with
  | .replaying =>
    ∃ k d, Rested N h bs w₀ held (remapped w₀.per (w₀.per .commitMetadata).numberOfRegions) b k d
      w ∧ (entries bs).length - d < m
  | .replayed =>
    Rested N h bs w₀ held (remapped w₀.per (w₀.per .commitMetadata).numberOfRegions) b
      (entries bs).length (entries bs).length w

theorem AtRound.mono {m m' : Nat} {x : Phase} (hm : m ≤ m') (hs : AtRound N h bs w₀ held b m x w) :
    AtRound N h bs w₀ held b m' x w := by
  cases x with
  | replaying =>
      obtain ⟨k, d, hs, hlt⟩ := hs
      exact ⟨k, d, hs, hlt.trans_le hm⟩
  | replayed => exact hs

theorem ensures_round (hr : PersistedRing N h bs w₀)
    (hlive : live → Writable held (remapped w₀.per (w₀.per .commitMetadata).numberOfRegions)
      (entries bs)) {m : Nat} {x : Phase} {p : Code Phase}
    (hs : AtRound N h bs w₀ held b m x w) (hp : (recoverySystem N held).next .backEnd x p) :
    ∃ m', m' < m ∧ Ensures (recoverySystem N held) (replayProtocol N h bs w₀ live) .backEnd p
    (AtRound N h bs w₀ held b m') w := by
  obtain ⟨-, rfl, rfl⟩ := hp
  obtain ⟨k, d, hs, hlt⟩ := hs
  refine ⟨(entries bs).length - d, hlt, ?_⟩
  refine ensures_replay hr ⟨rfl, hlive⟩ hs (fun u hu hs => ?_) fun k' u hd hu hs => ?_
  · exact Ensures.pure fun v hrv _ => hs.stable hrv
  · exact Ensures.pure fun v hrv _ => ⟨k', d + 1, hs.stable hrv, by omega⟩

theorem ensures_boot (live : Prop) (held : Nat → Bool) (hr : PersistedRing N h bs w₀)
    (hw : ReplayInv N h bs w₀ w) : ∃ b, b ≤ (entries bs).length ∧ w.per .remoteHead = (h + b) % N ∧
      Ensures (recoverySystem N held) (replayProtocol N h bs w₀ live) .backEnd
      ((recoverySystem N held).boot .backEnd)
        (AtRound N h bs w₀ held b ((entries bs).length + 1)) (launchMangosteen w) := by
  obtain ⟨k, hs⟩ := hw.launched hr
  refine ⟨k, hs.committed_le, ?_, ?_⟩
  · rw [← hs.head, launchMangosteen_cur w (by decide) (by decide) (by decide)
      (by decide) (by decide)]
    rfl
  refine ensures_startBackEnd hs ?_ ?_ fun u hu hs => Ensures.ret fun v hrv _ =>
    ⟨k, k, hs.stable hrv, by omega⟩
  · rw [launchMangosteen_cur w (by decide) (by decide) (by decide) (by decide) (by decide)]
    rfl
  · rw [launchMangosteen_numberOfEntries]
    obtain ⟨k, k', -, -, -, hv⟩ := hw.values
    exact (hv .commitMetadata).2.1

theorem ok_zero (l : Loc) : Ok N h bs w₀ 0 l (w₀.per l) := by
  cases l with
  | byte cell =>
      cases cell with
      | file i o => exact ⟨0, by simp [written, fileWrites, writes], Nat.zero_le _, rfl⟩
      | anonymous a => exact False.elim
  | commitMetadata => rfl
  | remoteHead => trivial
  | _ => exact fun _ => rfl

theorem Ok.of_not_relied {l : Loc} {k : Nat} (hl : ¬ Relied N h (entries bs).length l) (x : Val l) :
    Ok N h bs w₀ k l x := by
  cases l with
  | byte cell =>
      cases cell with
      | file i o => exact absurd trivial hl
      | anonymous a => exact False.elim
  | commitMetadata => exact absurd trivial hl
  | remoteHead => trivial
  | _ => exact fun hr => absurd hr hl

theorem Serving.replayInv (hr : PersistedRing N h bs w₀) (hw : Serving N h bs w₀) :
    ReplayInv N h bs w₀ w₀ := by
  have hhead := hw.durable .remoteHead trivial
  refine ⟨fun i o => (hw.durable (.byte (.file i o)) trivial .frontEnd).1, 0, 0,
    le_rfl, Nat.zero_le _,
    ⟨(hhead .backEnd).2.symm.trans hr.head, .inl hr.head, .inl (hhead .backEnd).1⟩, fun l => ?_⟩
  by_cases hl : Relied N h (entries bs).length l
  · refine ⟨?_, ok_zero l, fun a x hx => ?_⟩
    · rw [← (hw.durable l hl .backEnd).2]
      exact ok_zero l
    · rw [(hw.durable l hl a).1] at hx
      cases hx
  · exact ⟨.of_not_relied hl _, .of_not_relied hl _, fun _ _ _ => .of_not_relied hl _⟩

theorem Serving.rested (hr : PersistedRing N h bs w₀) (hw : Serving N h bs w₀) :
    Rested N h bs w₀ forked (w₀.cur .addressMap) 0 0 0 w₀ := by
  have hbyte : ∀ i o, w₀.Durable .backEnd (.byte (.file i o)) :=
    fun i o => hw.durable (.byte (.file i o)) trivial .backEnd
  have hhead := hw.durable .remoteHead trivial .backEnd
  obtain ⟨j, hj, ht⟩ := hw.localTail
  refine ⟨⟨⟨hw.localHead, ⟨j, Nat.zero_le _, hj, ht⟩, hw.shown, hhead.2.symm.trans hr.head, rfl,
    fun i o => ?_,
    fun i o _ => (hbyte i o).settled⟩, hhead⟩, le_rfl, Nat.zero_le _, fun i _ _ _ hlt => by omega,
    fun i _ hlt => by omega, fun _ => hbyte⟩
  rw [← (hbyte i o).2]
  have hok : Ok N h bs w₀ 0 _ _ := ok_zero (.byte (.file i o))
  exact hok

theorem replayInv_of_serving (hr : PersistedRing N h bs w₀) (hw : Serving N h bs w₀)
    {c : Config Actor Loc Val Log Unit}
    (hc : (consumerSystem N).Reachable w₀ c) : ReplayInv N h bs w₀ c.world := by
  have hS : ∀ u o, ((consumerSystem N).patient fun _ _ => False).admits u (.op .backEnd o) →
      (o.exec .backEnd u).isSome := by
    rintro u o ⟨-, ho⟩
    exact (ho .backEnd o rfl).resolve_left id
  have hall := (hc.patient (X := fun _ _ => False)).ensures (P := replayProtocol N h bs w₀ True)
    (Q := fun a _ u => a = .backEnd → ∃ k d, Rested N h bs w₀ forked (w₀.cur .addressMap) 0 k d u)
    ?_ ?_ ?_ ?_ ?_
  · exact hall.1
  · exact hw.replayInv hr
  · intro a
    refine Ensures.ret fun u hru _ ha => ?_
    subst ha
    exact ⟨0, 0, (hw.rested hr).stable hru⟩
  · intro a x p w _ hs hp
    obtain ⟨rfl, rfl⟩ := hp
    obtain ⟨k, d, hs⟩ := hs rfl
    exact (ensures_runConsumer hr ⟨hw.mapped, fun _ _ _ _ => accessible_forked _ _⟩ hs hS).mono
      fun _ _ _ hu _ => hu
  · intro w l hw _
    refine ⟨hw.writeBack l, fun a => ?_⟩
    cases a with
    | frontEnd => trivial
    | backEnd => exact Undisturbed.writeBack _ _ w l
  · intro w _ ha
    exact absurd rfl ha.1

theorem replayInv_of_persistedRing (hr : PersistedRing N h bs w₀) :
    ReplayInv N h bs w₀ { w₀ with cur := w₀.per, pending := fun _ _ => none } :=
  ⟨fun _ _ => rfl, 0, 0, le_rfl, Nat.zero_le _, ⟨hr.head, .inl hr.head, .inl rfl⟩,
    fun l => ⟨ok_zero l, ok_zero l, fun a x hx => by cases hx⟩⟩

theorem Interrupted.replayInv (hr : PersistedRing N h bs w₀) (hw : Interrupted N h bs w₀ w) :
    ∃ u, ReplayInv N h bs w₀ u ∧ launchMangosteen u = launchMangosteen w := by
  obtain rfl | ⟨hserve, c, hc, rfl⟩ := hw
  · exact ⟨_, replayInv_of_persistedRing hr, rfl⟩
  · exact ⟨_, replayInv_of_serving hr hserve hc, rfl⟩

theorem ensures_of_reachable (hr : PersistedRing N h bs w₀) (hw : ReplayInv N h bs w₀ w)
    (hlive : live → Writable held (remapped w₀.per (w₀.per .commitMetadata).numberOfRegions)
      (entries bs)) {c : Config Actor Loc Val Log Phase}
    (hc : (recoverySystem N held).Reachable (launchMangosteen w) c) : ReplayInv N h bs w₀ c.world ∧
      Ensures (recoverySystem N held) (replayProtocol N h bs w₀ live) .backEnd (c.prog .backEnd)
        (fun x u => ∃ b, AtRound N h bs w₀ held b ((entries bs).length + 1) x u) c.world := by
  have hfront : ∀ u, Ensures (recoverySystem N held) (replayProtocol N h bs w₀ live) .frontEnd
      ((recoverySystem N held).boot .frontEnd) (fun _ _ => True) u :=
    fun u => Ensures.ret fun _ _ _ => trivial
  have hall := hc.ensures (P := replayProtocol N h bs w₀ live)
    (Q := fun a x u => a = .backEnd → ∃ b, AtRound N h bs w₀ held b ((entries bs).length + 1) x u)
    ?_ ?_ ?_ ?_ ?_
  · exact ⟨hall.1, (hall.2 .backEnd).mono fun x u _ hu => hu rfl⟩
  · exact hw.launch.1
  · intro a
    cases a with
    | frontEnd => exact (hfront _).mono fun _ _ _ _ ha => by cases ha
    | backEnd =>
        obtain ⟨b, -, -, he⟩ := ensures_boot live held hr hw
        exact he.mono fun _ _ _ hu _ => ⟨b, hu⟩
  · intro a x p w hw hs hp
    obtain rfl := hp.1
    obtain ⟨b, hs⟩ := hs rfl
    obtain ⟨m, hm, he⟩ := ensures_round hr hlive hs hp
    exact he.mono fun x u _ hu _ => ⟨b, hu.mono hm.le⟩
  · intro w l hw _
    refine ⟨hw.writeBack l, fun a => ?_⟩
    cases a with
    | frontEnd => trivial
    | backEnd => exact Undisturbed.writeBack _ _ w l
  · intro w hw _
    refine ⟨hw.launch.1, fun a => ?_⟩
    cases a with
    | frontEnd => exact (hfront _).mono fun _ _ _ _ ha => by cases ha
    | backEnd =>
        obtain ⟨b, -, -, he⟩ := ensures_boot live held hr hw
        exact he.mono fun _ _ _ hu _ => ⟨b, hu⟩

end Replay

/-- Where the entries can be written, the recovery comes to an end without
waiting, and then the ring is empty and every entry has been applied once. -/
theorem recovers_of_writable {N h : Nat} {held : Nat → Bool} {bs : List (List Entry)} {w w' : State}
    (hr : PersistedRing N h bs w)
    (hwrite : Writable held (remapped w.per (w.per .commitMetadata).numberOfRegions) (entries bs))
    (hw : Interrupted N h bs w w') {c : Config Actor Loc Val Log Phase}
    (hc : (recoverySystem N held).Reachable (launchMangosteen w') c) :
    Recovers N held (replayedImage bs w) c := by
  obtain ⟨u, hu, hlaunch⟩ := hw.replayInv hr
  rw [← hlaunch] at hc
  obtain ⟨hi, he⟩ := ensures_of_reachable hr hu (fun _ : True => hwrite) hc
  have hrefl := (replayProtocol N h bs w True).rely_refl .backEnd c.world
  have hrested : c.prog .backEnd = .ret .replayed → ∃ b, Rested N h bs w held
      (remapped w.per (w.per .commitMetadata).numberOfRegions) b (entries bs).length
      (entries bs).length c.world := by
    intro hp
    rw [hp] at he
    exact he c.world hrefl hi
  have hgo : ∀ o next, c.prog .backEnd = .op o next → (o.exec .backEnd c.world).isSome := by
    intro o next hp
    rw [hp] at he
    exact (he c.world hrefl hi trivial).1 trivial
  refine ⟨hgo, ?_, ?_, fun hp => ?_, fun hp i o => ?_⟩
  · cases hp : c.prog .backEnd with
    | ret x =>
        cases x with
        | replaying => exact .inr ⟨_, .begin .refl hp ⟨rfl, rfl, rfl⟩⟩
        | replayed => exact .inl rfl
    | op o next =>
        obtain ⟨⟨r, u⟩, hu⟩ := Option.isSome_iff_exists.mp (hgo o next hp)
        exact .inr ⟨_, .op .refl hp trivial hu⟩
  · refine Ensures.acc (Q := fun m x u => ∃ b, AtRound N h bs w held b m x u)
      (P := replayProtocol N h bs w True) (a := .backEnd)
      (fun w l hw => ⟨hw.writeBack l, Undisturbed.writeBack _ _ w l⟩)
      (fun m x p w _ hs hp => ?_) hi he
    obtain ⟨b, hs⟩ := hs
    obtain ⟨m', hm, he⟩ := ensures_round hr (fun _ => hwrite) hs hp
    exact ⟨m', hm, he.mono fun _ _ _ hu => ⟨b, hu⟩⟩
  · obtain ⟨b, hs⟩ := hrested hp
    rw [hs.head]
    obtain ⟨k, k', -, -, -, hv⟩ := hi.values
    exact (((hv .remoteTail).1 trivial).trans hr.tail).symm
  · obtain ⟨b, hs⟩ := hrested hp
    exact hs.image i o

theorem exists_replayed {N : Nat} {held : Nat → Bool} {files : Cell → UInt8} {w : State}
    (h : ∀ c, (recoverySystem N held).Reachable w c → Recovers N held files c) :
    ∃ c, (recoverySystem N held).Reachable w c ∧ c.prog .backEnd = .ret .replayed :=
  System.exists_done (h _ .refl).ends .refl (fun _ _ hc hd => hd.reachable (fun _ _ => trivial) hc)
    fun c hc => (h c hc).continues

theorem writable_of_recovers {N h : Nat} {held : Nat → Bool} {bs : List (List Entry)} {w : State}
    {files : Cell → UInt8} (hr : PersistedRing N h bs w)
    (hall : ∀ c, (recoverySystem N held).Reachable (launchMangosteen w) c →
      Recovers N held files c) :
    Writable held (remapped w.per (w.per .commitMetadata).numberOfRegions) (entries bs) := by
  have hi := replayInv_of_persistedRing hr
  obtain ⟨b, hb, hhead, hboot⟩ := ensures_boot False held hr hi
  obtain rfl : b = 0 := count_unique hr.fits hb (Nat.zero_le _) (hhead.symm.trans hr.head)
  have hstart := hall ⟨launchMangosteen w, (recoverySystem N held).boot⟩ .refl
  -- only this one launch is followed, in which the first entry taken is the first of all
  let Followed (c : Config Actor Loc Val Log Phase) : Prop :=
    (recoverySystem N held).Reachable (launchMangosteen w) c ∧ ReplayInv N h bs w c.world ∧
      Ensures (recoverySystem N held) (replayProtocol N h bs w False) .backEnd (c.prog .backEnd)
        (AtRound N h bs w held 0 ((entries bs).length + 1)) c.world
  have hstep : ∀ c d, Followed c → (recoverySystem N held).Advances .backEnd c d → Followed d := by
    rintro c d ⟨hc, hinv, he⟩ hd
    refine ⟨hd.reachable (fun _ _ => trivial) hc,
      Ensures.of_advances (P := replayProtocol N h bs w False) (a := .backEnd)
      (fun w l hw => ⟨hw.writeBack l, Undisturbed.writeBack _ _ w l⟩)
      (fun x p w _ hs hp => ?_) hinv he hd⟩
    obtain ⟨m, hm, he⟩ := ensures_round hr False.elim hs hp
    exact he.mono fun x u _ hu => hu.mono hm.le
  obtain ⟨c, ⟨hc, hinv, he⟩, hdone⟩ := System.exists_done (I := Followed)
    hstart.ends ⟨.refl, hi.launch.1, hboot⟩ hstep fun c hc => (hall c hc.1).continues
  rw [hdone] at he
  have hs := he c.world ((replayProtocol N h bs w False).rely_refl .backEnd c.world) hinv
  intro addr payload hmem
  obtain ⟨i, hi, hget⟩ := List.getElem_of_mem hmem
  exact hs.reached i addr payload (Nat.zero_le _) hi (by rw [List.getElem?_eq_getElem hi, hget])

/-- However often a consumer that maps the entries as a recovery does and the
recoveries after it are cut short, the next recovery comes to an end without
waiting, and then the ring is empty and every entry has been applied once, in
order: just when a recovering process can store to all the addresses in the
ring. -/
theorem replay_recovers (N h : Nat) (held : Nat → Bool) (bs : List (List Entry)) (w : State)
    (hr : PersistedRing N h bs w) :
    (∀ w', Interrupted N h bs w w' →
      ∀ c, (recoverySystem N held).Reachable (launchMangosteen w') c →
        Recovers N held (replayedImage bs w) c) ↔
      Writable held (remapped w.per (w.per .commitMetadata).numberOfRegions) (entries bs) :=
  ⟨fun hall => writable_of_recovers hr (hall w (.inl rfl)), fun hwrite _ hw _ hc =>
    recovers_of_writable hr hwrite hw hc⟩

/-- A ring of one batch, which writes one line, and a table of one region. -/
def foundRing (addr : Nat) : State where
  cur := initialValue (fun _ => 0) [(4096, 8192)]
  per := fun l => match l with
    | .entryType 1 => .commit
    | .entryAddr 0 => addr
    | .payload 0 _ => (1 : UInt8)
    | .remoteTail => (2 : Nat)
    | .commitMetadata => (⟨1, 0⟩ : AtomicPmemCommit)
    | l => initialValue (fun _ => 0) [(4096, 8192)] l
  pending _ _ := none
  log := { toFrontLog := {}, toBackLog := {}, regions := [(4096, 8192)] }

theorem persistedRing_foundRing (addr : Nat) :
    PersistedRing ringBufferSize 0 [[.redo addr fun _ => 1]] (foundRing addr) where
  redo := by simp
  fits := by simp [entries, closed, ringBufferSize]
  head := rfl
  tail := rfl
  slots i e he := by
    rcases i with _ | _ | i
    · obtain rfl : .redo addr (fun _ => 1) = e := Option.some.inj he
      intro s hs
      simp only [entryStores, List.mem_cons, List.mem_map] at hs
      rcases hs with rfl | rfl | ⟨k, -, rfl⟩ <;> rfl
    · obtain rfl : .commit = e := Option.some.inj he
      intro s hs
      obtain rfl := List.mem_singleton.mp hs
      rfl
    · cases he
  regions := rfl

theorem writable_foundRing {held : Nat → Bool} {addr : Nat} : Writable held
    (remapped (foundRing addr).per ((foundRing addr).per .commitMetadata).numberOfRegions)
      (entries [[.redo addr fun _ => 1]]) ↔ accessible held
      [⟨4096, 8192, .file 0⟩] addr = true := by
  refine ⟨fun h => h addr (fun _ => 1) (by simp [entries, closed]), fun h a payload hmem => ?_⟩
  simp only [entries, closed, List.flatMap_cons, List.flatMap_nil, List.append_nil,
    List.cons_append, List.nil_append,
    List.mem_cons, List.not_mem_nil, or_false, reduceCtorEq] at hmem
  rw [(Entry.redo.inj hmem).1]
  exact h

/-- The batch of the ring has been replayed, and no process held any other memory. -/
theorem replay_recovers_foundRing : ∃ c, (recoverySystem ringBufferSize fun _ => false).Reachable
    (launchMangosteen (foundRing 4096)) c ∧ c.prog .backEnd = .ret .replayed ∧
      c.world.cur .remoteHead = c.world.cur .remoteTail ∧ c.world.per (.byte (.file 0 0)) = 1 := by
  have hall :=
    (replay_recovers ringBufferSize 0 (fun _ => false) _ _ (persistedRing_foundRing 4096)).mpr
    (writable_foundRing.mpr (by decide)) (foundRing 4096) (.inl rfl)
  obtain ⟨c, hc, hp⟩ := exists_replayed hall
  exact ⟨c, hc, hp, (hall c hc).drained hp, ((hall c hc).image hp 0 0).2⟩

/-- A line of memory that the front end had from an `mmap` of its own, which a
recovering back end does not have. -/
theorem not_replay_recovers : ∃ (held : Nat → Bool) (bs : List (List Entry)) (w : State),
    PersistedRing ringBufferSize 0 bs w ∧ ¬ ∀ w', Interrupted ringBufferSize 0 bs w w' → ∀ c,
      (recoverySystem ringBufferSize held).Reachable (launchMangosteen w') c →
        Recovers ringBufferSize held (replayedImage bs w) c := by
  refine ⟨fun a => decide (a < 4294967296), _, _, persistedRing_foundRing 1099511627776,
    fun hall => ?_⟩
  have hwrite :=
    writable_foundRing.mp (writable_of_recovers (persistedRing_foundRing _) (hall _ (.inl rfl)))
  revert hwrite
  decide

end Mangosteen.Recovery
