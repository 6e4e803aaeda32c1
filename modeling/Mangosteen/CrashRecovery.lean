import Mangosteen.Incarnations
import Mangosteen.Recovery
import Mangosteen.Refinement
import Mangosteen.Relaunch

namespace Mangosteen.CrashRecovery

open PersistentMemory Prog Memory RingBuffer RegionTable BackEnd Session Slots Channel Dequeue
  Consumer Delivery Isolation Transactions Image Restart Instrumentation

variable {N : Nat} (regions : List (Nat × Nat)) (bytes : Cell → UInt8)

/-- The bytes that entries write, where nothing but the initial regions is mapped. -/
def logWrites (es : List Entry) : List (Cell × UInt8) :=
  Recovery.fileWrites (initialMappings regions) es

/-- What a location may hold when the first `k` of the writes `ws` are durable: a
byte of a file any value that it has had since. -/
def Kept (ws : List (Cell × UInt8)) (k : Nat) : (l : Loc) → Val l → Prop
  | .byte (.file i o), v => RedoLog.Since ws bytes k (.file i o) v
  | .commitMetadata, v => v.numberOfRegions = 0 ∨ v.numberOfRegions = regions.length
  | .uncommitedNumberOfEntries, v => v = regions.length
  | .recordAddress i, v => i < regions.length → v = (regions.getD i (0, 0)).1
  | .recordSize i, v => i < regions.length → v = (regions.getD i (0, 0)).2
  | _, _ => True

/-- What does not matter to the files. -/
def Free : Loc → Prop
  | .byte (.file _ _) | .commitMetadata | .uncommitedNumberOfEntries
  | .recordAddress _ | .recordSize _
  | .addressMap => False
  | _ => True

/-- As long as the back end maps no memory, whatever may become durable shows all
that `remote_head` has passed. -/
structure DataInv (w : State) : Prop where
  quiet : BackQuiet w
  committed_le : w.log.committed ≤ w.log.dequeued.length
  mapped : Plain w.log.dequeued → w.cur .addressMap = initialMappings regions
  values : Plain w.log.dequeued → w.Every (Kept regions bytes (logWrites regions w.log.dequeued)
    (logWrites regions (w.log.dequeued.take w.log.committed)).length)

def dataProtocol : Protocol Actor Loc Val Log where
  inv := DataInv regions bytes
  rely := SideRely
  live := False
  rely_refl := SideRely.refl
  rely_trans := SideRely.trans

/-- The files show all that has been taken, flushed; and durable, if `firm`. -/
structure Shows (firm : Prop) (w : State) : Prop where
  bytes : ∀ i o, w.cur (.byte (.file i o)) = RedoLog.apply
    (logWrites regions w.log.dequeued) bytes (.file i o)
  settled : ∀ i o, w.Settled .backEnd (.byte (.file i o))
  durable : firm → ∀ i o, w.Durable .backEnd (.byte (.file i o))

def Standing (firm : Prop) (w : State) : Prop := Plain w.log.dequeued → Shows regions bytes firm w

variable {regions bytes} {u v w : State} {firm : Prop}

section Kept

variable {ws xs : List (Cell × UInt8)} {k k' : Nat} {l : Loc} {x : Val l}

theorem Kept.mono (h : Kept regions bytes ws k l x) (hk : k' ≤ k) :
    Kept regions bytes (ws ++ xs) k' l x := by
  cases l with
  | byte c =>
      cases c with
      | file i o => exact RedoLog.Since.of_le (RedoLog.Since.append h) hk
      | anonymous a => trivial
  | _ => exact h

theorem Kept.of_free (hl : Free l) (x : Val l) : Kept regions bytes ws k l x := by
  cases l with
  | byte c =>
      cases c with
      | file i o => exact hl.elim
      | anonymous a => trivial
  | commitMetadata | uncommitedNumberOfEntries | recordAddress | recordSize
  | addressMap => exact hl.elim
  | _ => trivial

theorem free_of_frontSide (hl : FrontSide l) : Free l := by
  cases l with
  | byte | commitMetadata | uncommitedNumberOfEntries | recordAddress | recordSize
  | addressMap => exact absurd rfl hl
  | _ => trivial

theorem Kept.congr {ws' : List (Cell × UInt8)} (hl : ∀ i o, l ≠ .byte (.file i o))
    (h : Kept regions bytes ws k l x) : Kept regions bytes ws' k' l x := by
  cases l with
  | byte c =>
      cases c with
      | file i o => exact absurd rfl (hl i o)
      | anonymous a => trivial
  | _ => exact h

end Kept

theorem logWrites_append (es fs : List Entry) :
    logWrites regions (es ++ fs) = logWrites regions es ++ logWrites regions fs :=
  Recovery.fileWrites_append _ es fs

theorem length_logWrites_mono {es fs : List Entry} (h : es <+: fs) :
    (logWrites regions es).length ≤ (logWrites regions fs).length := by
  obtain ⟨gs, rfl⟩ := h
  rw [logWrites_append, List.length_append]
  exact Nat.le_add_right _ _

theorem allows_backEnd (h : DataInv regions bytes v) :
    (dataProtocol regions bytes).Allows .backEnd u v :=
  Protocol.allows_of_other Actor.eq_frontEnd h trivial

theorem DataInv.congr (h : DataInv regions bytes u) (hq : BackQuiet v)
    (hd : v.log.dequeued = u.log.dequeued)
    (hc : v.log.committed = u.log.committed) (hm : v.cur .addressMap = u.cur .addressMap)
    (hv : ∀ {P : (l : Loc) → Val l → Prop}, (∀ l, Free l → ∀ x, P l x) → u.Every P → v.Every P) :
    DataInv regions bytes v := by
  refine ⟨hq, ?_, ?_, ?_⟩
  · rw [hd, hc]
    exact h.committed_le
  · rw [hd, hm]
    exact h.mapped
  · rw [hd, hc]
    exact fun hp => hv (fun l hl x => .of_free hl x) (h.values hp)

theorem allows_frontEnd (hi : DataInv regions bytes u)
    (hf : Frame FrontSide SameBack .frontEnd u v) :
    (dataProtocol regions bytes).Allows .frontEnd u v := by
  have hq : BackQuiet v := fun l hl => by
    rw [(hi.quiet.untouched hf hl).pending]
    exact hi.quiet l hl
  refine Protocol.allows_of_other Actor.eq_backEnd ?_ ⟨hi.quiet.undisturbed hf, hf.log⟩
  exact hi.congr hq (by rw [hf.log.1]) (by rw [hf.log.1]) (hf.cur .addressMap (not_not.mpr rfl))
    fun hP hu => hf.every hu fun l hl => hP l (free_of_frontSide hl)

theorem DataInv.writeBack (h : DataInv regions bytes w) (l : Loc) :
    DataInv regions bytes (w.writeBack l) :=
  h.congr (h.quiet.writeBack l) rfl rfl rfl fun _ hw => hw.writeBack l

theorem DataInv.fence (h : DataInv regions bytes w) : DataInv regions bytes (w.fence .backEnd) :=
  h.congr h.quiet.fence rfl rfl rfl fun _ hw => hw.fence _

theorem DataInv.flush (h : DataInv regions bytes w) (ls : List Loc) :
    DataInv regions bytes (w.flush .backEnd ls) :=
  h.congr (h.quiet.flush ls) rfl rfl rfl fun _ hw => hw.flush _ ls

theorem DataInv.store (h : DataInv regions bytes w) {l : Loc} {x : Val l} {f : Log → Log}
    (hx : Plain w.log.dequeued → Kept regions bytes (logWrites regions w.log.dequeued)
      (logWrites regions (w.log.dequeued.take w.log.committed)).length l x)
    (hl : l ≠ .addressMap) (hb : (f w.log).toBackLog = w.log.toBackLog) :
    DataInv regions bytes (w.store l x f) := by
  refine ⟨h.quiet, ?_, ?_, ?_⟩
  · rw [World.store_log, hb]
    exact h.committed_le
  · rw [World.store_log, hb, World.store_cur_of_ne _ _ _ _ _ hl.symm]
    exact h.mapped
  · rw [World.store_log, hb]
    exact fun hp => (h.values hp).store (hx hp) f

section Standing

theorem Standing.congr (h : Standing regions bytes firm u) (hd : v.log.dequeued = u.log.dequeued)
    (hc : ∀ i o, v.cur (.byte (.file i o)) = u.cur (.byte (.file i o)))
    (hs : ∀ i o, u.Settled .backEnd (.byte (.file i o)) → v.Settled .backEnd (.byte (.file i o)))
    (hdur : ∀ i o, u.Durable .backEnd (.byte (.file i o)) →
      v.Durable .backEnd (.byte (.file i o))) :
    Standing regions bytes firm v := by
  intro hp
  rw [hd] at hp
  obtain ⟨hb, hset, hfirm⟩ := h hp
  refine ⟨fun i o => ?_, fun i o => hs i o (hset i o), fun hf i o => hdur i o (hfirm hf i o)⟩
  rw [hc, hd]
  exact hb i o

theorem Standing.stable (h : Standing regions bytes firm u)
    (hr : (dataProtocol regions bytes).rely .backEnd u v) : Standing regions bytes firm v := by
  obtain ⟨hu, hl⟩ := hr
  exact h.congr (congrArg BackLog.dequeued hl.1) (fun i o => hu.cur _ rfl)
    (fun i o => hu.settled _ rfl) fun i o => hu.durable _ rfl

theorem Standing.fence (h : Standing regions bytes firm w) :
    Standing regions bytes True (w.fence .backEnd) := by
  intro hp
  obtain ⟨hb, hset, -⟩ := h hp
  have hdur := fun i o => World.durable_fence (hset i o)
  exact ⟨hb, fun i o => (hdur i o).settled, fun _ => hdur⟩

theorem Standing.weaken (h : Standing regions bytes firm w) : Standing regions bytes False w :=
  fun hp => ⟨(h hp).bytes, (h hp).settled, False.elim⟩

end Standing

section Rules

variable {α β Phase : Type} {S : System Actor Loc Val Log Phase} {Q : β → State → Prop}

theorem ensures_fence {f : Unit → Code β} (hs : Standing regions bytes firm w)
    (hf : ∀ u, Standing regions bytes True u →
      Ensures S (dataProtocol regions bytes) .backEnd (f ()) Q u) :
    Ensures S (dataProtocol regions bytes) .backEnd (fence >>= f) Q w :=
  Ensures.fence fun _ hr hu => ⟨allows_backEnd hu.fence, hf _ (hs.stable hr).fence⟩

theorem ensures_flush {ls : List Loc} {f : Unit → Code β} (hs : Standing regions bytes firm w)
    (hls : ∀ i o, .byte (.file i o) ∉ ls)
    (hf : ∀ u, Standing regions bytes firm u →
      Ensures S (dataProtocol regions bytes) .backEnd (f ()) Q u) :
    Ensures S (dataProtocol regions bytes) .backEnd (flush ls >>= f) Q w := by
  refine Ensures.flush fun u hr hu => ⟨allows_backEnd (hu.flush ls), hf _ ?_⟩
  refine (hs.stable hr).congr rfl (fun _ _ => rfl) (fun i o h => World.settled_flush h) fun i o h =>
    ?_
  rwa [World.Durable, World.flush_pending_of_not_mem u _ _ _ _ (hls i o)]

theorem ensures_load {l : Loc} {f : Val l → Code β} (hs : Standing regions bytes firm w)
    (hf : ∀ u, DataInv regions bytes u → Standing regions bytes firm u →
      Ensures S (dataProtocol regions bytes) .backEnd (f (u.cur l)) Q u) :
    Ensures S (dataProtocol regions bytes) .backEnd (load l >>= f) Q w :=
  Ensures.load fun u hr hu => hf u hu (hs.stable hr)

theorem ensures_store {l : Loc} {x : Val l} {g : Log → Log} {f : Unit → Code β}
    (hs : Standing regions bytes firm w) (hl : ∀ i o, l ≠ .byte (.file i o)) (hm : l ≠ .addressMap)
    (hg : ∀ g₀, (g g₀).toBackLog = g₀.toBackLog)
    (hx : ∀ u, u.log.dequeued = w.log.dequeued → DataInv regions bytes u → Plain u.log.dequeued →
      ∀ ws k, Kept regions bytes ws k l x)
    (hf : ∀ u, Standing regions bytes firm u →
      Ensures S (dataProtocol regions bytes) .backEnd (f ()) Q u) :
    Ensures S (dataProtocol regions bytes) .backEnd (storeRecord l x g >>= f) Q w := by
  refine Ensures.storeRecord fun u hr hu => ?_
  refine ⟨allows_backEnd
    (hu.store (fun hp => hx u (congrArg BackLog.dequeued hr.2.1) hu hp _ _) hm (hg _)), hf _ ?_⟩
  refine (hs.stable hr).congr (congrArg BackLog.dequeued (hg _))
    (fun i o => World.store_cur_of_ne _ _ _ _ _ (hl i o).symm)
    (fun i o => World.settled_store_of_ne (hl i o).symm) fun i o h => ?_
  rwa [World.Durable, World.store_cur_of_ne _ _ _ _ _ (hl i o).symm]

theorem ensures_free {p : Code α} {f : α → Code β}
    (hp : p.Confined Free (fun g g' => g' = g) .backEnd)
    (hw : DataInv regions bytes w) (hs : Standing regions bytes firm w)
    (hf : ∀ x u, Standing regions bytes firm u →
      Ensures S (dataProtocol regions bytes) .backEnd (f x) Q u) :
    Ensures S (dataProtocol regions bytes) .backEnd (p >>= f) Q w := by
  have hc := Ensures.confined (S := S) (P := dataProtocol regions bytes)
    (A := Standing regions bytes firm) hp (fun _ => rfl)
    False.elim hs (fun u v hu hr _ => hu.stable hr) fun u v hf hu hs => ?_
  · exact Ensures.bind hw (hc.mono fun x u _ hu => hf x u hu)
  · have hlog : v.log = u.log := hf.log
    refine ⟨allows_backEnd (hu.congr (hu.quiet.frame hf) (by rw [hlog]) (by rw [hlog])
      (hf.cur .addressMap id) fun hP he => hf.every he hP), ?_⟩
    exact hs.congr (by rw [hlog]) (fun i o => hf.cur _ id) (fun i o => hf.settled id) fun i o =>
      hf.durable id

theorem ensures_notPlain {p : Code α} {f : α → Code β} {own : Loc → Prop}
    (hp : p.Confined own SameRing .backEnd)
    (hw : DataInv regions bytes w) (hn : ¬ Plain w.log.dequeued)
    (hf : ∀ x u, Standing regions bytes False u →
      Ensures S (dataProtocol regions bytes) .backEnd (f x) Q u) :
    Ensures S (dataProtocol regions bytes) .backEnd (p >>= f) Q w := by
  have hc := Ensures.confined (S := S) (P := dataProtocol regions bytes)
    (A := fun u => ¬ Plain u.log.dequeued) hp
    (fun _ => ⟨rfl, rfl⟩) False.elim hn (fun u v hu hr _ => by rw [hr.2.1]; exact hu)
    fun u v hf hu hn => ?_
  · exact Ensures.bind hw (hc.mono fun x u _ hu => hf x u fun hp => absurd hp hu)
  · have hn : ¬ Plain v.log.dequeued := by rwa [hf.log.2]
    refine ⟨allows_backEnd ⟨hu.quiet.frame hf, ?_, fun hp => absurd hp hn, fun hp => absurd hp hn⟩,
      hn⟩
    rw [hf.log.2]
    exact hu.committed_le

section Entries

variable {e : Entry}

theorem DataInv.take (h : DataInv regions bytes w) (e : Entry) :
    DataInv regions bytes { w with log := { w.log with dequeued := w.log.dequeued ++ [e] } } := by
  refine ⟨h.quiet, h.committed_le.trans (by simp), fun hp => h.mapped hp.concat_left, fun hp => ?_⟩
  have hv := h.values hp.concat_left
  dsimp only
  rw [logWrites_append, List.take_append_of_le_length h.committed_le]
  exact World.Every.record (hv.mono fun l x hx => hx.mono le_rfl) _

theorem ensures_recordDequeued {f : Unit → Code β} (hs : Standing regions bytes firm w)
    (hf : ∀ u, DataInv regions bytes u → Standing regions bytes firm u →
      DataInv regions bytes { u with log := { u.log with dequeued := u.log.dequeued ++ [e] } } →
      Ensures S (dataProtocol regions bytes) .backEnd (f ()) Q
        { u with log := { u.log with dequeued := u.log.dequeued ++ [e] } }) :
    Ensures S (dataProtocol regions bytes) .backEnd (recordDequeued e >>= f) Q w :=
  Ensures.record fun u hr hu => ⟨allows_backEnd (hu.take e), hf u hu (hs.stable hr) (hu.take e)⟩

theorem Standing.take (h : Standing regions bytes firm w) (he : entryWrites e = []) :
    Standing regions bytes firm
    { w with log := { w.log with dequeued := w.log.dequeued ++ [e] } } := by
  intro hp
  obtain ⟨hb, hs, hd⟩ := h hp.concat_left
  refine ⟨fun i o => ?_, hs, hd⟩
  dsimp only
  have hnone : logWrites regions [e] = [] := by simp [logWrites, Recovery.fileWrites, writes, he]
  rw [logWrites_append, hnone, List.append_nil]
  exact hb i o

/-- A redo entry of which the writes `done` have been made, and those to the
locations `dirty` not flushed. -/
structure Applying (regions : List (Nat × Nat)) (bytes : Cell → UInt8) (dirty : List Loc)
    (done todo : List (Cell × UInt8)) (w : State) : Prop where
  writes : logWrites regions w.log.dequeued = done ++ todo
  committed : (logWrites regions (w.log.dequeued.take w.log.committed)).length ≤ done.length
  bytes : ∀ i o, w.cur (.byte (.file i o)) = RedoLog.apply done bytes (.file i o)
  settled : ∀ i o, .byte (.file i o) ∉ dirty → w.Settled .backEnd (.byte (.file i o))

variable {dirty : List Loc} {done todo : List (Cell × UInt8)}

theorem Applying.stable (h : Applying regions bytes dirty done todo u)
    (hr : (dataProtocol regions bytes).rely .backEnd u v) :
    Applying regions bytes dirty done todo v := by
  obtain ⟨hu, hl⟩ := hr
  have hb : v.log.toBackLog = u.log.toBackLog := hl.1
  refine ⟨?_, ?_, fun i o => ?_, fun i o hd => hu.settled _ rfl (h.settled i o hd)⟩
  · rw [hb]
    exact h.writes
  · rw [hb]
    exact h.committed
  · rw [hu.cur (.byte (.file i o)) rfl]
    exact h.bytes i o

theorem Applying.write {c : Cell} {x : UInt8} {f : Log → Log}
    (h : Applying regions bytes dirty done ((c, x) :: todo) w)
    (hd : .byte c ∈ dirty) (hf : (f w.log).toBackLog = w.log.toBackLog) :
    Applying regions bytes dirty (done ++ [(c, x)]) todo (w.store (.byte c) x f) := by
  refine ⟨?_, ?_, fun i o => ?_, fun i o hn => World.settled_store_of_ne ?_ (h.settled i o hn)⟩
  · rw [World.store_log, hf, h.writes, List.append_assoc]
    rfl
  · rw [World.store_log, hf, List.length_append]
    exact h.committed.trans (Nat.le_add_right _ _)
  · rw [RedoLog.apply_concat]
    by_cases hc : Cell.file i o = c
    · subst hc
      rw [World.store_cur_self, Function.update_self]
    · rw [World.store_cur_of_ne _ _ _ _ _ (by simpa using hc), Function.update_of_ne hc]
      exact h.bytes i o
  · exact fun he => hn (he ▸ hd)

theorem DataInv.write {c : Cell} {x : UInt8} {f : Log → Log} (hi : DataInv regions bytes w)
    (h : Applying regions bytes dirty done ((c, x) :: todo) w)
    (hf : (f w.log).toBackLog = w.log.toBackLog) :
    DataInv regions bytes (w.store (.byte c) x f) := by
  refine hi.store (fun _ => ?_) (by simp) hf
  cases c with
  | anonymous a => trivial
  | file i o =>
      refine ⟨done.length + 1, h.committed.trans (Nat.le_succ _), ?_, ?_⟩
      · rw [h.writes, List.length_append, List.length_cons]
        omega
      · rw [h.writes, List.take_append, List.take_of_length_le (Nat.le_succ _),
          Nat.add_sub_cancel_left, List.take_succ_cons,
          List.take_zero, RedoLog.apply_concat, Function.update_self]

theorem redoStores_eq (ms : List Mapping) (addr : Nat) (payload : Payload) :
    redoStores ms addr payload =
      (Recovery.fileWrites ms [.redo addr payload]).map fun x =>
      (⟨.byte x.1, x.2⟩ : Sigma Val) := by
  simp [redoStores, Recovery.fileWrites, writes, entryWrites]

theorem ensures_applyRedo {held : Nat → Bool} {addr : Nat} {payload : Payload} {f : Unit → Code β}
    (hw : DataInv regions bytes w) (hs : ∀ dirty, Plain w.log.dequeued → ∃ done,
      Applying regions bytes dirty done (logWrites regions [.redo addr payload]) w)
    (hf : ∀ u, Standing regions bytes False u →
      Ensures S (dataProtocol regions bytes) .backEnd (f ()) Q u) :
    Ensures S (dataProtocol regions bytes) .backEnd (applyRedo held addr payload >>= f) Q w := by
  by_cases hp : Plain w.log.dequeued
  · simp only [applyRedo, Prog.bind_assoc]
    refine Ensures.load fun u hr hu => ?_
    have hmap : u.cur .addressMap = initialMappings regions :=
      hu.mapped (by
        rwa [show u.log.dequeued = w.log.dequeued from congrArg BackLog.dequeued hr.2.1])
    rw [hmap]
    split
    case isFalse => exact Ensures.stuck id
    rw [Prog.bind_assoc]
    obtain ⟨done, ha⟩ := hs ((redoStores (initialMappings regions) addr payload).map (·.1)) hp
    rw [redoStores_eq] at ha ⊢
    change Applying _ _ (((logWrites regions [.redo addr payload]).map _).map _) _ _ _ at ha
    change Ensures _ _ _
      (storeAll noteWrite ((logWrites regions [.redo addr payload]).map _) >>= fun _ =>
      flush (((logWrites regions [.redo addr payload]).map _).map _) >>= _) _ _
    generalize hd : (((logWrites regions [.redo addr payload]).map
      fun x => (⟨.byte x.1, x.2⟩ : Sigma Val)).map (·.1)) = dirty at ha ⊢
    refine Ensures.storeAll (J := fun ss v => ∃ done todo : List (Cell × UInt8),
      ss = todo.map (fun x => (⟨.byte x.1, x.2⟩ : Sigma Val)) ∧ (∀ x ∈ todo, .byte x.1 ∈ dirty) ∧
        Applying regions bytes dirty done todo v) hu ⟨done, _, rfl, fun x hx => ?_,
        ha.stable hr⟩ ?_ ?_ ?_
    · rw [← hd, List.map_map]
      exact List.mem_map_of_mem (f := _) hx
    · rintro ss v v' ⟨done, todo, hss, hmem, hv⟩ hr _
      exact ⟨done, todo, hss, hmem, hv.stable hr⟩
    · rintro s ss v ⟨done, todo, hss, hmem, hv⟩ hi
      cases todo with
      | nil => cases hss
      | cons x todo =>
          obtain ⟨rfl, rfl⟩ := List.cons.inj hss
          refine ⟨allows_backEnd (hi.write hv rfl), done ++ [x], todo, rfl,
            fun y hy => hmem y (List.mem_cons_of_mem _ hy), ?_⟩
          exact hv.write (hmem x List.mem_cons_self) rfl
    · rintro v _ ⟨done, todo, hss, -, hv⟩
      obtain rfl := List.map_eq_nil_iff.mp hss.symm
      refine Ensures.flush fun v' hr hi =>
        ⟨allows_backEnd (hi.flush _), hf _ fun _ => ⟨fun i o => ?_, fun i o => ?_, False.elim⟩⟩
      · have hv := hv.stable hr
        rw [World.flush_cur, hv.bytes, World.flush_log, hv.writes, List.append_nil]
      · by_cases hmem : .byte (.file i o) ∈ dirty
        · exact World.settled_flush_of_mem hmem
        · exact World.settled_flush ((hv.stable hr).settled i o hmem)
  · have hc : (applyRedo held addr payload).Confined (fun _ => True) SameRing .backEnd :=
      confined_applyRedo (fun _ => trivial) sameRing_noteWrite held addr payload
    exact ensures_notPlain hc hw hp fun _ => hf

theorem Standing.apply {addr : Nat} {payload : Payload} (hi : DataInv regions bytes w)
    (hs : Standing regions bytes firm w)
    (dirty : List Loc) (hp : Plain (w.log.dequeued ++ [.redo addr payload])) :
    Applying regions bytes dirty (logWrites regions w.log.dequeued)
    (logWrites regions [.redo addr payload])
      { w with log := { w.log with dequeued := w.log.dequeued ++ [.redo addr payload] } } := by
  obtain ⟨hb, hset, -⟩ := hs hp.concat_left
  refine ⟨logWrites_append _ _, ?_, hb, fun i o _ => hset i o⟩
  dsimp only
  rw [List.take_append_of_le_length hi.committed_le]
  exact length_logWrites_mono (List.take_prefix _ _)

end Entries

section Commit

theorem DataInv.storeHead {n : Nat} (hi : DataInv regions bytes w)
    (hs : Standing regions bytes True w) : DataInv regions bytes (w.store .remoteHead n
      (fun g => { g with committed := g.dequeued.length, committedBefore := g.committed })) := by
  refine ⟨hi.quiet, le_rfl, fun hp => ?_, fun hp => World.Every.store ?_ trivial _⟩
  · rw [World.store_cur_of_ne _ _ _ _ _ (by simp)]
    exact hi.mapped hp
  obtain ⟨hb, -, hd⟩ := hs hp
  have hv := hi.values hp
  dsimp only [World.store_log]
  rw [List.take_length]
  intro l
  by_cases hl : ∀ i o, l ≠ .byte (.file i o)
  · exact ⟨(hv l).1.congr hl, (hv l).2.1.congr hl, fun a x hx => ((hv l).2.2 a x hx).congr hl⟩
  · obtain ⟨i, o, rfl⟩ : ∃ i o, l = .byte (.file i o) := by
      by_contra hne
      exact hl fun i o he => hne ⟨i, o, he⟩
    obtain ⟨hn, hper⟩ := hd trivial i o
    have hnow : Kept regions bytes (logWrites regions w.log.dequeued)
        (logWrites regions w.log.dequeued).length
        (.byte (.file i o)) (w.cur (.byte (.file i o))) := by
      rw [hb]
      exact RedoLog.Since.now le_rfl _ _
    refine ⟨hnow, hper ▸ hnow, fun a x hx => ?_⟩
    cases a with
    | frontEnd =>
        rw [hi.quiet (.byte (.file i o)) rfl] at hx
        cases hx
    | backEnd =>
        rw [hn] at hx
        cases hx

theorem ensures_regionTableCommit {f : Unit → Code β} (hs : Standing regions bytes firm w)
    (hf : ∀ u, Standing regions bytes True u →
      Ensures S (dataProtocol regions bytes) .backEnd (f ()) Q u) :
    Ensures S (dataProtocol regions bytes) .backEnd (regionTableCommit >>= f) Q w := by
  simp only [regionTableCommit, Prog.bind_assoc]
  refine ensures_fence hs fun u₁ hs => ?_
  refine ensures_load hs fun u₂ _ hs => ?_
  refine ensures_store hs (by simp) (by simp) (fun _ => rfl)
    (fun _ _ _ _ _ _ => trivial) fun u₃ hs => ?_
  exact ensures_flush hs (by simp) fun u₄ hs => ensures_fence hs hf

theorem ensures_commitRbBatch {f : Unit → Code β} (hs : Standing regions bytes firm w)
    (hf : ∀ u, Standing regions bytes True u →
      Ensures S (dataProtocol regions bytes) .backEnd (f ()) Q u) :
    Ensures S (dataProtocol regions bytes) .backEnd (commitRbBatch >>= f) Q w := by
  simp only [commitRbBatch, commitBatch, ringBufferCommitDequeuedEntries, Prog.bind_assoc]
  refine Ensures.load fun u₁ hr₁ hu₁ => ?_
  have hs := hs.stable hr₁
  have hcount : Plain u₁.log.dequeued → u₁.cur .uncommitedNumberOfEntries = regions.length :=
    fun hp => (hu₁.values hp .uncommitedNumberOfEntries).1
  refine Ensures.load fun u₂ hr₂ _ => ?_
  have hs := hs.stable hr₂
  refine ensures_store hs (by simp) (by simp) (fun _ => rfl) (fun u hd _ hp _ _ => .inr (hcount ?_))
    fun u₃ hs => ?_
  · rwa [← show u₂.log.dequeued = u₁.log.dequeued from congrArg BackLog.dequeued hr₂.2.1, ← hd]
  refine ensures_flush hs (by simp) fun u₄ hs => ?_
  refine ensures_fence hs fun u₅ hs => ?_
  refine ensures_regionTableCommit hs fun u₆ hs => ?_
  refine ensures_fence hs fun u₇ hs => ?_
  refine ensures_load hs fun u₈ _ hs => ?_
  refine Ensures.storeRecord fun u₉ hr₉ hu => ?_
  have hs := hs.stable hr₉
  refine ⟨allows_backEnd (hu.storeHead hs), ?_⟩
  have hs := hs.congr (v := u₉.store .remoteHead (u₈.cur .globalLocalHead)
      (fun g => { g with committed := g.dequeued.length, committedBefore := g.committed })) rfl
      (fun _ _ => rfl)
    (fun i o => World.settled_store_of_ne (by simp)) fun i o h => by
      rwa [World.Durable, World.store_cur_of_ne _ _ _ _ _ (by simp)]
  refine ensures_flush hs (by simp) fun u₁₀ hs => ?_
  refine ensures_fence hs fun u₁₁ hs => ?_
  refine ensures_load hs fun u₁₂ _ hs => ?_
  exact ensures_store hs (by simp) (by simp) (fun _ => rfl) (fun _ _ _ _ _ _ => trivial) hf

end Commit

theorem ensures_handleEntry {held : Nat → Bool} {slot : Nat} {type : EntryType} {f : Unit → Code β}
    (hs : Standing regions bytes False w)
    (hf : ∀ u, Standing regions bytes False u →
      Ensures S (dataProtocol regions bytes) .backEnd (f ()) Q u) :
    Ensures S (dataProtocol regions bytes) .backEnd (handleEntry held slot type >>= f) Q w := by
  have hmapped : ∀ {es : List Entry} {e : Entry},
      (e ≠ .commit ∧ ∀ addr payload, e ≠ .redo addr payload) → ¬ Plain (es ++ [e]) := by
    rintro es e ⟨hc, hr⟩ hp
    rcases hp e (by simp) with he | ⟨addr, payload, he⟩
    · exact hc he
    · exact hr addr payload he
  cases type with
  | mmap =>
      simp only [handleEntry, Prog.bind_assoc]
      refine ensures_load hs fun u _ hs => ensures_load hs fun u _ hs => ?_
      refine ensures_recordDequeued hs fun v _ _ hv => ?_
      exact ensures_notPlain (confined_createMemoryRegion _ _) hv (hmapped (by simp)) fun _ => hf
  | transientMmap =>
      simp only [handleEntry, Prog.bind_assoc]
      refine ensures_load hs fun u _ hs => ensures_load hs fun u _ hs => ?_
      refine ensures_recordDequeued hs fun v _ _ hv => ?_
      rw [← Prog.bind_assoc]
      exact ensures_notPlain (confined_transientMmap aside_byte aside_addressMap sameRing_refl _ _)
        hv (hmapped (by simp)) fun _ => hf
  | redo =>
      simp only [handleEntry, Prog.bind_assoc]
      refine Ensures.load fun u hr hu => ?_
      have hs := hs.stable hr
      refine Ensures.loads (R := fun _ _ => True) (fun _ _ _ _ => trivial) hu fun p u' _ hr _ => ?_
      refine ensures_recordDequeued (hs.stable hr) fun v hi hs hv => ?_
      exact ensures_applyRedo hv (fun dirty hp => ⟨_, hs.apply hi dirty hp⟩) hf
  | commit =>
      simp only [handleEntry, Prog.bind_assoc]
      refine ensures_recordDequeued hs fun v _ hs _ => ?_
      refine ensures_commitRbBatch (hs.take rfl) fun x hs => ?_
      exact ensures_fence hs fun y hs => hf y hs.weaken

theorem ensures_runConsumer (hs : Standing regions bytes False w) :
    Ensures S (dataProtocol regions bytes) .backEnd (runConsumer N)
    (fun _ u => Standing regions bytes False u) w := by
  refine ensures_load hs fun u _ hs => ?_
  refine Ensures.load fun u' hr hu => ?_
  have hs := hs.stable hr
  split
  · exact Ensures.pure fun v hr _ => hs.stable hr
  · have hc : (ringBufferDequeue N).Confined Free (fun g g' => g' = g) .backEnd := by
      apply confined_ringBufferDequeue
      exacts [trivial, trivial, fun _ => rfl]
    refine ensures_free hc hu hs fun slot v hs => ?_
    refine ensures_load hs fun v' _ hs => ?_
    rw [← Prog.bind_ret (handleEntry _ _ _)]
    exact ensures_handleEntry hs fun v hs => Ensures.ret fun v' hr _ => hs.stable hr

end Rules

section Reachable

theorem dataInv_initial : DataInv regions bytes (initial bytes regions) := by
  have hkept : ∀ l, Kept regions bytes (logWrites regions []) 0 l
      (initialValue bytes regions l) := by
    intro l
    cases l with
    | byte c =>
        cases c with
        | file i o => exact ⟨0, le_rfl, le_rfl, rfl⟩
        | anonymous a => trivial
    | commitMetadata => exact .inl rfl
    | uncommitedNumberOfEntries => rfl
    | recordAddress | recordSize => exact fun _ => rfl
    | _ => trivial
  exact ⟨fun _ _ => rfl, le_rfl, fun _ => rfl,
    fun _ l => ⟨hkept l, hkept l, fun a x hx => by cases hx⟩⟩

theorem standing_initial : Standing regions bytes False (initial bytes regions) :=
  fun _ => ⟨fun _ _ => rfl, fun _ _ => .inr ⟨rfl, rfl⟩, False.elim⟩

variable {Phase : Type} {S : System Actor Loc Val Log Phase} {I : List SessionRecord → Prop}
  {J : Phase → List SessionRecord → Prop} {c : Config Actor Loc Val Log Phase}

theorem dataInv_of_reachable (hs : Serves S N I J) (h : S.Reachable (initial bytes regions) c) :
    DataInv regions bytes c.world := by
  refine inv_of_reachable (P := dataProtocol regions bytes) (R := Standing regions bytes False) hs
    not_false dataInv_initial
    standing_initial (fun u v hu hr => hu.stable hr) (fun u v hu hf => allows_frontEnd hu hf)
    (fun w l hw _ => ?_) (fun w hw => ensures_runConsumer hw) h
  refine ⟨hw.writeBack l, fun a => ?_⟩
  cases a with
  | frontEnd => trivial
  | backEnd => exact ⟨.writeBack _ _ _ _, .refl _⟩

end Reachable

section Recovered

variable {I : List SessionRecord → Prop} {held : Nat → Bool}

/-- The entries that a recovery finds in the ring. -/
def unconsumed (w : State) : List Entry :=
  (w.log.enqueued.take (durableTail w)).drop (durableHead w)

theorem remapped_take {mem : (l : Loc) → Val l}
    (h : ∀ i < regions.length, mem (.recordAddress i) = (regions.getD i (0, 0)).1 ∧
      mem (.recordSize i) = (regions.getD i (0, 0)).2)
    {n : Nat} (hn : n ≤ regions.length) :
    Recovery.remapped mem n = initialMappings (regions.take n) := by
  induction n with
  | zero => rfl
  | succ n ih =>
      have hlen : (regions.take n).length = n := List.length_take_of_le (Nat.le_of_succ_le hn)
      rw [Recovery.remapped, ih (Nat.le_of_succ_le hn), (h n hn).1, (h n hn).2,
        List.getD_eq_getElem?_getD, List.getElem?_eq_getElem hn, Option.getD_some,
        initialMappings, initialMappings, ← List.take_concat_get' _ _ hn, List.mapIdx_concat,
        List.reverse_concat, hlen]

theorem Recovers.congr {files files' : Cell → UInt8} {d : Config Actor Loc Val Log Recovery.Phase}
    (h : Recovery.Recovers N held files d) (hf : ∀ i o, files (.file i o) = files' (.file i o)) :
    Recovery.Recovers N held files' d := by
  refine ⟨h.unhindered, h.continues, h.ends, h.drained, fun hp i o => ?_⟩
  rw [← hf i o]
  exact h.image hp i o

variable (h : RingInv N true I w)
include h

theorem length_unconsumed : (unconsumed w).length = durableTail w - durableHead w := by
  have hle := (Incarnations.durableHead_le h).2.2
  rw [unconsumed, List.length_drop, List.length_take_of_le hle]

theorem take_append_unconsumed :
    w.log.enqueued.take (durableHead w) ++ unconsumed w = w.log.enqueued.take (durableTail w) := by
  obtain ⟨hht, hdt, -⟩ := Incarnations.durableHead_le h
  have htake : w.log.enqueued.take (durableHead w) = (w.log.enqueued.take (durableTail w)).take
      (durableHead w) := by
    rw [List.take_take, Nat.min_eq_left (hht.trans hdt)]
  rw [htake, unconsumed, List.take_append_drop]

theorem getElem?_unconsumed {i : Nat} {e : Entry} (he : (unconsumed w)[i]? = some e) :
    durableHead w + i < durableTail w ∧ w.log.enqueued[durableHead w + i]? = some e := by
  have hi := (List.getElem?_eq_some_iff.mp he).1
  rw [length_unconsumed h] at hi
  rw [unconsumed, List.getElem?_drop, List.getElem?_take_of_lt (by omega)] at he
  exact ⟨by omega, he⟩

theorem entries_unconsumed : entries (Incarnations.batchesOf (unconsumed w)) = unconsumed w := by
  apply Incarnations.entries_batchesOf
  obtain ⟨hht, hdt, htl⟩ := Incarnations.durableHead_le h
  rcases Nat.eq_zero_or_pos (durableTail w - durableHead w) with hz | hpos
  · exact .inl ((length_unconsumed h).trans hz)
  · have hlast := (atBoundary_durableTail h.history).resolve_left (by omega)
    refine .inr ?_
    rw [length_unconsumed h, unconsumed, List.getElem?_drop,
      List.getElem?_take_of_lt (by omega), ← hlast]
    congr 1
    omega

theorem dequeued_prefix_take : w.log.dequeued <+: w.log.enqueued.take (durableTail w) := by
  have hle := (Incarnations.durableHead_le h).2.1
  rw [List.prefix_iff_eq_take.mp h.history.dequeued]
  exact List.take_prefix_take_left hle

section Found

variable (hi : DataInv regions bytes w) (hp : Plain w.log.enqueued)
  (hnew : newProcess (launchMangosteen w) = false)
include hi hp hnew

theorem durable_commitMetadata : w.per .uncommitedNumberOfEntries = regions.length ∧
    (w.per .commitMetadata).numberOfRegions = regions.length := by
  have hv := hi.values fun e he => hp e (h.history.dequeued.subset he)
  refine ⟨(hv .uncommitedNumberOfEntries).2.1, (hv .commitMetadata).2.1.resolve_left fun hz => ?_⟩
  simp [newProcess, hz] at hnew

theorem remapped_durable :
    Recovery.remapped w.per (w.per .commitMetadata).numberOfRegions = initialMappings regions := by
  have hv := hi.values fun e he => hp e (h.history.dequeued.subset he)
  rw [(durable_commitMetadata h hi hp hnew).2,
    remapped_take (fun i hi => ⟨(hv (.recordAddress i)).2.1 hi, (hv (.recordSize i)).2.1 hi⟩)
    le_rfl, List.take_length]

theorem persistedRing :
    Recovery.PersistedRing N (durableHead w) (Incarnations.batchesOf (unconsumed w)) w := by
  obtain ⟨hht, hdt, htl⟩ := Incarnations.durableHead_le h
  have hroom : w.log.enqueued.length < durableHead w + N := h.counts.room
  obtain ⟨hcount, hmeta⟩ := durable_commitMetadata h hi hp hnew
  have hes := entries_unconsumed h
  refine ⟨fun es hmem e he => ?_, ?_, Incarnations.per_remoteHead h, ?_, fun i e he => ?_,
    hcount.trans hmeta.symm⟩
  · have hcommit : e ≠ .commit :=
      fun hc => Incarnations.commit_not_mem_batchesOf _ es hmem (hc ▸ he)
    have hentry : e ∈ unconsumed w := by
      rw [← hes, entries, List.mem_flatMap]
      exact ⟨es, hmem, by simp [closed, he]⟩
    exact (hp e (List.mem_of_mem_take (List.mem_of_mem_drop hentry))).resolve_left hcommit
  · rw [hes, length_unconsumed h]
    omega
  · rw [hes, length_unconsumed h, per_remoteTail h]
    congr 1
    omega
  · rw [hes] at he
    obtain ⟨hlt, he⟩ := getElem?_unconsumed h he
    exact h.filled.holds_per (Nat.le_add_right _ _) (hlt.trans_le h.counts.tail_le) he

theorem replayedImage_eq (i o : Nat) :
    Recovery.replayedImage (Incarnations.batchesOf (unconsumed w)) w (.file i o) =
    RedoLog.apply (logWrites regions (w.log.enqueued.take (durableTail w))) bytes (.file i o) := by
  have hv := hi.values fun e he => hp e (h.history.dequeued.subset he)
  obtain ⟨rest, hrest⟩ := dequeued_prefix_take h
  have hhead : w.log.enqueued.take (durableHead w) <+: w.log.dequeued.take w.log.committed := by
    rw [List.prefix_take_iff, List.prefix_iff_eq_take.mp h.history.dequeued, List.length_take]
    have hc := h.counts.base_le
    have hlen := Incarnations.durableHead_le h
    exact ⟨List.take_prefix_take_left hlen.1, (Nat.min_le_left _ _).trans hc⟩
  have hsince : RedoLog.Since (logWrites regions (w.log.enqueued.take (durableHead w)) ++
      logWrites regions (unconsumed w))
      bytes (logWrites regions (w.log.enqueued.take (durableHead w))).length (.file i o)
        (w.per (.byte (.file i o))) := by
    rw [← logWrites_append, take_append_unconsumed h, ← hrest, logWrites_append]
    exact (RedoLog.Since.append (hv (.byte (.file i o))).2.1).of_le (length_logWrites_mono hhead)
  rw [Recovery.replayedImage, entries_unconsumed h, remapped_durable h hi hp hnew]
  change RedoLog.apply (logWrites regions (unconsumed w)) _ _ = _
  rw [RedoLog.Since.replay (x := fun cell => w.per (.byte cell)) hsince, ← logWrites_append,
    take_append_unconsumed h]

theorem recovers_log (hwrite : Recovery.Writable held (initialMappings regions) w.log.enqueued)
    {d : Config Actor Loc Val Log Recovery.Phase}
    (hd : (Recovery.recoverySystem N held).Reachable (launchMangosteen w) d) :
    Recovery.Recovers N held
    (RedoLog.apply (logWrites regions (w.log.enqueued.take (durableTail w))) bytes) d :=
  Recovers.congr (Recovery.recovers_of_writable (persistedRing h hi hp hnew) (by
      rw [remapped_durable h hi hp hnew, entries_unconsumed h]
      exact fun addr payload hmem => hwrite addr payload
        (List.mem_of_mem_take (List.mem_of_mem_drop hmem))) (.inl rfl) hd)
    (replayedImage_eq h hi hp hnew)

end Found

end Recovered

section Sessions

variable {memory : Nat → UInt8} {ss rest done : List SessionRecord}

/-- The memory at the end of the last session. -/
def memoryAfter (memory : Nat → UInt8) : List SessionRecord → Nat → UInt8
  | [] => memory
  | s :: _ => s.memory

theorem Chained.drop (h : Refinement.Chained memory (rest ++ done)) :
    Refinement.Chained memory done := by
  induction rest with
  | nil => exact h
  | cons s rest ih => exact ih h.2.2.2

theorem Chained.apply (h : Refinement.Chained memory ss) :
    RedoLog.apply (writes (entries (logged ss))) memory = memoryAfter memory ss := by
  cases ss with
  | nil => rfl
  | cons s ss => exact h.2.2.1

theorem logged_append (rest done : List SessionRecord) :
    logged (rest ++ done) = logged done ++ logged rest := by
  induction rest with
  | nil => exact (List.append_nil _).symm
  | cons s rest ih => rw [List.cons_append, logged, logged, ih, List.append_assoc]

theorem exists_done (hs : Atomicity.Single ss) (ha : Aligned ss)
    (hp : ∀ es ∈ logged ss, Entry.commit ∉ es) {k : Nat}
    (hk : AtBoundary (entries (logged ss)) k) (hle : k ≤ (entries (logged ss)).length) :
    ∃ rest done, ss = rest ++ done ∧ (entries (logged done)).length = k ∧
    ∀ s ∈ rest, k ≤ s.start := by
  induction ss with
  | nil => exact ⟨[], [], rfl, (Nat.le_zero.mp hle).symm, by simp⟩
  | cons s ss ih =>
      have hlen : (entries (logged (s :: ss))).length = (entries (logged ss)).length +
          (entries s.batches).length := by
        rw [logged, entries_append, List.length_append]
      obtain ⟨es, hes⟩ := hs s List.mem_cons_self
      have hwhole := Atomicity.AtBoundary.whole hk (List.prefix_refl _) ha List.mem_cons_self hes
        (hp es (Atomicity.mem_logged List.mem_cons_self (by simp [hes])))
      rcases hwhole with hbefore | hafter
      · have hle' : k ≤ (entries (logged ss)).length := hbefore.trans_eq ha.1
        have hk' : AtBoundary (entries (logged ss)) k := by
          have htake := Incarnations.atBoundary_take hk hle'
          rwa [logged, entries_append, List.take_left] at htake
        obtain ⟨rest, done, rfl, hdone, hrest⟩ :=
          ih (fun r hr => hs r (List.mem_cons_of_mem _ hr)) ha.2
          (fun es hes => hp es (by rw [logged]; exact List.mem_append_left _ hes)) hk' hle'
        refine ⟨s :: rest, done, rfl, hdone, fun r hr => ?_⟩
        rcases List.mem_cons.mp hr with rfl | hr
        · exact hbefore
        · exact hrest r hr
      · refine ⟨[], s :: ss, rfl, ?_, by simp⟩
        have hstart : s.start = (entries (logged ss)).length := ha.1
        omega

/-- The transactions `done` survive a power failure, whole, and none of the
others has been acknowledged. However often the recovery is itself cut short, it
comes to an end, and leaves in the files the memory at the end of `done`. -/
def Survives (N : Nat) (held : Nat → Bool) (regions : List (Nat × Nat))
    (memory : Nat → UInt8) (w : State) (d : Config Actor Loc Val Log Recovery.Phase) : Prop :=
  ∃ rest done, w.log.sessions = rest ++ done ∧ (∀ s ∈ rest, w.log.acknowledged ≤ s.start) ∧
    ∃ files, Recovery.Recovers N held files d ∧
      ∀ a i o, translate (initialMappings regions) a = .file i o →
      files (.file i o) = memoryAfter memory done a

/-- Every line that the transaction stores to lies in the initial regions. -/
def InRegions (regions : List (Nat × Nat)) (xs : List Access) : Prop :=
  ∀ line ∈ touchedLines xs, accessible (fun _ => false) (initialMappings regions) line = true

/-- Transactions without `memcpy` that store to the initial regions only, in runs
whose full producers refresh their head to a durable one. -/
def storeTransactions (N : Nat) (regions : List (Nat × Nat)) (memory : Nat → UInt8) :
    System Actor Loc Val Log FrontEnd :=
  Atomicity.transactionSystem N (fun xs => Fits xs ∧ xs.filter isMemcpy = [] ∧ InRegions regions xs)
  (admitsHead N true)
    memory

/-- What a recovery needs to know of the sessions. -/
structure Recoverable (regions : List (Nat × Nat)) (memory : Nat → UInt8)
    (ss : List SessionRecord) : Prop where
  chained : Refinement.Chained memory ss
  single : Atomicity.Single ss
  writable : Recovery.Writable (fun _ => false) (initialMappings regions) (entries (logged ss))

theorem writable_loggedBatches {xs : List Access} {m : Nat → UInt8} {s : FrontEnd}
    (hfilter : xs.filter isMemcpy = [])
    (hin : InRegions regions xs) (hs : performAll xs ⟨m, instrumentStart {}⟩ = some s) :
    Recovery.Writable (fun _ => false) (initialMappings regions)
    (entries (loggedBatches s.memory s.data)) := by
  intro addr payload hmem
  rcases mem_entries_loggedBatches.mp hmem with he | ⟨c, hc, -⟩ | ⟨line, hline, he⟩
  · cases he
  · rw [Atomicity.memcpyArray_performAll hfilter hs] at hc
    cases hc
  · rw [(Entry.redo.inj he).1]
    exact hin line ((performAll_start hs).2 line hline)

theorem serves_storeTransactions :
    Serves (storeTransactions N regions memory) N (Recoverable regions memory)
      (fun x ss => x.data = {} ∧ RedoLog.apply (writes (entries (logged ss))) memory =
        x.memory) := by
  refine Atomicity.serves_transactionSystem
    (J := fun m ss => RedoLog.apply (writes (entries (logged ss))) memory = m) rfl ?_
  rintro m xs s start ss ⟨hfits, hxs, hin⟩ hs ⟨hI, hsingle, hwrite⟩ hJ
  obtain ⟨s', hs', hrec⟩ := exists_performAll hfits m
  obtain rfl : s' = s := Option.some.inj (hs'.symm.trans hs)
  have happly : RedoLog.apply (writes (entries (logged
      (⟨start, loggedBatches s'.memory s'.data, s'.memory⟩ :: ss)))) memory = s'.memory := by
    rw [logged, entries_append, writes, List.flatMap_append, RedoLog.apply_append]
    exact (congrArg _ hJ).trans hrec.replay
  refine ⟨⟨⟨by simp [loggedBatches], Refinement.plain_loggedBatches _ _, happly, hI⟩,
    fun r hr => ?_, fun addr payload hmem => ?_⟩, happly⟩
  · rcases List.mem_cons.mp hr with rfl | hr
    · exact ⟨_, by rw [loggedBatches, Atomicity.memcpyArray_performAll hxs hs]; rfl⟩
    · exact hsingle r hr
  · rw [logged, entries_append] at hmem
    rcases List.mem_append.mp hmem with hmem | hmem
    · exact hwrite addr payload hmem
    · exact writable_loggedBatches hxs hin hs addr payload hmem

theorem survives_of_inv {d : Config Actor Loc Val Log Recovery.Phase}
    (h : RingInv N true (Recoverable regions memory) w) (hi : DataInv regions bytes w)
    (hstart : ∀ a, bytes (translate (initialMappings regions) a) = memory a)
    (hnew : newProcess (launchMangosteen w) = false)
    (hd : (Recovery.recoverySystem N held).Reachable (launchMangosteen w) d) :
    Survives N held regions memory w d := by
  obtain ⟨hchained, hsingle, hwrite⟩ := h.extra
  have hplain : Plain w.log.enqueued := fun e he => hchained.plain e (h.history.enqueued.subset he)
  have htl := (Incarnations.durableHead_le h).2.2
  obtain ⟨rest, done, hss, hlen, hrest⟩ := exists_done hsingle h.history.aligned h.history.plain
    ((atBoundary_durableTail h.history).of_isPrefix h.history.enqueued)
    (htl.trans h.history.enqueued.length_le)
  have hdone : entries (logged done) = w.log.enqueued.take (durableTail w) := by
    have hpre : entries (logged done) <+: entries (logged w.log.sessions) := by
      rw [hss, logged_append, entries_append]
      exact List.prefix_append _ _
    rw [List.prefix_iff_eq_take.mp hpre, hlen, List.prefix_iff_eq_take.mp h.history.enqueued,
      List.take_take, Nat.min_eq_left htl]
  refine ⟨rest, done, hss, fun s hs => h.counts.acknowledged_le.trans (hrest s hs), _,
    recovers_log h hi hplain hnew ?_ hd, ?_⟩
  · exact fun addr payload hmem => accessible_of_mapped
      (hwrite addr payload (h.history.enqueued.subset hmem))
  intro a i o ha
  rw [hss] at hchained
  rw [← (Chained.drop hchained |> Chained.apply), hdone, logWrites, Recovery.fileWrites, ← ha,
    RedoLog.apply_map (separate_initialMappings regions).injective, ← funext hstart]
  rfl

/-- A power failure at any moment of a run whose full producers refresh their
head to a durable one leaves what the next launch makes the memory of the last
surviving transaction, as soon as the first commit record has become durable. No
memory is mapped during the run. -/
theorem transactions_survive (N : Nat) (hN : 2 ≤ N) (held : Nat → Bool) (bytes : Cell → UInt8)
    (regions : List (Nat × Nat))
    (memory : Nat → UInt8) (hstart : ∀ a, bytes (translate (initialMappings regions) a) = memory a)
    (c : Config Actor Loc Val Log FrontEnd)
    (h : (storeTransactions N regions memory).Reachable (initial bytes regions) c)
    (hnew : newProcess (launchMangosteen c.world) = false)
    (d : Config Actor Loc Val Log Recovery.Phase)
    (hd : (Recovery.recoverySystem N held).Reachable (launchMangosteen c.world) d) :
    Survives N held regions memory c.world d :=
  survives_of_inv (ringInv_of_reachable serves_storeTransactions hN
    ⟨trivial, by simp [Atomicity.Single], by simp [Recovery.Writable, logged, entries]⟩
    (fun _ _ h => h.2) h) (dataInv_of_reachable serves_storeTransactions h) hstart hnew hd

section Failed

theorem opens_empty {m₀ m : Nat → UInt8} :
    Overrun.Opens (storeTransactions N [(4096, 8192)] m₀) N ⟨m, {}⟩ [[]] m ⟨m, {}⟩ := by
  refine ⟨[], ⟨m, { instrumentStart {} with memcpyArray := [] }⟩,
    ⟨⟨by simp, by simp [touchedLines], by simp⟩, rfl, by simp [InRegions, touchedLines]⟩, rfl, ?_⟩
  rw [Atomicity.instrumentStop_bind, loggedBatches, Refinement.lines_start]
  rfl

theorem stores_in_regions : Fits [.store 8192 [1]] ∧ [Access.store 8192 [1]].filter isMemcpy = [] ∧
    InRegions [(4096, 8192)] [.store 8192 [1]] :=
  ⟨Refinement.fits_store, rfl, by unfold InRegions; decide +kernel⟩

/-- Two transactions have been logged, and the consumer has made the commit record
of the first durable. -/
theorem exists_logged (hN : 4 < N) : ∃ c, (storeTransactions N [(4096, 8192)] fun _ => 0).Reachable
    (initial (fun _ => 0) [(4096, 8192)]) c ∧ newProcess (launchMangosteen c.world) = false := by
  have hF : (storeTransactions N [(4096, 8192)] fun _ => 0).Lenient .frontEnd :=
    Atomicity.lenient_transactionSystem true
  have hB : (storeTransactions N [(4096, 8192)] fun _ => 0).Unrestricted .backEnd :=
    Atomicity.unrestricted_transactionSystem true
  have hstart : (storeTransactions N [(4096, 8192)] fun _ => 0).Reachable
      (initial (fun _ => 0) [(4096, 8192)])
      ⟨initial (fun _ => 0) [(4096, 8192)], fun _ => .ret ⟨fun _ => 0, {}⟩⟩ := .refl
  obtain ⟨u, hu, hl, hh, -⟩ :=
    Overrun.session_move hF hstart rfl opens_empty (by simp) rfl rfl (Nat.zero_le _)
    (show 0 + (entries [[]]).length < N by simp [entries, closed]; omega)
  obtain ⟨v, hv, hl', hh', -⟩ := Overrun.session_move hF hu (Function.update_self _ _ _)
    (Atomicity.opens_store stores_in_regions) (by simp) hh
    hl.persistedTail (Nat.zero_le _)
    (show 0 + 1 + (entries [[redoEntry (write (fun _ => 0) 8192 [1]) 8192]]).length < N by
      simp [entries, closed]; omega)
  have hlocal : v.cur .globalLocalHead = 0 :=
    (hl'.others _ (by decide) (by decide) (by decide) (by simp [slotOf])).trans
      (hl.others _ (by decide) (by decide) (by decide) (by simp [slotOf]))
  have hcount : v.cur .uncommitedNumberOfEntries = 1 :=
    (hl'.others _ (by decide) (by decide) (by decide) (by simp [slotOf])).trans
      (hl.others _ (by decide) (by decide) (by decide) (by simp [slotOf]))
  have htype : v.cur (.entryType 0) = .commit :=
    (hl'.others _ (by decide) (by decide) (by decide) (by simp [slotOf, entries, closed])).trans
    (hl.closed [] rfl)
  have hhead : Untouched (initial (fun _ => 0) [(4096, 8192)]) v .remoteHead := by
    have hun := hl.untouched .remoteHead rfl (by decide) (by decide) (by decide) rfl
    exact hun.trans (hl'.untouched .remoteHead rfl (by decide) (by decide) (by decide)
      (hun.pending .frontEnd))
  have htail : v.cur .lastPersistedTail = 3 := hl'.persistedTail
  have hzero : v.cur .lastPersistedHead = 0 := hh'
  obtain ⟨x, p, hx, hm, -⟩ := Relaunch.prepare_move (z := ⟨fun _ => 0, {}⟩) hB hv (by simp)
    rfl (by rw [htail, hzero]; decide) (by rw [htail, hlocal]; exact fun _ => by decide)
    (by rw [hlocal]; exact htype) (by rw [hhead.pending]; rfl)
  refine ⟨_, hx, ?_⟩
  simp [newProcess, hm, hcount]

theorem transactions_survive_logged :
    ∃ c : Config Actor Loc Val Log FrontEnd, newProcess (launchMangosteen c.world) = false ∧
    Survives ringBufferSize (fun _ => false) [(4096, 8192)] (fun _ => 0) c.world
      ⟨launchMangosteen c.world, (Recovery.recoverySystem ringBufferSize fun _ => false).boot⟩ := by
  obtain ⟨c, hc, hnew⟩ := exists_logged (N := ringBufferSize) (by decide)
  exact ⟨c, hnew, transactions_survive ringBufferSize (by decide) (fun _ => false) (fun _ => 0)
    [(4096, 8192)] (fun _ => 0) (fun _ => rfl) c hc hnew _ .refl⟩

end Failed

end Sessions

end Mangosteen.CrashRecovery
