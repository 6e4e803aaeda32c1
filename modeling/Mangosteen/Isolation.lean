import Mangosteen.Delivery

namespace Mangosteen.Isolation

open PersistentMemory Prog Memory RingBuffer BackEnd Session Slots Channel Delivery

variable {N : Nat}

/-- What the programs of the front end may touch. -/
def FrontSide (l : Loc) : Prop := ¬ Owned .backEnd l

/-- What a session stores to and flushes. -/
def SessionSide (l : Loc) : Prop := Owned .frontEnd l ∨ l = .lastPersistedHead

theorem SessionSide.frontSide {l : Loc} (h : SessionSide l) : FrontSide l := by
  rcases h with h | rfl
  · exact h.not_backEnd
  · simp [FrontSide, Owned, owner]

def SameBack (g g' : Log) : Prop := g'.toBackLog = g.toBackLog ∧ g'.toImageLog = g.toImageLog

theorem SameBack.refl (g : Log) : SameBack g g := ⟨rfl, rfl⟩

theorem SameBack.trans {g g' g'' : Log} (h : SameBack g g') (h' : SameBack g' g'') :
    SameBack g g'' :=
  ⟨h'.1.trans h.1, h'.2.trans h.2⟩

theorem confined_storeEntry (slot : Nat) (e : Entry) :
    (storeEntry slot e).Confined (Owned .frontEnd) SameBack .frontEnd := by
  have hslot : ∀ l, slotOf l = some slot → Owned .frontEnd l := fun l h => owned_of_slotOf l slot h
  refine .bind (.storeAll (fun s hs => hslot _ (slotOf_of_mem hs)) fun _ _ _ => .refl _) fun _ => ?_
  refine .op (fun l hl => hslot l (mem_slotLocs.mp hl)) fun _ => ?_
  exact ⟨fun _ => ⟨rfl, rfl⟩, fun _ => trivial⟩

theorem confined_waitForSpace (refresh : Code Nat) (nextTail head : Nat)
    (h : refresh.Confined (Owned .frontEnd) SameBack .frontEnd) :
    (waitForSpace refresh nextTail head).Confined (Owned .frontEnd) SameBack .frontEnd := by
  rw [waitForSpace]
  split
  · exact h
  · trivial

theorem confined_enqueueAll (es : List Entry) (ht : Nat × Nat) :
    (enqueueAll N es ht).Confined (Owned .frontEnd) SameBack .frontEnd := by
  induction es generalizing ht with
  | nil => trivial
  | cons e es ih =>
      refine .bind (.bind
        (confined_waitForSpace (await Loc.remoteHead _) _ _ ⟨trivial, fun _ => trivial⟩)
        fun _ => ?_) fun ht => ih ht
      exact (confined_storeEntry _ e).bind fun _ => trivial

theorem confined_commitEnqueued (head tail : Nat) :
    (ringBufferCommitEnqueuedEntries N head tail).Confined
    (Owned .frontEnd) SameBack .frontEnd := by
  refine .bind (confined_waitForSpace (await Loc.lastPersistedHead _) _ _
    ⟨trivial, fun _ => trivial⟩) fun _ =>
    .bind (confined_storeEntry _ _) fun _ => .op trivial fun _ =>
      .op ⟨rfl, fun _ => ⟨rfl, rfl⟩⟩ fun _ =>
    .op ?_ fun _ => .op trivial fun _ => .op trivial fun _ =>
      .op ⟨rfl, fun _ => ⟨rfl, rfl⟩⟩ fun _ =>
    .op (fun _ => ⟨rfl, rfl⟩) fun _ => trivial
  simp [Op.Confined, Owned, owner]

theorem confined_batches (bs : List (List Entry)) (ht : Nat × Nat) :
    (batches N bs ht).Confined (Owned .frontEnd) SameBack .frontEnd := by
  induction bs generalizing ht with
  | nil => trivial
  | cons es bs ih =>
      exact .bind (.bind (confined_enqueueAll es ht) fun _ => confined_commitEnqueued _ _) fun ht =>
        ih ht

theorem confined_starting (bs : List (List Entry)) (memory : Nat → UInt8) :
    (starting bs memory).Confined (Owned .frontEnd) SameBack .frontEnd :=
  .op (fun _ => ⟨rfl, rfl⟩) fun _ => .op trivial fun _ => .op trivial fun _ => trivial

theorem confined_opening (bs : List (List Entry)) (memory : Nat → UInt8) :
    (opening N bs memory).Confined (Owned .frontEnd) SameBack .frontEnd :=
  .op (fun _ => ⟨rfl, rfl⟩) fun _ => .op trivial fun _ => .op trivial fun _ => confined_batches bs _

theorem confined_session_sessionSide (bs : List (List Entry)) (memory : Nat → UInt8) :
    (session N bs memory).Confined SessionSide SameBack .frontEnd := by
  rw [session_eq]
  refine ((confined_opening bs memory).of_own fun _ h => .inl h).bind fun _ => ?_
  exact .op ⟨.inr rfl, fun _ => ⟨rfl, rfl⟩⟩ fun _ =>
    ⟨⟨.inl rfl, fun _ => ⟨rfl, rfl⟩⟩, fun _ => trivial⟩

theorem confined_session (bs : List (List Entry)) (memory : Nat → UInt8) :
    (session N bs memory).Confined FrontSide SameBack .frontEnd :=
  (confined_session_sessionSide bs memory).of_own fun _ => SessionSide.frontSide

/-- The front end has flushed nothing on the back end's side. -/
def BackQuiet (w : State) : Prop := ∀ l, Owned .backEnd l → w.pending .frontEnd l = none

namespace BackQuiet

variable {u v w : State}

theorem flush (h : BackQuiet w) (ls : List Loc) : BackQuiet (w.flush .backEnd ls) := by
  intro l hl
  rw [World.flush_pending_of_ne w _ _ _ _ (by decide)]
  exact h l hl

theorem fence (h : BackQuiet w) : BackQuiet (w.fence .backEnd) := by
  intro l hl
  cases hp : w.pending .backEnd l with
  | none => rw [(World.fence_of_none w .backEnd .frontEnd l hp).2]; exact h l hl
  | some x => simp [World.fence, hp]

theorem writeBack (h : BackQuiet w) (m : Loc) : BackQuiet (w.writeBack m) := by
  intro l hl
  by_cases hm : l = m
  · subst hm; exact World.writeBack_pending_self w .frontEnd l
  · rw [(World.writeBack_of_ne w .frontEnd l m hm).2]; exact h l hl

theorem frame {own : Loc → Prop} {same : Log → Log → Prop} (h : BackQuiet u)
    (hf : Frame own same .backEnd u v) : BackQuiet v := by
  intro l hl
  rcases hf.others l .frontEnd (by decide) with ho | ho
  · rw [ho]; exact h l hl
  · exact ho

theorem untouched (h : BackQuiet u) (hf : Frame FrontSide SameBack .frontEnd u v) {l : Loc}
    (hl : Owned .backEnd l) : Untouched u v l :=
  ⟨hf.cur l (not_not.mpr hl), hf.per l (not_not.mpr hl) (h l hl),
    fun b => hf.pending l b (not_not.mpr hl) (h l hl)⟩

theorem undisturbed (h : BackQuiet u) (hf : Frame FrontSide SameBack .frontEnd u v) :
    Undisturbed (Owned .backEnd) .backEnd u v :=
  hf.undisturbed (fun _ hl => not_not.mpr hl) h

end BackQuiet

/-- What the back end may rely on of a front end that logs. -/
def SideRely : Actor → State → State → Prop
  | .frontEnd, _, _ => True
  | .backEnd, u, v => Undisturbed (Owned .backEnd) .backEnd u v ∧ SameBack u.log v.log

theorem SideRely.refl (a : Actor) (w : State) : SideRely a w w := by
  cases a with
  | frontEnd => trivial
  | backEnd => exact ⟨.refl _ _ _, .refl _⟩

theorem SideRely.trans (a : Actor) (u v w : State) (h : SideRely a u v) (h' : SideRely a v w) :
    SideRely a u w := by
  cases a with
  | frontEnd => trivial
  | backEnd => exact ⟨h.1.trans h'.1, h.2.trans h'.2⟩

section Reachable

variable {Phase : Type} {S : System Actor Loc Val Log Phase} {I : List SessionRecord → Prop}
  {J : Phase → List SessionRecord → Prop} {c : Config Actor Loc Val Log Phase} {w₀ : State}
  {P : Protocol Actor Loc Val Log} {R : State → Prop}

/-- A protocol about the back end's side of memory alone: what the consumer keeps
from one entry to the next holds in every run, whatever the front end logs. -/
theorem inv_and_rest_of_reachable (hs : Serves S N I J) (hlive : ¬ P.live) (hinv : P.inv w₀)
    (hR : R w₀) (hstable : ∀ u v, R u → P.rely .backEnd u v → R v)
    (hfront : ∀ u v, P.inv u → Frame FrontSide SameBack .frontEnd u v → P.Allows .frontEnd u v)
    (hcache : ∀ w l, P.inv w → S.admits w (.writeBack l) → P.inv (w.writeBack l) ∧ ∀ a,
      P.rely a w (w.writeBack l))
    (hback : ∀ w, R w → Ensures S P .backEnd (runConsumer N) (fun _ => R) w)
    (h : S.Reachable w₀ c) : P.inv c.world ∧ ∀ x, c.prog .backEnd = .ret x → R c.world := by
  have hall := h.ensures (P := P) (Q := fun a _ w => a = .backEnd → R w) hinv ?_ ?_ hcache ?_
  · refine ⟨hall.1, fun x hx => ?_⟩
    have hrest := hall.2 .backEnd
    rw [hx] at hrest
    exact hrest c.world (P.rely_refl _ _) hall.1 rfl
  · intro a
    cases a with
    | frontEnd =>
        obtain ⟨x, hx, -⟩ := hs.frontBoot
        rw [hx]
        exact Ensures.ret fun _ _ _ ha => by cases ha
    | backEnd =>
        obtain ⟨x, hx⟩ := hs.backBoot
        rw [hx]
        exact Ensures.ret fun u hr _ _ => hstable _ _ hR hr
  · intro a x p w hw hrest hp
    cases a with
    | frontEnd =>
        obtain ⟨bs, m, y, rfl, -⟩ := hs.front x p hp
        have hc := Ensures.confined (S := S) (P := P) (A := fun _ => True)
          (confined_session (N := N) bs m) SameBack.refl
          (fun h => absurd h hlive) (w := w) trivial (fun _ _ _ _ _ => trivial) fun u v hf hu _ =>
          ⟨hfront u v hu hf, trivial⟩
        exact Ensures.bind hw (hc.mono fun _ _ _ _ => Ensures.ret fun _ _ _ ha => by cases ha)
    | backEnd =>
        obtain ⟨y, rfl⟩ := hs.back x p hp
        refine Ensures.bind hw ((hback w (hrest rfl)).mono fun _ u _ hu => ?_)
        exact Ensures.ret fun v hr _ _ => hstable _ _ hu hr
  · exact fun w _ hc => absurd hc (hs.noCrash w)

theorem inv_of_reachable (hs : Serves S N I J) (hlive : ¬ P.live) (hinv : P.inv w₀)
    (hR : R w₀) (hstable : ∀ u v, R u → P.rely .backEnd u v → R v)
    (hfront : ∀ u v, P.inv u → Frame FrontSide SameBack .frontEnd u v → P.Allows .frontEnd u v)
    (hcache : ∀ w l, P.inv w → S.admits w (.writeBack l) → P.inv (w.writeBack l) ∧ ∀ a,
      P.rely a w (w.writeBack l))
    (hback : ∀ w, R w → Ensures S P .backEnd (runConsumer N) (fun _ => R) w)
    (h : S.Reachable w₀ c) : P.inv c.world :=
  (inv_and_rest_of_reachable hs hlive hinv hR hstable hfront hcache hback h).1

end Reachable

end Mangosteen.Isolation
