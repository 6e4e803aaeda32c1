import Mangosteen.Library.PersistentMemory

namespace Mangosteen.PersistentMemory

variable {Actor Loc : Type} {Val : Loc → Type} {Log : Type}

/-- What an actor knows of its own locations survives the steps of the others. -/
structure Undisturbed (own : Loc → Prop) (a : Actor) (w u : World Actor Loc Val Log) : Prop where
  cur : ∀ l, own l → u.cur l = w.cur l
  settled : ∀ l, own l → w.Settled a l → u.Settled a l
  durable : ∀ l, own l → w.Durable a l → u.Durable a l

namespace Undisturbed

variable {own : Loc → Prop} {a : Actor} {u v w : World Actor Loc Val Log}

theorem refl (own : Loc → Prop) (a : Actor) (w : World Actor Loc Val Log) : Undisturbed own a w w :=
  ⟨fun _ _ => rfl, fun _ _ h => h, fun _ _ h => h⟩

theorem trans (h : Undisturbed own a u v) (h' : Undisturbed own a v w) : Undisturbed own a u w :=
  ⟨fun l hl => (h'.cur l hl).trans (h.cur l hl), fun l hl hs => h'.settled l hl (h.settled l hl hs),
    fun l hl hs => h'.durable l hl (h.durable l hl hs)⟩

theorem writeBack [DecidableEq Loc] (own : Loc → Prop) (a : Actor)
    (w : World Actor Loc Val Log) (l : Loc) : Undisturbed own a w (w.writeBack l) :=
  ⟨fun _ _ => rfl, fun _ _ h => World.settled_writeBack l h,
    fun _ _ h => World.durable_writeBack l h⟩

end Undisturbed


section Steps

variable {own : Loc → Prop} {a b : Actor} {w : World Actor Loc Val Log}

theorem Undisturbed.record (g : Log) : Undisturbed own a w { w with log := g } :=
  ⟨fun _ _ => rfl, fun _ _ h => h, fun _ _ h => h⟩

theorem Undisturbed.fence (hq : ∀ l, own l → w.pending b l = none) :
    Undisturbed own a w (w.fence b) := by
  refine ⟨fun _ _ => rfl, fun l hl h => World.settled_fence_other (hq l hl) h, fun l hl h => ?_⟩
  obtain ⟨hp, hn⟩ := World.fence_of_none w b a l (hq l hl)
  simpa only [World.Durable, hp, hn, World.fence_cur] using h

variable [DecidableEq Loc]

theorem Undisturbed.store {l : Loc} {v : Val l} {f : Log → Log} (hl : ¬ own l) :
    Undisturbed own a w (w.store l v f) := by
  have hc : ∀ m, own m → (w.store l v f).cur m = w.cur m := by
    intro m hm
    refine World.store_cur_of_ne w m l f v ?_
    rintro rfl
    exact hl hm
  refine ⟨hc, fun m hm h => ?_, fun m hm h => ?_⟩
  · simpa only [World.Settled, hc m hm, World.store_per, World.store_pending] using h
  · simpa only [World.Durable, hc m hm, World.store_per, World.store_pending] using h

theorem Undisturbed.flush [DecidableEq Actor] {ls : List Loc} (hab : a ≠ b) :
    Undisturbed own a w (w.flush b ls) := by
  refine ⟨fun _ _ => rfl, fun l _ h => World.settled_flush_other hab h, fun l _ h => ?_⟩
  simpa only [World.Durable, World.flush_pending_of_ne w b a l ls hab, World.flush_per,
    World.flush_cur] using h

end Steps

/-- Every location is flushed by its owner alone. -/
def Quiet (owner : Loc → Option Actor) (w : World Actor Loc Val Log) : Prop :=
  ∀ a l, owner l ≠ some a → w.pending a l = none

namespace Quiet

variable {owner : Loc → Option Actor} {a : Actor} {w : World Actor Loc Val Log}

theorem fence (h : Quiet owner w) (a : Actor) : Quiet owner (w.fence a) := by
  intro b l hb
  cases ha : w.pending a l with
  | none => rw [(World.fence_of_none w a b l ha).2, h b l hb]
  | some v => simp [World.fence, ha]

theorem flush [DecidableEq Actor] [DecidableEq Loc] {ls : List Loc} (h : Quiet owner w)
    (hls : ∀ l ∈ ls, owner l = some a) : Quiet owner (w.flush a ls) := by
  intro b l hb
  by_cases hl : l ∈ ls
  · have hab : b ≠ a := by rintro rfl; exact hb (hls l hl)
    rw [World.flush_pending_of_ne w a b l ls hab, h b l hb]
  · rw [World.flush_pending_of_not_mem w a b l ls hl, h b l hb]

theorem writeBack [DecidableEq Loc] (h : Quiet owner w) (l : Loc) :
    Quiet owner (w.writeBack l) := by
  intro b m hb
  by_cases hm : m = l
  · subst m; simp
  · rw [(World.writeBack_of_ne w b m l hm).2, h b m hb]

/-- No fence of another actor reaches what an actor owns. -/
theorem undisturbed_fence {b : Actor} (h : Quiet owner w) (hab : a ≠ b) :
    Undisturbed (fun l => owner l = some a) a w (w.fence b) := by
  refine Undisturbed.fence fun l hl => h b l ?_
  rw [hl]
  exact fun e => hab (Option.some.inj e)

end Quiet

/-- Nothing at all happened to a location. -/
structure Untouched (u v : World Actor Loc Val Log) (l : Loc) : Prop where
  cur : v.cur l = u.cur l
  per : v.per l = u.per l
  pending : ∀ a, v.pending a l = u.pending a l

namespace Untouched

variable {w : World Actor Loc Val Log} {a : Actor} {l m : Loc}

theorem record (g : Log) : Untouched w { w with log := g } l := ⟨rfl, rfl, fun _ => rfl⟩

theorem trans {u v : World Actor Loc Val Log} (h : Untouched w u l) (h' : Untouched u v l) :
    Untouched w v l :=
  ⟨h'.cur.trans h.cur, h'.per.trans h.per, fun a => (h'.pending a).trans (h.pending a)⟩

theorem durable {u v : World Actor Loc Val Log} (h : Untouched u v l) (hd : u.Durable a l) :
    v.Durable a l := by
  rwa [World.Durable, h.pending, h.per, h.cur]

theorem fence (h : w.pending a l = none) : Untouched w (w.fence a) l :=
  ⟨rfl, (World.fence_of_none w a a l h).1, fun b => (World.fence_of_none w a b l h).2⟩

variable [DecidableEq Loc]

theorem store {v : Val m} {f : Log → Log} (hm : l ≠ m) : Untouched w (w.store m v f) l :=
  ⟨World.store_cur_of_ne w l m f v hm, rfl, fun _ => rfl⟩

theorem flush [DecidableEq Actor] {ls : List Loc} (hl : l ∉ ls) : Untouched w (w.flush a ls) l :=
  ⟨rfl, rfl, fun b => World.flush_pending_of_not_mem w a b l ls hl⟩

end Untouched

/-- A location that is stored to, flushed and fenced before it is stored to
again: what is durable there is the last value or the one before. -/
structure Tracks (w : World Actor Loc Val Log) (a : Actor) (l : Loc) (now before : Val l) :
    Prop where
  cur : w.cur l = now
  per : w.per l = now ∨ w.per l = before
  pending : w.pending a l = none ∨ w.pending a l = some now

namespace Tracks

variable {u w : World Actor Loc Val Log} {a b : Actor} {l m : Loc} {now before v : Val l}

theorem untouched (h : Tracks w a l now before) (hu : Untouched w u l) : Tracks u a l now before :=
  ⟨hu.cur.trans h.cur, hu.per ▸ h.per, hu.pending a ▸ h.pending⟩

theorem fence (h : Tracks w a l now before) (hq : b ≠ a → w.pending b l = none) :
    Tracks (w.fence b) a l now before := by
  by_cases hb : b = a
  · subst hb
    refine ⟨h.cur, ?_, .inl (World.fence_pending_self w b l)⟩
    rcases h.pending with hn | hn
    · rw [(World.fence_of_none w b b l hn).1]; exact h.per
    · left; simp [World.fence, hn]
  · obtain ⟨hp, hn⟩ := World.fence_of_none w b a l (hq hb)
    exact ⟨h.cur, hp ▸ h.per, hn ▸ h.pending⟩

variable [DecidableEq Loc]

theorem store_self {f : Log → Log} (h : Tracks w a l now before) (hd : w.Durable a l) :
    Tracks (w.store l v f) a l v now := by
  refine ⟨World.store_cur_self w l f v, .inr ?_, .inl hd.1⟩
  exact hd.2.trans h.cur

theorem store_of_ne {f : Log → Log} {x : Val m} (h : Tracks w a l now before) (hm : l ≠ m) :
    Tracks (w.store m x f) a l now before :=
  ⟨(World.store_cur_of_ne w l m f x hm).trans h.cur, h.per, h.pending⟩

theorem flush [DecidableEq Actor] {ls : List Loc} (h : Tracks w a l now before) :
    Tracks (w.flush b ls) a l now before := by
  refine ⟨h.cur, h.per, ?_⟩
  by_cases hl : l ∈ ls
  · by_cases hb : a = b
    · subst hb
      right
      rw [World.flush_pending_of_mem w a l ls hl, h.cur]
    · rw [World.flush_pending_of_ne w b a l ls hb]; exact h.pending
  · rw [World.flush_pending_of_not_mem w b a l ls hl]; exact h.pending

theorem writeBack (h : Tracks w a l now before) (m : Loc) :
    Tracks (w.writeBack m) a l now before := by
  by_cases hm : l = m
  · subst hm
    exact ⟨h.cur, .inl (by rw [World.writeBack_per_self, h.cur]),
      .inl (World.writeBack_pending_self w a l)⟩
  · obtain ⟨hp, hn⟩ := World.writeBack_of_ne w a l m hm
    exact ⟨h.cur, hp ▸ h.per, hn ▸ h.pending⟩

end Tracks

/-- All values that a location has are of a kind: the visible one, the durable one
and those on their way there. -/
def World.Every (P : (l : Loc) → Val l → Prop) (w : World Actor Loc Val Log) : Prop :=
  ∀ l, P l (w.cur l) ∧ P l (w.per l) ∧ ∀ a v, w.pending a l = some v → P l v

namespace World.Every

variable {P R : (l : Loc) → Val l → Prop} {w : World Actor Loc Val Log}

theorem mono (h : w.Every P) (hPR : ∀ l v, P l v → R l v) : w.Every R :=
  fun l => ⟨hPR l _ (h l).1, hPR l _ (h l).2.1, fun a v hv => hPR l v ((h l).2.2 a v hv)⟩

theorem record (h : w.Every P) (g : Log) : World.Every P { w with log := g } := h

theorem fence (h : w.Every P) (a : Actor) : (w.fence a).Every P := by
  refine fun l => ⟨(h l).1, ?_, fun b v hv => ?_⟩
  · cases ha : w.pending a l with
    | none => rw [(World.fence_of_none w a a l ha).1]; exact (h l).2.1
    | some v => simpa [World.fence, ha] using (h l).2.2 a v ha
  · cases ha : w.pending a l with
    | none =>
        rw [(World.fence_of_none w a b l ha).2] at hv
        exact (h l).2.2 b v hv
    | some _ => simp [World.fence, ha] at hv

variable [DecidableEq Loc]

theorem store {l : Loc} {x : Val l} (h : w.Every P) (hx : P l x) (f : Log → Log) :
    (w.store l x f).Every P := by
  refine fun m => ⟨?_, (h m).2⟩
  by_cases hm : m = l
  · subst hm
    rw [World.store_cur_self]
    exact hx
  · rw [World.store_cur_of_ne w m l f x hm]
    exact (h m).1

theorem flush [DecidableEq Actor] (h : w.Every P) (a : Actor) (ls : List Loc) :
    (w.flush a ls).Every P := by
  refine fun l => ⟨(h l).1, (h l).2.1, fun b v hv => ?_⟩
  by_cases hb : b = a ∧ l ∈ ls
  · simp only [World.flush, if_pos hb, Option.some.injEq] at hv
    exact hv ▸ (h l).1
  · simp only [World.flush, if_neg hb] at hv
    exact (h l).2.2 b v hv

theorem writeBack (h : w.Every P) (m : Loc) : (w.writeBack m).Every P := by
  intro l
  by_cases hl : l = m
  · subst hl
    refine ⟨(h l).1, by rw [World.writeBack_per_self]; exact (h l).1, fun a v hv => ?_⟩
    simp at hv
  · obtain hne := fun a => World.writeBack_of_ne w a l m hl
    refine ⟨(h l).1, ?_, fun a v hv => ?_⟩
    · simpa [World.writeBack, hl] using (h l).2.1
    · rw [(hne a).2] at hv
      exact (h l).2.2 a v hv

end World.Every

end Mangosteen.PersistentMemory
