import Mangosteen.Library.Ownership
import Mangosteen.Library.RelyGuarantee

namespace Mangosteen.PersistentMemory

variable {Actor Loc : Type} {Val : Loc → Type} {Log α β Phase : Type}

/-- Nothing happened to the locations outside `own`, except that a fence may
have completed flushes that were pending there. -/
structure Frame (own : Loc → Prop) (same : Log → Log → Prop) (a : Actor)
    (w u : World Actor Loc Val Log) : Prop where
  cur : ∀ l, ¬ own l → u.cur l = w.cur l
  per : ∀ l, ¬ own l → w.pending a l = none → u.per l = w.per l
  pending : ∀ l b, ¬ own l → w.pending a l = none → u.pending b l = w.pending b l
  fenced : ∀ l v, ¬ own l → w.pending a l = some v →
    u.per l = w.per l ∧ (∀ b, u.pending b l = w.pending b l) ∨ u.per l = v ∧
    ∀ b, u.pending b l = none
  others : ∀ l b, b ≠ a → u.pending b l = w.pending b l ∨ u.pending b l = none
  log : same w.log u.log

theorem Frame.undisturbed {own mine : Loc → Prop} {same : Log → Log → Prop} {a b : Actor}
    {w u : World Actor Loc Val Log} (h : Frame own same b w u) (hm : ∀ l, mine l → ¬ own l)
    (hq : ∀ l, mine l → w.pending b l = none) : Undisturbed mine a w u := by
  have heq : ∀ l, mine l → u.cur l = w.cur l ∧ u.per l = w.per l ∧ u.pending a l = w.pending a l :=
    fun l hl => ⟨h.cur l (hm l hl), h.per l (hm l hl) (hq l hl), h.pending l a (hm l hl) (hq l hl)⟩
  refine ⟨fun l hl => (heq l hl).1, fun l hl hs => ?_, fun l hl hs => ?_⟩
  · obtain ⟨hc, hp, hn⟩ := heq l hl
    simpa only [World.Settled, hc, hp, hn] using hs
  · obtain ⟨hc, hp, hn⟩ := heq l hl
    simpa only [World.Durable, hc, hp, hn] using hs

theorem Frame.every {own : Loc → Prop} {same : Log → Log → Prop} {a : Actor}
    {w u : World Actor Loc Val Log}
    {P : (l : Loc) → Val l → Prop} (h : Frame own same a w u) (hw : w.Every P)
    (hown : ∀ l, own l → ∀ v, P l v) : u.Every P := by
  intro l
  by_cases hl : own l
  · exact ⟨hown l hl _, hown l hl _, fun _ _ _ => hown l hl _⟩
  obtain ⟨hcur, hper, hpend⟩ := hw l
  rw [h.cur l hl]
  refine ⟨hcur, ?_⟩
  cases hp : w.pending a l with
  | none =>
      rw [h.per l hl hp]
      refine ⟨hper, fun b v hv => ?_⟩
      rw [h.pending l b hl hp] at hv
      exact hpend b v hv
  | some x =>
      rcases h.fenced l x hl hp with ⟨hp', hb⟩ | ⟨hp', hb⟩
      · rw [hp']
        refine ⟨hper, fun b v hv => ?_⟩
        rw [hb] at hv
        exact hpend b v hv
      · rw [hp']
        refine ⟨hpend a x hp, fun b v hv => ?_⟩
        rw [hb] at hv
        cases hv

theorem Frame.settled {own : Loc → Prop} {same : Log → Log → Prop} {a : Actor}
    {w u : World Actor Loc Val Log} {l : Loc}
    (h : Frame own same a w u) (hl : ¬ own l) (hs : w.Settled a l) : u.Settled a l := by
  rw [World.Settled, h.cur l hl]
  rcases hs with hs | ⟨hn, hp⟩
  · rcases h.fenced l _ hl hs with ⟨-, hb⟩ | ⟨hp, hb⟩
    · exact .inl ((hb a).trans hs)
    · exact .inr ⟨hb a, hp⟩
  · exact .inr ⟨(h.pending l a hl hn).trans hn, (h.per l hl hn).trans hp⟩

theorem Frame.durable {own : Loc → Prop} {same : Log → Log → Prop} {a : Actor}
    {w u : World Actor Loc Val Log} {l : Loc}
    (h : Frame own same a w u) (hl : ¬ own l) (hd : w.Durable a l) : u.Durable a l := by
  rw [World.Durable, h.pending l a hl hd.1, h.per l hl hd.1, h.cur l hl]
  exact hd

def Op.Confined (own : Loc → Prop) (same : Log → Log → Prop) (a : Actor) :
    Op Actor Loc Val Log → Prop
  | .load _ | .await _ _ | .fence => True
  | .store l _ f => own l ∧ ∀ g, same g (f g)
  | .flush ls => ∀ l ∈ ls, own l
  | .record f => ∀ g, same g (f g)
  | .kernel f => ∀ w u, f w = some u → Frame own same a w u

/-- A program that stores to and flushes only locations of `own`, and whose
notes change the history only as `same` allows. -/
def Prog.Confined (own : Loc → Prop) (same : Log → Log → Prop) (a : Actor) :
    Prog Actor Loc Val Log α → Prop
  | .ret _ => True
  | .op o next => o.Confined own same a ∧ ∀ r, Confined own same a (next r)

/-- A process runs alone also where only what it is confined to is allowed. -/
theorem System.Runs.of_confined [DecidableEq Loc] [DecidableEq Actor] [∀ l, DecidableEq (Val l)]
    {S T : System Actor Loc Val Log Phase} {own : Loc → Prop} {same : Log → Log → Prop} {a : Actor}
    {p : Prog Actor Loc Val Log α} {Q : α → World Actor Loc Val Log → Prop}
    {w : World Actor Loc Val Log} (hp : p.Confined own same a)
    (hadm : ∀ w o, T.admits w (.op a o) → o.Confined own same a → S.admits w (.op a o))
    (h : T.Runs a p Q w) : S.Runs a p Q w := by
  induction p generalizing w with
  | ret x => exact h
  | op o next ih =>
      obtain ⟨ha, r, u, he, hr⟩ := h
      exact ⟨hadm w o ha hp.1, r, u, he, ih r (hp.2 r) hr⟩

section Rules

variable {own : Loc → Prop} {same : Log → Log → Prop} {a : Actor} {p : Prog Actor Loc Val Log α}
  {f : α → Prog Actor Loc Val Log β}

theorem Prog.Confined.bind (hp : p.Confined own same a) (hf : ∀ x, (f x).Confined own same a) :
    (p >>= f).Confined own same a := by
  induction p with
  | ret x => exact hf x
  | op o next ih => exact ⟨hp.1, fun r => ih r (hp.2 r)⟩

theorem Op.Confined.mono {same' : Log → Log → Prop} {o : Op Actor Loc Val Log}
    (h : o.Confined own same a) (hs : ∀ g g', same g g' → same' g g') : o.Confined own same' a := by
  cases o with
  | load | await | fence => trivial
  | store l v f => exact ⟨h.1, fun g => hs _ _ (h.2 g)⟩
  | flush ls => exact h
  | record f => exact fun g => hs _ _ (h g)
  | kernel f => exact fun w u he => { h w u he with log := hs _ _ (h w u he).log }

theorem Prog.Confined.mono {same' : Log → Log → Prop} (hp : p.Confined own same a)
    (hs : ∀ g g', same g g' → same' g g') : p.Confined own same' a := by
  induction p with
  | ret x => trivial
  | op o next ih => exact ⟨hp.1.mono hs, fun r => ih r (hp.2 r)⟩

theorem Frame.of_own {own' : Loc → Prop} {u v : World Actor Loc Val Log} (h : Frame own same a u v)
    (ho : ∀ l, own l → own' l) : Frame own' same a u v where
  cur l hl := h.cur l fun hm => hl (ho l hm)
  per l hl := h.per l fun hm => hl (ho l hm)
  pending l b hl := h.pending l b fun hm => hl (ho l hm)
  fenced l v hl := h.fenced l v fun hm => hl (ho l hm)
  others := h.others
  log := h.log

theorem Prog.Confined.of_own {own' : Loc → Prop} (hp : p.Confined own same a)
    (ho : ∀ l, own l → own' l) : p.Confined own' same a := by
  induction p with
  | ret x => trivial
  | op o next ih =>
      refine ⟨?_, fun r => ih r (hp.2 r)⟩
      have h := hp.1
      cases o with
      | load | await | fence => trivial
      | store l v f => exact ⟨ho l h.1, h.2⟩
      | flush ls => exact fun l hl => ho l (h l hl)
      | record f => exact h
      | kernel f => exact fun w u he => (h w u he).of_own ho

theorem Prog.Confined.op {o : Op Actor Loc Val Log} {f : o.Result → Prog Actor Loc Val Log β}
    (ho : o.Confined own same a) (hf : ∀ r, (f r).Confined own same a) :
    (Prog.op o .ret >>= f).Confined own same a :=
  ⟨ho, hf⟩

theorem Prog.Confined.storeAll {note : Sigma Val → Log → Log} {ss : List (Sigma Val)}
    (h : ∀ s ∈ ss, own s.1) (hn : ∀ s ∈ ss, ∀ g, same g (note s g)) :
    (Prog.storeAll note ss : Prog Actor Loc Val Log Unit).Confined own same a := by
  induction ss with
  | nil => trivial
  | cons s ss ih =>
      refine ⟨⟨h s (by simp), hn s (by simp)⟩, fun _ => ih ?_ ?_⟩
      · exact fun s hs => h s (by simp [hs])
      · exact fun s hs => hn s (by simp [hs])

theorem Prog.Confined.loads {n : Nat} (l : Fin n → Loc) :
    (Prog.loads l : Prog Actor Loc Val Log _).Confined own same a := by
  induction n with
  | zero => trivial
  | succ n ih => exact ⟨trivial, fun _ => (ih _).bind (fun _ => trivial)⟩

variable [DecidableEq Actor] [DecidableEq Loc] [∀ l, DecidableEq (Val l)]

theorem Op.Confined.frame {o : Op Actor Loc Val Log} {w u : World Actor Loc Val Log} {r : o.Result}
    (hr : ∀ g, same g g) (h : o.Confined own same a) (he : o.exec a w = some (r, u)) :
    Frame own same a w u := by
  have hrefl : Frame own same a w w :=
    ⟨fun _ _ => rfl, fun _ _ _ => rfl, fun _ _ _ _ => rfl, fun _ _ _ _ => .inl ⟨rfl, fun _ => rfl⟩,
      fun _ _ _ => .inl rfl, hr _⟩
  cases o with
  | load l => cases he; exact hrefl
  | await l busy =>
      by_cases hb : w.cur l = busy
      · simp [Op.exec, hb] at he
      · simp only [Op.exec, hb, if_false, Option.some.injEq] at he
        cases he; exact hrefl
  | store l v f =>
      cases he
      refine ⟨fun m hm => ?_, fun _ _ _ => rfl, fun _ _ _ _ => rfl,
        fun _ _ _ _ => .inl ⟨rfl, fun _ => rfl⟩, fun _ _ _ => .inl rfl, h.2 _⟩
      have hne : m ≠ l := by rintro rfl; exact hm h.1
      exact World.store_cur_of_ne w m l f v hne
  | flush ls =>
      cases he
      refine ⟨fun _ _ => rfl, fun _ _ _ => rfl, fun m b hm _ => ?_,
        fun m v hm _ => .inl ⟨rfl, fun b => ?_⟩, fun m b hb => .inl ?_, hr _⟩
      · exact World.flush_pending_of_not_mem w a b m ls (fun hl => hm (h m hl))
      · exact World.flush_pending_of_not_mem w a b m ls (fun hl => hm (h m hl))
      · exact World.flush_pending_of_ne w a b m ls hb
  | fence =>
      cases he
      refine ⟨fun _ _ => rfl, fun m _ hn => (World.fence_of_none w a a m hn).1,
        fun m b _ hn => (World.fence_of_none w a b m hn).2, fun m v _ hv => .inr ?_,
        fun m b _ => ?_, hr _⟩
      · simp [World.fence, hv]
      · cases hm : w.pending a m with
        | none => exact .inl (World.fence_of_none w a b m hm).2
        | some v => right; simp [World.fence, hm]
  | record f =>
      cases he
      exact ⟨fun _ _ => rfl, fun _ _ _ => rfl, fun _ _ _ _ => rfl,
        fun _ _ _ _ => .inl ⟨rfl, fun _ => rfl⟩, fun _ _ _ => .inl rfl, h _⟩
  | kernel f =>
      obtain ⟨x, hx, he⟩ := Option.map_eq_some_iff.mp he
      obtain rfl : x = u := congrArg Prod.snd he
      exact h w x hx

/-- A confined program keeps every protocol and every assertion that do not
depend on what it touches. -/
theorem Ensures.confined {S : System Actor Loc Val Log Phase} {P : Protocol Actor Loc Val Log}
    {A : World Actor Loc Val Log → Prop} {w : World Actor Loc Val Log} (hp : p.Confined own same a)
    (hr : ∀ g, same g g) (hl : P.live → ∀ u o, A u → S.admits u (.op a o) → (o.exec a u).isSome)
    (hA : A w) (hstable : ∀ w u, A w → P.rely a w u → P.inv u → A u)
    (hframe : ∀ w u, Frame own same a w u → P.inv w → A w → P.Allows a w u ∧ A u) :
    Ensures S P a p (fun _ u => A u) w := by
  induction p generalizing w with
  | ret x => exact fun u hu hi => hstable w u hA hu hi
  | op o next ih =>
      intro u hu hi ha
      have hAu := hstable w u hA hu hi
      refine ⟨fun h => hl h u o hAu ha, fun r v he => ?_⟩
      obtain ⟨hg, hv⟩ := hframe u v (hp.1.frame hr he) hi hAu
      exact ⟨hg, ih r (hp.2 r) hv⟩

/-- A confined program moreover keeps what does not depend on what it touches. -/
theorem Ensures.and_confined {S : System Actor Loc Val Log Phase} {P : Protocol Actor Loc Val Log}
    {Q : α → World Actor Loc Val Log → Prop} {A : World Actor Loc Val Log → Prop}
    {w : World Actor Loc Val Log}
    (h : Ensures S P a p Q w) (hp : p.Confined own same a) (hr : ∀ g, same g g) (hA : A w)
    (hstable : ∀ w u, A w → P.rely a w u → P.inv u → A u)
    (hframe : ∀ w u, Frame own same a w u → A w → A u) :
    Ensures S P a p (fun x u => Q x u ∧ A u) w := by
  induction p generalizing w with
  | ret x => exact fun u hu hi => ⟨h u hu hi, hstable w u hA hu hi⟩
  | op o next ih =>
      intro u hu hi ha
      obtain ⟨hl, hn⟩ := h u hu hi ha
      refine ⟨hl, fun r v he => ⟨(hn r v he).1, ih r (hn r v he).2 (hp.2 r) ?_⟩⟩
      exact hframe u v (hp.1.frame hr he) (hstable w u hA hu hi)

end Rules

end Mangosteen.PersistentMemory
