import Mangosteen.Library.Program

namespace Mangosteen.PersistentMemory

variable {Actor Loc : Type} {Val : Loc → Type} {Log α β Phase : Type}

/-- What the processes owe each other: an invariant of memory, and for every
actor a relation that bounds what all the others, and the cache, may do between
two of its instructions. In a `live` protocol no actor may ever have to wait. -/
structure Protocol (Actor Loc : Type) (Val : Loc → Type) (Log : Type) where
  inv : World Actor Loc Val Log → Prop
  rely : Actor → World Actor Loc Val Log → World Actor Loc Val Log → Prop
  live : Prop
  rely_refl : ∀ a w, rely a w w
  rely_trans : ∀ a u v w, rely a u v → rely a v w → rely a u w

/-- The change from `u` to `v` is one that actor `a` may make. -/
def Protocol.Allows (P : Protocol Actor Loc Val Log) (a : Actor) (u v : World Actor Loc Val Log) :
    Prop :=
  P.inv v ∧ ∀ b, b ≠ a → P.rely b u v

theorem Protocol.allows_refl {P : Protocol Actor Loc Val Log} {a : Actor}
    {u : World Actor Loc Val Log} (h : P.inv u) : P.Allows a u u :=
  ⟨h, fun b _ => P.rely_refl b u⟩

/-- Where there are two actors, a change has to keep what the other one relies on. -/
theorem Protocol.allows_of_other {P : Protocol Actor Loc Val Log} {a b : Actor}
    {u v : World Actor Loc Val Log}
    (hab : ∀ {c}, c ≠ a → c = b) (hi : P.inv v) (hr : P.rely b u v) : P.Allows a u v := by
  refine ⟨hi, fun c hc => ?_⟩
  rw [hab hc]
  exact hr

/-- Two protocols kept at once. -/
def Protocol.both (P P' : Protocol Actor Loc Val Log) : Protocol Actor Loc Val Log where
  inv w := P.inv w ∧ P'.inv w
  rely a u v := P.rely a u v ∧ P'.rely a u v
  live := P.live ∨ P'.live
  rely_refl a w := ⟨P.rely_refl a w, P'.rely_refl a w⟩
  rely_trans a u v w h h' := ⟨P.rely_trans a u v w h.1 h'.1, P'.rely_trans a u v w h.2 h'.2⟩

theorem Protocol.Allows.both {P P' : Protocol Actor Loc Val Log} {a : Actor}
    {u v : World Actor Loc Val Log} (h : P.Allows a u v) (h' : P'.Allows a u v) :
    (P.both P').Allows a u v :=
  ⟨⟨h.1, h'.1⟩, fun b hb => ⟨h.2 b hb, h'.2 b hb⟩⟩

variable [DecidableEq Actor] [DecidableEq Loc] [∀ l, DecidableEq (Val l)]
variable (S : System Actor Loc Val Log Phase) (P : Protocol Actor Loc Val Log)

/-- Under interference within the rely relation, every instruction of the
program keeps the protocol, and the program ends only in a state of `Q`. -/
def Ensures (a : Actor) : Prog Actor Loc Val Log α → (α → World Actor Loc Val Log → Prop) →
    World Actor Loc Val Log → Prop
  | .ret x, Q, w => ∀ u, P.rely a w u → P.inv u → Q x u
  | .op o next, Q, w => ∀ u, P.rely a w u → P.inv u → S.admits u (.op a o) →
      (P.live → (o.exec a u).isSome) ∧
        ∀ r v, o.exec a u = some (r, v) → P.Allows a u v ∧ Ensures a (next r) Q v

namespace Ensures

variable {S P} {a : Actor} {p : Prog Actor Loc Val Log α} {f : α → Prog Actor Loc Val Log β}
  {Q R : α → World Actor Loc Val Log → Prop} {w : World Actor Loc Val Log}

theorem stable {u : World Actor Loc Val Log} (h : Ensures S P a p Q w) (hu : P.rely a w u) :
    Ensures S P a p Q u := by
  cases p with
  | ret x => exact fun v hv => h v (P.rely_trans a w u v hu hv)
  | op o next => exact fun v hv => h v (P.rely_trans a w u v hu hv)

theorem mono (h : Ensures S P a p Q w) (hQR : ∀ x w, P.inv w → Q x w → R x w) :
    Ensures S P a p R w := by
  induction p generalizing w with
  | ret x => exact fun u hu hi => hQR x u hi (h u hu hi)
  | op o next ih =>
      intro u hu hi ha
      obtain ⟨hl, hn⟩ := h u hu hi ha
      exact ⟨hl, fun r v he => ⟨(hn r v he).1, ih r (hn r v he).2⟩⟩

theorem bind {Q : β → World Actor Loc Val Log → Prop} (hw : P.inv w)
    (h : Ensures S P a p (fun x w => Ensures S P a (f x) Q w) w) : Ensures S P a (p >>= f) Q w := by
  induction p generalizing w with
  | ret x => exact h w (P.rely_refl a w) hw
  | op o next ih =>
      intro u hu hi ha
      obtain ⟨hl, hn⟩ := h u hu hi ha
      exact ⟨hl, fun r v he => ⟨(hn r v he).1, ih r (hn r v he).1.1 (hn r v he).2⟩⟩

theorem ret {x : α} (h : ∀ u, P.rely a w u → P.inv u → Q x u) : Ensures S P a (.ret x) Q w := h

theorem pure {x : α} (h : ∀ u, P.rely a w u → P.inv u → Q x u) :
    Ensures S P a (Pure.pure x : Prog Actor Loc Val Log α) Q w := h

section Instructions

variable {l : Loc} {Q : β → World Actor Loc Val Log → Prop}

theorem load {f : Val l → Prog Actor Loc Val Log β}
    (h : ∀ u, P.rely a w u → P.inv u → Ensures S P a (f (u.cur l)) Q u) :
    Ensures S P a (Prog.load l >>= f) Q w := by
  intro u hu hi _
  refine ⟨fun _ => rfl, ?_⟩
  rintro r v ⟨⟩
  exact ⟨Protocol.allows_refl hi, h u hu hi⟩

theorem await {busy : Val l} {f : Val l → Prog Actor Loc Val Log β}
    (hl : P.live → ∀ u, P.rely a w u → P.inv u → S.admits u (.op a (.await l busy)) →
      u.cur l ≠ busy)
    (h : ∀ u, P.rely a w u → P.inv u → S.admits u (.op a (.await l busy)) → u.cur l ≠ busy →
      Ensures S P a (f (u.cur l)) Q u) :
    Ensures S P a (Prog.await l busy >>= f) Q w := by
  intro u hu hi ha
  refine ⟨fun hP => by simp [Op.exec, hl hP u hu hi ha], ?_⟩
  intro r v he
  by_cases hb : u.cur l = busy
  · simp [Op.exec, hb] at he
  · simp only [Op.exec, hb, if_false, Option.some.injEq] at he
    obtain ⟨rfl, rfl⟩ := he
    exact ⟨Protocol.allows_refl hi, h u hu hi ha hb⟩

theorem storeRecord {v : Val l} {g : Log → Log} {f : Unit → Prog Actor Loc Val Log β}
    (h : ∀ u, P.rely a w u → P.inv u →
      P.Allows a u (u.store l v g) ∧ Ensures S P a (f ()) Q (u.store l v g)) :
    Ensures S P a (Prog.storeRecord l v g >>= f) Q w := by
  intro u hu hi _
  refine ⟨fun _ => rfl, ?_⟩
  rintro r v ⟨⟩
  exact h u hu hi

theorem store {v : Val l} {f : Unit → Prog Actor Loc Val Log β}
    (h : ∀ u, P.rely a w u → P.inv u →
      P.Allows a u (u.store l v id) ∧ Ensures S P a (f ()) Q (u.store l v id)) :
    Ensures S P a (Prog.store l v >>= f) Q w :=
  storeRecord h

theorem flush {ls : List Loc} {f : Unit → Prog Actor Loc Val Log β}
    (h : ∀ u, P.rely a w u → P.inv u →
      P.Allows a u (u.flush a ls) ∧ Ensures S P a (f ()) Q (u.flush a ls)) :
    Ensures S P a (Prog.flush ls >>= f) Q w := by
  intro u hu hi _
  refine ⟨fun _ => rfl, ?_⟩
  rintro r v ⟨⟩
  exact h u hu hi

theorem fence {f : Unit → Prog Actor Loc Val Log β}
    (h : ∀ u, P.rely a w u → P.inv u → P.Allows a u (u.fence a) ∧
      Ensures S P a (f ()) Q (u.fence a)) :
    Ensures S P a (Prog.fence >>= f) Q w := by
  intro u hu hi _
  refine ⟨fun _ => rfl, ?_⟩
  rintro r v ⟨⟩
  exact h u hu hi

theorem record {g : Log → Log} {f : Unit → Prog Actor Loc Val Log β}
    (h : ∀ u, P.rely a w u → P.inv u → P.Allows a u { u with log := g u.log } ∧
      Ensures S P a (f ()) Q { u with log := g u.log }) :
    Ensures S P a (Prog.record g >>= f) Q w := by
  intro u hu hi _
  refine ⟨fun _ => rfl, ?_⟩
  rintro r v ⟨⟩
  exact h u hu hi

theorem kernel {g : World Actor Loc Val Log → Option (World Actor Loc Val Log)}
    {f : Unit → Prog Actor Loc Val Log β} (hl : P.live → ∀ u, P.rely a w u → P.inv u → (g u).isSome)
    (h : ∀ u, P.rely a w u → P.inv u → ∀ v, g u = some v → P.Allows a u v ∧
      Ensures S P a (f ()) Q v) :
    Ensures S P a (Prog.kernel g >>= f) Q w := by
  intro u hu hi _
  refine ⟨fun hP => by simpa [Op.exec] using hl hP u hu hi, ?_⟩
  intro r v he
  obtain ⟨x, hx, he⟩ := Option.map_eq_some_iff.mp he
  obtain rfl : x = v := congrArg Prod.snd he
  exact h u hu hi x hx

/-- Where processes may stop, nothing is to be shown of one that has. -/
theorem stuck {f : Unit → Prog Actor Loc Val Log β} (hl : ¬ P.live) :
    Ensures S P a (Prog.kernel (fun _ => none) >>= f) Q w :=
  kernel (fun h => absurd h hl) fun _ _ _ _ hv => by cases hv

/-- A run of stores is verified with an assertion about the stores still to be
made, which one store shortens and interference leaves alone. -/
theorem storeAll {note : Sigma Val → Log → Log}
    {J : List (Sigma Val) → World Actor Loc Val Log → Prop}
    {ss : List (Sigma Val)} {f : Unit → Prog Actor Loc Val Log β} (hw : P.inv w) (hJ : J ss w)
    (hstable : ∀ ss w u, J ss w → P.rely a w u → P.inv u → J ss u)
    (hstep : ∀ s ss w, J (s :: ss) w → P.inv w →
      P.Allows a w (w.store s.1 s.2 (note s)) ∧ J ss (w.store s.1 s.2 (note s)))
    (h : ∀ u, P.inv u → J [] u → Ensures S P a (f ()) Q u) :
    Ensures S P a (Prog.storeAll note ss >>= f) Q w := by
  induction ss generalizing w with
  | nil => exact h w hw hJ
  | cons s ss ih =>
      rw [Prog.storeAll, Prog.bind_assoc]
      refine storeRecord ?_
      intro u hu hi
      obtain ⟨hg, hn⟩ := hstep s ss u (hstable _ w u hJ hu hi) hi
      exact ⟨hg, ih hg.1 hn⟩

/-- A buffer that is read while it may change: what is known of each single
load is known of the value assembled from them. -/
theorem loads {n : Nat} {l : Fin n → Loc} {R : (k : Fin n) → Val (l k) → Prop}
    {f : ((k : Fin n) → Val (l k)) → Prog Actor Loc Val Log β}
    (hl : ∀ k u, P.rely a w u → P.inv u → R k (u.cur (l k))) (hw : P.inv w)
    (h : ∀ p u, (∀ k, R k (p k)) → P.rely a w u → P.inv u → Ensures S P a (f p) Q u) :
    Ensures S P a (Prog.loads l >>= f) Q w := by
  induction n generalizing w with
  | zero => exact h _ w (fun k => k.elim0) (P.rely_refl a w) hw
  | succ n ih =>
      rw [Prog.loads, Prog.bind_assoc]
      refine load ?_
      intro u hu hi
      rw [Prog.bind_assoc]
      refine ih (R := fun k => R k.succ)
        (fun k v hv hvi => hl k.succ v (P.rely_trans a w u v hu hv) hvi) hi ?_
      intro p v hp hv hvi
      refine h _ v ?_ (P.rely_trans a w u v hu hv) hvi
      intro k
      refine Fin.cases ?_ (fun k => ?_) k
      · exact hl 0 u hu hi
      · exact hp k

end Instructions

end Ensures

/-- The protocol is kept by every run, when every program a process may start
keeps it, the cache does, and a crash leads back into it. -/
theorem System.Reaches.ensures {S : System Actor Loc Val Log Phase} {P : Protocol Actor Loc Val Log}
    {Q : Actor → Phase → World Actor Loc Val Log → Prop} {c₀ c : Config Actor Loc Val Log Phase}
    (h : S.Reaches c₀ c)
    (hw : P.inv c₀.world) (hstart : ∀ a, Ensures S P a (c₀.prog a) (Q a) c₀.world)
    (hnext : ∀ a x p w, P.inv w → Q a x w → S.next a x p → Ensures S P a p (Q a) w)
    (hcache : ∀ w l, P.inv w → S.admits w (.writeBack l) →
      P.inv (w.writeBack l) ∧ ∀ a, P.rely a w (w.writeBack l))
    (hcrash : ∀ w, P.inv w → S.admits w .crash →
      P.inv (S.reboot w) ∧ ∀ a, Ensures S P a (S.boot a) (Q a) (S.reboot w)) :
    P.inv c.world ∧ ∀ a, Ensures S P a (c.prog a) (Q a) c.world := by
  induction h with
  | refl => exact ⟨hw, hstart⟩
  | tail _ hs ih =>
      obtain ⟨hi, hp⟩ := ih
      cases hs with
      | @op w p a o k r w' hpa ha he =>
          have h := hp a
          simp only [hpa] at h
          obtain ⟨hg, hk⟩ := (h w (P.rely_refl a w) hi ha).2 r w' he
          refine ⟨hg.1, fun b => ?_⟩
          by_cases hb : b = a
          · subst hb; simpa using hk
          · simpa [hb] using (hp b).stable (hg.2 b hb)
      | @begin w p a x q hpa hq =>
          have h := hp a
          simp only [hpa] at h
          refine ⟨hi, fun b => ?_⟩
          by_cases hb : b = a
          · subst hb; simpa using hnext b x q w hi (h w (P.rely_refl b w) hi) hq
          · simpa [hb] using hp b
      | @writeBack w p l ha =>
          obtain ⟨hi', hr⟩ := hcache w l hi ha
          exact ⟨hi', fun b => (hp b).stable (hr b)⟩
      | @crash w p ha => exact hcrash w hi ha

theorem System.Reachable.ensures {S : System Actor Loc Val Log Phase}
    {P : Protocol Actor Loc Val Log}
    {Q : Actor → Phase → World Actor Loc Val Log → Prop} {w : World Actor Loc Val Log}
    {c : Config Actor Loc Val Log Phase} (h : S.Reachable w c) (hw : P.inv w)
    (hboot : ∀ a, Ensures S P a (S.boot a) (Q a) w)
    (hnext : ∀ a x p w, P.inv w → Q a x w → S.next a x p → Ensures S P a p (Q a) w)
    (hcache : ∀ w l, P.inv w → S.admits w (.writeBack l) →
      P.inv (w.writeBack l) ∧ ∀ a, P.rely a w (w.writeBack l))
    (hcrash : ∀ w, P.inv w → S.admits w .crash →
      P.inv (S.reboot w) ∧ ∀ a, Ensures S P a (S.boot a) (Q a) (S.reboot w)) :
    P.inv c.world ∧ ∀ a, Ensures S P a (c.prog a) (Q a) c.world :=
  System.Reaches.ensures h hw hboot hnext hcache hcrash

section Both

variable {S : System Actor Loc Val Log Phase} {P P' : Protocol Actor Loc Val Log} {a : Actor}
  {w : World Actor Loc Val Log}

/-- What is shown of a program for each of two protocols holds when both are
kept. -/
theorem Ensures.both {p : Prog Actor Loc Val Log α} {Q Q' : α → World Actor Loc Val Log → Prop}
    (h : Ensures S P a p Q w) (h' : Ensures S P' a p Q' w) :
    Ensures S (P.both P') a p (fun x u => Q x u ∧ Q' x u) w := by
  induction p generalizing w with
  | ret x => exact fun u hr hi => ⟨h u hr.1 hi.1, h' u hr.2 hi.2⟩
  | op o next ih =>
      intro u hr hi ha
      obtain ⟨hl, hn⟩ := h u hr.1 hi.1 ha
      obtain ⟨hl', hn'⟩ := h' u hr.2 hi.2 ha
      refine ⟨fun hlive => hlive.elim hl hl', fun r v he => ?_⟩
      exact ⟨(hn r v he).1.both (hn' r v he).1, ih r (hn r v he).2 (hn' r v he).2⟩

end Both

section Patient

variable {S : System Actor Loc Val Log Phase} {P : Protocol Actor Loc Val Log}
  {X : Actor → World Actor Loc Val Log → Prop} {a : Actor} {w : World Actor Loc Val Log}

/-- The same runs, for a proof that processes do not wait: what is to be shown of
an instruction that cannot be executed is to be shown in the states of `X` only. -/
def System.patient (S : System Actor Loc Val Log Phase)
    (X : Actor → World Actor Loc Val Log → Prop) : System Actor Loc Val Log Phase :=
  { S with admits := fun w label =>
      S.admits w label ∧ ∀ a o, label = .op a o → X a w ∨ (o.exec a w).isSome }

theorem System.Step.patient {c d : Config Actor Loc Val Log Phase} (h : S.Step c d) :
    (S.patient X).Step c d := by
  cases h with
  | @op w p a o k r w' hp ha he =>
      refine .op hp ⟨ha, ?_⟩ he
      rintro b o' ⟨⟩
      exact .inr (by rw [he]; rfl)
  | begin hp hq => exact .begin hp hq
  | writeBack l ha => exact .writeBack l ⟨ha, fun _ _ h => by cases h⟩
  | crash ha => exact .crash ⟨ha, fun _ _ h => by cases h⟩

theorem System.Reachable.patient {c : Config Actor Loc Val Log Phase} (h : S.Reachable w c) :
    (S.patient X).Reachable w c := by
  induction h with
  | refl => exact .refl
  | tail _ hs ih => exact ih.tail hs.patient

theorem Ensures.isSome_exec {o : Op Actor Loc Val Log} {next : o.Result → Prog Actor Loc Val Log α}
    {Q : α → World Actor Loc Val Log → Prop} (h : Ensures (S.patient X) P a (.op o next) Q w)
    (hl : P.live)
    (hi : P.inv w) (ha : S.admits w (.op a o)) (hx : X a w) : (o.exec a w).isSome := by
  refine (h w (P.rely_refl a w) hi ⟨ha, ?_⟩).1 hl
  rintro b o' ⟨⟩
  exact .inl hx

end Patient

end Mangosteen.PersistentMemory
