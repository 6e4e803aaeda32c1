import Mangosteen.Library.RelyGuarantee

namespace Mangosteen.PersistentMemory

variable {Actor Loc : Type} {Val : Loc → Type} {Log Phase : Type}
variable [DecidableEq Actor] [DecidableEq Loc] [∀ l, DecidableEq (Val l)]

/-- The cache has written lines back, and nothing else has happened. -/
inductive World.Evicts (w : World Actor Loc Val Log) : World Actor Loc Val Log → Prop
  | refl : Evicts w w
  | writeBack {u} (h : Evicts w u) (l : Loc) : Evicts w (u.writeBack l)

/-- One step of an actor, however late, while no other actor does anything and
nothing crashes. -/
inductive System.Advances (S : System Actor Loc Val Log Phase) (a : Actor) :
    Config Actor Loc Val Log Phase → Config Actor Loc Val Log Phase → Prop
  | op {w u p o k r u'} (hw : World.Evicts w u) (hp : p a = .op o k) (ha : S.admits u (.op a o))
      (he : o.exec a u = some (r, u')) : Advances S a ⟨w, p⟩ ⟨u', Function.update p a (k r)⟩
  | begin {w u p x q} (hw : World.Evicts w u) (hp : p a = .ret x) (hq : S.next a x q) :
      Advances S a ⟨w, p⟩ ⟨u, Function.update p a q⟩

variable {S : System Actor Loc Val Log Phase} {P : Protocol Actor Loc Val Log} {a : Actor}

theorem System.Advances.reachable {w₀ : World Actor Loc Val Log}
    {c d : Config Actor Loc Val Log Phase}
    (hcache : ∀ w l, S.admits w (.writeBack l)) (h : S.Reachable w₀ c) (hs : S.Advances a c d) :
    S.Reachable w₀ d := by
  have hev : ∀ {w u p}, World.Evicts w u → S.Reachable w₀ ⟨w, p⟩ → S.Reachable w₀ ⟨u, p⟩ := by
    intro w u p hev hw
    induction hev with
    | refl => exact hw
    | writeBack _ l ih => exact ih.tail (.writeBack l (hcache _ l))
  cases hs with
  | op hw hp ha he => exact (hev hw h).tail (.op hp ha he)
  | begin hw hp hq => exact (hev hw h).tail (.begin hp hq)

/-- An actor that goes on until it is done, and comes to an end, gets done. -/
theorem System.exists_done {I Done : Config Actor Loc Val Log Phase → Prop}
    {c : Config Actor Loc Val Log Phase} (hacc : Acc (fun d c => S.Advances a c d) c) (hc : I c)
    (hstep : ∀ c d, I c → S.Advances a c d → I d)
    (hgo : ∀ c, I c → Done c ∨ ∃ d, S.Advances a c d) : ∃ d, I d ∧ Done d := by
  induction hacc with
  | intro c _ ih =>
      rcases hgo c hc with hdone | ⟨d, hd⟩
      · exact ⟨c, hc, hdone⟩
      · exact ih d hd (hstep c d hc hd)

section Rules

variable (hcache : ∀ w l, P.inv w → P.inv (w.writeBack l) ∧ P.rely a w (w.writeBack l))
include hcache

omit [DecidableEq Actor] [∀ l, DecidableEq (Val l)] in
theorem World.Evicts.rely {w u : World Actor Loc Val Log} (h : World.Evicts w u) (hw : P.inv w) :
    P.inv u ∧ P.rely a w u := by
  induction h with
  | refl => exact ⟨hw, P.rely_refl a w⟩
  | writeBack _ l ih =>
      obtain ⟨hi, hr⟩ := ih
      obtain ⟨hi', hr'⟩ := hcache _ l hi
      exact ⟨hi', P.rely_trans a _ _ _ hr hr'⟩

/-- What is shown of an actor's programs is kept by its own steps. -/
theorem Ensures.of_advances {Q : Phase → World Actor Loc Val Log → Prop}
    (hnext : ∀ x p w, P.inv w → Q x w → S.next a x p → Ensures S P a p Q w)
    {c d : Config Actor Loc Val Log Phase}
    (hw : P.inv c.world) (h : Ensures S P a (c.prog a) Q c.world) (hs : S.Advances a c d) :
    P.inv d.world ∧ Ensures S P a (d.prog a) Q d.world := by
  cases hs with
  | @op w u p o k r u' hev hp ha he =>
      dsimp only at hw h ⊢
      rw [hp] at h
      obtain ⟨hi, hr⟩ := hev.rely hcache hw
      obtain ⟨hg, hk⟩ := (h u hr hi ha).2 r u' he
      rw [Function.update_self]
      exact ⟨hg.1, hk⟩
  | @begin w u p x q hev hp hq =>
      dsimp only at hw h ⊢
      rw [hp] at h
      obtain ⟨hi, hr⟩ := hev.rely hcache hw
      rw [Function.update_self]
      exact ⟨hi, hnext x q u hi (h u hr hi) hq⟩

/-- An actor left to itself comes to an end, when every program it begins leaves
it closer to one. -/
theorem Ensures.acc {Q : Nat → Phase → World Actor Loc Val Log → Prop}
    (hnext : ∀ m x p w, P.inv w → Q m x w → S.next a x p → ∃ k, k < m ∧ Ensures S P a p (Q k) w)
    {m : Nat} {w : World Actor Loc Val Log} {procs : Actor → Prog Actor Loc Val Log Phase}
    (hw : P.inv w)
    (h : Ensures S P a (procs a) (Q m) w) : Acc (fun d c => S.Advances a c d) ⟨w, procs⟩ := by
  induction m using Nat.strong_induction_on generalizing w procs with
  | _ m ih =>
      generalize hp : procs a = p at h
      -- within one program the steps lead down its tree
      induction p generalizing w procs with
      | ret x =>
          refine .intro _ fun d hd => ?_
          cases hd with
          | @op _ u _ o k r u' hev hp' ha he => rw [hp] at hp'; cases hp'
          | @begin _ u _ y q hev hp' hq =>
              rw [hp] at hp'
              cases hp'
              obtain ⟨hi, hr⟩ := hev.rely hcache hw
              obtain ⟨k, hk, he⟩ := hnext m x q u hi (h u hr hi) hq
              exact ih k hk hi (by rw [Function.update_self]; exact he)
      | op o next ihp =>
          refine .intro _ fun d hd => ?_
          cases hd with
          | @op _ u _ o' k r u' hev hp' ha he =>
              rw [hp] at hp'
              cases hp'
              obtain ⟨hi, hr⟩ := hev.rely hcache hw
              obtain ⟨hg, hk⟩ := (h u hr hi ha).2 r u' he
              exact ihp r hg.1 (Function.update_self a _ _) hk
          | @begin _ u _ y q hev hp' hq => rw [hp] at hp'; cases hp'

end Rules

end Mangosteen.PersistentMemory
