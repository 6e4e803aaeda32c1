import Mangosteen.Library.Cyclic
import Mangosteen.Library.Ownership
import Mangosteen.RingBuffer

namespace Mangosteen.Slots

open PersistentMemory Memory RingBuffer

def slotOf : Loc → Option Nat
  | .entryType slot | .entryAddr slot | .entrySize slot | .payload slot _ => some slot
  | _ => none

theorem slotOf_of_mem {slot : Nat} {e : Entry} {s : Sigma Val} (h : s ∈ entryStores slot e) :
    slotOf s.1 = some slot := by
  cases e <;> simp only [entryStores, List.mem_cons, List.not_mem_nil, or_false, List.mem_map] at h
  · rcases h with rfl | rfl | ⟨k, -, rfl⟩ <;> rfl
  · rcases h with rfl | rfl | rfl <;> rfl
  · rcases h with rfl | rfl | rfl <;> rfl
  · subst h; rfl

theorem ne_of_slotOf_none {slot : Nat} {e : Entry} {s : Sigma Val}
    (h : s ∈ entryStores slot e) {l : Loc} (hl : slotOf l = none) : s.1 ≠ l := by
  rintro rfl
  simp [slotOf_of_mem h] at hl

theorem mem_slotLocs {l : Loc} {slot : Nat} : l ∈ slotLocs slot ↔ slotOf l = some slot := by
  cases l <;> simp [slotLocs, slotOf, List.mem_finRange, eq_comm]

theorem eq_of_mem {slot : Nat} {e : Entry} {s t : Sigma Val} (hs : s ∈ entryStores slot e)
    (ht : t ∈ entryStores slot e) (h : s.1 = t.1) : s = t := by
  cases e <;>
    simp only [entryStores, List.mem_cons, List.not_mem_nil, or_false, List.mem_map] at hs ht
  · rcases hs with rfl | rfl | ⟨j, -, rfl⟩ <;> rcases ht with rfl | rfl | ⟨k, -, rfl⟩ <;>
      cases h <;> rfl
  · rcases hs with rfl | rfl | rfl <;> rcases ht with rfl | rfl | rfl <;> cases h <;> rfl
  · rcases hs with rfl | rfl | rfl <;> rcases ht with rfl | rfl | rfl <;> cases h <;> rfl
  · rw [hs, ht]

/-- A slot that shows an entry to whoever reads it. -/
def Holds (m : (l : Loc) → Val l) (slot : Nat) (e : Entry) : Prop :=
  ∀ s ∈ entryStores slot e, m s.1 = s.2

section Holds

variable {m : (l : Loc) → Val l} {slot : Nat} {e : Entry}

theorem Holds.entryType (h : Holds m slot e) : m (.entryType slot) = e.entryType := by
  cases e with
  | redo addr payload => exact h ⟨.entryType slot, .redo⟩ (by simp [entryStores])
  | mmap addr size => exact h ⟨.entryType slot, .mmap⟩ (by simp [entryStores])
  | transientMmap addr size => exact h ⟨.entryType slot, .transientMmap⟩ (by simp [entryStores])
  | commit => exact h ⟨.entryType slot, .commit⟩ (by simp [entryStores])

theorem Holds.redo {addr : Nat} {payload : Payload} (h : Holds m slot (.redo addr payload)) :
    m (.entryAddr slot) = addr ∧ ∀ k, m (.payload slot k) = payload k :=
  ⟨h ⟨.entryAddr slot, addr⟩ (by simp [entryStores]),
    fun k => h ⟨.payload slot k, payload k⟩ (by simp [entryStores])⟩

theorem Holds.mmap {addr size : Nat} (h : Holds m slot (.mmap addr size)) :
    m (.entryAddr slot) = addr ∧ m (.entrySize slot) = size :=
  ⟨h ⟨.entryAddr slot, addr⟩ (by simp [entryStores]),
    h ⟨.entrySize slot, size⟩ (by simp [entryStores])⟩

theorem Holds.transientMmap {addr size : Nat} (h : Holds m slot (.transientMmap addr size)) :
    m (.entryAddr slot) = addr ∧ m (.entrySize slot) = size :=
  ⟨h ⟨.entryAddr slot, addr⟩ (by simp [entryStores]),
    h ⟨.entrySize slot, size⟩ (by simp [entryStores])⟩

end Holds

variable {N : Nat}

theorem nextIndex_mod (hN : 1 < N) (i : Nat) : nextIndex N (i % N) = (i + 1) % N :=
  Cyclic.succ_mod hN i

/-- The slots from count `b` on hold the entries enqueued there, flushed; those
before count `n` are durable. -/
structure Filled (N b : Nat) (es : List Entry) (n : Nat) (w : State) : Prop where
  stored : ∀ i e s, b ≤ i → es[i]? = some e → s ∈ entryStores (i % N) e →
    w.cur s.1 = s.2 ∧ w.Settled .frontEnd s.1
  durable : ∀ i e s, b ≤ i → i < n → es[i]? = some e → s ∈ entryStores (i % N) e →
    w.Durable .frontEnd s.1

namespace Filled

variable {b c n : Nat} {es : List Entry} {u w : State}

theorem holds (h : Filled N b es n w) {i : Nat} {e : Entry} (hb : b ≤ i) (he : es[i]? = some e) :
    Holds w.cur (i % N) e :=
  fun s hs => (h.stored i e s hb he hs).1

theorem holds_per (h : Filled N b es n w) {i : Nat} {e : Entry} (hb : b ≤ i) (hi : i < n)
    (he : es[i]? = some e) : Holds w.per (i % N) e :=
  fun s hs => (h.durable i e s hb hi he hs).2.trans (h.stored i e s hb he hs).1

theorem undisturbed {own : Loc → Prop} (h : Filled N b es n w) (hbc : b ≤ c)
    (hown : ∀ l slot, slotOf l = some slot → own l) (hu : Undisturbed own .frontEnd w u) :
    Filled N c es n u := by
  refine ⟨fun i e s hc he hs => ?_, fun i e s hc hn he hs => ?_⟩
  · obtain ⟨hv, hset⟩ := h.stored i e s (hbc.trans hc) he hs
    have ho := hown s.1 _ (slotOf_of_mem hs)
    exact ⟨(hu.cur s.1 ho).trans hv, hu.settled s.1 ho hset⟩
  · exact hu.durable s.1 (hown s.1 _ (slotOf_of_mem hs)) (h.durable i e s (hbc.trans hc) hn he hs)

theorem store_of_slotOf {l : Loc} {v : Val l} {f : Log → Log} (h : Filled N b es n w)
    (hl : slotOf l = none) : Filled N b es n (w.store l v f) :=
  h.undisturbed le_rfl (fun _ _ hs => Option.isSome_iff_exists.mpr ⟨_, hs⟩) (.store (by simp [hl]))

theorem ne_of_mem (hlt : es.length < b + N) {i : Nat} {e : Entry} {s : Sigma Val}
    {l : Loc} (hb : b ≤ i)
    (he : es[i]? = some e) (hs : s ∈ entryStores (i % N) e) (hl : slotOf l = some (es.length % N)) :
    s.1 ≠ l := by
  intro hsl
  have hi := (List.getElem?_eq_some_iff.mp he).1
  have hmod : i % N = es.length % N := by
    have := slotOf_of_mem hs
    rw [hsl, hl] at this
    exact (Option.some.inj this).symm
  exact Cyclic.mod_ne_of_lt hi (by omega) hmod

theorem store {l : Loc} {v : Val l} {f : Log → Log} (h : Filled N b es n w)
    (hlt : es.length < b + N)
    (hl : slotOf l = some (es.length % N)) : Filled N b es n (w.store l v f) := by
  refine ⟨fun i e s hb he hs => ?_, fun i e s hb hn he hs => ?_⟩
  · obtain ⟨hv, hset⟩ := h.stored i e s hb he hs
    have hne := ne_of_mem hlt hb he hs hl
    exact ⟨(World.store_cur_of_ne w s.1 l f v hne).trans hv, World.settled_store_of_ne hne hset⟩
  · have hne := ne_of_mem hlt hb he hs hl
    simpa [World.Durable, World.store_cur_of_ne w s.1 l f v hne] using h.durable i e s hb hn he hs

theorem flush (h : Filled N b es n w) (hlt : es.length < b + N) :
    Filled N b es n (w.flush .frontEnd (slotLocs (es.length % N))) := by
  refine ⟨fun i e s hb he hs => ?_, fun i e s hb hn he hs => ?_⟩
  · obtain ⟨hv, hset⟩ := h.stored i e s hb he hs
    exact ⟨hv, World.settled_flush hset⟩
  · have hne : s.1 ∉ slotLocs (es.length % N) :=
      fun hm => ne_of_mem hlt hb he hs (mem_slotLocs.mp hm) rfl
    have hd := h.durable i e s hb hn he hs
    rwa [World.Durable, World.flush_pending_of_not_mem w _ _ s.1 _ hne]

theorem append {e : Entry} (h : Filled N b es n w) (hn : n ≤ es.length)
    (he : ∀ s ∈ entryStores (es.length % N) e, w.cur s.1 = s.2 ∧ w.Settled .frontEnd s.1) :
    Filled N b (es ++ [e]) n w := by
  refine ⟨fun i d s hb hd hs => ?_, fun i d s hb hi hd hs => ?_⟩
  · rcases Nat.lt_trichotomy i es.length with hi | rfl | hi
    · rw [List.getElem?_append_left hi] at hd
      exact h.stored i d s hb hd hs
    · simp only [List.getElem?_concat_length, Option.some.injEq] at hd
      subst hd
      exact he s hs
    · rw [List.getElem?_eq_none (by simp; omega)] at hd
      cases hd
  · rw [List.getElem?_append_left (by omega)] at hd
    exact h.durable i d s hb hi hd hs

theorem fence (h : Filled N b es n w) : Filled N b es es.length (w.fence .frontEnd) := by
  refine ⟨fun i e s hb he hs => ?_, fun i e s hb _ he hs => ?_⟩
  · obtain ⟨hv, hset⟩ := h.stored i e s hb he hs
    exact ⟨hv, (World.durable_fence hset).settled⟩
  · exact World.durable_fence (h.stored i e s hb he hs).2

theorem of_le {k : Nat} (h : Filled N b es n w) (hk : k ≤ n) : Filled N b es k w :=
  ⟨h.stored, fun i e s hb hi => h.durable i e s hb (hi.trans_le hk)⟩

end Filled

end Mangosteen.Slots
