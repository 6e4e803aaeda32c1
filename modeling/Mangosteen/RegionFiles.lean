import Mangosteen.Deployment

namespace Mangosteen.RegionFiles

open Transition Deployment

/-- The file that a region gets is the one that `remap_backend` and
`restore_memory` open for its record, and none that backs a region already. -/
structure OwnFile (s s' : State) (record file : Nat) : Prop where
  same : file = record
  unused : s.numberOfEntries ≤ file
  kept : ∀ i, i < s.numberOfEntries → s'.files i = s.files i

/-- Only a process that was launched with an empty region table creates regions. -/
def EmptyTable (s : State) (e : Event) : Prop :=
  ∀ record file, e = .create record file → s.launchedWith = (0, 0)

/-- The counter of `create_pmem_file` goes along with the count of records. -/
def Aligned (s : State) : Prop :=
  match s.back with
  | .ended => True
  | .remap _ => False
  | .copyRegion _ _ | .addRecord _ =>
      s.sequenceNumber = s.words.uncommitedNumberOfEntries + 1 ∧
        s.numberOfEntries ≤ s.words.uncommitedNumberOfEntries
  | .createFile _ record =>
      s.words.uncommitedNumberOfEntries = record + 1 ∧ s.sequenceNumber = record ∧
        s.numberOfEntries ≤ record
  | _ =>
    s.sequenceNumber = s.words.uncommitedNumberOfEntries ∧
      s.numberOfEntries ≤ s.words.uncommitedNumberOfEntries

theorem Aligned.back {s s' : State} {e : Event} (h : Aligned s) (hs : BackStep s e s') :
    Aligned s' := by
  cases hs with
  | remap hpc | remapDone hpc =>
      rw [Aligned, hpc] at h
      exact h.elim
  | mmap hpc _ _ =>
      rw [Aligned, hpc] at h
      exact ⟨rfl, h⟩
  | createFile hpc =>
      rw [Aligned, hpc] at h
      exact ⟨by rw [h.1, h.2.1], by dsimp only; omega⟩
  | transientMmap hpc _ | redo hpc _ =>
      rw [Aligned, hpc] at h
      rw [Aligned]
      simpa only [hpc] using h
  | syncCreate r hpc | syncRecord hpc _ | syncCopy hpc | syncDone hpc | mapRegion hpc
  | commit hpc | commitMetadata hpc
  | regionTableCommit hpc | commitDequeuedEntries hpc =>
      rw [Aligned, hpc] at h
      simp only [Aligned]
      omega

theorem Aligned.front {s s' : State} {e : Event} (h : Aligned s) (hs : FrontStep s e s') :
    Aligned s' := by
  cases hs <;> exact h

/-- A process launched with an empty table keeps the two together. -/
def StartsAligned (s : State) : Prop := s.launchedWith = (0, 0) → Aligned s

theorem startsAligned_of_reachable {admits : State → Event → Prop} {s : State}
    (h : Reachable Initial (Steps admits) s) : StartsAligned s := by
  refine h.invariant (fun s hs _ => ?_) fun s s' hi ⟨e, hs⟩ => ?_
  · obtain ⟨files, rfl⟩ := hs
    trivial
  · cases hs with
    | back _ hb =>
        have hl : s'.launchedWith = s.launchedWith := by cases hb <;> rfl
        exact fun h => (hi (hl ▸ h)).back hb
    | front _ hf =>
        have hl : s'.launchedWith = s.launchedWith := by cases hf <;> rfl
        exact fun h => (hi (hl ▸ h)).front hf
    | writeBack d _ _ _ => exact hi
    | crash => exact fun _ => trivial
    | launch image _ _ =>
        intro hw
        obtain ⟨hn, hu⟩ := Prod.mk.inj hw
        simp [Aligned, launchMangosteen, hn, hu]

/-- In every history in which only processes launched with an empty region table
create regions, each region gets a file of its own. -/
theorem new_region_gets_own_file (s s' : State) (record file : Nat)
    (h : Reachable Initial (Steps EmptyTable) s)
    (hs : Step EmptyTable s (.create record file) s') : OwnFile s s' record file := by
  have hal := startsAligned_of_reachable h
  have hkept : ∀ k, s.numberOfEntries ≤ k → ∀ i, i < s.numberOfEntries →
      truncateFile s.files k i = s.files i :=
    fun k hk i hi => Function.update_of_ne (by omega) _ _
  cases hs with
  | back ha hb =>
      have hal := hal (ha record file rfl)
      cases hb with
      | syncCreate r hpc =>
          simp only [Aligned, hpc] at hal
          exact ⟨hal.1, by omega, hkept _ (by omega)⟩
      | createFile hpc =>
          simp only [Aligned, hpc] at hal
          exact ⟨hal.2.1, by omega, hkept _ (by omega)⟩
  | front _ hf => cases hf

section FirstRun

variable {s s' : State} {e : Event}

theorem reachable_back (h : Reachable Initial (Steps EmptyTable) s) (hl : s.launchedWith = (0, 0))
    (hb : BackStep s e s') : Reachable Initial (Steps EmptyTable) s' :=
  h.next ⟨e, .back (fun _ _ _ => hl) hb⟩

/-- The second region of a first run, while the file of the first holds fives. -/
theorem new_region_gets_own_file_second : ∃ s s', Reachable Initial (Steps EmptyTable) s ∧
    Step EmptyTable s (.create 1 1) s' ∧ s.numberOfEntries = 1 ∧ s.files 0 0 = 5 ∧
    OwnFile s s' 1 1 := by
  have hstart : Reachable Initial (Steps EmptyTable) blank := .start ⟨_, rfl⟩
  have hlaunch := hstart.next ⟨.other, .launch (fun _ => 5) rfl rfl⟩
  have hregion :=
    reachable_back (reachable_back hlaunch rfl (.syncCreate ⟨4096, 4096⟩ rfl)) rfl (.syncCopy rfl)
  have hdone :=
    reachable_back (reachable_back hregion rfl (.syncRecord rfl (by decide))) rfl (.syncDone rfl)
  have hmapped := hdone.next ⟨.other, .front (fun _ _ _ => rfl) (.mmap 8192 4096 true rfl)⟩
  have hrecord := reachable_back hmapped rfl (.mmap rfl rfl (by decide))
  refine ⟨_, _, hrecord, .back (fun _ _ _ => rfl) (.createFile rfl), rfl, by decide +kernel, ?_⟩
  exact new_region_gets_own_file _ _ 1 1 hrecord (.back (fun _ _ _ => rfl) (.createFile rfl))

end FirstRun

/-- The region that a recovered process creates takes the file of the first. -/
theorem not_new_region_gets_own_file : ¬ ∀ (s s' : State) (record file : Nat), Occurs s →
    Step (fun _ _ => True) s (.create record file) s' → OwnFile s s' record file := by
  intro h
  obtain ⟨s, hs, hback, hfront, hentries, hrecords, hnumber, hhead, -, -⟩ := occurs_recovered
  have hmapped := hs.front (.mmap 8192 4096 true hfront)
  have hentry : (s.published ++ [Memory.Entry.mmap 8192 4096, .commit])[s.globalLocalHead]? =
      some (.mmap 8192 4096) := by
    rw [hhead, List.getElem?_append_right (Nat.le_refl _), Nat.sub_self]
    rfl
  have hrecord := hmapped.back (.mmap hback hentry (by rw [hrecords]; decide))
  have hown := h _ _ _ _ hrecord (.back trivial (.createFile rfl))
  exact absurd hown.same (by rw [hnumber, hrecords]; decide)

end Mangosteen.RegionFiles
