import Mangosteen.Deployment

namespace Mangosteen.PrivateStores

open Transition Memory Deployment

/-- The region files hold what the creation of regions and the published entries
that were applied have put there. -/
def FromPublished (s : Deployment.State) : Prop := s.files = s.image

/-- No store of the front end goes to an address where `restore_memory` has mapped
a region file. -/
def Unshared (s : Deployment.State) (e : Event) : Prop :=
  ∀ addr, e = .store addr → ∀ index offset, translate s.frontMap addr ≠ .file index offset

theorem files_write {b : Bytes} {ms : List Mapping} {addr : Nat}
    (h : ∀ index offset, translate ms addr ≠ .file index offset)
    (v : UInt8) : (b.write ms addr v).files = b.files := by
  rw [Bytes.write]
  split
  · rename_i index offset hf
    exact absurd hf (h index offset)
  · rfl

theorem FromPublished.back {s s' : Deployment.State} {e : Event} (h : FromPublished s)
    (hs : BackStep s e s') : FromPublished s' := by
  cases hs with
  | syncCreate | createFile => exact congrArg (truncateFile · s.sequenceNumber) h
  | @syncCopy r file => exact congrArg (copyTo · file r s.backMemory) h
  | @redo addr payload =>
    exact congrArg (fun f => (Bytes.writePayload ⟨f, s.backMemory⟩ s.backMap addr payload).files) h
  | _ => exact h

theorem FromPublished.front {s s' : Deployment.State} {e : Event}
    (h : FromPublished s) (hu : Unshared s e) (hs : FrontStep s e s') : FromPublished s' := by
  cases hs with
  | store addr v lines _ => exact (files_write (hu addr rfl) v).trans h
  | _ => exact h

/-- In every history without such a store, the files never show a store that was
not published. -/
theorem unpublished_stores_stay_private (s : Deployment.State)
    (h : Reachable Initial (Steps Unshared) s) : FromPublished s := by
  refine h.invariant (fun s hs => ?_) fun s s' hi ⟨e, hs⟩ => ?_
  · obtain ⟨files, rfl⟩ := hs
    rfl
  · cases hs with
    | back _ hb => exact hi.back hb
    | front ha hf => exact hi.front ha hf
    | writeBack => exact hi
    | crash => exact hi
    | launch => exact hi

section FirstRun

variable {s s' : Deployment.State} {e : Event}

theorem reachable_back (h : Reachable Initial (Steps Unshared) s) (hb : BackStep s e s') :
    Reachable Initial (Steps Unshared) s' := by
  refine h.next ⟨e, .back ?_ hb⟩
  rintro addr rfl
  cases hb

theorem reachable_store (h : Reachable Initial (Steps Unshared) s) (hs : s.front = .running)
    (hmap : s.frontMap = []) (addr : Nat) (v : UInt8) (lines : List Nat) :
    Reachable Initial (Steps Unshared) { s with
      files := (s.frontBytes.write s.frontMap addr v).files
      frontMemory := (s.frontBytes.write s.frontMap addr v).memory
      lines := s.lines ++ lines } := by
  refine h.next ⟨_, .front ?_ (.store addr v lines hs)⟩
  rintro _ ⟨⟩ index offset
  rw [hmap]
  simp [Memory.translate]

theorem reachable_publish (h : Reachable Initial (Steps Unshared) s) (hs : s.front = .running) :
    Reachable Initial (Steps Unshared)
      { s with published := s.published ++ s.redoEntries ++ [.commit], lines := [] } :=
  h.next ⟨_, .front (by rintro _ ⟨⟩) (.publish hs)⟩

/-- A first run that has published one store, which the back end has applied, and
then made another. -/
theorem unpublished_stores_stay_private_applied : ∃ s, Reachable Initial (Steps Unshared) s ∧
    s.files 0 0 = 7 ∧ s.files 0 1 = 0 ∧ s.frontBytes.read s.frontMap 4097 = 9 ∧
    FromPublished s := by
  have hstart : Reachable Initial (Steps Unshared) blank := .start ⟨_, rfl⟩
  have hfirst := hstart.next ⟨_, .launch (fun _ => 0) rfl rfl⟩
  have hregion :=
    reachable_back (reachable_back hfirst (.syncCreate ⟨4096, 4096⟩ rfl)) (.syncCopy rfl)
  have hdone :=
    reachable_back (reachable_back hregion (.syncRecord rfl (by decide))) (.syncDone rfl)
  have hpublished := reachable_publish (reachable_store hdone rfl rfl 4096 7 [4096]) rfl
  have happlied := reachable_back hpublished (.redo rfl rfl)
  have hstored := reachable_store happlied rfl rfl 4097 9 [4096]
  refine ⟨_, hstored, ?_, ?_, ?_, unpublished_stores_stay_private _ hstored⟩
  · decide +kernel
  · decide +kernel
  · decide +kernel

end FirstRun

/-- A recovered front end stores to the file of a region at once. -/
theorem not_unpublished_stores_stay_private : ¬ ∀ s, Occurs s → FromPublished s := by
  intro h
  obtain ⟨s, hs, -, hfront, -, -, -, -, hmap, himage⟩ := occurs_recovered
  have hstored := h _ (hs.front (.store 4096 (s.files 0 0 + 1) [4096] hfront))
  have hbyte := congrFun (congrFun hstored 0) 0
  have hfile : translate s.frontMap 4096 = .file 0 0 := by
    rw [hmap]
    rfl
  simp only [Bytes.write, hfile, State.frontBytes, Function.update_self] at hbyte
  rw [← himage] at hbyte
  exact absurd hbyte (by simp)

end Mangosteen.PrivateStores
