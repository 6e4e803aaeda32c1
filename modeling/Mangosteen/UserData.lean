import Mangosteen.BlockPools

namespace Mangosteen.UserData

open ByteMemory TransientAllocator Carving BlockPools

/-- The sizes that are given blocks of at least 16 bytes. -/
def Sizes (size : Nat) : Prop := 9 ≤ size ∧ size ≤ 32768

/-- The lists are linked as the queues say, which know nothing of what was
written, and the next `alloc` returns a block that was carved and is not in
use. -/
structure Uncorrupted (ok : Call → Heap → Prop) (p : Pools) (h : Heap) : Prop where
  linked : ∀ i < maxBlockPow, ∃ list, h.allocator.pMemoryNodeList[i]? = some list ∧
    Linked h.memory list.first (p.free i)
  alloc : ∀ size addr, ok (.alloc size addr) h → ∃ h' n i, perform (.alloc size addr) h = some h' ∧
    h'.live = (n + headerSize, i) :: h.live ∧ Carved h'.chunks (n, i) ∧
    ∀ x ∈ h.live, x.1 ≠ n + headerSize

/-- The owners write what they like, but free a block only with its own address
behind its first four bytes. The largest blocks are not carved. -/
def Careful (x : Call) (h : Heap) : Prop :=
  Proper (fun size => Sizes size ∧ size ≤ 16384) x h ∧ Kept x h

theorem careful_step (p : Pools) (h : Heap) (x : Call)
    (hr : ∃ dirty first, Represents p dirty first h)
    (hx : Careful x h) :
    ∃ h', perform x h = some h' ∧ ∃ dirty first, Represents (p.step x) dirty first h' := by
  obtain ⟨dirty, first, hr⟩ := hr
  obtain ⟨h', first', dirty', heq, -, hr'⟩ := hr.perform (fun _ h => ⟨h.1.1, h.2⟩) hx.1 hx.2
  exact ⟨h', heq, dirty', first', hr'⟩

/-- In a run of careful owners nothing they write is seen by the allocator. -/
theorem user_data_unseen (m : Memory) (xs : List Call) (hxs : Along Careful xs (start m)) :
    ∃ h, performAll xs (start m) = some h ∧ Uncorrupted Careful (Pools.run {} xs) h := by
  obtain ⟨h, heq, dirty, first, hr⟩ :=
    performAll_induction ⟨_, _, represents_start m⟩ careful_step hxs
  refine ⟨h, heq, fun i hi => ⟨_, hr.list hi, hr.linked i⟩, fun size addr hok => ?_⟩
  obtain ⟨⟨hsize, hfresh⟩, -⟩ := hok
  obtain ⟨h', first', n, hperform, -, hlive, hcarved, hunused⟩ :=
    hr.alloc ⟨hsize.1.1, hsize.2⟩ hfresh
  exact ⟨h', n, _, hperform, hlive, hcarved, hunused⟩

theorem fresh_start (m : Memory) : Fresh (2 ^ 46) (start m) :=
  ⟨mapping_far, fun _ hc => absurd hc List.not_mem_nil⟩

section Overwritten

variable {ok : Call → Heap → Prop} {h h' : Heap} {x : Call} {xs : List Call}
  {n : Nat} {nodes : List Nat}

theorem along_cons (hx : ok x h) (heq : perform x h = some h') (hxs : Along ok xs h') :
    Along ok (x :: xs) h := by
  refine ⟨hx, fun h'' heq' => ?_⟩
  obtain rfl := Option.some.inj (heq.symm.trans heq')
  exact hxs

/-- The list of the blocks of 16384 bytes. -/
def Listed (h : Heap) (nodes : List Nat) : Prop :=
  ∃ list, h.allocator.pMemoryNodeList[14]? = some list ∧ Linked h.memory list.first nodes

theorem index_largest : getBlockIndex 16384 = some 14 := by decide

theorem Listed.not_grows (hl : Listed h (n :: nodes)) : ¬ Grows 16384 h := by
  rintro ⟨index, list', hindex, hlist', hempty⟩
  obtain ⟨list, hlist, hlinked⟩ := hl
  obtain rfl := Option.some.inj (index_largest.symm.trans hindex)
  obtain rfl := Option.some.inj (hlist.symm.trans hlist')
  exact List.cons_ne_nil n nodes ((listIsEmpty_iff hlinked).mp hempty)

theorem Listed.proper (hl : Listed h (n :: nodes)) (addr : Nat) :
    Proper Sizes (.alloc 16384 addr) h :=
  ⟨⟨by decide, by decide⟩, fun hgrows => absurd hgrows hl.not_grows⟩

theorem Listed.alloc (hl : Listed h (n :: nodes)) (addr : Nat) :
    ∃ h', perform (.alloc 16384 addr) h = some h' ∧ Listed h' nodes ∧ h'.memory = h.memory ∧
      h'.live = (usableSpace h.memory n, 14) :: h.live := by
  obtain ⟨list, hlist, hlinked⟩ := hl
  have hlt := (List.getElem?_eq_some_iff.mp hlist).1
  refine ⟨_, perform_alloc_linked index_largest hlist hlinked, ?_, rfl, rfl⟩
  exact ⟨_, List.getElem?_set_self hlt, (popMemoryBlock_eq hlinked).2⟩

end Overwritten

/-- A block is filled and freed, and another one is allocated. Its own address stays
as it is. -/
def filled (addr : Nat) : List Call :=
  [.alloc 16384 addr, .write (addr + headerSize) 12 16372 (fun _ => 7), .free (addr + headerSize),
    .alloc 16384 addr]

/-- A block is overwritten with zeros and freed, and the two other blocks of the
chunk are allocated. -/
def overwritten (addr : Nat) : List Call :=
  [.alloc 16384 addr, .write (addr + headerSize) 4 8 (fun _ => 0), .free (addr + headerSize),
    .alloc 16384 addr, .alloc 16384 addr]

section Run

variable {addr : Nat}

theorem chunkNodes_largest (addr : Nat) :
    chunkNodes (2 ^ 14) addr = [addr, addr + 16396, addr + 32792] := by
  have hcount : mmapBlockSize / (2 ^ 14 + headerSize) = 3 := by decide
  rw [chunkNodes, hcount]
  rfl

theorem step_largest (addr : Nat) : Pools.step {} (.alloc 16384 addr) =
    { free := Function.update (Function.update (fun _ => []) 14 (chunkNodes (2 ^ 14) addr)) 14
        [addr + 16396, addr + 32792]
      live := [(addr, 14)] } := by
  have hclog : Nat.clog 2 16384 = 14 :=
    Option.some.inj ((getBlockIndex_eq (by decide)).symm.trans index_largest)
  have hgrow : Pools.grow {} 14 addr =
      { free := Function.update (fun _ => []) 14 (chunkNodes (2 ^ 14) addr) } :=
    Pools.grow_of_eq_nil rfl
  rw [Pools.step, hclog, hgrow]
  apply Pools.take_eq
  dsimp only
  rw [Function.update_self, chunkNodes_largest]

theorem filled_along (m : Memory) (hfresh : Fresh addr (start m)) :
    Along Careful (filled addr) (start m) := by
  obtain ⟨h₁, first, n, heq, hr, -⟩ :=
    @Represents.alloc _ _ _ _ 16384 addr (represents_start m) ⟨by decide, by decide⟩ fun _ => hfresh
  rw [step_largest] at hr
  have hlive : (addr + headerSize, 14) ∈ h₁.live := by
    rw [hr.live]
    exact List.mem_singleton_self _
  have hcarved := hr.carved_live (addr, 14) (List.mem_singleton_self _)
  have husable : h₁.memory.load (addr + headerSize + 4) 8 = addr + headerSize :=
    hr.usable (addr, 14) hcarved (Set.notMem_empty _)
  have hwrite :=
    @Represents.write _ _ _ _ _ _ hr 12 16372 (fun _ => 7) (List.mem_singleton_self _) (by decide)
  have hkept : (h₁.memory.overwrite (addr + headerSize + 12) 16372 fun _ => 7).load
      (addr + headerSize + 4) 8 = addr + headerSize := by
    rw [Memory.load_overwrite_of_disjoint (.inl (by omega)), husable]
  obtain ⟨h₃, first₃, dirty₃, hfreed, -, hr₃, hfree⟩ := hwrite.free hlive hkept
  have hlisted : Listed h₃ ([addr + 16396, addr + 32792] ++ [nodeOf (addr + headerSize)]) := by
    refine ⟨_, hr₃.list (by decide), ?_⟩
    have hlinked := hr₃.linked 14
    rw [hfree] at hlinked
    dsimp only at hlinked
    rwa [Function.update_self] at hlinked
  refine along_cons ⟨⟨⟨⟨by decide, by decide⟩, by decide⟩, fun _ => hfresh⟩, trivial⟩ heq ?_
  refine along_cons ⟨⟨14, _, hlive, hr.list (by decide), show 12 + 16372 ≤ 1 <<< 14 by decide⟩,
    trivial⟩ rfl ?_
  refine along_cons ⟨⟨14, hlive⟩, hkept⟩ hfreed
    ⟨⟨⟨⟨⟨by decide, by decide⟩, by decide⟩, ?_⟩, trivial⟩, fun _ _ => trivial⟩
  exact fun hgrows => absurd hgrows hlisted.not_grows

theorem user_data_unseen_filled :
    ∃ h, performAll (filled (2 ^ 46)) (start { bytes := fun _ => 0 }) = some h ∧
    Uncorrupted Careful (Pools.run {} (filled (2 ^ 46))) h :=
  user_data_unseen _ _ (filled_along _ (fresh_start _))

theorem overwritten_before_free (m : Memory) (hfresh : Fresh addr (start m)) :
    ∃ h₁ h₂ p dirty first, perform (.alloc 16384 addr) (start m) = some h₁ ∧
      Proper Sizes (.write (addr + headerSize) 4 8 (fun _ => 0)) h₁ ∧
      perform (.write (addr + headerSize) 4 8 (fun _ => 0)) h₁ = some h₂ ∧
      Represents p dirty first h₂ ∧ (addr + headerSize, 14) ∈ h₂.live ∧
      p.free 14 = [addr + 16396, addr + 32792] ∧ usableSpace h₂.memory addr = 0 := by
  obtain ⟨h₁, first, n, heq, hr, -⟩ :=
    @Represents.alloc _ _ _ _ 16384 addr (represents_start m) ⟨by decide, by decide⟩ fun _ => hfresh
  rw [step_largest] at hr
  have hlive : (addr + headerSize, 14) ∈ h₁.live := by
    rw [hr.live]
    exact List.mem_singleton_self _
  have hwrite :=
    @Represents.write _ _ _ _ _ _ hr 4 8 (fun _ => 0) (List.mem_singleton_self _) (by decide)
  refine ⟨h₁, _, _, _, first, heq, ?_, rfl, hwrite, hlive, ?_, ?_⟩
  · exact ⟨14, _, hlive, hr.list (by decide), show 4 + 8 ≤ 1 <<< 14 by decide⟩
  · dsimp only
    rw [Function.update_self]
  · have haddr : addr + 16 = addr + headerSize + 4 := rfl
    rw [usableSpace, haddr]
    apply Memory.load_zero
    intro i hi
    dsimp only
    rw [Memory.overwrite_of_lt hi]

theorem overwritten_run (m : Memory) (hfresh : Fresh addr (start m)) :
    ∃ h, Along (Proper Sizes) (overwritten addr) (start m) ∧
    performAll (overwritten addr) (start m) = some h ∧
      Listed h [addr] ∧ usableSpace h.memory addr = 0 := by
  obtain ⟨h₁, h₂, p, dirty, first, halloc, hproper, hwrite, hr, hlive, hfree, husable⟩ :=
    overwritten_before_free m hfresh
  have hspaced : Spaced [addr, addr + 16396, addr + 32792] := by
    rw [← chunkNodes_largest]
    exact spaced_chunkNodes hfresh.1 (room_pow ⟨by decide, by decide⟩)
  have hlinked := hr.linked 14
  rw [hfree] at hlinked
  obtain ⟨f, m₃, hpush, hlinked₃, hlinks⟩ :=
    @pushBlock_eq _ ⟨1 <<< 14, first 14⟩ _ _ hlinked hspaced hfresh.1.pos.ne'
  rw [List.cons_append, List.cons_append, List.nil_append] at hlinked₃
  have hlist := hr.list (show 14 < maxBlockPow by decide)
  have hlt := (List.getElem?_eq_some_iff.mp hlist).1
  have hfreed : perform (.free (addr + headerSize)) h₂ = some { h₂ with
      allocator := ⟨h₂.allocator.pMemoryNodeList.set 14 ⟨1 <<< 14, f⟩⟩
      memory := m₃
      live := h₂.live.filter (·.1 ≠ addr + headerSize) } := by
    rw [perform, free_eq (hr.freedIndex hlive).1 hlist, hpush]
    rfl
  have hlisted : Listed { h₂ with
      allocator := ⟨h₂.allocator.pMemoryNodeList.set 14 ⟨1 <<< 14, f⟩⟩
      memory := m₃
      live := h₂.live.filter (·.1 ≠ addr + headerSize) } [addr + 16396, addr + 32792, addr] :=
    ⟨_, List.getElem?_set_self hlt, hlinked₃⟩
  obtain ⟨h₄, heq₄, hlisted₄, hmemory₄, -⟩ := hlisted.alloc addr
  obtain ⟨h₅, heq₅, hlisted₅, hmemory₅, -⟩ := hlisted₄.alloc addr
  refine ⟨h₅, ?_, ?_, hlisted₅, ?_⟩
  · exact along_cons ⟨⟨by decide, by decide⟩, fun _ => hfresh⟩ halloc
      (along_cons hproper hwrite (along_cons ⟨14, hlive⟩ hfreed
        (along_cons (hlisted.proper _) heq₄ (along_cons (hlisted₄.proper _) heq₅ trivial))))
  · rw [overwritten, performAll_cons halloc, performAll_cons hwrite, performAll_cons hfreed,
      performAll_cons heq₄, performAll_cons heq₅]
    rfl
  · rw [hmemory₅, hmemory₄]
    refine (hlinks.usableSpace fun k hk => ?_).trans husable
    by_cases he : k = addr
    · exact .inl he
    · exact .inr (hspaced.apart.forall hk List.mem_cons_self he)

end Run

theorem not_user_data_unseen :
    ¬ ∀ (m : Memory) (xs : List Call), Along (Proper Sizes) xs (start m) →
    ∃ h, performAll xs (start m) = some h ∧ Uncorrupted (Proper Sizes) (Pools.run {} xs) h := by
  intro hall
  obtain ⟨h, halong, hrun, hlisted, hzero⟩ :=
    overwritten_run { bytes := fun _ => 0 } (fresh_start _)
  obtain ⟨h', hrun', huncorrupted⟩ := hall _ _ halong
  obtain rfl := Option.some.inj (hrun.symm.trans hrun')
  obtain ⟨h₁, heq, -, -, hlive⟩ := hlisted.alloc (2 ^ 46)
  obtain ⟨h₂, n, i, heq', hlive', -⟩ := huncorrupted.alloc 16384 (2 ^ 46) (hlisted.proper _)
  obtain rfl := Option.some.inj (heq.symm.trans heq')
  rw [hlive, hzero] at hlive'
  have hptr := (Prod.mk.inj (List.cons.inj hlive').1).1
  simp only [headerSize] at hptr
  omega

end Mangosteen.UserData
