/-
# Runs of the frame allocator

Two kinds of run from the state that `populate` leaves.

* `Reachable` allows every call that does not panic, releases of frames that were
  never allocated included.  The representation invariant holds in every state it
  reaches (`representation_invariant`), so the lists can be trusted.
* `Run` also keeps the blocks that are out, and a release must name one of them.
  Along such a run the frames have exactly one owner each
  (`outstanding_blocks_exclusive`): the allocator, or one outstanding block.
-/
import DoomOs.PmmInitial

namespace DoomOs

namespace Pmm

open LinkedList Comp

/-! ## The initial state -/

theorem listed_zero (m : FrameMap) : Listed { zero with frames := m } (fun _ => []) := by
  refine ⟨⟨fun h => ?_, fun _ => List.nodup_nil, fun _ _ h => ?_, fun _ _ _ h => ?_⟩,
    fun h i _ => ?_⟩
  · cases h <;> rfl
  · cases h
  · cases h
  · constructor
    · intro hm
      cases hm
    · intro hl
      cases hl

/-- The last loop of `populate` makes the counters and the lists follow the bitmap. -/
theorem inv_countBlocks : ∀ (n index : ℕ) (s : Pmm), (∃ l, Listed s l) → index + n = blockCount →
    (∀ i < index, (s.blocks i).free
      = s.frames.setCount (i * framesPerBlock) ((i + 1) * framesPerBlock)) →
    (s.countBlocks index n).Inv := by
  have hW : 0 < 64 := by decide
  intro n
  induction n with
  | zero =>
    intro index s hl hend hc
    rw [Nat.add_zero] at hend
    subst hend
    exact ⟨hc, hl⟩
  | succ n ih =>
    rintro index s ⟨l, hl⟩ hend hc
    have hcount : s.frames.countSet (index * wordsPerBlock) wordsPerBlock
        = s.frames.setCount (index * framesPerBlock) ((index + 1) * framesPerBlock) := by
      rw [Bitmap.countSet_eq hW]
      congr 1 <;> simp only [wordsPerBlock, framesPerBlock] <;> omega
    have hle : s.frames.setCount (index * framesPerBlock) ((index + 1) * framesPerBlock)
        ≤ framesPerBlock := by
      refine (Bitmap.setCount_le _ _ _).trans ?_
      simp only [framesPerBlock]
      omega
    rw [countBlocks, hcount]
    obtain ⟨hl', hfree'⟩ := setFree_listed hl (by omega : index < blockCount) hle
    refine ih (index + 1) _ ⟨_, hl'⟩ (by omega) (fun i hi => ?_)
    rw [hfree', frames_setFree]
    by_cases hii : i = index
    · subst hii
      rw [if_pos rfl]
    · rw [if_neg hii]
      exact hc i (by omega)

/-- `populate` establishes the representation invariant, whatever the boot
information says. -/
theorem inv_populate (boot : BootInfo) (bootStart kernelEnd : ℕ) :
    (populate boot bootStart kernelEnd zero).Inv :=
  inv_countBlocks blockCount 0 _ ⟨_, listed_zero _⟩ (Nat.zero_add _)
    (fun i hi => absurd hi (Nat.not_lt_zero i))

/-! ## All calls that do not panic -/

/-- The states reached from `populate` by allocations, successful or not, and by
releases that do not panic. -/
inductive Reachable (boot : BootInfo) (bootStart kernelEnd : ℕ) : Pmm → Prop
  | populate : Reachable boot bootStart kernelEnd (populate boot bootStart kernelEnd zero)
  | alloc {s s' : Pmm} (size : PageSize) : Reachable boot bootStart kernelEnd s →
      ((alloc size).run s).state? = some s' → Reachable boot bootStart kernelEnd s'
  | free {s s' : Pmm} (size : PageSize) (base : ℕ) : Reachable boot bootStart kernelEnd s →
      (free size base).run s = .ok () s' → Reachable boot bootStart kernelEnd s'

theorem inv_alloc {s s' : Pmm} (H : s.Inv) {size : PageSize}
    (h : ((alloc size).run s).state? = some s') : s'.Inv :=
  ((alloc_sat H size).mono (fun _ _ hp => hp.1)
    (fun _ _ hp => hp.2.1.symm ▸ H)).of_state? h

theorem inv_free {s s' : Pmm} (H : s.Inv) {size : PageSize} {base : ℕ}
    (h : (free size base).run s = .ok () s') : s'.Inv := by
  rcases free_eq s size base with ⟨hr, heq⟩ | ⟨-, f, heq⟩
  · rw [heq] at h
    cases h
    exact inv_released H hr
  · rw [heq] at h
    cases h

theorem Reachable.inv {boot : BootInfo} {bootStart kernelEnd : ℕ} {s : Pmm}
    (h : Reachable boot bootStart kernelEnd s) : s.Inv := by
  induction h with
  | populate => exact inv_populate boot bootStart kernelEnd
  | alloc size _ hrun ih => exact inv_alloc ih hrun
  | free size base _ hrun ih => exact inv_free ih hrun

/-- **The lists and counters are what the bitmap says**, in every reachable state.
Walking `next` from each head visits exactly the blocks of its kind, once each, and
`prev` leads back; so a listed block always holds a free frame. -/
theorem representation_invariant {boot : BootInfo} {bootStart kernelEnd : ℕ} {s : Pmm}
    (h : Reachable boot bootStart kernelEnd s) :
    (∀ i < blockCount, (s.blocks i).free = s.frames.setCount (512 * i) (512 * i + 512)) ∧
      (∃ w : List ℕ, Chain s.next s.prev nil nil s.whole w ∧ w.Nodup ∧
        ∀ i, i ∈ w ↔ i < blockCount ∧ (s.blocks i).free = 512) ∧
      (∃ b : List ℕ, Chain s.next s.prev nil nil s.broken b ∧ b.Nodup ∧
        ∀ i, i ∈ b ↔ i < blockCount ∧ 0 < (s.blocks i).free ∧ (s.blocks i).free < 512) ∧
      ∀ i, takeFrame.run s ≠ .halt (.listedButEmpty i) := by
  have H := h.inv
  obtain ⟨l, hl⟩ := H.lists
  refine ⟨fun i hi => ?_, ⟨l .whole, hl.chain .whole, hl.nodup .whole, fun i => ?_⟩,
    ⟨l .broken, hl.chain .broken, hl.nodup .broken, fun i => ?_⟩, fun i => ?_⟩
  · rw [H.counts i hi]
    congr 1 <;> simp only [framesPerBlock] <;> omega
  · constructor
    · intro hm
      have hlt := hl.lt .whole i hm
      exact ⟨hlt, (listOf_eq_whole_iff _).mp ((hl.mem .whole i hlt).mp hm)⟩
    · rintro ⟨hlt, hf⟩
      exact (hl.mem .whole i hlt).mpr ((listOf_eq_whole_iff _).mpr hf)
  · constructor
    · intro hm
      have hlt := hl.lt .broken i hm
      obtain ⟨hne0, hnef⟩ := (listOf_eq_broken_iff _).mp ((hl.mem .broken i hlt).mp hm)
      have hle := counts_le H hlt
      simp only [framesPerBlock] at hnef hle
      exact ⟨hlt, by omega, by omega⟩
    · rintro ⟨hlt, h0, hf⟩
      refine (hl.mem .broken i hlt).mpr ((listOf_eq_broken_iff _).mpr ⟨by omega, ?_⟩)
      simp only [framesPerBlock]
      omega
  · exact (takeFrame_sat H).ne_halt _

/-! ## A machine with four MiB of memory -/

/-- Boot information with one usable region, four MiB from 16 MiB on. -/
def smallBoot : BootInfo := { memoryMap := [⟨0x1000000, 0x400000, .usable⟩] }

/-- The state `populate` leaves for it, with the kernel in the second MiB. -/
def smallPmm : Pmm := populate smallBoot 0x100000 0x200000 zero

theorem smallPmm_eq : smallPmm = populate smallBoot 0x100000 0x200000 zero := rfl

-- kept folded: nothing below evaluates the 8192 blocks
attribute [irreducible] smallPmm

theorem inv_smallPmm : smallPmm.Inv := by
  rw [smallPmm_eq]
  exact inv_populate _ _ _

theorem reachable_smallPmm : Reachable smallBoot 0x100000 0x200000 smallPmm := by
  rw [smallPmm_eq]
  exact .populate

/-- With one usable region behind the kernel, its frames are free. -/
theorem mem_freeFrames_region {base length : ℕ} (hbase : 0x200000 ≤ base)
    (hend : base + length ≤ maxFrames * 4096) (f : ℕ) :
    f ∈ (populate { memoryMap := [⟨base, length, .usable⟩] } 0x100000 0x200000 zero).freeFrames ↔
      Inside base length f := by
  rw [mem_freeFrames]
  constructor
  · rintro ⟨hf, ht⟩
    obtain ⟨r, hr, -, hin⟩ := ((free_populate_iff (by norm_num) (by norm_num) hf).mp ht).1
    obtain rfl := List.mem_singleton.mp hr
    exact hin
  · intro hin
    obtain ⟨hlo, hhi⟩ := hin
    have hf : f < maxFrames := by omega
    have hzero : ¬ Overlaps 0 0 f := fun h => absurd h.1 (Nat.lt_irrefl 0)
    refine ⟨hf, (free_populate_iff (by norm_num) (by norm_num) hf).mpr
      ⟨⟨_, List.mem_singleton_self _, rfl, hlo, hhi⟩, ?_, ?_, ?_⟩⟩
    · unfold Overlaps
      omega
    · unfold Overlaps
      omega
    · refine ⟨fun r hr hk => ?_, fun _ h => ?_, fun _ h => ?_, hzero, hzero⟩
      · obtain rfl := List.mem_singleton.mp hr
        exact absurd rfl hk
      · cases h
      · cases h

/-- Its free frames are those of the region. -/
theorem mem_freeFrames_smallPmm (f : ℕ) : f ∈ smallPmm.freeFrames ↔ 4096 ≤ f ∧ f < 5120 := by
  rw [smallPmm_eq, smallBoot, mem_freeFrames_region (by norm_num) (by decide), Inside]
  omega

theorem blockFrames_addressOf (f : ℕ) : blockFrames .size4K (addressOf f) = {f} := by
  ext g
  simp only [blockFrames, addressOf, PageSize.framesIn_size4K, Set.mem_ofPred_eq,
    Set.mem_singleton_iff]
  omega

/-- Where an aligned block of free frames is, an allocation succeeds. -/
theorem exists_alloc {s : Pmm} (H : s.Inv) {size : PageSize} {base : ℕ}
    (hal : base % size.bytesIn = 0) (hsub : blockFrames size base ⊆ s.freeFrames) :
    ∃ base s', (alloc size).run s = .ok base s' := by
  obtain ⟨base, s', hrun, -⟩ := (alloc_sat H size).exists_ok fun _ _ h => h.2.2 base hal hsub
  exact ⟨base, s', hrun⟩

/-- Where a frame is free, one can be allocated. -/
theorem exists_alloc_frame {s : Pmm} (H : s.Inv) {f : ℕ} (hf : f ∈ s.freeFrames) :
    ∃ base s', (alloc .size4K).run s = .ok base s' := by
  have hal : addressOf f % PageSize.size4K.bytesIn = 0 := by
    rw [PageSize.bytesIn_size4K, addressOf]
    omega
  refine exists_alloc H hal ?_
  rw [blockFrames_addressOf]
  exact Set.singleton_subset_iff.mpr hf

/-- The first allocation from it succeeds. -/
theorem alloc_smallPmm : ∃ base s, (alloc .size4K).run smallPmm = .ok base s :=
  exists_alloc_frame inv_smallPmm ((mem_freeFrames_smallPmm 4096).mpr ⟨le_rfl, by norm_num⟩)

theorem representation_invariant_small : ∃ s, Reachable smallBoot 0x100000 0x200000 s ∧
    s ≠ smallPmm ∧
    ∃ w : List ℕ, Chain s.next s.prev nil nil s.whole w ∧ w.Nodup ∧
      ∀ i, i ∈ w ↔ i < blockCount ∧ (s.blocks i).free = 512 := by
  obtain ⟨base, s, hrun⟩ := alloc_smallPmm
  have hstate : ((alloc .size4K).run smallPmm).state? = some s := by
    rw [hrun]
    rfl
  have hreach : Reachable smallBoot 0x100000 0x200000 s := .alloc .size4K reachable_smallPmm hstate
  have hpost := (alloc_sat inv_smallPmm .size4K).of_ok hrun
  refine ⟨s, hreach, ?_, (representation_invariant hreach).2.1⟩
  rintro rfl
  -- the frame handed out was free before and is not any more
  obtain ⟨-, -, hsub, hfree⟩ := hpost
  have hmem : base / 4096 ∈ blockFrames .size4K base := ⟨le_rfl, by simp⟩
  have hin : base / 4096 ∈ smallPmm.freeFrames := hsub hmem
  rw [hfree] at hin
  exact hin.2 hmem

/-! ## Runs that release what they allocated -/

/-- A run from `s₀` with the blocks that are out: those returned by an allocation and
not released since. -/
inductive Run (s₀ : Pmm) : Pmm → List (PageSize × ℕ) → Prop
  | start : Run s₀ s₀ []
  | alloc {s s' : Pmm} {out : List (PageSize × ℕ)} {size : PageSize} {base : ℕ} :
      Run s₀ s out → (alloc size).run s = .ok base s' → Run s₀ s' ((size, base) :: out)
  | allocFails {s s' : Pmm} {out : List (PageSize × ℕ)} {size : PageSize} {e : MmError} :
      Run s₀ s out → (alloc size).run s = .err e s' → Run s₀ s' out
  | free {s s' : Pmm} {out : List (PageSize × ℕ)} {size : PageSize} {base : ℕ} :
      Run s₀ s out → (size, base) ∈ out → (free size base).run s = .ok () s' →
      Run s₀ s' (out.erase (size, base))

/-- Every frame has one owner: the blocks that are out are aligned, pairwise disjoint
and were free at the start, and the rest of what was free is still free. -/
structure Owned (s₀ s : Pmm) (out : List (PageSize × ℕ)) : Prop where
  inv : s.Inv
  disjoint : out.Pairwise (fun b c => Disjoint (blockFrames b.1 b.2) (blockFrames c.1 c.2))
  aligned : ∀ b ∈ out, b.2 % b.1.bytesIn = 0
  initially : ∀ b ∈ out, blockFrames b.1 b.2 ⊆ s₀.freeFrames
  free_iff : ∀ f, f ∈ s.freeFrames ↔
    f ∈ s₀.freeFrames ∧ ∀ b ∈ out, f ∉ blockFrames b.1 b.2

/-- A block that is out can be given back. -/
theorem Owned.releasable {s₀ s : Pmm} {out : List (PageSize × ℕ)} (H : Owned s₀ s out)
    {b : PageSize × ℕ} (hb : b ∈ out) : Releasable s b.1 b.2 := by
  refine ⟨H.aligned b hb, ?_, fun f hf hfree => ((H.free_iff f).mp hfree).2 b hb hf⟩
  have hpos := b.1.framesIn_pos
  have hlast : b.2 / 4096 + (b.1.framesIn - 1) ∈ blockFrames b.1 b.2 :=
    ⟨by omega, by omega⟩
  have hlt := (H.initially b hb hlast).1
  omega

theorem Owned.alloc {s₀ s s' : Pmm} {out : List (PageSize × ℕ)} (H : Owned s₀ s out)
    {size : PageSize} {base : ℕ} (hp : AllocPost s size base s') :
    Owned s₀ s' ((size, base) :: out) := by
  obtain ⟨hinv, hal, hsub, hfree⟩ := hp
  have hfresh : ∀ f ∈ blockFrames size base, f ∈ s₀.freeFrames ∧
      ∀ c ∈ out, f ∉ blockFrames c.1 c.2 := fun f hf => (H.free_iff f).mp (hsub hf)
  refine ⟨hinv, List.pairwise_cons.mpr ⟨fun c hc => ?_, H.disjoint⟩, ?_, ?_, fun f => ?_⟩
  · exact Set.disjoint_left.mpr (fun f hf => (hfresh f hf).2 c hc)
  · intro b hb
    rcases List.mem_cons.mp hb with rfl | hb
    · exact hal
    · exact H.aligned b hb
  · intro b hb
    rcases List.mem_cons.mp hb with rfl | hb
    · exact fun f hf => (hfresh f hf).1
    · exact H.initially b hb
  · rw [hfree, Set.mem_sdiff, H.free_iff f, List.forall_mem_cons]
    tauto

theorem Owned.free {s₀ s s' : Pmm} {out : List (PageSize × ℕ)} (H : Owned s₀ s out)
    {b : PageSize × ℕ} (hb : b ∈ out) (hp : FreePost s b.1 b.2 s') :
    Owned s₀ s' (out.erase b) := by
  obtain ⟨hinv, hfree⟩ := hp
  -- the released block is disjoint from all that stay out
  have hperm := List.perm_cons_erase hb
  have hpair := (hperm.pairwise_iff (fun h => h.symm)).mp H.disjoint
  obtain ⟨hdisj, hpair'⟩ := List.pairwise_cons.mp hpair
  refine ⟨hinv, hpair', fun c hc => H.aligned c (List.mem_of_mem_erase hc),
    fun c hc => H.initially c (List.mem_of_mem_erase hc), fun f => ?_⟩
  rw [hfree, Set.mem_union, H.free_iff f]
  constructor
  · rintro (⟨h0, hout⟩ | hf)
    · exact ⟨h0, fun c hc => hout c (List.mem_of_mem_erase hc)⟩
    · exact ⟨H.initially b hb hf, fun c hc => Set.disjoint_left.mp (hdisj c hc) hf⟩
  · rintro ⟨h0, hout⟩
    by_cases hf : f ∈ blockFrames b.1 b.2
    · exact Or.inr hf
    · refine Or.inl ⟨h0, fun c hc => ?_⟩
      rcases List.mem_cons.mp (hperm.mem_iff.mp hc) with rfl | hc
      · exact hf
      · exact hout c hc

theorem Run.owned {s₀ s : Pmm} {out : List (PageSize × ℕ)} (h₀ : s₀.Inv) (h : Run s₀ s out) :
    Owned s₀ s out := by
  induction h with
  | start => exact ⟨h₀, List.Pairwise.nil, by simp, by simp, by simp⟩
  | alloc _ hrun ih => exact ih.alloc ((alloc_sat ih.inv _).of_ok hrun)
  | allocFails _ hrun ih =>
    obtain ⟨-, rfl, -⟩ := (alloc_sat ih.inv _).of_err hrun
    exact ih
  | free _ hb hrun ih => exact ih.free hb ((free_sat ih.inv (ih.releasable hb)).of_ok hrun)

/-- **Exclusive ownership over whole runs.**  From the state `populate` leaves on any
boot information, through any calls that release only what is out: no release panics,
the outstanding blocks are disjoint, aligned to their size and inside what `populate`
left free, and a frame is free exactly when it was free then and belongs to no
outstanding block. -/
theorem outstanding_blocks_exclusive {boot : BootInfo} {bootStart kernelEnd : ℕ} {s : Pmm}
    {out : List (PageSize × ℕ)} (h : Run (populate boot bootStart kernelEnd zero) s out) :
    (∀ b ∈ out, ∃ s', (free b.1 b.2).run s = .ok () s') ∧
      out.Pairwise (fun b c => Disjoint (blockFrames b.1 b.2) (blockFrames c.1 c.2)) ∧
      (∀ b ∈ out, b.2 % b.1.bytesIn = 0) ∧
      (∀ b ∈ out, ∀ f ∈ blockFrames b.1 b.2, f < maxFrames ∧
        (populate boot bootStart kernelEnd zero).frames.test f = true) ∧
      ∀ f < maxFrames, s.frames.test f = true ↔
        (populate boot bootStart kernelEnd zero).frames.test f = true ∧
          ∀ b ∈ out, f ∉ blockFrames b.1 b.2 := by
  have H := h.owned (inv_populate boot bootStart kernelEnd)
  refine ⟨fun b hb => ?_, H.disjoint, H.aligned, fun b hb f hf => H.initially b hb hf,
    fun f hf => ?_⟩
  · rcases free_eq s b.1 b.2 with ⟨-, hok⟩ | ⟨hnot, -⟩
    · exact ⟨_, hok⟩
    · exact absurd (H.releasable hb) hnot
  · have hiff := H.free_iff f
    simp only [freeFrames, Set.mem_ofPred_eq, hf, true_and] at hiff
    exact hiff

/-- A 2 MiB block from the small machine leaves a frame of the other one. -/
theorem exists_free_after_2M {s : Pmm} {base : ℕ} (h : AllocPost smallPmm .size2M base s) :
    ∃ f, f ∈ s.freeFrames := by
  obtain ⟨-, hal, -, hfree⟩ := h
  rw [PageSize.bytesIn_size2M] at hal
  rw [hfree]
  by_cases hin : 4096 ∈ blockFrames .size2M base
  · refine ⟨4608, (mem_freeFrames_smallPmm _).mpr (by omega), fun hin' => ?_⟩
    simp only [blockFrames, PageSize.framesIn_size2M, Set.mem_ofPred_eq] at hin hin'
    omega
  · exact ⟨4096, (mem_freeFrames_smallPmm _).mpr (by omega), hin⟩

/-- A block of 2 MiB, a frame, that frame released, and a frame again. -/
theorem outstanding_blocks_exclusive_small : ∃ b c s,
    Run smallPmm s [(.size4K, c), (.size2M, b)] ∧ (∃ s', (free .size2M b).run s = .ok () s') ∧
      Disjoint (blockFrames .size4K c) (blockFrames .size2M b) ∧
      ∀ f < maxFrames, s.frames.test f = true ↔
        smallPmm.frames.test f = true ∧ f ∉ blockFrames .size4K c ∧ f ∉ blockFrames .size2M b := by
  have hal : 0x1000000 % PageSize.size2M.bytesIn = 0 := by
    rw [PageSize.bytesIn_size2M]
  have hsub : blockFrames .size2M 0x1000000 ⊆ smallPmm.freeFrames := by
    intro f hf
    simp only [blockFrames, PageSize.framesIn_size2M, Set.mem_ofPred_eq] at hf
    exact (mem_freeFrames_smallPmm f).mpr (by omega)
  obtain ⟨b, s₁, hb⟩ := exists_alloc inv_smallPmm hal hsub
  have hr₁ : Run smallPmm s₁ [(.size2M, b)] := .alloc .start hb
  have H₁ := hr₁.owned inv_smallPmm
  obtain ⟨f, hf⟩ := exists_free_after_2M ((alloc_sat inv_smallPmm .size2M).of_ok hb)
  obtain ⟨c₁, s₂, hc₁⟩ := exists_alloc_frame H₁.inv hf
  have hr₂ : Run smallPmm s₂ [(.size4K, c₁), (.size2M, b)] := .alloc hr₁ hc₁
  have H₂ := hr₂.owned inv_smallPmm
  obtain ⟨_, s₃, hfree, -⟩ :=
    (free_sat H₂.inv (H₂.releasable List.mem_cons_self)).exists_ok fun _ _ h => h
  have hr₃ : Run smallPmm s₃ [(.size2M, b)] := by
    have h := Run.free hr₂ List.mem_cons_self hfree
    rwa [List.erase_cons_head] at h
  have H₃ := hr₃.owned inv_smallPmm
  obtain ⟨c, s, hc⟩ := exists_alloc_frame H₃.inv ((H₃.free_iff f).mpr ((H₁.free_iff f).mp hf))
  have hr : Run smallPmm s [(.size4K, c), (.size2M, b)] := .alloc hr₃ hc
  have hr' := hr
  rw [smallPmm_eq] at hr'
  obtain ⟨hall, hdisjoint, -, -, hiff⟩ := outstanding_blocks_exclusive hr'
  rw [← smallPmm_eq] at hiff
  refine ⟨b, c, s, hr, hall _ (List.mem_cons_of_mem _ List.mem_cons_self),
    List.rel_of_pairwise_cons hdisjoint List.mem_cons_self, fun f hf => ?_⟩
  have h := hiff f hf
  simp only [List.forall_mem_cons, List.not_mem_nil, false_implies, implies_true, and_true] at h
  exact h

/-! ## Which requests succeed -/

/-- Releases of single frames, one after the other. -/
def freeEach (frames : List ℕ) : Comp Fault MmError Pmm Unit :=
  forEach (fun f => free .size4K (addressOf f)) frames

/-- The aligned runs of frames are the blocks. -/
theorem exists_block_iff {s : Pmm} {size : PageSize} :
    (∃ base, base % size.bytesIn = 0 ∧ blockFrames size base ⊆ s.freeFrames) ↔
      ∃ b, (b + 1) * size.framesIn ≤ maxFrames ∧
        ∀ i < size.framesIn, s.frames.test (b * size.framesIn + i) = true := by
  have hpos := size.framesIn_pos
  constructor
  · rintro ⟨base, hal, hsub⟩
    obtain ⟨b, rfl⟩ := Nat.dvd_of_mod_eq_zero hal
    have hfirst : size.bytesIn * b / 4096 = b * size.framesIn := by
      rw [size.bytesIn_eq, Nat.mul_assoc, Nat.mul_div_cancel_left _ (by norm_num),
        Nat.mul_comm]
    have hin : ∀ i < size.framesIn, b * size.framesIn + i ∈ s.freeFrames := by
      intro i hi
      apply hsub
      rw [mem_blockFrames, hfirst]
      omega
    have hlast := (hin (size.framesIn - 1) (by omega)).1
    refine ⟨b, ?_, fun i hi => (hin i hi).2⟩
    rw [Nat.succ_mul]
    omega
  · rintro ⟨b, hle, hall⟩
    have hfirst : b * size.bytesIn / 4096 = b * size.framesIn := by
      rw [size.bytesIn_eq, Nat.mul_left_comm, Nat.mul_div_cancel_left _ (by norm_num)]
    refine ⟨b * size.bytesIn, Nat.mul_mod_left _ _, fun f hf => ?_⟩
    rw [mem_blockFrames, hfirst] at hf
    rw [Nat.succ_mul] at hle
    have hff := hall (f - b * size.framesIn) (by omega)
    rw [Nat.add_sub_cancel' hf.1] at hff
    exact ⟨by omega, hff⟩

/-- Whether an allocation fails is decided by the free frames alone. -/
theorem alloc_fails_iff {s : Pmm} (H : s.Inv) (size : PageSize) :
    (∃ e s', (alloc size).run s = .err e s') ↔
      ¬ ∃ base, base % size.bytesIn = 0 ∧ blockFrames size base ⊆ s.freeFrames := by
  have hsat := alloc_sat H size
  cases hrun : (alloc size).run s with
  | ok base s' =>
    obtain ⟨-, hal, hsub, -⟩ := hsat.of_ok hrun
    constructor
    · rintro ⟨e, t, h⟩
      cases h
    · intro hnone
      exact absurd ⟨base, hal, hsub⟩ hnone
  | err e s' =>
    obtain ⟨-, -, hnone⟩ := hsat.of_err hrun
    constructor
    · rintro - ⟨base, hal, hsub⟩
      exact hnone base hal hsub
    · intro _
      exact ⟨e, s', rfl⟩
  | halt f => exact absurd hrun (hsat.ne_halt f)

theorem alloc_succeeds_iff {s : Pmm} (H : s.Inv) (size : PageSize) :
    (∃ base s', (alloc size).run s = .ok base s') ↔
      ∃ base, base % size.bytesIn = 0 ∧ blockFrames size base ⊆ s.freeFrames := by
  have hfails := alloc_fails_iff H size
  cases hrun : (alloc size).run s with
  | ok base s' =>
    obtain ⟨-, hal, hsub, -⟩ := (alloc_sat H size).of_ok hrun
    exact ⟨fun _ => ⟨base, hal, hsub⟩, fun _ => ⟨base, s', rfl⟩⟩
  | err e s' =>
    have hnone := hfails.mp ⟨e, s', hrun⟩
    constructor
    · rintro ⟨base, t, h⟩
      cases h
    · intro h
      exact absurd h hnone
  | halt f => exact absurd hrun ((alloc_sat H size).ne_halt f)

/-- Frames in use can be released one by one, in whatever order they are listed; then
they are free, and nothing else has changed. -/
theorem freeEach_sat {s : Pmm} (H : s.Inv) {frames : List ℕ} (hnodup : frames.Nodup)
    (hlt : ∀ f ∈ frames, f < maxFrames) (hused : ∀ f ∈ frames, s.frames.test f = false) :
    ((freeEach frames).run s).Sat
      (fun _ s' => s'.Inv ∧ s'.freeFrames = s.freeFrames ∪ {f | f ∈ frames})
      (fun _ _ => False) := by
  refine sat_forEach
    (I := fun front (s' : Pmm) => s'.Inv ∧ s'.freeFrames = s.freeFrames ∪ {f | f ∈ front})
    (fun front f back t heq ht => ?_) ⟨H, by simp⟩
  obtain ⟨hinv, hfree⟩ := ht
  have hmem : f ∈ frames := by
    rw [heq]
    exact List.mem_append_right _ List.mem_cons_self
  have hfresh : f ∉ front := by
    rw [heq] at hnodup
    intro hf
    exact (List.nodup_append.mp hnodup).2.2 f hf f List.mem_cons_self rfl
  have hrel : Releasable t .size4K (addressOf f) := by
    refine ⟨?_, ?_, fun g hg => ?_⟩
    · simp only [addressOf, PageSize.bytesIn_size4K]
      omega
    · have hf := hlt f hmem
      simp only [addressOf, PageSize.framesIn_size4K]
      omega
    · rw [blockFrames_addressOf] at hg
      rw [Set.mem_singleton_iff.mp hg, hfree]
      rintro (hs | hf)
      · rw [mem_freeFrames, hused f hmem] at hs
        exact absurd hs.2 (by decide)
      · exact hfresh hf
  refine (free_sat hinv hrel).mono (fun _ t' hp => ⟨hp.1, ?_⟩) (fun _ _ h => h)
  rw [hp.2, hfree, blockFrames_addressOf, Set.union_assoc]
  congr 1
  ext g
  simp only [Set.mem_union, Set.mem_ofPred_eq, Set.mem_singleton_iff, List.mem_append,
    List.mem_singleton]

theorem freeFrames_congr {s t : Pmm}
    (h : ∀ f < maxFrames, s.frames.test f = t.frames.test f) : s.freeFrames = t.freeFrames := by
  ext f
  rw [mem_freeFrames, mem_freeFrames]
  constructor
  · rintro ⟨hf, ht⟩
    exact ⟨hf, by rw [← h f hf, ht]⟩
  · rintro ⟨hf, ht⟩
    exact ⟨hf, by rw [h f hf, ht]⟩

/-- **Allocation is complete, and the free frames alone decide it.**  In every state
that keeps the representation invariant: a request fails exactly when there is no free
frame, no free aligned run of 512 frames, or no free aligned run of 262144 frames; it
never panics; a success turns exactly the frames of the block it returns from free to
used, and a failure changes nothing.  States with the same free frames grant the same
requests, and a block whose frames are released one by one, in any order, can be
allocated as a whole again. -/
theorem alloc_complete {s : Pmm} (H : s.Inv) :
    ((∃ e s', (alloc .size4K).run s = .err e s') ↔
      ∀ f < maxFrames, s.frames.test f = false) ∧
    ((∃ e s', (alloc .size2M).run s = .err e s') ↔
      ¬ ∃ b, (b + 1) * 512 ≤ maxFrames ∧ ∀ i < 512, s.frames.test (b * 512 + i) = true) ∧
    ((∃ e s', (alloc .size1G).run s = .err e s') ↔
      ¬ ∃ b, (b + 1) * 262144 ≤ maxFrames ∧
        ∀ i < 262144, s.frames.test (b * 262144 + i) = true) ∧
    (∀ size fault, (alloc size).run s ≠ .halt fault) ∧
    (∀ size base s', (alloc size).run s = .ok base s' →
      base % size.bytesIn = 0 ∧
      (∀ f ∈ blockFrames size base,
        f < maxFrames ∧ s.frames.test f = true ∧ s'.frames.test f = false) ∧
      ∀ f < maxFrames, f ∉ blockFrames size base → s'.frames.test f = s.frames.test f) ∧
    (∀ size e s', (alloc size).run s = .err e s' → e = .outOfMemory ∧ s' = s) ∧
    (∀ t : Pmm, t.Inv → (∀ f < maxFrames, s.frames.test f = t.frames.test f) →
      ∀ size, (∃ base s', (alloc size).run s = .ok base s') ↔
        ∃ base t', (alloc size).run t = .ok base t') ∧
    ∀ (size : PageSize) (base : ℕ) (frames : List ℕ), base % size.bytesIn = 0 →
      frames.Nodup → (∀ f ∈ frames, f < maxFrames ∧ s.frames.test f = false) →
      (∀ f ∈ blockFrames size base, f ∈ frames ∨ f < maxFrames ∧ s.frames.test f = true) →
      ∃ s', (freeEach frames).run s = .ok () s' ∧
        ∃ base' s'', (alloc size).run s' = .ok base' s'' := by
  refine ⟨?_, ?_, ?_, fun size => (alloc_sat H size).ne_halt, fun size base s' hrun => ?_,
    fun size e s' hrun => ?_, fun t Ht hst size => ?_,
    fun size base frames hal hnodup hused hblock => ?_⟩
  · rw [alloc_fails_iff H, exists_block_iff, PageSize.framesIn_size4K]
    constructor
    · intro hnone f hf
      refine Bool.eq_false_of_not_eq_true (fun ht => hnone ⟨f, by omega, fun i hi => ?_⟩)
      obtain rfl : i = 0 := by omega
      rwa [Nat.mul_one, Nat.add_zero]
    · rintro hall ⟨b, hle, hb⟩
      have ht := hb 0 Nat.one_pos
      rw [hall _ (by omega)] at ht
      cases ht
  · rw [alloc_fails_iff H, exists_block_iff, PageSize.framesIn_size2M]
  · rw [alloc_fails_iff H, exists_block_iff, PageSize.framesIn_size1G]
  · obtain ⟨-, hal, hsub, hfree⟩ := (alloc_sat H size).of_ok hrun
    have hiff : ∀ f < maxFrames, s'.frames.test f = true ↔
        s.frames.test f = true ∧ f ∉ blockFrames size base := by
      intro f hf
      have h : f ∈ s'.freeFrames ↔ f ∈ s.freeFrames \ blockFrames size base := by rw [hfree]
      rw [Set.mem_sdiff, mem_freeFrames, mem_freeFrames] at h
      tauto
    refine ⟨hal, fun f hf => ?_, fun f hf hout => ?_⟩
    · obtain ⟨hlt, ht⟩ := hsub hf
      refine ⟨hlt, ht, Bool.eq_false_of_not_eq_true (fun ht' => ?_)⟩
      exact ((hiff f hlt).mp ht').2 hf
    · rw [Bool.eq_iff_iff, hiff f hf]
      exact ⟨fun h => h.1, fun h => ⟨h, hout⟩⟩
  · obtain ⟨he, hs, -⟩ := (alloc_sat H size).of_err hrun
    exact ⟨he, hs⟩
  · rw [alloc_succeeds_iff H, alloc_succeeds_iff Ht, freeFrames_congr hst]
  · obtain ⟨u, s', hrun, hinv, hfree⟩ := (freeEach_sat H hnodup (fun f hf => (hused f hf).1)
      (fun f hf => (hused f hf).2)).exists_ok (fun _ _ h => h)
    refine ⟨s', hrun, (alloc_succeeds_iff hinv size).mpr ⟨base, hal, fun f hf => ?_⟩⟩
    rw [hfree]
    rcases hblock f hf with hin | hin
    · exact Or.inr hin
    · exact Or.inl hin

/-- Four MiB: both blocks of 2 MiB can be had, a run of 1 GiB cannot. -/
theorem alloc_complete_small : smallPmm.Inv ∧
    (¬ ∃ e s, (alloc .size2M).run smallPmm = .err e s) ∧
    ∃ e s, (alloc .size1G).run smallPmm = .err e s := by
  obtain ⟨-, h2M, h1G, -⟩ := alloc_complete inv_smallPmm
  refine ⟨inv_smallPmm, fun h => h2M.mp h ⟨8, by decide, fun i hi => ?_⟩, h1G.mpr ?_⟩
  · exact ((mem_freeFrames_smallPmm (8 * 512 + i)).mpr (by omega)).2
  · rintro ⟨b, hle, hall⟩
    -- the first and the last frame of such a run are not both among 1024 frames
    rw [Nat.succ_mul] at hle
    have hfirst := (mem_freeFrames_smallPmm _).mp ⟨by omega, hall 0 (by decide)⟩
    have hlast := (mem_freeFrames_smallPmm _).mp ⟨by omega, hall 262143 (by decide)⟩
    omega

/-! ## The initial free set -/

/-- **The initial free set is exact.**  Whatever the boot information says, `populate`
leaves free the frames that lie inside a usable region and touch no range that is
reserved, in whatever order these come; so no allocation ever hands out a frame of the
kernel, of a boot module or of a reserved range such as the boot information's own. -/
theorem initial_free_set_exact {bootStart kernelEnd : ℕ} (boot : BootInfo)
    (hle : bootStart ≤ kernelEnd) (hlt : kernelEnd < 2 ^ 64) :
    (∀ f < maxFrames, (populate boot bootStart kernelEnd zero).frames.test f = true ↔
      (∃ r ∈ boot.memoryMap, r.kind = .usable ∧ Inside r.base r.length f) ∧
        ¬ Overlaps 0 0x100000 f ∧ ¬ Overlaps bootStart (kernelEnd - bootStart) f ∧
        (∀ r ∈ boot.memoryMap, r.kind ≠ .usable → ¬ Overlaps r.base r.length f) ∧
        (∀ mod ∈ boot.modules, ¬ Overlaps mod.range.base mod.range.length f) ∧
        (∀ r ∈ boot.reserved, ¬ Overlaps r.base r.length f) ∧
        ¬ Overlaps boot.framebuffer.range.base boot.framebuffer.range.length f ∧
        ¬ Overlaps boot.acpi.rsdp.base boot.acpi.rsdp.length f) ∧
      (∀ boot' : BootInfo, boot.memoryMap.Perm boot'.memoryMap →
        boot.modules.Perm boot'.modules → boot.reserved.Perm boot'.reserved →
        boot.framebuffer.range = boot'.framebuffer.range → boot.acpi.rsdp = boot'.acpi.rsdp →
        ∀ f < maxFrames, (populate boot bootStart kernelEnd zero).frames.test f
          = (populate boot' bootStart kernelEnd zero).frames.test f) ∧
      ∀ s out, Run (populate boot bootStart kernelEnd zero) s out →
        ∀ b ∈ out, ∀ f ∈ blockFrames b.1 b.2,
          ¬ Overlaps bootStart (kernelEnd - bootStart) f ∧
          (∀ mod ∈ boot.modules, ¬ Overlaps mod.range.base mod.range.length f) ∧
          ∀ r ∈ boot.reserved, ¬ Overlaps r.base r.length f := by
  refine ⟨fun f hf => ?_, fun boot' hmap hmodules hreserved hfb hrsdp f hf => ?_,
    fun s out hrun b hb f hfb => ?_⟩
  · rw [free_populate_iff hle hlt hf]
    constructor
    · rintro ⟨husable, hlow, himage, H⟩
      exact ⟨husable, hlow, himage, H.regions, H.modules, H.reserved, H.framebuffer, H.rsdp⟩
    · rintro ⟨husable, hlow, himage, hregions, hmodules, hreserved, hfb, hrsdp⟩
      exact ⟨husable, hlow, himage, hregions, hmodules, hreserved, hfb, hrsdp⟩
  · exact free_populate_congr hle hlt hf hmap hmodules hreserved hfb hrsdp
  · -- what is out was free at the start
    have H := hrun.owned (inv_populate boot bootStart kernelEnd)
    obtain ⟨hf, ht⟩ := H.initially b hb hfb
    obtain ⟨-, -, himage, hun⟩ := (free_populate_iff hle hlt hf).mp ht
    exact ⟨himage, hun.modules, hun.reserved⟩

/-- A map with a hole cut into its usable region by a device and a module in the rest. -/
theorem initial_free_set_exact_holes :
    let boot : BootInfo :=
      { memoryMap := [⟨0x200800, 0x4000, .usable⟩, ⟨0x202000, 1, .reserved⟩],
        modules := [{ range := ⟨0x203fff, 2⟩ }] }
    (populate boot 0x100000 0x200000 zero).frames.test 0x201 = true ∧
      (populate boot 0x100000 0x200000 zero).frames.test 0x200 = false ∧
      (populate boot 0x100000 0x200000 zero).frames.test 0x202 = false ∧
      (populate boot 0x100000 0x200000 zero).frames.test 0x203 = false := by
  intro boot
  obtain ⟨hiff, -, -⟩ := initial_free_set_exact boot (by norm_num : 0x100000 ≤ 0x200000)
    (by norm_num)
  refine ⟨(hiff 0x201 (by decide)).mpr (by decide), ?_, ?_, ?_⟩
  · exact Bool.eq_false_iff.mpr fun h => absurd ((hiff 0x200 (by decide)).mp h) (by decide)
  · exact Bool.eq_false_iff.mpr fun h => absurd ((hiff 0x202 (by decide)).mp h) (by decide)
  · exact Bool.eq_false_iff.mpr fun h => absurd ((hiff 0x203 (by decide)).mp h) (by decide)

end Pmm

end DoomOs
