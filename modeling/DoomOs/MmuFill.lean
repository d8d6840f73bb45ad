/-
# What the set-up maps

`init_kernel_space` before it protects the image (`initTables`): the static tables are
linked, the image and the described memory are mapped with 2 MiB leaves.

The page directories are followed word by word (`fill2m_mem`, `fillRegion_mem`), over
the blocks of 2 MiB of the physical memory.  A block gets a leaf in the direct map
exactly when a described region has a byte in it (`Touched`), and `Mapped` says the
same about the leaves of the tree.
-/
import DoomOs.MmuInit

namespace DoomOs

open Comp Paging RadixFormat

namespace Mmu

variable {L : Layout} {feat : Features} {boot : BootInfo} {s s' s₀ : Kernel}

/-- The protection of the image until `protect_image`. -/
def earlyProt : PageProt := { write := true, exec := true, global := true }

/-- `init_kernel_space` up to `protect_image`. -/
def initTables (L : Layout) (feat : Features) (boot : BootInfo) :
    Comp Fault MmError Kernel Unit := do
  linkTables L
  fill2m feat L.kernelPd kernelBase 0 L.kernelWindowSize earlyProt
  fillDirectMap L feat boot

/-- A run of `init_kernel_space` in its two parts. -/
theorem initKernelSpace_cases {r : Except InitError Unit}
    (h : (initKernelSpace L feat boot).run s₀ = .ok r s) :
    ∃ s₁, (initTables L feat boot).run s₀ = .ok () s₁ ∧
      ((r = .ok () ∧ (protectImage L feat).run s₁ = .ok () s) ∨
        ∃ e, r = .error .noUsableMemory ∧ (protectImage L feat).run s₁ = .err e s) := by
  rw [initKernelSpace] at h
  obtain ⟨_, k₁, hlink, h⟩ := run_bind_eq_ok h
  obtain ⟨_, k₂, hfill, h⟩ := run_bind_eq_ok h
  obtain ⟨_, k₃, hdirect, h⟩ := run_bind_eq_ok h
  obtain ⟨r', k₄, hprotect, h⟩ := run_bind_eq_ok h
  refine ⟨k₃, ?_, ?_⟩
  · rw [initTables, run_bind_ok hlink, earlyProt, run_bind_ok hfill]
    exact hdirect
  · rcases attempt_eq_ok hprotect with ⟨a, rfl, hrun⟩ | ⟨e, rfl, hrun⟩
    · cases h
      exact Or.inl ⟨rfl, hrun⟩
    · cases h
      exact Or.inr ⟨e, rfl, hrun⟩

/-! ## Words of the page directories -/

theorem linkTables_mem (L : Layout) (s : Kernel) :
    ((linkTables L).run s).Sat (fun _ s' => s'.pmm = s.pmm ∧
      ∀ t, t ≠ L.pml4 → t ≠ L.kernelPdpt → t ≠ L.directPdpt → ∀ i, s'.mem t i = s.mem t i)
      (fun _ _ => False) := by
  rw [linkTables, run_modify_bind, run_modify_bind, run_modify_bind, run_modify_bind]
  refine sat_forRange (I := fun _ (s' : Kernel) => s'.pmm = s.pmm ∧
    ∀ t, t ≠ L.pml4 → t ≠ L.kernelPdpt → t ≠ L.directPdpt → ∀ i, s'.mem t i = s.mem t i)
    (fun i s' _ hI => ?_) ⟨rfl, fun t h0 h1 h3 i => ?_⟩
  · refine ⟨hI.1, fun t h0 h1 h3 j => ?_⟩
    exact (store_of_ne (fun h => h3 h.1)).trans (hI.2 t h0 h1 h3 j)
  · exact (store_of_ne (fun h => h0 h.1)).trans ((store_of_ne (fun h => h1 h.1)).trans
      ((store_of_ne (fun h => h0 h.1)).trans (store_of_ne (fun h => h0 h.1))))

/-- `fill_2m` over entries from `first` on. -/
theorem fill2m_mem (feat : Features) (s : Kernel) {pd va pa length first : ℕ} (p : PageProt)
    (hidx : ∀ j, j * 0x200000 < length → index 2 (u64 (va + j * 0x200000)) = first + j) :
    ((fill2m feat pd va pa length p).run s).Sat (fun _ s' => s'.pmm = s.pmm ∧ ∀ t i, s'.mem t i =
      if t = pd ∧ first ≤ i ∧ i < first + (length + 0x1fffff) / 0x200000 then
        leafEntry feat (u64 (pa + (i - first) * 0x200000)) .size2M p
      else s.mem t i) (fun _ _ => False) := by
  rw [fill2m]
  refine sat_forRange (I := fun n (s' : Kernel) => s'.pmm = s.pmm ∧ ∀ t i, s'.mem t i =
    if t = pd ∧ first ≤ i ∧ i < first + n then
      leafEntry feat (u64 (pa + (i - first) * 0x200000)) .size2M p
    else s.mem t i) (fun j s' hj hI => ?_) ⟨rfl, fun t i => ?_⟩
  · refine ⟨hI.1, fun t i => ?_⟩
    rw [hidx j (by omega)]
    show store s'.mem pd (first + j) _ t i = _
    rw [store, hI.2]
    by_cases hnew : t = pd ∧ i = first + j
    · obtain ⟨rfl, rfl⟩ := hnew
      rw [if_pos ⟨rfl, rfl⟩, if_pos ⟨rfl, by omega, by omega⟩, Nat.add_sub_cancel_left]
    · rw [if_neg hnew]
      by_cases hold : t = pd ∧ first ≤ i ∧ i < first + j
      · rw [if_pos hold, if_pos ⟨hold.1, hold.2.1, by omega⟩]
      · rw [if_neg hold, if_neg]
        rintro ⟨rfl, h1, h2⟩
        have : i ≠ first + j := fun h => hnew ⟨rfl, h⟩
        exact hold ⟨rfl, h1, by omega⟩
  · rw [if_neg (by omega)]

/-! ## Blocks of the direct map -/

/-- The region is described and has a byte in block `b` of 2 MiB. -/
def Touches (region : MemoryRegion) (b : ℕ) : Prop :=
  region.kind ≠ .defective ∧ 0 < region.length ∧ region.base < (b + 1) * 0x200000 ∧
    b * 0x200000 < region.base + region.length

instance (region : MemoryRegion) (b : ℕ) : Decidable (Touches region b) :=
  inferInstanceAs (Decidable (_ ∧ _ ∧ _ ∧ _))

/-- One of the regions touches block `b`. -/
def Touched (regions : List MemoryRegion) (b : ℕ) : Prop := ∃ region ∈ regions, Touches region b

instance (regions : List MemoryRegion) (b : ℕ) : Decidable (Touched regions b) :=
  inferInstanceAs (Decidable (∃ region ∈ regions, Touches region b))

/-- The entry of block `b` in the direct map. -/
def blockEntry (feat : Features) (b : ℕ) : Entry :=
  leafEntry feat (b * 0x200000) .size2M .kernelData

/-- From `s` to `s'` exactly the blocks in `B` got their entry in the direct map. -/
structure Fills (L : Layout) (feat : Features) (B : ℕ → Prop) [DecidablePred B] (s s' : Kernel) :
    Prop where
  pmm : s'.pmm = s.pmm
  block : ∀ b < 8192, s'.mem (L.directPds (b / 512)) (b % 512) =
    if B b then blockEntry feat b else s.mem (L.directPds (b / 512)) (b % 512)
  other : ∀ t, (∀ j < 16, t ≠ L.directPds j) → ∀ i, s'.mem t i = s.mem t i

/-- Writing the entry of one more block. -/
theorem Fills.next {B C : ℕ → Prop} [DecidablePred B] [DecidablePred C] {b₀ : ℕ} {s'' : Kernel}
    (h : Fills L feat B s s') (hb₀ : b₀ < 8192) (hC : ∀ b, C b ↔ B b ∨ b = b₀)
    (hpmm : s''.pmm = s'.pmm)
    (hmem : ∀ t i, s''.mem t i = if t = L.directPds (b₀ / 512) ∧ i = b₀ % 512
      then blockEntry feat b₀ else s'.mem t i) : Fills L feat C s s'' := by
  obtain ⟨-, -, -, -, -, -, -, hinj⟩ := L.tables_distinct
  refine ⟨hpmm.trans h.pmm, fun b hb => ?_, fun t ht i => ?_⟩
  · rw [hmem]
    by_cases heq : b = b₀
    · subst heq
      rw [if_pos ⟨rfl, rfl⟩, if_pos ((hC b).mpr (Or.inr rfl))]
    · have hne : ¬(L.directPds (b / 512) = L.directPds (b₀ / 512) ∧ b % 512 = b₀ % 512) := by
        rintro ⟨hpd, hmod⟩
        have := hinj _ (by omega) _ (by omega) hpd
        omega
      rw [if_neg hne, h.block b hb]
      exact if_congr (by rw [hC b, or_iff_left heq]) rfl rfl
  · rw [hmem, if_neg (fun hc => ht _ (by omega) hc.1)]
    exact h.other t ht i

theorem fillBlock_sat (feat : Features) {B C : ℕ → Prop} [DecidablePred B] [DecidablePred C]
    {b₀ pa : ℕ} (h : Fills L feat B s s') (hb₀ : b₀ < 8192) (hpa : pa = b₀ * 0x200000)
    (hC : ∀ b, C b ↔ B b ∨ b = b₀) :
    ((fill2m feat (L.directPds (pa / PageSize.size1G.bytesIn)) (u64 (directMapBase + pa)) pa
      0x200000 .kernelData).run s').Sat (fun _ s'' => Fills L feat C s s'') (fun _ _ => False) := by
  subst hpa
  have hlt : directMapBase + b₀ * 0x200000 < 2 ^ 64 := by
    unfold directMapBase
    omega
  have hidx : ∀ j, j * 0x200000 < 0x200000 →
      index 2 (u64 (u64 (directMapBase + b₀ * 0x200000) + j * 0x200000)) = b₀ % 512 + j := by
    intro j hj
    obtain rfl : j = 0 := by omega
    rw [Nat.zero_mul, Nat.add_zero, u64_of_lt hlt, u64_of_lt hlt, index_eq]
    unfold directMapBase
    omega
  have hpd : b₀ * 0x200000 / PageSize.size1G.bytesIn = b₀ / 512 := by
    rw [PageSize.bytesIn_size1G]
    omega
  refine (fill2m_mem feat s' .kernelData hidx).mono (fun _ s'' h'' => ?_) (fun _ _ hf => hf)
  refine h.next hb₀ hC h''.1 (fun t i => ?_)
  rw [h''.2, hpd]
  by_cases hi : t = L.directPds (b₀ / 512) ∧ i = b₀ % 512
  · rw [if_pos hi, if_pos ⟨hi.1, by omega, by omega⟩, hi.2, Nat.sub_self, Nat.zero_mul,
      Nat.add_zero, u64_of_lt (by omega), blockEntry]
  · rw [if_neg hi, if_neg]
    rintro ⟨h1, h2, h3⟩
    exact hi ⟨h1, by omega⟩

theorem fillRegion_mem (feat : Features) (region : MemoryRegion) (s : Kernel) :
    ((fillRegion L feat region).run s).Sat (fun _ s' => Fills L feat (Touches region) s s')
      (fun _ _ => False) := by
  have hsize : directMapSize = 0x400000000 := rfl
  rw [fillRegion]
  by_cases hskip : region.kind = .defective ∨ region.length = 0 ∨ region.base ≥ directMapSize
  · rw [if_pos hskip]
    refine ⟨rfl, fun b hb => (if_neg ?_).symm, fun _ _ _ => rfl⟩
    rintro ⟨hk, hlen, hbase, -⟩
    rcases hskip with h | h | h
    · exact hk h
    · omega
    · omega
  rw [if_neg hskip]
  obtain ⟨hkind, hlen, hbase⟩ := not_or.mp hskip |>.imp_right not_or.mp
  dsimp only
  have hlast : ∃ last, (if region.length > directMapSize - region.base then directMapSize
      else region.base + region.length) = last ∧ last ≤ 0x400000000 ∧
      (last = region.base + region.length ∨ (last = 0x400000000 ∧
        last ≤ region.base + region.length)) := by
    refine ⟨_, rfl, ?_⟩
    split_ifs <;> omega
  obtain ⟨last, hlast, hle, hcut⟩ := hlast
  rw [hlast, alignDown_2m, alignUp_2m (by omega)]
  obtain ⟨n, hn⟩ : ∃ n, (last + 0x1fffff - (last + 0x1fffff) % 0x200000 -
      (region.base - region.base % 0x200000) + 0x1fffff) / 0x200000 = n := ⟨_, rfl⟩
  rw [hn]
  have hblocks : region.base / 0x200000 + n = (last + 0x1fffff) / 0x200000 := by omega
  -- the blocks from that of the base on, one in each iteration
  have hstep : ∀ i s', i < n → Fills L feat
      (fun b => region.base / 0x200000 ≤ b ∧ b < region.base / 0x200000 + i) s s' →
      ((fill2m feat (L.directPds ((region.base - region.base % 0x200000 + i * 0x200000) /
        PageSize.size1G.bytesIn)) (u64 (directMapBase + (region.base - region.base % 0x200000 +
        i * 0x200000))) (region.base - region.base % 0x200000 + i * 0x200000) 0x200000
        .kernelData).run s').Sat (fun _ s'' => Fills L feat
          (fun b => region.base / 0x200000 ≤ b ∧ b < region.base / 0x200000 + (i + 1)) s s'')
        (fun _ _ => False) := by
    intro i s' hi hI
    have hb : region.base / 0x200000 + i < 8192 := by omega
    have hpa : region.base - region.base % 0x200000 + i * 0x200000
        = (region.base / 0x200000 + i) * 0x200000 := by omega
    apply fillBlock_sat feat hI hb hpa
    intro b
    omega
  refine Outcome.Sat.mono (sat_forRange (I := fun i s' => Fills L feat
    (fun b => region.base / 0x200000 ≤ b ∧ b < region.base / 0x200000 + i) s s') hstep
    ⟨rfl, fun b _ => (if_neg (by omega)).symm, fun _ _ _ => rfl⟩)
    (fun _ s' hI => ⟨hI.pmm, fun b hb => ?_, hI.other⟩) (fun _ _ hf => hf)
  rw [hI.block b hb]
  refine if_congr ?_ rfl rfl
  unfold Touches
  constructor
  · intro h
    exact ⟨hkind, by omega, by omega, by omega⟩
  · rintro ⟨-, -, h1, h2⟩
    omega

/-- **The blocks that `fill_direct_map` maps** are those that a described region touches. -/
theorem fillDirectMap_mem (feat : Features) (boot : BootInfo) (s : Kernel) :
    ((fillDirectMap L feat boot).run s).Sat
      (fun _ s' => Fills L feat (Touched boot.memoryMap) s s') (fun _ _ => False) := by
  refine sat_forEach (I := fun done s' => Fills L feat (Touched done) s s')
    (fun front region _ s' _ hI => ?_)
    ⟨rfl, fun b _ => (if_neg (fun ⟨_, h, _⟩ => List.not_mem_nil h)).symm, fun _ _ _ => rfl⟩
  refine (fillRegion_mem feat region s').mono (fun _ s'' h => ?_) (fun _ _ hf => hf)
  refine ⟨h.pmm.trans hI.pmm, fun b hb => ?_,
    fun t ht i => (h.other t ht i).trans (hI.other t ht i)⟩
  have hsnoc : Touched (front ++ [region]) b ↔ Touched front b ∨ Touches region b := by
    unfold Touched
    simp only [List.mem_append, List.mem_singleton, or_and_right, exists_or, exists_eq_left]
  rw [h.block b hb, hI.block b hb]
  by_cases hr : Touches region b
  · rw [if_pos hr, if_pos (hsnoc.mpr (Or.inr hr))]
  · rw [if_neg hr]
    exact if_congr (by rw [hsnoc, or_iff_left hr]) rfl rfl

/-! ## The tree before the image is protected -/

/-- The number of the 2 MiB block, below its root entry, that an address is in. -/
def blockOf (y : ℕ) : ℕ := index 3 y * 512 + index 2 y

/-- The state in which `protect_image` is called, for the state `s₀` at the start: static
tables only, the touched blocks in the direct map, and the window of the image. -/
structure Mapped (L : Layout) (feat : Features) (boot : BootInfo) (s₀ s : Kernel) : Prop where
  shape : (kernelSpace L feat).Shape (kernelSpec L.image) s
  pmm : s.pmm = s₀.pmm
  image : ∀ t ∈ s.avail, t ∉ L.image.pages
  tables : ∀ y k t, (kernelSpace L feat).tableOn s y (k + 1) = some t →
    t ∈ L.tables ∧ (index 4 y = 511 ∨ index 4 y = 256) ∧ k ≤ 1
  direct : ∀ y, index 4 y = 256 → ∀ k e, (kernelSpace L feat).Maps s y k e ↔
    k = 2 ∧ e = blockEntry feat (blockOf y) ∧ blockOf y < 8192 ∧
      Touched boot.memoryMap (blockOf y)
  kernel : ∀ y, index 4 y = 511 → index 3 y = 510 → index 2 y * 0x200000 < L.kernelWindowSize →
    (kernelSpace L feat).Maps s y 2 (leafEntry feat (index 2 y * 0x200000) .size2M earlyProt)

theorem kernelWindowSize_eq (L : Layout) : L.kernelWindowSize
    = (L.image.last + 0x1fffff) - (L.image.last + 0x1fffff) % 0x200000 := by
  have hfits := L.image_fits
  rw [Layout.kernelWindowSize, alignUp_2m (by omega)]

/-- A slot that holds zero ends the way. -/
theorem not_maps_of_zero {x d : ℕ} (h : (kernelSpace L feat).slotOn s x d = some 0#64) :
    ∀ k e, ¬(kernelSpace L feat).Maps s x k e :=
  RadixTree.not_maps_of_not_present h (by decide)

/-- The leaves below the root entry of the direct map, from the words of its tables. -/
theorem maps_direct {B : ℕ → Prop} [DecidablePred B] {y : ℕ}
    (hpdpt : (kernelSpace L feat).tableOn s y 1 = some L.directPdpt)
    (hpd : index 3 y < 16 → (kernelSpace L feat).tableOn s y 2 = some (L.directPds (index 3 y)))
    (hnone : 16 ≤ index 3 y → s.mem L.directPdpt (index 3 y) = 0#64)
    (hblock : ∀ b < 8192, s.mem (L.directPds (b / 512)) (b % 512) =
      if B b then blockEntry feat b else 0#64) (k : ℕ) (e : Entry) :
    (kernelSpace L feat).Maps s y k e ↔
      k = 2 ∧ e = blockEntry feat (blockOf y) ∧ blockOf y < 8192 ∧ B (blockOf y) := by
  have h2 := index_lt 2 y
  by_cases h16 : index 3 y < 16
  · have hb : blockOf y < 8192 := by
      unfold blockOf
      omega
    have hslot : (kernelSpace L feat).slotOn s y 2 =
        some (if B (blockOf y) then blockEntry feat (blockOf y) else 0#64) := by
      rw [RadixTree.slotOn_of_tableOn (hpd h16), ← hblock _ hb,
        show blockOf y / 512 = index 3 y by unfold blockOf; omega,
        show blockOf y % 512 = index 2 y by unfold blockOf; omega]
      rfl
    by_cases hB : B (blockOf y)
    · rw [if_pos hB] at hslot
      have hm : (kernelSpace L feat).Maps s y 2 (blockEntry feat (blockOf y)) :=
        ⟨hslot, present_leafEntry _ _ _ _, leaf_leafEntry feat _ .size2M _⟩
      constructor
      · intro hm'
        obtain ⟨rfl, rfl⟩ := hm.unique hm'
        exact ⟨rfl, rfl, hb, hB⟩
      · rintro ⟨rfl, rfl, -, -⟩
        exact hm
    · rw [if_neg hB] at hslot
      constructor
      · intro hm
        exact absurd hm (not_maps_of_zero hslot k e)
      · rintro ⟨-, -, -, h⟩
        exact absurd h hB
  · have hslot := RadixTree.slotOn_of_tableOn hpdpt
    rw [show (kernelSpace L feat).env.read s L.directPdpt (index (4 - 1) y) = 0#64 from
      hnone (by omega)] at hslot
    constructor
    · intro hm
      exact absurd hm (not_maps_of_zero hslot k e)
    · rintro ⟨-, -, hb, -⟩
      unfold blockOf at hb
      omega

/-- **What is mapped before the image gets its protections.** -/
theorem initTables_sat (feat : Features) (h : Start L boot s₀) :
    ((initTables L feat boot).run s₀).Sat (fun _ s => Mapped L feat boot s₀ s)
      (fun _ _ => False) := by
  obtain ⟨-, -, -, -, hm4⟩ := L.mem_tables
  obtain ⟨-, h20, -, h21, -, h32, hpd, -⟩ := L.tables_distinct
  have hfits := L.image_fits
  have hwin := kernelWindowSize_eq L
  rw [initTables, sat_bind]
  refine ((linkTables_linked feat h).and (linkTables_mem L s₀)).mono (fun _ s₁ h₁ => ?_)
    (fun _ _ hf => hf.1)
  obtain ⟨hlinked, hpmm₁, hmem₁⟩ := h₁
  have hflat : ∀ y, (kernelSpace L feat).tableOn s₁ y 3 = none := by
    intro y
    rw [Option.eq_none_iff_forall_not_mem]
    intro t ht
    have := (hlinked.linked.tables y 2 t ht).2.2
    omega
  have hways : Ways L feat s₁ := ⟨hlinked.kernel, hlinked.direct⟩
  have hidx : ∀ j, j * 0x200000 < L.kernelWindowSize →
      index 2 (u64 (kernelBase + j * 0x200000)) = 0 + j := by
    intro j hj
    rw [u64_of_lt (by unfold kernelBase; omega), index_eq]
    unfold kernelBase
    omega
  rw [sat_bind]
  refine ((fillImage_sat hways ⟨hlinked.linked.shape, fun _ _ => rfl, rfl⟩ hflat earlyProt).and
    (fill2m_mem feat s₁ earlyProt hidx)).mono (fun _ s₂ h₂ => ?_) (fun _ _ hf => hf.1)
  obtain ⟨hfilled₂, hpmm₂, hmem₂⟩ := h₂
  refine ((fillDirectMap_sat hways hfilled₂ hflat boot).and (fillDirectMap_mem feat boot s₂)).mono
    (fun _ s₃ h₃ => ?_) (fun _ _ hf => hf.1)
  obtain ⟨hfilled, hfills⟩ := h₃
  -- the image is filled in without touching the direct map, and the other way round
  have hdirect₂ : ∀ b < 8192, s₂.mem (L.directPds (b / 512)) (b % 512) = 0#64 := by
    intro b hb
    obtain ⟨hp0, hp1, hp2, hp3⟩ := hpd (b / 512) (by omega)
    rw [hmem₂, if_neg (fun hc => hp2 hc.1), hmem₁ _ hp0 hp1 hp3]
    exact h.bss _ (hm4 _ (by omega)) _ (by omega)
  have hpdpt : ∀ i, s₃.mem L.directPdpt i = s₁.mem L.directPdpt i := by
    intro i
    rw [hfills.other _ (fun j hj heq => (hpd j hj).2.2.2 heq.symm), hmem₂,
      if_neg (fun hc => h32 hc.1)]
  have hkernelPd : ∀ i, s₃.mem L.kernelPd i = s₂.mem L.kernelPd i :=
    hfills.other _ (fun j hj heq => (hpd j hj).2.2.1 heq.symm)
  refine ⟨hfilled.shape, hfills.pmm.trans (hpmm₂.trans hpmm₁), fun t ht => ?_, fun y k t ht => ?_,
    fun y h4 => ?_, fun y h4 h3 hlt => ?_⟩
  · rw [hfilled.avail] at ht
    exact hlinked.linked.image t ht
  · rw [hfilled.tables] at ht
    obtain ⟨hts, hrest⟩ := hlinked.linked.tables y k t ht
    refine ⟨?_, hrest⟩
    rcases hts with (rfl | rfl | rfl) | ⟨j, hj, rfl⟩
    · exact L.mem_tables.2.2.2.1
    · exact L.mem_tables.2.2.1
    · exact L.mem_tables.2.1
    · exact hm4 j hj
  · apply maps_direct
    · rw [hfilled.tables]
      exact hlinked.pdpt y h4
    · intro h16
      rw [hfilled.tables]
      exact hlinked.direct y h4 h16
    · intro h16
      rw [hpdpt]
      exact hlinked.zero _ h16 (index_lt 3 y)
    · intro b hb
      rw [hfills.block b hb, hdirect₂ b hb]
  · have ht : (kernelSpace L feat).tableOn s₃ y 2 = some L.kernelPd := by
      rw [hfilled.tables]
      exact hlinked.kernel y h4 h3
    have hslot := RadixTree.slotOn_of_tableOn ht
    have hentry : (kernelSpace L feat).env.read s₃ L.kernelPd (index (4 - 2) y)
        = leafEntry feat (index 2 y * 0x200000) .size2M earlyProt := by
      show s₃.mem L.kernelPd (index 2 y) = _
      have h2 := index_lt 2 y
      rw [hkernelPd, hmem₂, if_pos ⟨rfl, by omega, by omega⟩, Nat.sub_zero, Nat.zero_add,
        u64_of_lt (by omega)]
    rw [hentry] at hslot
    exact ⟨hslot, present_leafEntry _ _ _ _, leaf_leafEntry feat _ .size2M _⟩

end Mmu

end DoomOs
