/-
# The direct map

Once the static tables are linked and filled in, the leaves of the direct map never
change again: not by the steps of `protect_image`, in whatever order and however they
end, and not by calls of the virtual memory manager (`Later`).  The frames that
`populate` left free are in blocks that a region touches, so they are all reachable.

* `direct_map_reaches_frames`: free frames and page tables are mapped where
  `kernel_env::at` looks for them.
* `direct_map_described_iff`: the direct map covers undescribed pages exactly when a
  2 MiB block is only partly described.
-/
import DoomOs.MmuFill
import DoomOs.VmmRuns

namespace DoomOs

open Comp Paging RadixFormat Mmu

namespace Vmm

variable {L : Layout} {feat : Features} {boot : BootInfo} {k₀ k k' : Kernel} {s s' : Vmm}

/-! ## What may happen later -/

/-- The calls that `protect_image` is made of. -/
inductive ImageStep where
  | protectData
  | protectRodata
  | protectText
  | unmapBelow
  | unmapAbove
  deriving DecidableEq, Repr

/-- Making one of these calls. -/
def protectStep (L : Layout) (feat : Features) : ImageStep → Comp Fault MmError Kernel Unit
  | .protectData => protectRegion L feat L.dataRelRoStart L.kernelEnd .kernelData
  | .protectRodata => protectRegion L feat L.rodataStart L.rodataEnd .kernelRodata
  | .protectText => protectRegion L feat L.textStart L.textEnd .kernelText
  | .unmapBelow =>
    if alignDown L.textStart 4096 > kernelBase then
      (kernelSpace L feat).unmapRange kernelBase (alignDown L.textStart 4096 - kernelBase) .size4K
        RadixTree.ignoreRemoved
    else pure ()
  | .unmapAbove =>
    if kernelBase + L.kernelWindowSize > alignUp L.kernelEnd 4096 then
      (kernelSpace L feat).unmapRange (alignUp L.kernelEnd 4096)
        (kernelBase + L.kernelWindowSize - alignUp L.kernelEnd 4096) .size4K
        RadixTree.ignoreRemoved
    else pure ()

/-- The states from the end of `fill_direct_map` on, when steps of `protect_image` and calls of
the virtual memory manager follow in any order, each ending well or with an error. -/
inductive Later (L : Layout) (feat : Features) (boot : BootInfo) (k₀ : Kernel) : Vmm → Prop
  | filled {k : Kernel} : (initTables L feat boot).run k₀ = .ok () k →
      Later L feat boot k₀ ⟨k, .empty⟩
  | image {s : Vmm} {k : Kernel} (step : ImageStep) : Later L feat boot k₀ s →
      ((protectStep L feat step).run s.kernel).state? = some k →
      Later L feat boot k₀ ⟨k, s.table⟩
  | call {s s' : Vmm} (c : Call) : Later L feat boot k₀ s →
      ((exec L feat c).run s).state? = some s' → Later L feat boot k₀ s'

/-! ## The window, without the tables of the image -/

/-- The root without its entry for the image. -/
def withoutImage (L : Layout) (k : Kernel) : Kernel :=
  k.poke L.pml4 (index 4 kernelBase) 0#64

section WithoutImage

variable (M : Mapped L feat boot k₀ k)
include M

theorem tableOn_withoutImage {y d t : ℕ}
    (h : (kernelSpace L feat).tableOn (withoutImage L k) y d = some t) :
    (kernelSpace L feat).tableOn k y d = some t := by
  have hroot : (kernelSpace L feat).tableOn k kernelBase 0 = some L.pml4 := rfl
  exact RadixTree.tableOn_put_sub M.shape.separate hroot ((kernelSpec L.image).read_write _ _ _ k)
    (child_zero 0) h

theorem bare_withoutImage {y : ℕ} (hy : index 4 y = 511) :
    (kernelSpace L feat).tableOn (withoutImage L k) y 1 = none := by
  have hroot : (kernelSpace L feat).tableOn k kernelBase 0 = some L.pml4 := rfl
  have hput := RadixTree.tableOn_put (y := y) (k := 1) M.shape.separate hroot
    ((kernelSpec L.image).read_write _ _ _ k) (child_zero 0)
  rw [if_pos ⟨agree_one_iff.mpr (index_kernelBase.1.trans hy.symm), Nat.zero_lt_one⟩] at hput
  exact hput

theorem ready_of_mapped : Ready L feat k := by
  refine ⟨M.shape, M.image, fun y hy hy' => ?_⟩
  rw [Option.eq_none_iff_forall_not_mem]
  intro t ht
  rcases (M.tables y 0 t ht).2.1 with h | h
  · exact hy h
  · exact hy' h

theorem ready_withoutImage : Ready L feat (withoutImage L k) := by
  have hroot : (kernelSpace L feat).tableOn k kernelBase 0 = some L.pml4 := rfl
  refine ⟨M.shape.put hroot (Or.inl rfl), M.image, fun y hy hy' => ?_⟩
  rw [Option.eq_none_iff_forall_not_mem]
  intro t ht
  have hnone := (ready_of_mapped M).roots y hy hy'
  rw [tableOn_withoutImage M ht] at hnone
  cases hnone

/-- All tables are static, so what the manager can account for is what is free. -/
theorem owned_of_static {k' : Kernel} (hav : k'.avail = k.avail)
    (hsub : ∀ y d t, (kernelSpace L feat).tableOn k' y d = some t →
      (kernelSpace L feat).tableOn k y d = some t) : owned L feat k' = k.avail := by
  ext t
  constructor
  · rintro ⟨ht | ⟨y, d, ht⟩, hpin⟩
    · rw [← hav]
      exact ht
    · exact absurd (L.tables_inside t (M.tables y d t (hsub y _ t ht)).1) hpin
  · intro ht
    refine ⟨Or.inl ?_, M.image t ht⟩
    show t ∈ k'.avail
    rw [hav]
    exact ht

theorem owned_withoutImage : owned L feat (withoutImage L k) = k.avail :=
  owned_of_static M rfl (fun _ _ _ h => tableOn_withoutImage M h)

theorem window_of_mapped : Window L feat (withoutImage L k) ∅ ∅ k := by
  have W := window_of_ready (ready_of_mapped M)
  refine ⟨ready_withoutImage M, W.shape, W.image, fun y d t ht => tableOn_withoutImage M ht,
    W.depth, W.mapped, W.once, ?_, W.held_disjoint, W.backing_disjoint⟩
  rw [W.frames, owned_of_static M rfl (fun _ _ _ h => h), owned_withoutImage M]

end WithoutImage

/-! ## What holds later -/

/-- The state `s`, for the state `k` after `fill_direct_map`: the direct map is as it was. -/
structure LaterInv (L : Layout) (feat : Features) (k : Kernel) (s : Vmm) : Prop where
  inv : Inv L feat (withoutImage L k) s
  direct : (kernelSpace L feat).Untouched (· ≠ 256) k s.kernel

theorem protectStep_sat (M : Mapped L feat boot k₀ k) (H : LaterInv L feat k s)
    (step : ImageStep) :
    ((protectStep L feat step).run s.kernel).Sat
      (fun _ k' => LaterInv L feat k ⟨k', s.table⟩)
      (fun _ k' => LaterInv L feat k ⟨k', s.table⟩) := by
  have hbase : kernelBase = 0xffffffff80000000 := rfl
  have hend : L.kernelEnd = kernelBase + L.image.last := rfl
  have hwin := kernelWindowSize_eq L
  have hfits := L.image_fits
  obtain ⟨ht, ht'⟩ := L.text_le
  obtain ⟨hr, hr'⟩ := L.rodata_le
  obtain ⟨hd, hd'⟩ := L.data_le
  have K := (Window.keeps L feat (withoutImage L k) s.table.live ∅ (P := (· = 511))
    (fun y hy => ⟨by omega, bare_withoutImage M hy⟩)).untouched s.kernel
  have h₀ : Window L feat (withoutImage L k) s.table.live ∅ s.kernel ∧
      (kernelSpace L feat).Untouched (· = 511) s.kernel s.kernel := ⟨H.inv.window, .refl _⟩
  have hdone : ∀ k', (Window L feat (withoutImage L k) s.table.live ∅ k' ∧
      (kernelSpace L feat).Untouched (· = 511) s.kernel k') →
      LaterInv L feat k ⟨k', s.table⟩ := by
    intro k' hk'
    refine ⟨⟨H.inv.table, hk'.1⟩, H.direct.trans (hk'.2.mono ?_)⟩
    rintro i rfl
    decide
  apply Outcome.Sat.mono (Q := fun _ k' => Window L feat (withoutImage L k) s.table.live ∅ k' ∧
      (kernelSpace L feat).Untouched (· = 511) s.kernel k')
    (E := fun _ k' => Window L feat (withoutImage L k) s.table.live ∅ k' ∧
      (kernelSpace L feat).Untouched (· = 511) s.kernel k')
  · cases step with
    | protectData => exact protectRegion_keeps K h₀ _ (by omega) (by omega) (by omega)
    | protectRodata => exact protectRegion_keeps K h₀ _ (by omega) hr' (by omega)
    | protectText => exact protectRegion_keeps K h₀ _ ht ht' (by omega)
    | unmapBelow =>
      rw [protectStep, alignDown_4096]
      split_ifs with h
      · exact unmapPart_keeps K h₀ le_rfl h.le (by omega)
      · exact h₀
    | unmapAbove =>
      rw [protectStep, alignUp_4096 (by omega)]
      split_ifs with h
      · exact unmapPart_keeps K h₀ (by omega) h.le (by omega)
      · exact h₀
  · exact fun _ k' hk' => hdone k' hk'
  · exact fun _ k' hk' => hdone k' hk'

theorem exec_later (H : LaterInv L feat k s) (c : Call) :
    ((exec L feat c).run s).Sat (fun _ s' => LaterInv L feat k s')
      (fun _ s' => LaterInv L feat k s') := by
  -- no call works under the root entry of the direct map
  have hroots : ∀ i, c.roots i → i ≠ 256 := by
    intro i hi
    cases c <;> simp only [Call.roots] at hi <;> omega
  exact (exec_after H.inv c).mono
    (fun _ s' h => ⟨h.inv, H.direct.trans (h.elsewhere.mono hroots)⟩)
    (fun _ s' h => ⟨h.inv, H.direct.trans (h.elsewhere.mono hroots)⟩)

theorem Later.inv (h₀ : Start L boot k₀) (h : Later L feat boot k₀ s) :
    ∃ k, Mapped L feat boot k₀ k ∧ LaterInv L feat k s := by
  induction h with
  | filled hrun =>
    have M := (initTables_sat feat h₀).of_ok hrun
    refine ⟨_, M, ⟨AllocationTable.inv_of_count_eq_zero rfl, ?_⟩, .refl _⟩
    rw [live_empty]
    exact window_of_mapped M
  | image step _ hrun ih =>
    obtain ⟨k, M, H⟩ := ih
    exact ⟨k, M, (protectStep_sat M H step).of_state?
      (P := fun k' => LaterInv L feat k ⟨k', _⟩) hrun⟩
  | call c _ hrun ih =>
    obtain ⟨k, M, H⟩ := ih
    exact ⟨k, M, (exec_later H c).of_state? hrun⟩

/-! ## `init_kernel_space` takes such steps -/

/-- Leaving off at a step, or going on after it. -/
theorem later_step {t : AllocationTable} {step : ImageStep}
    {f : Unit → Comp Fault MmError Kernel Unit}
    (h : Later L feat boot k₀ ⟨k, t⟩)
    (hrun : ((protectStep L feat step >>= f).run k).state? = some k')
    (hrest : ∀ k₁, Later L feat boot k₀ ⟨k₁, t⟩ → ((f ()).run k₁).state? = some k' →
      Later L feat boot k₀ ⟨k', t⟩) : Later L feat boot k₀ ⟨k', t⟩ := by
  have hnext : ∀ {k₁}, ((protectStep L feat step).run k).state? = some k₁ →
      Later L feat boot k₀ ⟨k₁, t⟩ := fun hk => .image step h hk
  cases hs : (protectStep L feat step).run k with
  | ok a k₁ =>
    rw [run_bind_ok hs] at hrun
    exact hrest k₁ (hnext (by rw [hs]; rfl)) hrun
  | err e k₁ =>
    rw [run_bind_err hs] at hrun
    rw [← Option.some.inj hrun]
    exact hnext (by rw [hs]; rfl)
  | halt p =>
    rw [run_bind_halt hs] at hrun
    cases hrun

theorem later_protectImage (h : Later L feat boot k₀ ⟨k, .empty⟩)
    (hrun : ((protectImage L feat).run k).state? = some k') :
    Later L feat boot k₀ ⟨k', .empty⟩ := by
  have hdata : protectRegion L feat L.dataRelRoStart L.kernelEnd .kernelData
    = protectStep L feat .protectData := rfl
  have hrodata : protectRegion L feat L.rodataStart L.rodataEnd .kernelRodata
    = protectStep L feat .protectRodata := rfl
  have htext : protectRegion L feat L.textStart L.textEnd .kernelText
    = protectStep L feat .protectText := rfl
  rw [protectImage, hdata] at hrun
  refine later_step h hrun (fun k₁ h₁ hrun₁ => ?_)
  rw [hrodata] at hrun₁
  refine later_step h₁ hrun₁ (fun k₂ h₂ hrun₂ => ?_)
  rw [htext] at hrun₂
  refine later_step h₂ hrun₂ (fun k₃ h₃ hrun₃ => ?_)
  -- the two unmaps, each if there is something to unmap
  have habove : ∀ k₄, Later L feat boot k₀ ⟨k₄, .empty⟩ →
      ((protectStep L feat .unmapAbove).run k₄).state? = some k' →
      Later L feat boot k₀ ⟨k', .empty⟩ := fun k₄ h₄ hrun₄ => .image .unmapAbove h₄ hrun₄
  rw [unmapAround] at hrun₃
  by_cases hbelow : alignDown L.textStart 4096 > kernelBase
  · have hunmap : (kernelSpace L feat).unmapRange kernelBase
        (alignDown L.textStart 4096 - kernelBase) .size4K RadixTree.ignoreRemoved
        = protectStep L feat .unmapBelow := by
      rw [protectStep, if_pos hbelow]
    rw [if_pos hbelow, hunmap] at hrun₃
    refine later_step h₃ hrun₃ (fun k₄ h₄ hrun₄ => habove k₄ h₄ ?_)
    rw [protectStep]
    exact hrun₄
  · rw [if_neg hbelow] at hrun₃
    apply habove k₃ h₃
    rw [protectStep]
    exact hrun₃

/-- Every state after `init_kernel_space` is one of those. -/
theorem later_of_initKernelSpace {r : Except InitError Unit}
    (hrun : (initKernelSpace L feat boot).run k₀ = .ok r k) :
    Later L feat boot k₀ ⟨k, .empty⟩ := by
  obtain ⟨k₁, htables, ⟨-, hprotect⟩ | ⟨e, -, hprotect⟩⟩ := initKernelSpace_cases hrun
  · exact later_protectImage (.filled htables) (by rw [hprotect]; rfl)
  · exact later_protectImage (.filled htables) (by rw [hprotect]; rfl)

/-- What the calls reach from `init_kernel_space` is among the later states. -/
theorem Reachable.later {r : Except InitError Unit}
    (hrun : (initKernelSpace L feat boot).run k₀ = .ok r k)
    (h : Reachable L feat ⟨k, .empty⟩ s) : Later L feat boot k₀ s := by
  induction h with
  | start => exact later_of_initKernelSpace hrun
  | call c _ hcall ih => exact .call c ih hcall

/-! ## Translations of the direct map -/

/-- **What the direct map translates**, now and later. -/
theorem LaterInv.translation_direct (M : Mapped L feat boot k₀ k) (H : LaterInv L feat k s) {p : ℕ}
    (hp : p < 2 ^ 39) : (kernelSpace L feat).translation s.kernel (directMapBase + p) =
      if p / 0x200000 < 8192 ∧ Touched boot.memoryMap (p / 0x200000)
      then some (p, readBack feat .kernelData) else none := by
  have hvalid : valid (directMapBase + p) = true := by
    rw [valid_iff]
    unfold directMapBase
    omega
  have h4 : index 4 (directMapBase + p) = 256 := by
    rw [index_eq]
    unfold directMapBase
    omega
  have hblock : blockOf (directMapBase + p) = p / 0x200000 := by
    unfold blockOf
    rw [index_eq, index_eq]
    unfold directMapBase
    omega
  have hmaps := M.direct _ h4
  rw [hblock] at hmaps
  rw [H.direct.translation M.shape H.inv.window.shape hvalid (not_not.mpr h4)]
  split_ifs with hB
  · rw [RadixTree.translation_of_maps M.shape hvalid ((hmaps 2 _).mpr ⟨rfl, rfl, hB⟩), blockEntry,
      address_leafEntry, prot_leafEntry]
    have hphys :
        p / 0x200000 * 0x200000 % 2 ^ 52 / 4096 * 4096 + (directMapBase + p) % span 2 = p := by
      unfold directMapBase span
      omega
    rw [hphys]
  · apply RadixTree.translation_of_not_maps M.shape hvalid
    intro d e hm
    exact hB ((hmaps d e).mp hm).2.2

/-- `kernel_env::at`: the address at which the kernel reads and writes the frame at `phys`. -/
def kernelAt (phys : ℕ) : ℕ := directMapBase + phys

/-- The kernel reaches the byte at the physical address `p`: it is mapped, writable and
cached. -/
def Reaches (L : Layout) (feat : Features) (k : Kernel) (p : ℕ) : Prop :=
  ∃ prot, (kernelSpace L feat).translation k (kernelAt p) = some (p, prot) ∧
    prot.write = true ∧ prot.uncached = false

/-- A frame that `populate` frees is in blocks that a region touches. -/
theorem touched_of_free {p : ℕ}
    (h : p / 4096 ∈ (Pmm.populate boot L.bootStart L.image.last Pmm.zero).freeFrames) :
    p / 0x200000 < 8192 ∧ Touched boot.memoryMap (p / 0x200000) := by
  obtain ⟨hf, htest⟩ := h
  have hboot := L.boot_le
  have himage := L.image_le
  have hfits := L.image_fits
  obtain ⟨⟨r, hr, hkind, hin⟩, -⟩ :=
    (Pmm.free_populate_iff (by omega) (by omega) hf).mp htest
  unfold Pmm.Inside at hin
  unfold maxFrames at hf
  refine ⟨by omega, r, hr, ?_, by omega, by omega, by omega⟩
  rw [hkind]
  decide

theorem reaches_of_free (h₀ : Start L boot k₀) (h : Later L feat boot k₀ s) {p : ℕ}
    (hp : p / 4096 ∈ (Pmm.populate boot L.bootStart L.image.last Pmm.zero).freeFrames) :
    Reaches L feat s.kernel p := by
  obtain ⟨k, M, H⟩ := h.inv h₀
  have hB := touched_of_free hp
  refine ⟨readBack feat .kernelData, ?_, rfl, rfl⟩
  rw [kernelAt, H.translation_direct M (by omega), if_pos hB]

/-- The frames that are free or tables outside the image were free after `populate`. -/
theorem free_of_owned (h₀ : Start L boot k₀) (h : Later L feat boot k₀ s) {t : ℕ}
    (ht : t ∈ owned L feat s.kernel) :
    t % 4096 = 0 ∧
      t / 4096 ∈ (Pmm.populate boot L.bootStart L.image.last Pmm.zero).freeFrames := by
  obtain ⟨k, M, H⟩ := h.inv h₀
  have hframes := H.inv.window.frames
  rw [owned_withoutImage M] at hframes
  have hav : t ∈ k.avail := by
    rw [← hframes]
    exact Or.inl (Or.inl ht)
  obtain ⟨hal, hfree⟩ := hav
  rw [M.pmm] at hfree
  obtain ⟨out, hrun⟩ := h₀.pmm
  exact ⟨hal, (((hrun.owned (Pmm.inv_populate _ _ _)).free_iff _).mp hfree).1⟩

/-- **Every allocatable frame stays reachable.**  In every state from the end of
`fill_direct_map` on: a byte of a frame that `populate` freed for the same boot information
is mapped by the direct map at its own address, writable and cached; and so is every byte
of a table that `alloc_table` hands out, or that is in use outside the image, in any such
state. -/
theorem direct_map_reaches_frames (h₀ : Start L boot k₀) (h : Later L feat boot k₀ s) :
    (∀ p, p / 4096 ∈ (Pmm.populate boot L.bootStart L.image.last Pmm.zero).freeFrames →
      Reaches L feat s.kernel p) ∧
    (∀ s', Later L feat boot k₀ s' → ∀ t k',
      (kernelEnv L.image).allocTable.run s'.kernel = .ok t k' →
      ∀ p, t ≤ p → p < t + 4096 → Reaches L feat s.kernel p) ∧
    ∀ s', Later L feat boot k₀ s' → ∀ t ∈ (kernelSpace L feat).tables s'.kernel,
      t ∉ L.image.pages → ∀ p, t ≤ p → p < t + 4096 → Reaches L feat s.kernel p := by
  have hframe : ∀ {s' : Vmm} {t : ℕ}, Later L feat boot k₀ s' → t ∈ owned L feat s'.kernel →
      ∀ p, t ≤ p → p < t + 4096 → Reaches L feat s.kernel p := by
    intro s' t h' ht p hle hlt
    obtain ⟨hal, hfree⟩ := free_of_owned h₀ h' ht
    apply reaches_of_free h₀ h
    rw [show p / 4096 = t / 4096 by omega]
    exact hfree
  refine ⟨fun p hp => reaches_of_free h₀ h hp, fun s' h' t k' hrun => ?_,
    fun s' h' t ht hpin => hframe h' ⟨Or.inr ht, hpin⟩⟩
  obtain ⟨k, M, H⟩ := h'.inv h₀
  have halloc := ((kernelSpec L.image).alloc s'.kernel H.inv.window.shape.good).of_ok hrun
  exact hframe h' ⟨Or.inl halloc.mem, H.inv.window.image t halloc.mem⟩

/-- Filling in the tables does not fail. -/
theorem exists_filled (L : Layout) (feat : Features) {boot : BootInfo} {k₀ : Kernel}
    (h₀ : Start L boot k₀) : ∃ k, (initTables L feat boot).run k₀ = .ok () k := by
  obtain ⟨_, k, hrun, -⟩ := (initTables_sat feat h₀).exists_ok (fun _ _ h => h)
  exact ⟨k, hrun⟩

theorem direct_map_reaches_frames_small : ∃ k,
    (initTables smallLayout ⟨true, true, false⟩ Pmm.smallBoot).run
      ⟨Pmm.smallPmm, fun _ _ => 0#64⟩ = .ok () k ∧
    Reaches smallLayout ⟨true, true, false⟩ k 0x1000005 := by
  obtain ⟨k, hrun⟩ := exists_filled smallLayout ⟨true, true, false⟩ start_small
  refine ⟨k, hrun, (direct_map_reaches_frames start_small (.filled hrun)).1 0x1000005 ?_⟩
  show _ ∈ (Pmm.populate Pmm.smallBoot 0x100000 0x200000 Pmm.zero).freeFrames
  rw [← Pmm.smallPmm_eq]
  exact (Pmm.mem_freeFrames_smallPmm _).mpr (by decide)

/-! ## Described memory -/

/-- The 4 KiB page `f` overlaps a region of the memory map that is not defective. -/
def Described (boot : BootInfo) (f : ℕ) : Prop :=
  ∃ r ∈ boot.memoryMap, r.kind ≠ .defective ∧ Pmm.Overlaps r.base r.length f

/-- The direct map has a cached translation for the physical address `p`. -/
def CachedAt (L : Layout) (feat : Features) (k : Kernel) (p : ℕ) : Prop :=
  ∃ q prot, (kernelSpace L feat).translation k (directMapBase + p) = some (q, prot) ∧
    prot.uncached = false

/-- The direct map covers described memory only; so no byte of an aperture whose pages
overlap no described region is cached. -/
structure CoversDescribed (L : Layout) (feat : Features) (boot : BootInfo) (k : Kernel) : Prop where
  page : ∀ p < 2 ^ 39, CachedAt L feat k p → Described boot (p / 4096)
  aperture : ∀ pa bytes, (∀ f, Pmm.Overlaps pa bytes f → ¬Described boot f) →
    ∀ p < 2 ^ 39, pa / 4096 ≤ p / 4096 → p / 4096 ≤ (pa + bytes - 1) / 4096 → 0 < bytes →
      ¬CachedAt L feat k p

/-- **The direct map covers described memory only when whole blocks are described.**  In every
state from the end of `fill_direct_map` on, the cached translations of the direct map stay
within described pages if and only if every 2 MiB block that a described region touches
consists of described pages. -/
theorem direct_map_described_iff (h₀ : Start L boot k₀) (h : Later L feat boot k₀ s) :
    CoversDescribed L feat boot s.kernel ↔
      ∀ b < 8192, Touched boot.memoryMap b →
        ∀ f, b * 512 ≤ f → f < (b + 1) * 512 → Described boot f := by
  obtain ⟨k, M, H⟩ := h.inv h₀
  have hcached : ∀ p < 2 ^ 39, CachedAt L feat s.kernel p ↔
      p / 0x200000 < 8192 ∧ Touched boot.memoryMap (p / 0x200000) := by
    intro p hp
    unfold CachedAt
    rw [H.translation_direct M hp]
    split_ifs with hB
    · exact iff_of_true ⟨p, _, rfl, rfl⟩ hB
    · refine iff_of_false ?_ hB
      rintro ⟨q, prot, hnone, -⟩
      cases hnone
  constructor
  · intro hcovers b hb htouched f hle hlt
    have hpage := hcovers.page (f * 4096) (by omega) ((hcached _ (by omega)).mpr ⟨by omega, ?_⟩)
    · rw [Nat.mul_div_cancel _ (by norm_num)] at hpage
      exact hpage
    · rw [show f * 4096 / 0x200000 = b by omega]
      exact htouched
  · intro hwhole
    have hpage : ∀ p < 2 ^ 39, CachedAt L feat s.kernel p → Described boot (p / 4096) := by
      intro p hp hc
      obtain ⟨hb, htouched⟩ := (hcached p hp).mp hc
      exact hwhole _ hb htouched _ (by omega) (by omega)
    refine ⟨hpage, fun pa bytes hout p hp hle hlt hpos hc => hout (p / 4096) ?_ (hpage p hp hc)⟩
    exact ⟨hpos, by omega, by omega⟩

theorem direct_map_described_iff_small : ∃ k,
    (initTables smallLayout ⟨true, true, false⟩ Pmm.smallBoot).run
      ⟨Pmm.smallPmm, fun _ _ => 0#64⟩ = .ok () k ∧
    CoversDescribed smallLayout ⟨true, true, false⟩ Pmm.smallBoot k := by
  obtain ⟨k, hrun⟩ := exists_filled smallLayout ⟨true, true, false⟩ start_small
  refine ⟨k, hrun, (direct_map_described_iff start_small (.filled hrun)).mpr ?_⟩
  rintro b - ⟨r, hr, htouch⟩ f hle hlt
  obtain rfl : r = ⟨0x1000000, 0x400000, .usable⟩ := List.mem_singleton.mp hr
  refine ⟨_, hr, by decide, ?_⟩
  unfold Touches at htouch
  unfold Pmm.Overlaps
  dsimp only at htouch ⊢
  omega

/-- A memory map with one page. -/
def pageBoot : BootInfo := { memoryMap := [⟨0x1000000, 0x1000, .usable⟩] }

/-- One described page at 16 MiB, and the page after it has a cached translation. -/
theorem direct_map_covers_undescribed : ∃ k₀ k, Start smallLayout pageBoot k₀ ∧
    (initTables smallLayout ⟨true, true, false⟩ pageBoot).run k₀ = .ok () k ∧
    CachedAt smallLayout ⟨true, true, false⟩ k 0x1001000 ∧
    ¬Described pageBoot (0x1001000 / 4096) ∧
    ¬CoversDescribed smallLayout ⟨true, true, false⟩ pageBoot k := by
  obtain ⟨p, hp⟩ : ∃ p, p = Pmm.populate pageBoot 0x100000 0x200000 Pmm.zero := ⟨_, rfl⟩
  have hstart := start_populate smallLayout pageBoot hp
  obtain ⟨k, hrun⟩ := exists_filled smallLayout ⟨true, true, false⟩ hstart
  obtain ⟨k', M, H⟩ := (Later.filled hrun).inv hstart
  have htouched : Touched pageBoot.memoryMap (0x1001000 / 0x200000) :=
    ⟨⟨0x1000000, 0x1000, .usable⟩, List.mem_singleton.mpr rfl, by decide⟩
  have hcached : CachedAt smallLayout ⟨true, true, false⟩ k 0x1001000 := by
    refine ⟨0x1001000, readBack ⟨true, true, false⟩ .kernelData, ?_, rfl⟩
    exact (H.translation_direct M (by norm_num)).trans (if_pos ⟨by norm_num, htouched⟩)
  have hnot : ¬Described pageBoot (0x1001000 / 4096) := by
    rintro ⟨r, hr, -, hover⟩
    obtain rfl : r = ⟨0x1000000, 0x1000, .usable⟩ := List.mem_singleton.mp hr
    exact absurd hover (by decide)
  exact ⟨_, k, hstart, hrun, hcached, hnot, fun hc => hnot (hc.page _ (by norm_num) hcached)⟩

end Vmm

end DoomOs
