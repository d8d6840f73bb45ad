/-
# The address space after its set-up

From the state after `populate`, with the static tables zeroed, `init_kernel_space`
builds a tree with the shape of page tables.  What the virtual memory manager starts
from (`Ready`) is that, and that nothing is there yet under the root entry of its
window.
-/
import DoomOs.Mmu

namespace DoomOs

open Comp Paging RadixFormat

namespace Mmu

variable {L : Layout} {feat : Features} {s s' s₀ : Kernel} {ts : Set ℕ}

/-! ## Root entries -/

theorem index_kernelBase : index 4 kernelBase = 511 ∧ index 3 kernelBase = 510 := by
  constructor <;> rw [index_eq] <;> norm_num [kernelBase]

theorem index_directMap (pa : ℕ) (h : pa < directMapSize) :
    index 4 (directMapBase + pa) = 256 ∧ index 3 (directMapBase + pa) = pa / 0x40000000 := by
  simp only [directMapSize] at h
  constructor <;> rw [index_eq] <;> simp only [directMapBase] <;> omega

/-- The last root entry holds the top 512 GiB. -/
theorem index_top {x : ℕ} (h : 0xffffff8000000000 ≤ x) (hx : x < 2 ^ 64) : index 4 x = 511 := by
  rw [index_eq]
  omega

theorem agree_one_iff {x y : ℕ} : format.Agree 1 x y ↔ index 4 x = index 4 y := by
  constructor
  · intro h
    exact h 0 (by omega)
  · intro h k hk
    obtain rfl : k = 0 := by omega
    exact h

theorem agree_two_iff {x y : ℕ} :
    format.Agree 2 x y ↔ index 4 x = index 4 y ∧ index 3 x = index 3 y := by
  rw [agree_succ_iff, agree_one_iff]
  exact Iff.rfl

/-! ## Linking the static tables -/

/-- The state in which `init_kernel_space` is called: the allocator has been populated,
whatever has been taken from it since is still out, and the static tables are zero. -/
structure Start (L : Layout) (boot : BootInfo) (s : Kernel) : Prop where
  pmm : ∃ out, Pmm.Run (Pmm.populate boot L.bootStart L.image.last Pmm.zero) s.pmm out
  bss : ∀ t ∈ L.tables, ∀ i < 512, s.mem t i = 0#64

/-- Right after `populate`, with zeroed memory. -/
theorem start_populate (L : Layout) (boot : BootInfo) {p : Pmm}
    (hp : p = Pmm.populate boot L.bootStart L.image.last Pmm.zero) :
    Start L boot ⟨p, fun _ _ => 0#64⟩ := by
  refine ⟨⟨[], ?_⟩, fun _ _ _ _ => rfl⟩
  rw [← hp]
  exact .start

/-- No page of the image is free. -/
theorem Start.image {boot : BootInfo} (h : Start L boot s) : ∀ t ∈ s.avail, t ∉ L.image.pages := by
  intro t ht himg
  obtain ⟨out, hrun⟩ := h.pmm
  have howned := hrun.owned (Pmm.inv_populate _ _ _)
  have hfree := ((howned.free_iff _).mp ht.2).1
  have hb := L.boot_le
  have hi := L.image_le
  have hf := L.image_fits
  have hres := Pmm.image_reserved (by omega) (by omega) hfree
  have ha := ht.1
  have h1 := himg.1
  have h2 := himg.2
  omega

/-- The static tables in `ts` are linked, all below the entries of the image and of the
direct map, and the others are still zero. -/
structure Linked (L : Layout) (feat : Features) (ts : Set ℕ) (s : Kernel) : Prop where
  shape : (kernelSpace L feat).Shape (kernelSpec L.image) s
  image : ∀ t ∈ s.avail, t ∉ L.image.pages
  tables : ∀ y k t, (kernelSpace L feat).tableOn s y (k + 1) = some t →
    t ∈ ts ∧ (index 4 y = 511 ∨ index 4 y = 256) ∧ k ≤ 1
  zero : ∀ t ∈ L.tables, t ∉ ts → t ≠ L.pml4 → ∀ i < 512, s.mem t i = 0#64

theorem Linked.link (H : Linked L feat ts s) (va d : ℕ) {t c : ℕ} (hc : c ∈ L.tables)
    (hcts : c ∉ ts) (hroot : c ≠ L.pml4) (ht : (kernelSpace L feat).tableOn s va d = some t)
    (hd : d ≤ 1)
    (hva : index 4 va = 511 ∨ index 4 va = 256) (hz : s.mem t (index (4 - d) va) = 0#64) :
    Linked L feat (insert c ts) (s.poke t (index (4 - d) va) (tableEntry c)) ∧
      (∀ y k t', (kernelSpace L feat).tableOn s y k = some t' →
        (kernelSpace L feat).tableOn (s.poke t (index (4 - d) va) (tableEntry c)) y k = some t') ∧
      ∀ y, format.Agree (d + 1) va y →
        (kernelSpace L feat).tableOn (s.poke t (index (4 - d) va) (tableEntry c)) y (d + 1)
          = some c := by
  have hslot := RadixTree.slotOn_of_tableOn ht
  rw [show (kernelSpace L feat).env.read s t (index (4 - d) va) = 0#64 from hz] at hslot
  have hin := L.tables_inside c hc
  have hal := L.tables_aligned c hc
  have hfit := L.image_fits
  have N : (kernelSpace L feat).NewTable (kernelSpec L.image) s d c 0#64 := by
    refine ⟨Or.inl hin, fun hm => H.image c hm hin, hal, by omega, fun y k hy => ?_,
      Or.inl ⟨by decide, H.zero c hc hcts hroot⟩⟩
    cases k with
    | zero => exact hroot (Option.some.inj hy).symm
    | succ k => exact hcts (H.tables y k c hy).1
  have hr := (kernelSpec L.image).read_write t (index (4 - d) va) (tableEntry c) s
  refine ⟨⟨H.shape.link ht (by omega) hslot N, H.image, fun y k t' hy => ?_,
      fun t' ht' hts hne i hi => ?_⟩,
    fun y k t' hy => RadixTree.tableOn_link_of_some H.shape ht N hr hslot hy,
    fun y ha => RadixTree.tableOn_link_child H.shape ht (by omega) N hr ha⟩
  · rcases RadixTree.tableOn_link_cases H.shape ht (by omega) N hr hy with h | ⟨rfl, hk, ha⟩
    · exact ⟨Or.inr (H.tables y k t' h).1, (H.tables y k t' h).2⟩
    · have h4 : index 4 va = index 4 y := ha 0 (by omega)
      exact ⟨Or.inl rfl, h4 ▸ hva, by omega⟩
  · -- the table that was written is linked or the root, so it is not `t'`
    have hne' : t' ≠ t := by
      rintro rfl
      cases d with
      | zero => exact hne (Option.some.inj ht).symm
      | succ k => exact hts (Or.inr (H.tables va k t' ht).1)
    exact (store_of_ne (fun h => hne' h.1)).trans
      (H.zero t' ht' (fun h => hts (Or.inr h)) hne i hi)

/-- The ways to the page directories. -/
structure Ways (L : Layout) (feat : Features) (s : Kernel) : Prop where
  kernel : ∀ y, index 4 y = 511 → index 3 y = 510 →
    (kernelSpace L feat).tableOn s y 2 = some L.kernelPd
  direct : ∀ y, index 4 y = 256 → index 3 y < 16 →
    (kernelSpace L feat).tableOn s y 2 = some (L.directPds (index 3 y))

/-- Where the tables are zeroed, nothing is linked. -/
theorem Start.linked {boot : BootInfo} (h : Start L boot s) :
    Linked L feat ∅ (s.poke L.pml4 0 0#64) := by
  have hmem : ∀ t ∈ L.tables, ∀ i < 512, (s.poke L.pml4 0 0#64).mem t i = 0#64 := by
    intro t ht i hi
    by_cases heq : t = L.pml4 ∧ i = 0
    · exact if_pos heq
    · exact (store_of_ne heq).trans (h.bss t ht i hi)
  have hroot : ∀ y, (kernelSpace L feat).slotOn (s.poke L.pml4 0 0#64) y 0 = some 0#64 := by
    intro y
    rw [RadixTree.slotOn_of_tableOn (t := L.pml4) rfl]
    exact congrArg some (hmem _ L.mem_tables.1 _ (index_lt _ _))
  have hin := L.tables_inside _ L.mem_tables.1
  obtain ⟨out, hrun⟩ := h.pmm
  refine ⟨RadixTree.Shape.empty (hrun.owned (Pmm.inv_populate _ _ _)).inv (fun hm => ?_) ?_,
    h.image, fun y k t hy => ?_, fun t ht _ _ => hmem t ht⟩
  · exact h.image _ hm hin
  · exact hmem _ L.mem_tables.1
  · have hnone := tableOn_none_below (tableOn_succ_none (hroot y) (child_zero 0))
      (show 1 ≤ k + 1 by omega)
    rw [RadixTree.tableOn, hnone] at hy
    cases hy

/-- The tables of the image are linked, and the first `i` page directories of the direct
map. -/
structure DirectLinked (L : Layout) (feat : Features) (i : ℕ) (s : Kernel) : Prop where
  linked : Linked L feat
    ({L.directPdpt, L.kernelPd, L.kernelPdpt} ∪ {t | ∃ j < i, t = L.directPds j}) s
  kernel : ∀ y, index 4 y = 511 → index 3 y = 510 →
    (kernelSpace L feat).tableOn s y 2 = some L.kernelPd
  pdpt : ∀ y, index 4 y = 256 → (kernelSpace L feat).tableOn s y 1 = some L.directPdpt
  direct : ∀ y, index 4 y = 256 → index 3 y < i →
    (kernelSpace L feat).tableOn s y 2 = some (L.directPds (index 3 y))
  zero : ∀ j, i ≤ j → j < 512 → s.mem L.directPdpt j = 0#64

theorem DirectLinked.step {i : ℕ} (h : DirectLinked L feat i s) (hi : i < 16) :
    DirectLinked L feat (i + 1) (s.poke L.directPdpt i (tableEntry (L.directPds i))) := by
  obtain ⟨-, -, -, -, hm4⟩ := L.mem_tables
  obtain ⟨-, -, -, -, -, -, hpd, hinj⟩ := L.tables_distinct
  obtain ⟨hv4, hv3⟩ := index_directMap (i * 0x40000000)
    (by simp only [directMapSize]; omega)
  rw [Nat.mul_div_cancel _ (by norm_num)] at hv3
  obtain ⟨hp0, hp1, hp2, hp3⟩ := hpd i hi
  have hfresh : L.directPds i ∉ ({L.directPdpt, L.kernelPd, L.kernelPdpt} : Set ℕ) ∪
      {t | ∃ j < i, t = L.directPds j} := by
    rintro ((h | h | h) | ⟨j, hj, heq⟩)
    · exact hp3 h
    · exact hp2 h
    · exact hp1 h
    · have := hinj i hi j (by omega) heq
      omega
  have hlink := h.linked.link (directMapBase + i * 0x40000000) 1 (hm4 i hi) hfresh hp0
    (h.pdpt _ hv4) le_rfl (Or.inr hv4) (h.zero _ (by rw [hv3]) (index_lt _ _))
  rw [show index (4 - 1) (directMapBase + i * 0x40000000) = i from hv3] at hlink
  obtain ⟨H', hkeep, hnew⟩ := hlink
  have hset : insert (L.directPds i) (({L.directPdpt, L.kernelPd, L.kernelPdpt} : Set ℕ) ∪
      {t | ∃ j < i, t = L.directPds j}) = {L.directPdpt, L.kernelPd, L.kernelPdpt} ∪
      {t | ∃ j < i + 1, t = L.directPds j} := by
    ext t
    rw [Set.mem_insert_iff, Set.mem_union, Set.mem_union]
    constructor
    · rintro (rfl | h | ⟨j, hj, rfl⟩)
      · exact Or.inr ⟨i, by omega, rfl⟩
      · exact Or.inl h
      · exact Or.inr ⟨j, by omega, rfl⟩
    · rintro (h | ⟨j, hj, rfl⟩)
      · exact Or.inr (Or.inl h)
      · rcases Nat.lt_succ_iff_lt_or_eq.mp hj with hlt | rfl
        · exact Or.inr (Or.inr ⟨j, hlt, rfl⟩)
        · exact Or.inl rfl
  rw [hset] at H'
  refine ⟨H', fun y h4 h3 => hkeep y 2 _ (h.kernel y h4 h3), fun y h4 => hkeep y 1 _ (h.pdpt y h4),
    fun y h4 hlt => ?_, fun j hij hj => ?_⟩
  · by_cases hlow : index 3 y < i
    · exact hkeep y 2 _ (h.direct y h4 hlow)
    · have heq : i = index 3 y := by omega
      have hchild := hnew y (agree_two_iff.mpr ⟨hv4.trans h4.symm, hv3.trans heq⟩)
      rw [← heq]
      exact hchild
  · refine (store_of_ne (fun hc => ?_)).trans (h.zero j (by omega) hj)
    have := hc.2
    omega

/-- The links above the page directories of the direct map. -/
theorem Start.directLinked {boot : BootInfo} (h : Start L boot s) : DirectLinked L feat 0
    ((((s.poke L.pml4 0 0#64).poke L.pml4 (index 4 kernelBase) (tableEntry L.kernelPdpt)).poke
      L.kernelPdpt (index 3 kernelBase) (tableEntry L.kernelPd)).poke L.pml4
      (index 4 directMapBase) (tableEntry L.directPdpt)) := by
  obtain ⟨hm0, hm1, hm2, hm3, -⟩ := L.mem_tables
  obtain ⟨h10, h20, h30, h21, h31, h32, -, -⟩ := L.tables_distinct
  obtain ⟨hk4, hk3⟩ := index_kernelBase
  have hd4 : index 4 directMapBase = 256 := (index_directMap 0 (by decide)).1
  have H0 : Linked L feat ∅ (s.poke L.pml4 0 0#64) := h.linked
  have hz0 : ∀ i < 512, (s.poke L.pml4 0 0#64).mem L.pml4 i = 0#64 := by
    intro i hi
    by_cases heq : L.pml4 = L.pml4 ∧ i = 0
    · exact if_pos heq
    · exact (store_of_ne heq).trans (h.bss _ hm0 i hi)
  generalize s.poke L.pml4 0 0#64 = s₁ at H0 hz0 ⊢
  -- the tables of the image
  obtain ⟨H1, -, hnew1⟩ := H0.link kernelBase 0 hm1 (fun hc => hc) h10 rfl (by omega)
    (Or.inl hk4) (hz0 _ (index_lt _ _))
  have hz1 : (s₁.poke L.pml4 (index 4 kernelBase) (tableEntry L.kernelPdpt)).mem L.kernelPdpt
      (index 3 kernelBase) = 0#64 :=
    (store_of_ne (fun hc => h10 hc.1)).trans (H0.zero _ hm1 (fun hc => hc) h10 _ (index_lt _ _))
  obtain ⟨H2, -, hnew2⟩ := H1.link kernelBase 1 hm2
    (by simp [h21]) h20 (hnew1 _ (Agree.refl _ _)) le_rfl (Or.inl hk4) hz1
  -- the table of the direct map
  have hz2 : ((s₁.poke L.pml4 (index 4 kernelBase) (tableEntry L.kernelPdpt)).poke L.kernelPdpt
      (index 3 kernelBase) (tableEntry L.kernelPd)).mem L.pml4 (index 4 directMapBase) = 0#64 := by
    refine (store_of_ne (fun hc => h10 hc.1.symm)).trans ((store_of_ne (fun hc => ?_)).trans
      (hz0 _ (index_lt _ _)))
    have := hc.2
    omega
  obtain ⟨H3, hkeep3, hnew3⟩ := H2.link directMapBase 0 hm3
    (by simp [h31, h32]) h30 rfl (by omega) (Or.inr hd4) hz2
  have hset : insert L.directPdpt (insert L.kernelPd (insert L.kernelPdpt (∅ : Set ℕ)))
      = {L.directPdpt, L.kernelPd, L.kernelPdpt} ∪ {t | ∃ j < 0, t = L.directPds j} := by
    ext t
    simp
  rw [hset] at H3
  refine ⟨H3, fun y h4 h3 => hkeep3 y 2 _
    (hnew2 y (agree_two_iff.mpr ⟨hk4.trans h4.symm, hk3.trans h3.symm⟩)),
    fun y h4 => hnew3 y (agree_one_iff.mpr (hd4.trans h4.symm)),
    fun y _ hlt => absurd hlt (by omega), fun j _ hj => ?_⟩
  exact (store_of_ne (fun hc => h30 hc.1)).trans ((store_of_ne (fun hc => h31 hc.1)).trans
    ((store_of_ne (fun hc => h30 hc.1)).trans (H0.zero _ hm3 (fun hc => hc) h30 _ hj)))

/-- All static tables are linked. -/
theorem linkTables_linked (feat : Features) {boot : BootInfo} (h : Start L boot s) :
    ((linkTables L).run s).Sat (fun _ s' => DirectLinked L feat 16 s') (fun _ _ => False) := by
  rw [linkTables, run_modify_bind, run_modify_bind, run_modify_bind, run_modify_bind]
  exact sat_forRange (I := fun i s' => DirectLinked L feat i s') (fun i s' hi hI => hI.step hi)
    h.directLinked

theorem linkTables_sat (feat : Features) {boot : BootInfo} (h : Start L boot s) :
    ((linkTables L).run s).Sat (fun _ s' => (∃ ts, Linked L feat ts s') ∧ Ways L feat s')
      (fun _ _ => False) :=
  (linkTables_linked feat h).mono (fun _ _ hI => ⟨⟨_, hI.linked⟩, hI.kernel, hI.direct⟩)
    (fun _ _ hf => hf)

/-! ## Filling the page directories -/

/-- Only leaves have been written: the tables and the free frames are those of before. -/
structure Filled (L : Layout) (feat : Features) (s₀ s : Kernel) : Prop where
  shape : (kernelSpace L feat).Shape (kernelSpec L.image) s
  tables : ∀ y k, (kernelSpace L feat).tableOn s y k = (kernelSpace L feat).tableOn s₀ y k
  avail : s.avail = s₀.avail

/-- `fill_2m` into a page directory that leads to no tables yet. -/
theorem fill2m_sat (H : Filled L feat s₀ s) {pd va pa length : ℕ} (p : PageProt)
    (hflat : ∀ y, (kernelSpace L feat).tableOn s₀ y 3 = none) (hpa : pa % 0x200000 = 0)
    (hpd : ∀ i, i * 0x200000 < length →
      (kernelSpace L feat).tableOn s₀ (u64 (va + i * 0x200000)) 2 = some pd) :
    ((fill2m feat pd va pa length p).run s).Sat (fun _ s' => Filled L feat s₀ s')
      (fun _ _ => False) := by
  rw [fill2m]
  refine sat_forRange (I := fun _ s' => Filled L feat s₀ s') (fun i s' hi hI => ?_) H
  have ht := (hI.tables _ 2).trans (hpd i (by omega))
  have hnone := (hI.tables (u64 (va + i * 0x200000)) 3).trans (hflat _)
  have hchild : format.child 2 ((kernelSpace L feat).env.read s' pd
      (index (4 - 2) (u64 (va + i * 0x200000)))) = none := by
    by_contra hne
    obtain ⟨c, hc⟩ := Option.ne_none_iff_exists'.mp hne
    have hsome : (kernelSpace L feat).tableOn s' (u64 (va + i * 0x200000)) 3 = some c :=
      tableOn_succ_iff.mpr ⟨pd, ht, hc⟩
    rw [hnone] at hsome
    cases hsome
  have haligned : address (leafEntry feat (u64 (pa + i * 0x200000)) .size2M p) % span 2 = 0 := by
    rw [address_leafEntry]
    simp only [span, u64]
    omega
  have hputs := hI.shape.puts ht hchild (Or.inr ⟨present_leafEntry _ _ _ _,
    leaf_leafEntry feat (u64 (pa + i * 0x200000)) .size2M p, by omega, haligned⟩)
  exact ⟨hputs.shape, fun y k => (hputs.tables y k).trans (hI.tables y k),
    hputs.avail.trans hI.avail⟩

theorem alignDown_2m (v : ℕ) : alignDown v PageSize.size2M.bytesIn = v - v % 0x200000 :=
  alignDown_two_pow v 21

theorem alignUp_2m {v : ℕ} (h : v + 0x1fffff < 2 ^ 64) :
    alignUp v PageSize.size2M.bytesIn = (v + 0x1fffff) - (v + 0x1fffff) % 0x200000 := by
  rw [alignUp, alignDown_2m, PageSize.bytesIn_size2M,
    show v + 2097152 - 1 = v + 0x1fffff by omega, u64_of_lt h]

theorem fillRegion_sat (hways : Ways L feat s₀) (H : Filled L feat s₀ s)
    (hflat : ∀ y, (kernelSpace L feat).tableOn s₀ y 3 = none) (region : MemoryRegion) :
    ((fillRegion L feat region).run s).Sat (fun _ s' => Filled L feat s₀ s')
      (fun _ _ => False) := by
  rw [fillRegion]
  by_cases hskip : region.kind = .defective ∨ region.length = 0 ∨ region.base ≥ directMapSize
  · rw [if_pos hskip]
    exact H
  rw [if_neg hskip]
  dsimp only
  have hlast : (if region.length > directMapSize - region.base then directMapSize
      else region.base + region.length) ≤ directMapSize := by
    split_ifs <;> omega
  generalize (if region.length > directMapSize - region.base then directMapSize
      else region.base + region.length) = last at hlast ⊢
  have hsize : directMapSize = 0x400000000 := rfl
  rw [alignDown_2m, alignUp_2m (by omega)]
  refine sat_forRange (I := fun _ s' => Filled L feat s₀ s') (fun i s' hi hI => ?_) H
  have hpa : region.base - region.base % 0x200000 + i * 0x200000 < directMapSize := by omega
  have hal : (region.base - region.base % 0x200000 + i * 0x200000) % 0x200000 = 0 := by omega
  generalize region.base - region.base % 0x200000 + i * 0x200000 = pa at hpa hal ⊢
  obtain ⟨h4, h3⟩ := index_directMap pa hpa
  simp only [directMapSize] at hpa
  have hlt : directMapBase + pa < 2 ^ 64 := by
    simp only [directMapBase]
    omega
  have h16 : index 3 (directMapBase + pa) < 16 := by
    rw [h3]
    omega
  refine fill2m_sat hI .kernelData hflat hal (fun j hj => ?_)
  obtain rfl : j = 0 := by omega
  rw [Nat.zero_mul, Nat.add_zero, u64_of_lt hlt, u64_of_lt hlt, hways.direct _ h4 h16, h3,
    PageSize.bytesIn_size1G]

theorem fillDirectMap_sat (hways : Ways L feat s₀) (H : Filled L feat s₀ s)
    (hflat : ∀ y, (kernelSpace L feat).tableOn s₀ y 3 = none) (boot : BootInfo) :
    ((fillDirectMap L feat boot).run s).Sat (fun _ s' => Filled L feat s₀ s')
      (fun _ _ => False) :=
  sat_forEach (I := fun _ s' => Filled L feat s₀ s')
    (fun _ region _ _ _ hI => fillRegion_sat hways hI hflat region) H

/-- The page directory of the image. -/
theorem fillImage_sat (hways : Ways L feat s₀) (H : Filled L feat s₀ s)
    (hflat : ∀ y, (kernelSpace L feat).tableOn s₀ y 3 = none) (p : PageProt) :
    ((fill2m feat L.kernelPd kernelBase 0 L.kernelWindowSize p).run s).Sat
      (fun _ s' => Filled L feat s₀ s') (fun _ _ => False) := by
  have hfits := L.image_fits
  have hbase : kernelBase = 0xffffffff80000000 := rfl
  refine fill2m_sat H p hflat (Nat.zero_mod _) (fun i hi => ?_)
  rw [Layout.kernelWindowSize, alignUp_2m (by omega)] at hi
  rw [u64_of_lt (by omega)]
  have h4 : index 4 (kernelBase + i * 0x200000) = 511 := index_top (by omega) (by omega)
  have h3 : index 3 (kernelBase + i * 0x200000) = 510 := by
    rw [index_eq]
    simp only [kernelBase]
    omega
  exact hways.kernel _ h4 h3

/-! ## Protecting the image -/

section Keeps

variable {I : Kernel → Prop} (K : (kernelSpace L feat).Kept (kernelSpec L.image) (· = 511) I)
include K

theorem protectRegion_keeps (h : I s) {first last : ℕ} (p : PageProt) (hfirst : kernelBase ≤ first)
    (hle : first ≤ last) (hlast : last ≤ kernelBase + 0x40000000) :
    ((protectRegion L feat first last p).run s).Sat (fun _ s' => I s') (fun _ s' => I s') := by
  have hbase : kernelBase = 0xffffffff80000000 := rfl
  rw [protectRegion, alignDown_4096, alignUp_4096 (by omega), sub64_of_le (by omega) (by omega)]
  exact K.protectRange_sat h (by omega) (fun x hx hx' => index_top (by omega) (by omega)) .size4K p

/-- Unmapping a part of the window of the image. -/
theorem unmapPart_keeps (h : I s) {first last : ℕ} (hfirst : kernelBase ≤ first)
    (hle : first ≤ last) (hlast : last ≤ kernelBase + 0x40000000) :
    (((kernelSpace L feat).unmapRange first (last - first) .size4K
      RadixTree.ignoreRemoved).run s).Sat (fun _ s' => I s') (fun _ s' => I s') := by
  have hbase : kernelBase = 0xffffffff80000000 := rfl
  exact K.unmapRange_sat h (by omega) (fun x hx hx' => index_top (by omega) (by omega)) .size4K

theorem unmapAround_keeps (h : I s) {imageFirst imageLast windowLast : ℕ}
    (hfirst : imageFirst ≤ kernelBase + 0x40000000) (hlast : kernelBase ≤ imageLast)
    (hwindow : windowLast ≤ kernelBase + 0x40000000) :
    ((unmapAround L feat imageFirst imageLast windowLast).run s).Sat (fun _ s' => I s')
      (fun _ s' => I s') := by
  rw [unmapAround]
  by_cases hbelow : imageFirst > kernelBase
  · rw [if_pos hbelow, sat_bind]
    refine (unmapPart_keeps K h le_rfl hbelow.le hfirst).mono (fun _ s₁ h₁ => ?_) (fun _ _ h => h)
    split_ifs with habove
    · exact unmapPart_keeps K h₁ hlast habove.le hwindow
    · exact h₁
  · rw [if_neg hbelow]
    split_ifs with habove
    · exact unmapPart_keeps K h hlast habove.le hwindow
    · exact h

theorem protectImage_keeps (h : I s) :
    ((protectImage L feat).run s).Sat (fun _ s' => I s') (fun _ s' => I s') := by
  have hbase : kernelBase = 0xffffffff80000000 := rfl
  have hend : L.kernelEnd = kernelBase + L.image.last := rfl
  obtain ⟨ht, ht'⟩ := L.text_le
  obtain ⟨hr, hr'⟩ := L.rodata_le
  obtain ⟨hd, hd'⟩ := L.data_le
  have hfits := L.image_fits
  rw [protectImage, sat_bind]
  refine (protectRegion_keeps K h .kernelData (by omega) (by omega) (by omega)).mono
    (fun _ s₁ h₁ => ?_) (fun _ _ h => h)
  rw [sat_bind]
  refine (protectRegion_keeps K h₁ .kernelRodata (by omega) hr' (by omega)).mono
    (fun _ s₂ h₂ => ?_) (fun _ _ h => h)
  rw [sat_bind]
  refine (protectRegion_keeps K h₂ .kernelText ht ht' (by omega)).mono
    (fun _ s₃ h₃ => ?_) (fun _ _ h => h)
  rw [alignDown_4096, alignUp_4096 (by omega), Layout.kernelWindowSize, alignUp_2m (by omega)]
  exact unmapAround_keeps K h₃ (by omega) (by omega) (by omega)

end Keeps

theorem protectImage_local (H : (kernelSpace L feat).Shape (kernelSpec L.image) s) :
    ((protectImage L feat).run s).Sat
      (fun _ s' => (kernelSpace L feat).Local (kernelSpec L.image) (· = 511) s s')
      (fun _ s' => (kernelSpace L feat).Local (kernelSpec L.image) (· = 511) s s') :=
  protectImage_keeps (RadixTree.Local.kept s) (RadixTree.Local.refl H)

/-! ## The whole set-up -/

/-- What the virtual memory manager takes over: no page of the image is free, and only
the root entries of the image and of the direct map lead anywhere. -/
structure Ready (L : Layout) (feat : Features) (s : Kernel) : Prop where
  shape : (kernelSpace L feat).Shape (kernelSpec L.image) s
  image : ∀ t ∈ s.avail, t ∉ L.image.pages
  roots : ∀ y, index 4 y ≠ 511 → index 4 y ≠ 256 → (kernelSpace L feat).tableOn s y 1 = none

/-- **`init_kernel_space` returns**, and leaves a tree with the right shape that is
empty outside the image and the direct map. -/
theorem initKernelSpace_sat (feat : Features) {boot : BootInfo} (h : Start L boot s) :
    ((initKernelSpace L feat boot).run s).Sat (fun _ s' => Ready L feat s')
      (fun _ _ => False) := by
  rw [initKernelSpace, sat_bind]
  refine (linkTables_sat feat h).mono (fun _ s₁ h₁ => ?_) (fun _ _ hf => hf)
  obtain ⟨⟨ts, hlinked⟩, hways⟩ := h₁
  have hflat : ∀ y, (kernelSpace L feat).tableOn s₁ y 3 = none := by
    intro y
    rw [Option.eq_none_iff_forall_not_mem]
    intro t ht
    have := (hlinked.tables y 2 t ht).2.2
    omega
  have hfilled : Filled L feat s₁ s₁ := ⟨hlinked.shape, fun _ _ => rfl, rfl⟩
  rw [sat_bind]
  refine (fillImage_sat hways hfilled hflat _).mono (fun _ s₂ h₂ => ?_) (fun _ _ hf => hf)
  rw [sat_bind]
  refine (fillDirectMap_sat hways h₂ hflat boot).mono (fun _ s₃ h₃ => ?_) (fun _ _ hf => hf)
  -- however the protection of the image ends, it stays below the last root entry
  have hready : ∀ {s' : Kernel},
      (kernelSpace L feat).Local (kernelSpec L.image) (· = 511) s₃ s' → Ready L feat s' := by
    intro s' hloc
    refine ⟨hloc.shape, fun t ht himg => ?_, fun y hy hy' => ?_⟩
    · have ht₃ : t ∈ s₃.avail := hloc.avail t ht himg
      rw [h₃.avail] at ht₃
      exact hlinked.image t ht₃ himg
    · rw [hloc.frame y hy, h₃.tables, Option.eq_none_iff_forall_not_mem]
      intro t ht
      rcases (hlinked.tables y 0 t ht).2.1 with h511 | h256
      · exact hy h511
      · exact hy' h256
  rw [sat_bind, sat_attempt]
  exact (protectImage_local h₃.shape).mono (fun _ s₄ h₄ => hready h₄) (fun _ s₄ h₄ => hready h₄)

/-- The states in which `init_kernel_space` has returned. -/
def Booted (L : Layout) (feat : Features) (boot : BootInfo) (s : Kernel) : Prop :=
  ∃ s₀ r, Start L boot s₀ ∧ (initKernelSpace L feat boot).run s₀ = .ok r s

theorem Booted.ready {boot : BootInfo} (h : Booted L feat boot s) : Ready L feat s := by
  obtain ⟨s₀, r, hstart, hrun⟩ := h
  exact (initKernelSpace_sat feat hstart).of_ok hrun

/-- No leaf is below an entry of the root that leads nowhere. -/
theorem Ready.not_maps (h : Ready L feat s) {y k : ℕ} {e : Entry} (hy : index 4 y ≠ 511)
    (hy' : index 4 y ≠ 256) : ¬(kernelSpace L feat).Maps s y k e := by
  intro hm
  obtain ⟨h1, -⟩ := h.shape.leaf_aligned y k e hm
  obtain ⟨t, ht, -⟩ := RadixTree.tableOn_of_slotOn hm.1
  have hnone := tableOn_none_below (h.roots y hy hy') h1
  rw [RadixTree.tableOn, hnone] at ht
  cases ht

end Mmu

end DoomOs
