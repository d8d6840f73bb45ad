/-
# What `populate` leaves free

`populate` goes over the boot information twice.  The first pass frees the frames
that lie inside a usable region, with the bounds rounded inwards; the second one
reserves every frame that a reserved range touches, with the bounds rounded
outwards.  Both cut a range off at the end of the supported memory.

`mark` is described bit by bit in terms of the unbounded interval of its arguments
(`test_mark_true`, `test_mark_false`), the passes fold it over lists, and
`free_populate_iff` reads off which frames are free at the end.
-/
import DoomOs.PmmInvariant

namespace DoomOs

namespace Pmm

/-! ## One range -/

/-- Frame `f` lies entirely in the `length` bytes from `base` on. -/
def Inside (base length f : ℕ) : Prop := base ≤ f * 4096 ∧ (f + 1) * 4096 ≤ base + length

/-- Frame `f` has a byte in common with the `length` bytes from `base` on. -/
def Overlaps (base length f : ℕ) : Prop :=
  0 < length ∧ base < (f + 1) * 4096 ∧ f * 4096 < base + length

instance (base length f : ℕ) : Decidable (Inside base length f) :=
  inferInstanceAs (Decidable (_ ∧ _))

instance (base length f : ℕ) : Decidable (Overlaps base length f) :=
  inferInstanceAs (Decidable (_ ∧ _ ∧ _))

/-- The end of a range that starts inside the memory, cut off at its end. -/
theorem last_cases {base : ℕ} (length : ℕ) (h : base < maxPhysicalMemory) :
    ∃ last,
      (if length > maxPhysicalMemory - base then maxPhysicalMemory else base + length) = last ∧
      last ≤ 0x400000000 ∧ last ≤ base + length ∧
      (last = base + length ∨ last = 0x400000000) := by
  refine ⟨_, rfl, ?_⟩
  unfold maxPhysicalMemory at *
  split_ifs with hc <;> omega

/-- `mark` with `usable` on adds the frames inside the range. -/
theorem test_mark_true {base length f : ℕ} {m : FrameMap} (hf : f < maxFrames) :
    (mark base length true m).test f = true ↔ m.test f = true ∨ Inside base length f := by
  have hW : 0 < 64 := by decide
  unfold maxFrames at hf
  unfold Inside
  by_cases h0 : length = 0 ∨ base ≥ maxPhysicalMemory
  · rw [mark, if_pos h0]
    unfold maxPhysicalMemory at h0
    have hout : ¬ (base ≤ f * 4096 ∧ (f + 1) * 4096 ≤ base + length) := by omega
    simp only [hout, or_false]
  · obtain ⟨last, hlast, hle, hle', hcut⟩ :=
      last_cases length (Nat.lt_of_not_le fun h => h0 (Or.inr h))
    unfold maxPhysicalMemory at h0
    rw [mark, if_neg (by unfold maxPhysicalMemory; omega), hlast]
    simp only [if_true]
    rw [alignUp_4096 (by omega), alignDown_4096]
    split_ifs with hempty
    · have hout : ¬ (base ≤ f * 4096 ∧ (f + 1) * 4096 ≤ base + length) := by omega
      simp only [hout, or_false]
    · rw [Bitmap.test_setRange hW, Bool.or_eq_true, decide_eq_true_eq, or_comm]
      apply or_congr_right
      omega

/-- `mark` with `usable` off takes away the frames the range touches. -/
theorem test_mark_false {base length f : ℕ} {m : FrameMap} (hf : f < maxFrames) :
    (mark base length false m).test f = true ↔ m.test f = true ∧ ¬ Overlaps base length f := by
  have hW : 0 < 64 := by decide
  unfold maxFrames at hf
  unfold Overlaps
  by_cases h0 : length = 0 ∨ base ≥ maxPhysicalMemory
  · rw [mark, if_pos h0]
    unfold maxPhysicalMemory at h0
    have hout : ¬ (0 < length ∧ base < (f + 1) * 4096 ∧ f * 4096 < base + length) := by omega
    simp only [hout, not_false_eq_true, and_true]
  · obtain ⟨last, hlast, hle, hle', hcut⟩ :=
      last_cases length (Nat.lt_of_not_le fun h => h0 (Or.inr h))
    unfold maxPhysicalMemory at h0
    rw [mark, if_neg (by unfold maxPhysicalMemory; omega), hlast]
    simp only [Bool.false_eq_true, if_false]
    rw [alignUp_4096 (by omega), alignDown_4096, if_neg (by omega), Bitmap.test_clearRange hW,
      Bool.and_eq_true, Bool.not_eq_true', decide_eq_false_iff_not, and_comm]
    apply and_congr_right
    intro _
    omega

/-! ## The two passes -/

section Folds

variable {α : Type} {g : FrameMap → α → FrameMap} {P : α → Prop} {f : ℕ}

/-- A pass whose steps add the frames of their ranges adds those of all. -/
theorem test_foldl_or (hg : ∀ m a, (g m a).test f = true ↔ m.test f = true ∨ P a) :
    ∀ (l : List α) (m : FrameMap),
      (l.foldl g m).test f = true ↔ m.test f = true ∨ ∃ a ∈ l, P a := by
  intro l
  induction l with
  | nil => intro m; simp
  | cons a l ih =>
    intro m
    rw [List.foldl_cons, ih, hg, or_assoc]
    simp only [List.mem_cons, exists_eq_or_imp]

/-- A pass whose steps take away the frames of their ranges takes away those of all. -/
theorem test_foldl_and (hg : ∀ m a, (g m a).test f = true ↔ m.test f = true ∧ ¬ P a) :
    ∀ (l : List α) (m : FrameMap),
      (l.foldl g m).test f = true ↔ m.test f = true ∧ ∀ a ∈ l, ¬ P a := by
  intro l
  induction l with
  | nil => intro m; simp
  | cons a l ih =>
    intro m
    rw [List.foldl_cons, ih, hg, and_assoc, List.forall_mem_cons]

end Folds

/-- Frame `f` lies inside a usable region of the memory map. -/
def Usable (boot : BootInfo) (f : ℕ) : Prop :=
  ∃ r ∈ boot.memoryMap, r.kind = .usable ∧ Inside r.base r.length f

/-- No range of the boot information that is not to be used touches frame `f`. -/
structure Unclaimed (boot : BootInfo) (f : ℕ) : Prop where
  regions : ∀ r ∈ boot.memoryMap, r.kind ≠ .usable → ¬ Overlaps r.base r.length f
  modules : ∀ mod ∈ boot.modules, ¬ Overlaps mod.range.base mod.range.length f
  reserved : ∀ r ∈ boot.reserved, ¬ Overlaps r.base r.length f
  framebuffer : ¬ Overlaps boot.framebuffer.range.base boot.framebuffer.range.length f
  rsdp : ¬ Overlaps boot.acpi.rsdp.base boot.acpi.rsdp.length f

theorem test_claimRange_reserve {f : ℕ} (hf : f < maxFrames) (m : FrameMap) (r : AddressRange) :
    (claimRange .reserve m r).test f = true ↔
      m.test f = true ∧ ¬ Overlaps r.base r.length f := by
  rw [claimRange, if_pos rfl, test_mark_false hf]

theorem claimRange_free (m : FrameMap) (r : AddressRange) : claimRange .free m r = m := by
  rw [claimRange, if_neg (by decide)]

theorem test_claimRegion_free {f : ℕ} (hf : f < maxFrames) (m : FrameMap) (r : MemoryRegion) :
    (claimRegion .free m r).test f = true ↔
      m.test f = true ∨ (r.kind = .usable ∧ Inside r.base r.length f) := by
  rw [claimRegion]
  by_cases hu : r.kind = .usable
  · simp only [hu, decide_true, if_true, test_mark_true hf, true_and]
  · simp only [hu, decide_true, decide_false, Bool.true_eq_false, if_false, false_and, or_false]

theorem test_claimRegion_reserve {f : ℕ} (hf : f < maxFrames) (m : FrameMap) (r : MemoryRegion) :
    (claimRegion .reserve m r).test f = true ↔
      m.test f = true ∧ ¬ (r.kind ≠ .usable ∧ Overlaps r.base r.length f) := by
  rw [claimRegion]
  by_cases hu : r.kind = .usable
  · simp [hu]
  · simp only [hu, reduceCtorEq, decide_false, if_true, test_mark_false hf, ne_eq,
      not_false_eq_true, true_and]

/-- The first pass of `claim` frees what lies inside the usable regions. -/
theorem test_claim_free {boot : BootInfo} {m : FrameMap} {f : ℕ} (hf : f < maxFrames) :
    (claim boot .free m).test f = true ↔ m.test f = true ∨ Usable boot f := by
  simp only [claim]
  rw [claimRange_free, claimRange_free, List.foldl_fixed' (claimRange_free _),
    List.foldl_fixed' (fun mod => claimRange_free _ mod.range)]
  exact test_foldl_or (test_claimRegion_free hf) boot.memoryMap m

/-- The second pass of `claim` reserves what any other range touches. -/
theorem test_claim_reserve {boot : BootInfo} {m : FrameMap} {f : ℕ} (hf : f < maxFrames) :
    (claim boot .reserve m).test f = true ↔ m.test f = true ∧ Unclaimed boot f := by
  have hmodule : ∀ (m : FrameMap) (mod : ModuleInfo),
      (claimRange .reserve m mod.range).test f = true ↔
        m.test f = true ∧ ¬ Overlaps mod.range.base mod.range.length f := by
    intro m mod
    exact test_claimRange_reserve hf m mod.range
  simp only [claim]
  rw [test_claimRange_reserve hf, test_claimRange_reserve hf,
    test_foldl_and (test_claimRange_reserve hf), test_foldl_and hmodule,
    test_foldl_and (test_claimRegion_reserve hf)]
  constructor
  · rintro ⟨⟨⟨⟨⟨hm, hregions⟩, hmodules⟩, hreserved⟩, hfb⟩, hrsdp⟩
    exact ⟨hm, fun r hr hk ho => hregions r hr ⟨hk, ho⟩, hmodules, hreserved, hfb, hrsdp⟩
  · rintro ⟨hm, H⟩
    exact ⟨⟨⟨⟨⟨hm, fun r hr h => H.regions r hr h.1 h.2⟩, H.modules⟩, H.reserved⟩,
      H.framebuffer⟩, H.rsdp⟩

/-! ## The initial free set -/

/-- The counting loop leaves the bitmap alone. -/
theorem frames_countBlocks : ∀ (n index : ℕ) (s : Pmm),
    (s.countBlocks index n).frames = s.frames := by
  intro n
  induction n with
  | zero => intro index s; rfl
  | succ n ih => intro index s; rw [countBlocks, ih, frames_setFree]

theorem frames_populate (boot : BootInfo) (bootStart kernelEnd : ℕ) (s : Pmm) :
    (populate boot bootStart kernelEnd s).frames
      = populateFrames boot bootStart kernelEnd s.frames :=
  frames_countBlocks blockCount 0 _

theorem test_zero (f : ℕ) : zero.frames.test f = false := by
  rw [Bitmap.test_eq (by decide)]
  exact BitVec.getLsbD_zero

/-- Which frames `populate` leaves free, for an image from `bootStart` to `kernelEnd`. -/
theorem free_populate_iff {boot : BootInfo} {bootStart kernelEnd f : ℕ}
    (hle : bootStart ≤ kernelEnd) (hlt : kernelEnd < 2 ^ 64) (hf : f < maxFrames) :
    (populate boot bootStart kernelEnd zero).frames.test f = true ↔
      Usable boot f ∧ ¬ Overlaps 0 0x100000 f ∧
        ¬ Overlaps bootStart (kernelEnd - bootStart) f ∧ Unclaimed boot f := by
  simp only [frames_populate, populateFrames]
  rw [test_claim_reserve hf, test_mark_false hf, test_mark_false hf, test_claim_free hf,
    test_zero, sub64_of_le hlt hle]
  simp only [Bool.false_eq_true, false_or, Nat.reduceMul, and_assoc]

/-- The kernel image is reserved. -/
theorem image_reserved {boot : BootInfo} {bootStart kernelEnd f : ℕ} (hle : bootStart ≤ kernelEnd)
    (hlt : kernelEnd < 2 ^ 64)
    (h : f ∈ (populate boot bootStart kernelEnd zero).freeFrames) :
    f * 4096 < bootStart ∨ kernelEnd ≤ f * 4096 := by
  obtain ⟨hf, ht⟩ := h
  have himage := ((free_populate_iff hle hlt hf).mp ht).2.2.1
  unfold Overlaps at himage
  omega

/-- The free set is a function of the set of regions, modules and ranges. -/
theorem free_populate_congr {boot boot' : BootInfo} {bootStart kernelEnd f : ℕ}
    (hle : bootStart ≤ kernelEnd) (hlt : kernelEnd < 2 ^ 64) (hf : f < maxFrames)
    (hmap : boot.memoryMap.Perm boot'.memoryMap) (hmodules : boot.modules.Perm boot'.modules)
    (hreserved : boot.reserved.Perm boot'.reserved)
    (hfb : boot.framebuffer.range = boot'.framebuffer.range)
    (hrsdp : boot.acpi.rsdp = boot'.acpi.rsdp) :
    (populate boot bootStart kernelEnd zero).frames.test f
      = (populate boot' bootStart kernelEnd zero).frames.test f := by
  have husable : Usable boot f ↔ Usable boot' f := by
    unfold Usable
    simp only [hmap.mem_iff]
  have hunclaimed : Unclaimed boot f ↔ Unclaimed boot' f := by
    constructor
    · rintro ⟨h₁, h₂, h₃, h₄, h₅⟩
      exact ⟨fun r hr => h₁ r (hmap.mem_iff.mpr hr), fun r hr => h₂ r (hmodules.mem_iff.mpr hr),
        fun r hr => h₃ r (hreserved.mem_iff.mpr hr), hfb ▸ h₄, hrsdp ▸ h₅⟩
    · rintro ⟨h₁, h₂, h₃, h₄, h₅⟩
      exact ⟨fun r hr => h₁ r (hmap.mem_iff.mp hr), fun r hr => h₂ r (hmodules.mem_iff.mp hr),
        fun r hr => h₃ r (hreserved.mem_iff.mp hr), hfb.symm ▸ h₄, hrsdp.symm ▸ h₅⟩
  apply Bool.eq_iff_iff.mpr
  rw [free_populate_iff hle hlt hf, free_populate_iff hle hlt hf, husable, hunclaimed]

end Pmm

end DoomOs
