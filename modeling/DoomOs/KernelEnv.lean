/-
# The kernel's page environment

`kernel_env` of `arch/x86_64/mmu/mmu.hpp`: tables are frames of the frame allocator,
reached through the direct map.  A table inside the kernel image is never given back.

`kernelEnv` meets the contract of the walker (`kernelSpec`), with the free frames of
the allocator as the available tables.  `PageEnv.beside` puts further state beside an
environment, for callbacks that keep something.
-/
import DoomOs.PmmRuns
import DoomOs.RadixRoom

namespace DoomOs

open Comp Paging RadixFormat

/-! ## The environment -/

/-- The state that the page tables live in: the frame allocator and the memory, by
physical address of a page and index of a 64-bit word in it. -/
structure Kernel where
  pmm : Pmm
  mem : ℕ → ℕ → Entry

/-- The kernel image: `kernel_physical_start` and `kernel_physical_end`. -/
structure Image where
  first : ℕ
  last : ℕ

namespace Kernel

/-- Calling the frame allocator. -/
def inPmm {α : Type} (x : Comp Fault MmError Pmm α) : Comp Fault MmError Kernel α :=
  zoom Kernel.pmm (fun pmm s => { s with pmm := pmm }) x

/-- Writing one word of a page. -/
def poke (page i : ℕ) (e : Entry) (s : Kernel) : Kernel := { s with mem := store s.mem page i e }

end Kernel

/-- `kernel_env`. -/
def kernelEnv (image : Image) : PageEnv Kernel where
  read s page i := s.mem page i
  write := Kernel.poke
  allocTable := do
    let phys ← Kernel.inPmm (Pmm.alloc .size4K)
    forRange entries fun i => modify (Kernel.poke phys i 0#64)
    pure phys
  freeTable phys :=
    if phys < image.first || phys ≥ image.last then Kernel.inPmm (Pmm.free .size4K phys)
    else pure ()

/-! ## It meets the contract -/

namespace Kernel

/-- The addresses of the free frames. -/
def avail (s : Kernel) : Set ℕ := {t | t % 4096 = 0 ∧ t / 4096 ∈ s.pmm.freeFrames}

theorem blockFrames_size4K (base : ℕ) : Pmm.blockFrames .size4K base = {base / 4096} := by
  ext f
  rw [Pmm.mem_blockFrames, PageSize.framesIn_size4K, Set.mem_singleton_iff]
  omega

/-- Zeroing a page. -/
theorem clear_sat (s : Kernel) (page : ℕ) :
    ((forRange entries fun i => modify (poke page i 0#64) : Comp Fault MmError Kernel Unit).run
      s).Sat (fun _ s' => s'.pmm = s.pmm ∧
        ∀ t i, s'.mem t i = if t = page ∧ i < 512 then 0#64 else s.mem t i) (fun _ _ => False) := by
  refine sat_forRange (I := fun n (s' : Kernel) => s'.pmm = s.pmm ∧
    ∀ t i, s'.mem t i = if t = page ∧ i < n then 0#64 else s.mem t i) (fun i s' _ hI => ?_)
    ⟨rfl, fun t i => by rw [if_neg (by omega)]⟩
  obtain ⟨hp, hm⟩ := hI
  refine ⟨hp, fun t j => ?_⟩
  simp only [poke, store, hm]
  by_cases ht : t = page
  · rcases lt_trichotomy j i with hlt | rfl | hgt
    · rw [if_neg (by omega), if_pos ⟨ht, hlt⟩, if_pos ⟨ht, by omega⟩]
    · rw [if_pos ⟨ht, rfl⟩, if_pos ⟨ht, by omega⟩]
    · rw [if_neg (by omega), if_neg (by omega), if_neg (by omega)]
  · rw [if_neg (fun h => ht h.1), if_neg (fun h => ht h.1), if_neg (fun h => ht h.1)]

/-- From `s` to `s'` the frame `f` was taken. -/
structure Takes (f : ℕ) (s s' : Kernel) : Prop where
  inv : s'.pmm.Inv
  free : f ∈ s.avail
  avail : s'.avail = s.avail \ {f}
  mem : s'.mem = s.mem

/-- From `s` to `s'` the frame `f` was given back. -/
structure Gives (f : ℕ) (s s' : Kernel) : Prop where
  inv : s'.pmm.Inv
  avail : s'.avail = insert f s.avail
  mem : s'.mem = s.mem

/-- A frame is refused only when none is free. -/
theorem allocFrame_sat {s : Kernel} (H : s.pmm.Inv) :
    ((inPmm (Pmm.alloc .size4K)).run s).Sat (fun t s' => Takes t s s')
      (fun er s' => s' = s ∧ er = .outOfMemory ∧ s.avail = ∅) := by
  rw [inPmm, sat_zoom]
  refine (Pmm.alloc_sat H .size4K).mono (fun t p hp => ?_) (fun er p hp => ?_)
  · obtain ⟨hinv, hal, hsub, hfree⟩ := hp
    rw [PageSize.bytesIn_size4K] at hal
    rw [blockFrames_size4K] at hsub hfree
    refine ⟨hinv, ⟨hal, hsub rfl⟩, ?_, rfl⟩
    ext t'
    simp only [avail, hfree, Set.mem_ofPred_eq, Set.mem_sdiff, Set.mem_singleton_iff]
    constructor
    · rintro ⟨ha, hf, hne⟩
      exact ⟨⟨ha, hf⟩, fun heq => hne (by rw [heq])⟩
    · rintro ⟨⟨ha, hf⟩, hne⟩
      exact ⟨ha, hf, fun heq => hne (by omega)⟩
  · refine ⟨by rw [hp.2.1], hp.1, ?_⟩
    -- a free frame would be a block of its own
    ext t
    simp only [Set.mem_empty_iff_false, iff_false]
    rintro ⟨hal, hfree⟩
    refine hp.2.2 t (by rw [PageSize.bytesIn_size4K]; exact hal) ?_
    rw [blockFrames_size4K, Set.singleton_subset_iff]
    exact hfree

/-- Giving a frame back makes its address available. -/
theorem freeFrame_sat {s : Kernel} (H : s.pmm.Inv) {t : ℕ} (hal : t % 4096 = 0)
    (hin : t / 4096 < maxFrames) (hused : t ∉ s.avail) :
    ((inPmm (Pmm.free .size4K t)).run s).Sat (fun _ s' => Gives t s s') (fun _ _ => False) := by
  have hr : Pmm.Releasable s.pmm .size4K t := by
    refine ⟨by rw [PageSize.bytesIn_size4K]; exact hal, by rw [PageSize.framesIn_size4K]; omega, ?_⟩
    intro f hf hfree
    rw [blockFrames_size4K, Set.mem_singleton_iff] at hf
    exact hused ⟨hal, hf ▸ hfree⟩
  rw [inPmm, sat_zoom]
  refine (Pmm.free_sat H hr).mono (fun _ p hp => ?_) (fun _ _ h => h)
  obtain ⟨hinv, hfree⟩ := hp
  rw [blockFrames_size4K] at hfree
  refine ⟨hinv, ?_, rfl⟩
  ext t'
  simp only [avail, hfree, Set.mem_ofPred_eq, Set.mem_insert_iff, Set.mem_union,
    Set.mem_singleton_iff]
  constructor
  · rintro ⟨ha, hf | hf⟩
    · exact Or.inr ⟨ha, hf⟩
    · exact Or.inl (by omega)
  · rintro (rfl | ⟨ha, hf⟩)
    · exact ⟨hal, Or.inr rfl⟩
    · exact ⟨ha, Or.inl hf⟩

theorem lt_of_mem_avail {s : Kernel} {t : ℕ} (h : t ∈ s.avail) : t / 4096 < maxFrames := h.2.1

theorem finite_avail (s : Kernel) : s.avail.Finite := by
  refine (Set.finite_lt_nat (maxFrames * 4096)).subset (fun t ht => ?_)
  have hlt := lt_of_mem_avail ht
  show t < maxFrames * 4096
  omega

/-- There are no more free addresses than free frames. -/
theorem ncard_avail_le {s : Kernel} {F : Finset ℕ} (h : ∀ f ∈ s.pmm.freeFrames, f ∈ F) :
    s.avail.ncard ≤ F.card := by
  have hsub : s.avail ⊆ (fun f => f * 4096) '' (F : Set ℕ) := by
    rintro t ⟨hal, hfree⟩
    refine ⟨t / 4096, h _ hfree, ?_⟩
    show t / 4096 * 4096 = t
    omega
  calc s.avail.ncard ≤ ((fun f => f * 4096) '' (F : Set ℕ)).ncard :=
        Set.ncard_le_ncard hsub (F.finite_toSet.image _)
    _ ≤ (F : Set ℕ).ncard := Set.ncard_image_le F.finite_toSet
    _ = F.card := Set.ncard_coe_finset F

/-- One frame less is free. -/
theorem Takes.ncard {s s' : Kernel} {f : ℕ} (h : Takes f s s') :
    s'.avail.ncard + 1 = s.avail.ncard := by
  rw [h.avail]
  exact Set.ncard_sdiff_singleton_add_one h.free s.finite_avail

end Kernel

/-- The pages of the kernel image. -/
def Image.pages (image : Image) : Set ℕ := {t | image.first ≤ t ∧ t < image.last}

theorem kernelEnv_read_write (image : Image) (t i : ℕ) (e : Entry) (s : Kernel) :
    (kernelEnv image).read ((kernelEnv image).write t i e s)
      = store ((kernelEnv image).read s) t i e := rfl

theorem kernelEnv_avail_write (image : Image) (t i : ℕ) (e : Entry) (s : Kernel) :
    ((kernelEnv image).write t i e s).avail = s.avail := rfl

theorem kernelEnv_allocTable_sat (image : Image) (s : Kernel) (hgood : s.pmm.Inv) :
    ((kernelEnv image).allocTable.run s).Sat
      (fun t s' => (kernelEnv image).TableAllocated (fun s => s.pmm.Inv) Kernel.avail
        {t | t ∈ image.pages ∨ (t % 4096 = 0 ∧ t / 4096 < maxFrames)} (fun _ => ()) s t s')
      (fun _ s' => s' = s) := by
  show ((Kernel.inPmm (Pmm.alloc .size4K) >>= fun phys => _).run s).Sat _ _
  rw [sat_bind]
  refine (Kernel.allocFrame_sat hgood).mono (fun t s₁ h₁ => ?_) (fun _ _ h => h.1)
  obtain ⟨hinv, hmem, hav, hm⟩ := h₁
  rw [sat_bind]
  refine (Kernel.clear_sat s₁ t).mono (fun _ s₂ h₂ => ?_) (fun _ _ h => h.elim)
  obtain ⟨hp, hread⟩ := h₂
  have hlt := Kernel.lt_of_mem_avail hmem
  have hav₂ : s₂.avail = s₁.avail := by rw [Kernel.avail, Kernel.avail, hp]
  refine ⟨?_, hmem, Or.inr ⟨hmem.1, hlt⟩, hmem.1, ?_, hav₂.trans hav, fun i hi => ?_,
    fun t' hne i => ?_, rfl⟩
  · rw [hp]
    exact hinv
  · simp only [maxFrames] at hlt
    omega
  · exact (hread t i).trans (if_pos ⟨rfl, hi⟩)
  · exact (hread t' i).trans ((if_neg (fun h => hne h.1)).trans (by rw [hm]; rfl))

theorem kernelEnv_freeTable_sat (image : Image) (s : Kernel) (t : ℕ) (hgood : s.pmm.Inv)
    (hman : t ∈ {t | t ∈ image.pages ∨ (t % 4096 = 0 ∧ t / 4096 < maxFrames)})
    (hav : t ∉ s.avail) :
    (((kernelEnv image).freeTable t).run s).Sat
      (fun _ s' => s'.pmm.Inv ∧ s'.avail = {t' | t' ∈ s.avail ∨ (t' = t ∧ t ∉ image.pages)} ∧
        (kernelEnv image).read s' = (kernelEnv image).read s ∧ () = ()) (fun _ _ => False) := by
  show ((if (decide (t < image.first) || decide (t ≥ image.last)) = true
    then Kernel.inPmm (Pmm.free .size4K t) else pure () : Comp Fault MmError Kernel Unit).run
      s).Sat _ _
  have hpin : (decide (t < image.first) || decide (t ≥ image.last)) = true ↔
      t ∉ image.pages := by
    simp only [Image.pages, Set.mem_ofPred_eq, Bool.or_eq_true, decide_eq_true_eq]
    omega
  by_cases hp : t ∈ image.pages
  · rw [if_neg (fun h => hpin.mp h hp)]
    refine ⟨hgood, ?_, rfl, rfl⟩
    ext t'
    simp [hp]
  · rw [if_pos (hpin.mpr hp)]
    obtain ⟨hal, hlt⟩ := hman.resolve_left hp
    refine (Kernel.freeFrame_sat hgood hal hlt hav).mono (fun _ s' h => ?_) (fun _ _ h => h)
    refine ⟨h.inv, ?_, congrArg (fun m page i => m page i) h.mem, rfl⟩
    ext t'
    rw [h.avail]
    simp [hp, or_comm]

/-- **The kernel's environment meets the contract of the walker.** -/
def kernelSpec (image : Image) : (kernelEnv image).Spec Unit where
  good s := s.pmm.Inv
  avail := Kernel.avail
  managed := {t | t ∈ image.pages ∨ (t % 4096 = 0 ∧ t / 4096 < maxFrames)}
  pinned := image.pages
  rest _ := ()
  read_write := kernelEnv_read_write image
  avail_write := kernelEnv_avail_write image
  good_write _ _ _ _ h := h
  rest_write _ _ _ _ := rfl
  alloc := kernelEnv_allocTable_sat image
  free := kernelEnv_freeTable_sat image

/-- It refuses a table only when no frame is free. -/
theorem kernelSpec_failsWhenEmpty (image : Image) : (kernelSpec image).FailsWhenEmpty := by
  intro s hgood
  show ((Kernel.inPmm (Pmm.alloc .size4K) >>= fun phys => _).run s).Sat _ _
  rw [sat_bind]
  refine (Kernel.allocFrame_sat hgood).mono (fun t s₁ _ => ?_) (fun _ _ h => h.2)
  rw [sat_bind]
  exact (Kernel.clear_sat s₁ t).mono (fun _ _ _ => trivial) (fun _ _ h => h.elim)

theorem kernelSpec_finiteAvail (image : Image) : (kernelSpec image).FiniteAvail :=
  fun s _ => s.finite_avail

theorem le_ncard_of_spare {image : Image} {n : ℕ} {s : Kernel} (h : (kernelSpec image).Spare n s) :
    n ≤ s.avail.ncard := by
  obtain ⟨F, hcard, hsub⟩ := h
  calc n ≤ (F : Set ℕ).ncard := by rw [Set.ncard_coe_finset]; exact hcard
    _ ≤ s.avail.ncard := Set.ncard_le_ncard hsub s.finite_avail

/-- The small machine has 1024 free frames. -/
theorem spare_small (image : Image) :
    (kernelSpec image).Spare 1024 ⟨Pmm.smallPmm, fun _ _ => 0#64⟩ := by
  refine ⟨(Finset.range 1024).image fun i => (4096 + i) * 4096, ?_, fun t ht => ?_⟩
  · rw [Finset.card_image_of_injective, Finset.card_range]
    intro i j hij
    dsimp only at hij
    omega
  · obtain ⟨i, hi, rfl⟩ := Finset.mem_image.mp ht
    have hlt := Finset.mem_range.mp hi
    refine ⟨by omega, (Pmm.mem_freeFrames_smallPmm _).mpr ?_⟩
    omega

/-! ## State beside an environment -/

/-- The environment, with state of type `τ` beside its own. -/
def PageEnv.beside {σ : Type} (env : PageEnv σ) (τ : Type) : PageEnv (σ × τ) where
  read s := env.read s.1
  write t i e s := (env.write t i e s.1, s.2)
  allocTable := zoom Prod.fst (fun a s => (a, s.2)) env.allocTable
  freeTable t := zoom Prod.fst (fun a s => (a, s.2)) (env.freeTable t)

/-- It keeps the contract, and leaves the state beside it alone. -/
def PageEnv.Spec.beside {σ ρ : Type} {env : PageEnv σ} (E : env.Spec ρ) (τ : Type) :
    (env.beside τ).Spec τ where
  good s := E.good s.1
  avail s := E.avail s.1
  managed := E.managed
  pinned := E.pinned
  rest := Prod.snd
  read_write t i e s := E.read_write t i e s.1
  avail_write t i e s := E.avail_write t i e s.1
  good_write t i e s h := E.good_write t i e s.1 h
  rest_write _ _ _ _ := rfl
  alloc s hgood := by
    rw [PageEnv.beside, sat_zoom]
    refine (E.alloc s.1 hgood).mono (fun t s₁ h => ?_) (fun _ s₁ h => ?_)
    · exact ⟨h.good, h.mem, h.managed, h.aligned, h.lt, h.avail, h.zero, h.read, rfl⟩
    · rw [h]
  free s t hgood hman hav := by
    rw [PageEnv.beside, sat_zoom]
    exact (E.free s.1 t hgood hman hav).mono (fun _ s₁ h => ⟨h.1, h.2.1, h.2.2.1, rfl⟩)
      (fun _ _ h => h)

end DoomOs
