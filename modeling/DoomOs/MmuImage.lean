/-
# The window of the kernel image

`protect_image` starts from a window of writable and executable 2 MiB leaves and narrows
it: three calls give the data, the read-only data and the text their protections, and two
take out what lies around the image.  `imageProt` is what remains, page by page, and
`protectImage_room` says how many tables that takes at most.

* `image_sealed_iff`: no page stays writable and executable exactly when no page lies
  between two of the three regions.
-/
import DoomOs.MmuFill

namespace DoomOs

open Comp Paging RadixFormat

namespace Mmu

variable {L : Layout} {feat : Features} {boot : BootInfo} {s s' k k₀ : Kernel}
  {G : ℕ → Option PageProt} {first last x n : ℕ} {p : PageProt}

/-! ## The window as a map -/

/-- The addresses of the window of the image. -/
def imageWindow (L : Layout) : Set ℕ := {x | kernelBase ≤ x ∧ x < kernelBase + L.kernelWindowSize}

/-- The window maps each address to its place in memory or not at all, with the protections
of `G`. -/
structure Shows (L : Layout) (feat : Features) (G : ℕ → Option PageProt) (s : Kernel) : Prop where
  shape : (kernelSpace L feat).Shape (kernelSpec L.image) s
  map : ∀ x ∈ imageWindow L, (kernelSpace L feat).translation s x
    = (G x).map fun p => (x - kernelBase, readBack feat p)

theorem window_le (L : Layout) : kernelBase + L.kernelWindowSize ≤ kernelBase + 0x40000000 := by
  have hfits := L.image_fits
  have hwin := kernelWindowSize_eq L
  omega

theorem valid_imageWindow (hx : x ∈ imageWindow L) : valid x = true := by
  obtain ⟨hle, hlt⟩ := hx
  have hwin := window_le L
  rw [valid_iff]
  unfold kernelBase at *
  omega

/-- The window is writable and executable before `protect_image`. -/
theorem shows_of_mapped (M : Mapped L feat boot k₀ k) :
    Shows L feat (fun _ => some earlyProt) k := by
  refine ⟨M.shape, fun x hx => ?_⟩
  have hv := valid_imageWindow hx
  obtain ⟨hle, hlt⟩ := hx
  have hwin := window_le L
  have hsize := kernelWindowSize_eq L
  obtain ⟨y, rfl⟩ := Nat.exists_eq_add_of_le hle
  have hy : y < 0x40000000 := by omega
  have h4 : index 4 (kernelBase + y) = 511 := by
    rw [index_eq]
    unfold kernelBase
    omega
  have h3 : index 3 (kernelBase + y) = 510 := by
    rw [index_eq]
    unfold kernelBase
    omega
  have h2 : index 2 (kernelBase + y) = y / 0x200000 := by
    rw [index_eq]
    unfold kernelBase
    omega
  have hm := M.kernel (kernelBase + y) h4 h3 (by rw [h2]; omega)
  rw [RadixTree.translation_of_maps M.shape hv hm, address_leafEntry, prot_leafEntry, h2]
  have hphys : y / 0x200000 * 0x200000 % 2 ^ 52 / 4096 * 4096 + (kernelBase + y) % span 2
      = kernelBase + y - kernelBase := by
    unfold kernelBase span
    omega
  rw [hphys]
  rfl

/-- The addresses of the pages from `first` up to `last`. -/
def regionPages (first last : ℕ) : Set ℕ := {x | alignDown first 4096 ≤ x ∧ x < alignUp last 4096}

instance (first last x : ℕ) : Decidable (x ∈ regionPages first last) :=
  inferInstanceAs (Decidable (_ ∧ _))

theorem mem_regionPages :
    x ∈ regionPages first last ↔ alignDown first 4096 ≤ x ∧ x < alignUp last 4096 := Iff.rfl

/-- A part of the image, for one call of `protect_region`. -/
structure Region (L : Layout) (first last : ℕ) : Prop where
  base_le : kernelBase ≤ first
  le : first ≤ last
  le_end : last ≤ L.kernelEnd

theorem Region.sub (h : Region L first last) : sub64 (alignUp last 4096) (alignDown first 4096)
      = alignUp last 4096 - alignDown first 4096 ∧
    alignDown first 4096 = first - first % 4096 ∧
    alignUp last 4096 = (last + 4095) - (last + 4095) % 4096 ∧
    kernelBase ≤ alignDown first 4096 ∧ alignDown first 4096 ≤ alignUp last 4096 ∧
    alignUp last 4096 ≤ kernelBase + L.image.last := by
  have hfits := L.image_fits
  have hal := L.image_aligned
  have hbase : kernelBase = 0xffffffff80000000 := rfl
  have hend : L.kernelEnd = kernelBase + L.image.last := rfl
  obtain ⟨h1, h2, h3⟩ := h
  rw [alignDown_4096, alignUp_4096 (by omega), sub64_of_le (by omega) (by omega)]
  refine ⟨rfl, rfl, rfl, ?_, ?_, ?_⟩
  · omega
  · omega
  · omega

/-- The protections `G` with `p` for the pages of a region. -/
def reprotect (first last : ℕ) (p : PageProt) (G : ℕ → Option PageProt) (x : ℕ) : Option PageProt :=
  if x ∈ regionPages first last then (G x).map fun _ => p else G x

theorem reprotect_ne_none (hG : ∀ x, G x ≠ none) (x : ℕ) : reprotect first last p G x ≠ none := by
  unfold reprotect
  split_ifs
  · rw [ne_eq, Option.map_eq_none_iff]
    exact hG x
  · exact hG x

/-- `protect_region` gives the pages of a region their protection. -/
theorem protectRegion_shows (H : Shows L feat G s) (hr : Region L first last) (p : PageProt) :
    ((protectRegion L feat first last p).run s).Sat
      (fun _ s' => Shows L feat (reprotect first last p G) s') (fun _ _ => True) := by
  obtain ⟨hsub, -, -, hbase, hle, hend⟩ := hr.sub
  have hfits := L.image_fits
  have h64 : kernelBase + 0x40000000 < 2 ^ 64 := by decide
  rw [protectRegion, hsub]
  refine ((RadixTree.protectRange_sat H.shape (by omega) .size4K p).and
    (RadixTree.protectRange_shape H.shape _ _ .size4K p)).mono (fun _ s' h => ?_)
    (fun _ _ _ => trivial)
  obtain ⟨⟨-, hprot⟩, hshape, -⟩ := h
  refine ⟨hshape, fun x hx => ?_⟩
  have hold := H.map x hx
  have hnew := hprot x (valid_imageWindow hx)
  rw [show alignDown first 4096 + (alignUp last 4096 - alignDown first 4096) = alignUp last 4096 by
    omega] at hnew
  unfold reprotect
  by_cases hin : x ∈ regionPages first last
  · rw [if_pos hin]
    rw [if_pos (show _ ∧ _ from hin)] at hnew
    obtain ⟨phys, p₀, h₀, h₁⟩ := hnew
    rw [hold, Option.map_eq_some_iff] at h₀
    obtain ⟨q, hq, heq⟩ := h₀
    rw [h₁, hq, ← (Prod.mk.inj heq).1]
    rfl
  · rw [if_neg hin, ← hold]
    rw [if_neg (show ¬(_ ∧ _) from hin)] at hnew
    exact hnew

/-- Unmapping a part of the window. -/
theorem unmapPart_shows (H : Shows L feat G s) (hle : first ≤ last) (hlast : last < 2 ^ 64) :
    (((kernelSpace L feat).unmapRange first (last - first) .size4K
      RadixTree.ignoreRemoved).run s).Sat
      (fun _ s' => Shows L feat (fun x => if first ≤ x ∧ x < last then none else G x) s')
      (fun _ _ => True) := by
  refine (RadixTree.unmapRange_sat H.shape (by omega) first .size4K).mono (fun _ s' h => ?_)
    (fun _ _ _ => trivial)
  refine ⟨h.1, fun x hx => ?_⟩
  rw [h.2 x (valid_imageWindow hx), show first + (last - first) = last by omega, H.map x hx]
  split_ifs
  · rfl
  · rfl

/-! ## What `protect_image` leaves -/

/-- The protections after the three calls of `protect_region`. -/
def regionProt (L : Layout) (x : ℕ) : Option PageProt :=
  if x ∈ regionPages L.textStart L.textEnd then some .kernelText
  else if x ∈ regionPages L.rodataStart L.rodataEnd then some .kernelRodata
  else if x ∈ regionPages L.dataRelRoStart L.kernelEnd then some .kernelData
  else some earlyProt

/-- What `protect_image` leaves of an address of the window: unmapped, or mapped with this
protection. -/
def imageProt (L : Layout) (x : ℕ) : Option PageProt :=
  if x < alignDown L.textStart 4096 ∨ alignUp L.kernelEnd 4096 ≤ x then none else regionProt L x

/-- The last call that reaches a page decides. -/
theorem reprotect_regions (L : Layout) :
    reprotect L.textStart L.textEnd .kernelText (reprotect L.rodataStart L.rodataEnd .kernelRodata
      (reprotect L.dataRelRoStart L.kernelEnd .kernelData fun _ => some earlyProt))
      = regionProt L := by
  funext x
  unfold reprotect regionProt
  split_ifs <;> rfl

theorem regionProt_ne_none (L : Layout) (x : ℕ) : regionProt L x ≠ none := by
  unfold regionProt
  split_ifs <;> simp

theorem region_text (L : Layout) : Region L L.textStart L.textEnd := by
  obtain ⟨ht, ht'⟩ := L.text_le
  obtain ⟨hr, hr'⟩ := L.rodata_le
  obtain ⟨hd, hd'⟩ := L.data_le
  exact ⟨ht, ht', by unfold Layout.kernelEnd; omega⟩

theorem region_rodata (L : Layout) : Region L L.rodataStart L.rodataEnd := by
  obtain ⟨ht, ht'⟩ := L.text_le
  obtain ⟨hr, hr'⟩ := L.rodata_le
  obtain ⟨hd, hd'⟩ := L.data_le
  exact ⟨by omega, hr', by unfold Layout.kernelEnd; omega⟩

theorem region_data (L : Layout) : Region L L.dataRelRoStart L.kernelEnd := by
  obtain ⟨ht, ht'⟩ := L.text_le
  obtain ⟨hr, hr'⟩ := L.rodata_le
  obtain ⟨hd, hd'⟩ := L.data_le
  exact ⟨by omega, hd', le_rfl⟩

/-- The two unmaps, from the protections that the regions got. -/
theorem unmapAround_shows (H : Shows L feat (regionProt L) s) :
    ((unmapAround L feat (alignDown L.textStart 4096) (alignUp L.kernelEnd 4096)
      (kernelBase + L.kernelWindowSize)).run s).Sat
      (fun _ s' => Shows L feat (imageProt L) s') (fun _ _ => True) := by
  obtain ⟨-, -, -, hbase, hle, hend⟩ := (region_text L).sub
  obtain ⟨-, -, -, -, -, hend'⟩ := (region_data L).sub
  have hfits := L.image_fits
  have hwin := window_le L
  have h64 : kernelBase + 0x40000000 < 2 ^ 64 := by decide
  -- the part above the image
  have habove : ∀ {s₁ : Kernel},
      Shows L feat (fun x => if x < alignDown L.textStart 4096 then none else regionProt L x) s₁ →
      ((if kernelBase + L.kernelWindowSize > alignUp L.kernelEnd 4096 then
        (kernelSpace L feat).unmapRange (alignUp L.kernelEnd 4096)
          (kernelBase + L.kernelWindowSize - alignUp L.kernelEnd 4096) .size4K
          RadixTree.ignoreRemoved
        else pure () : Comp Fault MmError Kernel Unit).run s₁).Sat
        (fun _ s' => Shows L feat (imageProt L) s') (fun _ _ => True) := by
    intro s₁ h₁
    split_ifs with hab
    · refine (unmapPart_shows h₁ hab.le (by omega)).mono (fun _ s' h => ⟨h.shape, fun x hx => ?_⟩)
        (fun _ _ _ => trivial)
      have hlt : x < kernelBase + L.kernelWindowSize := hx.2
      rw [h.map x hx]
      congr 1
      unfold imageProt
      by_cases hlow : x < alignDown L.textStart 4096
      · rw [if_pos hlow, if_pos (Or.inl hlow), ite_self]
      · by_cases hhigh : alignUp L.kernelEnd 4096 ≤ x
        · rw [if_pos ⟨hhigh, hlt⟩, if_pos (Or.inr hhigh)]
        · rw [if_neg (fun h => hhigh h.1), if_neg hlow, if_neg (by omega)]
    · refine ⟨h₁.shape, fun x hx => ?_⟩
      have hlt : x < kernelBase + L.kernelWindowSize := hx.2
      rw [h₁.map x hx]
      congr 1
      unfold imageProt
      by_cases hlow : x < alignDown L.textStart 4096
      · rw [if_pos hlow, if_pos (Or.inl hlow)]
      · rw [if_neg hlow, if_neg (by omega)]
  rw [unmapAround]
  by_cases hbelow : alignDown L.textStart 4096 > kernelBase
  · rw [if_pos hbelow, sat_bind]
    refine (unmapPart_shows H hbelow.le (by omega)).mono (fun _ s₁ h₁ => habove ⟨h₁.shape, ?_⟩)
      (fun _ _ _ => trivial)
    intro x hx
    have hxle : kernelBase ≤ x := hx.1
    rw [h₁.map x hx]
    congr 1
    by_cases hlow : x < alignDown L.textStart 4096
    · rw [if_pos ⟨hxle, hlow⟩, if_pos hlow]
    · rw [if_neg (fun h => hlow h.2), if_neg hlow]
  · rw [if_neg hbelow]
    refine habove ⟨H.shape, fun x hx => ?_⟩
    have hxle : kernelBase ≤ x := hx.1
    rw [H.map x hx, if_neg (by omega)]

/-- **What `protect_image` leaves of the window.** -/
theorem protectImage_shows (H : Shows L feat (fun _ => some earlyProt) s) :
    ((protectImage L feat).run s).Sat (fun _ s' => Shows L feat (imageProt L) s')
      (fun _ _ => True) := by
  rw [protectImage, sat_bind]
  refine (protectRegion_shows H (region_data L) .kernelData).mono (fun _ s₁ h₁ => ?_)
    (fun _ _ h => h)
  rw [sat_bind]
  refine (protectRegion_shows h₁ (region_rodata L) .kernelRodata).mono (fun _ s₂ h₂ => ?_)
    (fun _ _ h => h)
  rw [sat_bind]
  refine (protectRegion_shows h₂ (region_text L) .kernelText).mono (fun _ s₃ h₃ => ?_)
    (fun _ _ h => h)
  rw [reprotect_regions] at h₃
  exact unmapAround_shows h₃

/-! ## How many tables that takes -/

/-- At most three tables for each page. -/
def tablesFor (first last : ℕ) : ℕ := 3 * ((alignUp last 4096 - alignDown first 4096) / 4096)

theorem protectRegion_room (H : Shows L feat G s) (hr : Region L first last) (hlt : first < last)
    (hG : ∀ x ∈ regionPages first last, G x ≠ none) (p : PageProt) :
    ((protectRegion L feat first last p).run s).Sat
      (fun _ s' => ∀ n, (kernelSpec L.image).Spare (n + tablesFor first last) s →
        (kernelSpec L.image).Spare n s')
      (fun _ _ => ¬(kernelSpec L.image).Spare (tablesFor first last) s) := by
  obtain ⟨hsub, hfirst, hlast, hbase, hle, hend⟩ := hr.sub
  have hwin := kernelWindowSize_eq L
  rw [protectRegion, hsub]
  refine RadixTree.protectRange_room (kernelSpec_failsWhenEmpty L.image) H.shape (by omega)
    (by omega) (by omega) (fun x hx hx' => ?_) p
  have hin : x ∈ imageWindow L := ⟨by omega, by omega⟩
  refine ⟨valid_imageWindow hin, ?_⟩
  rw [H.map x hin, ne_eq, Option.map_eq_none_iff]
  exact hG x ⟨hx, by omega⟩

theorem unmapPart_room (H : Shows L feat G s) (hfirst : first % 4096 = 0) (hlast : last % 4096 = 0)
    (hbase : kernelBase ≤ first) (hlt : first < last)
    (hend : last ≤ kernelBase + L.kernelWindowSize)
    (hG : ∀ x, first ≤ x → x < last → G x ≠ none) :
    (((kernelSpace L feat).unmapRange first (last - first) .size4K
      RadixTree.ignoreRemoved).run s).Sat
      (fun _ s' => ∀ n, (kernelSpec L.image).Spare (n + 6) s → (kernelSpec L.image).Spare n s')
      (fun _ _ => ¬(kernelSpec L.image).Spare 6 s) := by
  have hwin := window_le L
  have h64 : kernelBase + 0x40000000 < 2 ^ 64 := by decide
  refine RadixTree.unmapRange_room (kernelSpec_failsWhenEmpty L.image) H.shape hfirst (by omega)
    (by omega) (by omega) (fun x hx hx' => ?_)
  have hin : x ∈ imageWindow L := ⟨by omega, by omega⟩
  refine ⟨valid_imageWindow hin, ?_⟩
  rw [H.map x hin, ne_eq, Option.map_eq_none_iff]
  exact hG x hx (by omega)

theorem unmapAround_room (H : Shows L feat (regionProt L) s) :
    ((unmapAround L feat (alignDown L.textStart 4096) (alignUp L.kernelEnd 4096)
      (kernelBase + L.kernelWindowSize)).run s).Sat
      (fun _ s' => ∀ n, (kernelSpec L.image).Spare (n + 12) s → (kernelSpec L.image).Spare n s')
      (fun _ _ => ¬(kernelSpec L.image).Spare 12 s) := by
  obtain ⟨-, hfirst, -, hbase, hle, hend⟩ := (region_text L).sub
  obtain ⟨-, -, hlast, -, hle', hend'⟩ := (region_data L).sub
  have hfits := L.image_fits
  have hsize := kernelWindowSize_eq L
  have h64 : kernelBase + 0x40000000 < 2 ^ 64 := by decide
  have hmod : kernelBase % 4096 = 0 := by decide
  have htd : alignDown L.textStart 4096 ≤ alignUp L.kernelEnd 4096 := by
    have htext := (region_text L).le_end
    obtain ⟨ht, ht'⟩ := L.text_le
    omega
  have habove : ∀ {s₁ : Kernel} {G : ℕ → Option PageProt}, Shows L feat G s₁ →
      (∀ x, alignUp L.kernelEnd 4096 ≤ x → G x ≠ none) →
      ((if kernelBase + L.kernelWindowSize > alignUp L.kernelEnd 4096 then
        (kernelSpace L feat).unmapRange (alignUp L.kernelEnd 4096)
          (kernelBase + L.kernelWindowSize - alignUp L.kernelEnd 4096) .size4K
          RadixTree.ignoreRemoved
        else pure () : Comp Fault MmError Kernel Unit).run s₁).Sat
        (fun _ s' => ∀ n, (kernelSpec L.image).Spare (n + 6) s₁ → (kernelSpec L.image).Spare n s')
        (fun _ _ => ¬(kernelSpec L.image).Spare 6 s₁) := by
    intro s₁ G h₁ hG
    split_ifs with hab
    · exact unmapPart_room h₁ (by omega) (by omega) (by omega) hab le_rfl (fun x hx _ => hG x hx)
    · exact fun n hn => hn.mono (by omega)
  rw [unmapAround]
  by_cases hbelow : alignDown L.textStart 4096 > kernelBase
  · rw [if_pos hbelow]
    have hstep := (unmapPart_shows H hbelow.le (by omega)).and (unmapPart_room H hmod (by omega)
      le_rfl hbelow (by omega) (fun x _ _ => regionProt_ne_none L x))
    refine PageEnv.Spec.spare_bind (m := 6) (c := 6)
      (hstep.mono (fun _ _ h => h) (fun _ _ h => h.2))
      (fun _ s₁ h₁ => habove h₁ (fun x hx => ?_))
    rw [if_neg (by omega)]
    exact regionProt_ne_none L x
  · rw [if_neg hbelow]
    exact (habove H (fun x _ => regionProt_ne_none L x)).mono
      (fun _ s₂ h₂ n hn => h₂ n (hn.mono (by omega))) (fun _ _ h₂ hn => h₂ (hn.mono (by omega)))

/-- At most this many tables are taken by `protect_image`. -/
def tablesForImage (L : Layout) : ℕ :=
  tablesFor L.dataRelRoStart L.kernelEnd + (tablesFor L.rodataStart L.rodataEnd
    + (tablesFor L.textStart L.textEnd + 12))

/-- **`protect_image` fails only for lack of tables**, when no region is empty. -/
theorem protectImage_room (H : Shows L feat (fun _ => some earlyProt) s)
    (htext : L.textStart < L.textEnd) (hrodata : L.rodataStart < L.rodataEnd)
    (hdata : L.dataRelRoStart < L.kernelEnd) :
    ((protectImage L feat).run s).Sat
      (fun _ s' => ∀ n, (kernelSpec L.image).Spare (n + tablesForImage L) s →
        (kernelSpec L.image).Spare n s')
      (fun _ _ => ¬(kernelSpec L.image).Spare (tablesForImage L) s) := by
  have hearly : ∀ x : ℕ, (fun _ => some earlyProt : ℕ → Option PageProt) x ≠ none :=
    fun _ => Option.some_ne_none _
  have hstep : ∀ {s : Kernel} {G : ℕ → Option PageProt} {first last : ℕ} (p : PageProt),
      Shows L feat G s → Region L first last → first < last → (∀ x, G x ≠ none) →
      ((protectRegion L feat first last p).run s).Sat
        (fun _ s' => Shows L feat (reprotect first last p G) s' ∧
          ∀ n, (kernelSpec L.image).Spare (n + tablesFor first last) s →
            (kernelSpec L.image).Spare n s')
        (fun _ _ => ¬(kernelSpec L.image).Spare (tablesFor first last) s) :=
    fun p h hr hlt hG => ((protectRegion_shows h hr p).and
      (protectRegion_room h hr hlt (fun x _ => hG x) p)).mono (fun _ _ h => h) (fun _ _ h => h.2)
  rw [protectImage, tablesForImage]
  apply PageEnv.Spec.spare_bind (hstep .kernelData H (region_data L) hdata hearly)
  intro _ s₁ h₁
  apply PageEnv.Spec.spare_bind (hstep .kernelRodata h₁ (region_rodata L) hrodata
    (reprotect_ne_none hearly))
  intro _ s₂ h₂
  apply PageEnv.Spec.spare_bind (hstep .kernelText h₂ (region_text L) htext
    (reprotect_ne_none (reprotect_ne_none hearly)))
  intro _ s₃ h₃
  rw [reprotect_regions] at h₃
  exact unmapAround_room h₃

/-- **`init_kernel_space` succeeds when there are enough frames** for the tables. -/
theorem exists_initKernelSpace (feat : Features) (h₀ : Start L boot k₀)
    (htext : L.textStart < L.textEnd) (hrodata : L.rodataStart < L.rodataEnd)
    (hdata : L.dataRelRoStart < L.kernelEnd)
    (hspare : (kernelSpec L.image).Spare (n + tablesForImage L) k₀) :
    ∃ k, (initKernelSpace L feat boot).run k₀ = .ok (.ok ()) k ∧
      (kernelSpec L.image).Spare n k := by
  obtain ⟨r, k, hrun, -⟩ := (initKernelSpace_sat feat h₀).exists_ok (fun _ _ h => h)
  obtain ⟨k₁, htables, hcase⟩ := initKernelSpace_cases hrun
  have M := (initTables_sat feat h₀).of_ok htables
  have hspare₁ : (kernelSpec L.image).Spare (n + tablesForImage L) k₁ := by
    refine hspare.of_subset (fun t ht => ?_)
    show t ∈ k₁.avail
    rw [Kernel.avail, M.pmm]
    exact ht
  have hroom := protectImage_room (shows_of_mapped M) htext hrodata hdata
  rcases hcase with ⟨rfl, hprotect⟩ | ⟨e, -, hprotect⟩
  · exact ⟨k, hrun, hroom.of_ok hprotect n hspare₁⟩
  · exact absurd (hspare₁.mono (by omega)) (hroom.of_err hprotect)

/-- Setting up the address space frees nothing. -/
theorem avail_of_initKernelSpace {k : Kernel} {r : Except InitError Unit} (h₀ : Start L boot k₀)
    (hrun : (initKernelSpace L feat boot).run k₀ = .ok r k) : ∀ t ∈ k.avail, t ∈ k₀.avail := by
  intro t ht
  have hready : Ready L feat k := (initKernelSpace_sat feat h₀).of_ok hrun
  obtain ⟨k₁, htables, hcase⟩ := initKernelSpace_cases hrun
  have M := (initTables_sat feat h₀).of_ok htables
  have hkeeps := protectImage_keeps (RadixTree.kept_owned (· = 511) k₁) ⟨M.shape, rfl⟩
  have howned : (kernelSpace L feat).owned (kernelSpec L.image) k
      = (kernelSpace L feat).owned (kernelSpec L.image) k₁ := by
    rcases hcase with ⟨-, hprotect⟩ | ⟨e, -, hprotect⟩
    · exact (hkeeps.of_ok hprotect).2
    · exact (hkeeps.of_err hprotect).2
  have hin : t ∈ (kernelSpace L feat).owned (kernelSpec L.image) k :=
    ⟨Or.inl ht, hready.image t ht⟩
  rw [howned] at hin
  obtain ⟨hav | ⟨y, j, hy⟩, himg⟩ := hin
  · rw [Kernel.avail, ← M.pmm]
    exact hav
  · exact absurd (L.tables_inside t (M.tables y j t hy).1) himg

/-! ## A small machine -/

/-- An image in the second MiB, with the static tables in its data. -/
def smallLayout : Layout where
  bootStart := 0x100000
  image := ⟨0x100000, 0x200000⟩
  textStart := kernelBase + 0x100000
  textEnd := kernelBase + 0x108000
  rodataStart := kernelBase + 0x108000
  rodataEnd := kernelBase + 0x10c000
  dataRelRoStart := kernelBase + 0x10c000
  pml4 := 0x110000
  kernelPdpt := 0x111000
  kernelPd := 0x112000
  directPdpt := 0x113000
  directPds i := 0x114000 + i * 0x1000
  boot_le := le_rfl
  image_le := by decide
  image_fits := by decide
  image_aligned := by decide
  text_le := by decide
  rodata_le := by decide
  data_le := by decide
  tables_nodup := by decide
  tables_aligned := by decide
  tables_inside := by decide

theorem start_small : Start smallLayout Pmm.smallBoot ⟨Pmm.smallPmm, fun _ _ => 0#64⟩ :=
  start_populate smallLayout Pmm.smallBoot Pmm.smallPmm_eq

/-- The address space of the small machine can be set up, with frames to spare. -/
theorem exists_initKernelSpace_small : ∃ k,
    (initKernelSpace smallLayout ⟨true, true, false⟩ Pmm.smallBoot).run
      ⟨Pmm.smallPmm, fun _ _ => 0#64⟩ = .ok (.ok ()) k ∧
    (kernelSpec smallLayout.image).Spare 244 k := by
  apply exists_initKernelSpace _ start_small (by decide) (by decide) (by decide)
  exact (spare_small _).mono (by decide)

/-- Of its 1024 frames at least 244 are left then. -/
theorem exists_booted_small : ∃ k, Booted smallLayout ⟨true, true, false⟩ Pmm.smallBoot k ∧
    (kernelSpec smallLayout.image).Spare 244 k ∧ k.avail.ncard ≤ 1024 := by
  obtain ⟨k, hrun, hspare⟩ := exists_initKernelSpace_small
  refine ⟨k, ⟨_, _, start_small, hrun⟩, hspare, ?_⟩
  refine (Set.ncard_le_ncard (avail_of_initKernelSpace start_small hrun)
    (Kernel.finite_avail _)).trans ?_
  refine (Kernel.ncard_avail_le (F := Finset.Ico 4096 5120) (fun f hf => ?_)).trans
    (by rw [Nat.card_Ico])
  exact Finset.mem_Ico.mpr ((Pmm.mem_freeFrames_smallPmm f).mp hf)

/-! ## Writable or executable -/

/-- What the linker script fixes about the symbols, for an image with text and read-only data. -/
structure Scripted (L : Layout) : Prop where
  base_lt : kernelBase < L.textStart
  text_lt : L.textStart < L.textEnd
  rodata_lt : L.rodataStart < L.rodataEnd
  data_lt : L.dataRelRoStart < L.kernelEnd
  text_aligned : L.textStart % 4096 = 0
  rodata_aligned : L.rodataStart % 4096 = 0
  data_aligned : L.dataRelRoStart % 4096 = 0

/-- No page of the window is both writable and executable, and nothing around the image is
mapped. -/
structure ImageSealed (L : Layout) (feat : Features) (k : Kernel) : Prop where
  wx : ∀ x ∈ imageWindow L, ∀ q p, (kernelSpace L feat).translation k x = some (q, p) →
    ¬(p.write = true ∧ p.exec = true)
  around : ∀ x ∈ imageWindow L, x < L.textStart ∨ L.kernelEnd ≤ x →
    (kernelSpace L feat).translation k x = none

/-- The ends of the regions, when the script has aligned their starts. -/
theorem Scripted.bounds (h : Scripted L) :
    alignDown L.textStart 4096 = L.textStart ∧ alignDown L.rodataStart 4096 = L.rodataStart ∧
    alignDown L.dataRelRoStart 4096 = L.dataRelRoStart ∧ alignUp L.kernelEnd 4096 = L.kernelEnd ∧
    alignUp L.textEnd 4096 ≤ L.rodataStart ∧ alignUp L.rodataEnd 4096 ≤ L.dataRelRoStart ∧
    L.textEnd ≤ alignUp L.textEnd 4096 ∧ L.rodataEnd ≤ alignUp L.rodataEnd 4096 := by
  obtain ⟨-, htd, htu, -⟩ := (region_text L).sub
  obtain ⟨-, hrd, hru, -⟩ := (region_rodata L).sub
  obtain ⟨-, hdd, hdu, -⟩ := (region_data L).sub
  obtain ⟨hr, -⟩ := L.rodata_le
  obtain ⟨hd, -⟩ := L.data_le
  have hal := L.image_aligned
  have hmod : kernelBase % 4096 = 0 := by decide
  have hend : L.kernelEnd = kernelBase + L.image.last := rfl
  obtain ⟨-, -, -, -, ht4, hr4, hd4⟩ := h
  rw [htd, hrd, hdd, htu, hru, hdu]
  omega

/-- A page between two regions keeps its first protection. -/
theorem imageProt_gap (h : Scripted L) (hx : (alignUp L.textEnd 4096 ≤ x ∧ x < L.rodataStart) ∨
    (alignUp L.rodataEnd 4096 ≤ x ∧ x < L.dataRelRoStart)) : imageProt L x = some earlyProt := by
  obtain ⟨htd, hrd, hdd, hku, htr, hrdr, hte, hre⟩ := h.bounds
  obtain ⟨-, ht, hr, hd, -⟩ := h
  unfold imageProt regionProt
  rw [if_neg (by omega), if_neg (by rw [mem_regionPages]; omega),
    if_neg (by rw [mem_regionPages]; omega), if_neg (by rw [mem_regionPages]; omega)]

/-- Without such pages every page has the protection of a region. -/
theorem imageProt_tight (h : Scripted L) (ht : alignUp L.textEnd 4096 = L.rodataStart)
    (hr : alignUp L.rodataEnd 4096 = L.dataRelRoStart) :
    imageProt L x = none ∨ imageProt L x = some .kernelText ∨ imageProt L x = some .kernelRodata ∨
      imageProt L x = some .kernelData := by
  obtain ⟨htd, hrd, hdd, hku, -⟩ := h.bounds
  unfold imageProt regionProt
  split_ifs with h1 h2 h3 h4
  · exact Or.inl rfl
  · exact Or.inr (Or.inl rfl)
  · exact Or.inr (Or.inr (Or.inl rfl))
  · exact Or.inr (Or.inr (Or.inr rfl))
  · rw [mem_regionPages] at h2 h3 h4
    omega

/-- What `init_kernel_space` leaves of the window. -/
theorem shows_of_initKernelSpace (h₀ : Start L boot k₀)
    (hrun : (initKernelSpace L feat boot).run k₀ = .ok (.ok ()) k) :
    Shows L feat (imageProt L) k := by
  obtain ⟨k₁, htables, ⟨-, hprotect⟩ | ⟨e, he, -⟩⟩ := initKernelSpace_cases hrun
  · have M := (initTables_sat feat h₀).of_ok htables
    exact (protectImage_shows (shows_of_mapped M)).of_ok hprotect
  · cases he

/-- **The image is sealed exactly when its regions leave no page out.**  When `init_kernel_space`
has returned `Ok` for an image that the linker script admits, on a machine with no-execute: no
page of the window is both writable and executable and nothing around the image is mapped, if
and only if no page lies between the text and the read-only data or between the read-only data
and the data. -/
theorem image_sealed_iff (hnx : feat.nx = true) (h : Scripted L) (h₀ : Start L boot k₀)
    (hrun : (initKernelSpace L feat boot).run k₀ = .ok (.ok ()) k) :
    ImageSealed L feat k ↔
      alignUp L.textEnd 4096 = L.rodataStart ∧ alignUp L.rodataEnd 4096 = L.dataRelRoStart := by
  have hshows := shows_of_initKernelSpace h₀ hrun
  obtain ⟨htd, hrd, hdd, hku, htr, hrdr, hte, hre⟩ := h.bounds
  have hbase := h.base_lt
  have htext := h.text_lt
  have hrodata := h.rodata_lt
  have hdata := h.data_lt
  have hend : L.kernelEnd = kernelBase + L.image.last := rfl
  have hsize := kernelWindowSize_eq L
  constructor
  · intro hsealed
    -- a page left out would be writable and executable
    have hno : ∀ x, ¬((alignUp L.textEnd 4096 ≤ x ∧ x < L.rodataStart) ∨
        (alignUp L.rodataEnd 4096 ≤ x ∧ x < L.dataRelRoStart)) := by
      intro x hx
      have hin : x ∈ imageWindow L := ⟨by omega, by omega⟩
      refine hsealed.wx x hin (x - kernelBase) (readBack feat earlyProt) ?_ ⟨rfl, rfl⟩
      rw [hshows.map x hin, imageProt_gap h hx]
      rfl
    constructor
    · have := hno (alignUp L.textEnd 4096)
      omega
    · have := hno (alignUp L.rodataEnd 4096)
      omega
  · rintro ⟨ht, hr⟩
    refine ⟨fun x hx q p hq hwx => ?_, fun x hx hout => ?_⟩
    · rw [hshows.map x hx] at hq
      -- only the text is executable, and it is not writable
      rcases imageProt_tight (x := x) h ht hr with hp | hp | hp | hp
      · rw [hp] at hq
        cases hq
      · rw [hp] at hq
        obtain rfl := (Prod.mk.inj (Option.some.inj hq)).2
        exact absurd hwx.1 Bool.false_ne_true
      · rw [hp] at hq
        obtain rfl := (Prod.mk.inj (Option.some.inj hq)).2
        exact absurd hwx.1 Bool.false_ne_true
      · rw [hp] at hq
        obtain rfl := (Prod.mk.inj (Option.some.inj hq)).2
        have hexec : (false || !feat.nx) = true := hwx.2
        rw [hnx] at hexec
        cases hexec
    · rw [hshows.map x hx, imageProt, if_pos (by omega)]
      rfl

theorem image_sealed_iff_small : ∃ k,
    (initKernelSpace smallLayout ⟨true, true, false⟩ Pmm.smallBoot).run
      ⟨Pmm.smallPmm, fun _ _ => 0#64⟩ = .ok (.ok ()) k ∧
    ImageSealed smallLayout ⟨true, true, false⟩ k := by
  obtain ⟨k, hrun, -⟩ := exists_initKernelSpace_small
  have hscript : Scripted smallLayout :=
    ⟨by decide, by decide, by decide, by decide, by decide, by decide, by decide⟩
  exact ⟨k, hrun, (image_sealed_iff rfl hscript start_small hrun).mpr ⟨by decide, by decide⟩⟩

/-- The small image, with a page between its read-only data and its data. -/
def gapLayout : Layout :=
  { smallLayout with
    rodataEnd := kernelBase + 0x10b000
    rodata_le := by decide
    data_le := by decide }

/-- The page that no region covers stays writable and executable. -/
theorem image_gap_writable_executable : Scripted gapLayout ∧ ∃ k₀ k,
    Start gapLayout Pmm.smallBoot k₀ ∧
    (initKernelSpace gapLayout ⟨true, true, false⟩ Pmm.smallBoot).run k₀ = .ok (.ok ()) k ∧
    (kernelSpace gapLayout ⟨true, true, false⟩).translation k (kernelBase + 0x10b000)
      = some (0x10b000, { write := true, exec := true, global := true }) ∧
    ¬ImageSealed gapLayout ⟨true, true, false⟩ k := by
  have hscript : Scripted gapLayout :=
    ⟨by decide, by decide, by decide, by decide, by decide, by decide, by decide⟩
  have hstart : Start gapLayout Pmm.smallBoot ⟨Pmm.smallPmm, fun _ _ => 0#64⟩ :=
    start_populate gapLayout Pmm.smallBoot Pmm.smallPmm_eq
  obtain ⟨k, hrun, -⟩ := exists_initKernelSpace (n := 0) ⟨true, true, false⟩ hstart
    hscript.text_lt hscript.rodata_lt hscript.data_lt ((spare_small _).mono (by decide))
  have hin : kernelBase + 0x10b000 ∈ imageWindow gapLayout := ⟨by decide, by decide⟩
  have hmap := (shows_of_initKernelSpace hstart hrun).map _ hin
  rw [imageProt_gap hscript (Or.inr ⟨by decide, by decide⟩)] at hmap
  have hpage : (kernelSpace gapLayout ⟨true, true, false⟩).translation k (kernelBase + 0x10b000)
      = some (0x10b000, { write := true, exec := true, global := true }) := hmap
  refine ⟨hscript, _, k, hstart, hrun, hpage, fun hsealed => ?_⟩
  exact hsealed.wx _ hin _ _ hpage ⟨rfl, rfl⟩

end Mmu

end DoomOs
