/-
# The window of device memory

`map_mmio` maps the pages of a request at `MMIO_MAP_BASE` plus their own address, and so
every request asks for the same leaf at the same place.  Seen over many requests the
window only grows (`Grown`): leaves stay as they are, and a new leaf is the one for its
own page.

* `mapRange_grown`: one request, also where it fails half way.
* `mmio_window_order_independent`: any list of requests, in any order, each ending well or not.
-/
import DoomOs.VmmRuns

namespace DoomOs

open Comp Paging RadixFormat Mmu

namespace Vmm

variable {L : Layout} {feat : Features} {boot : BootInfo} {k₀ k k' k'' : Kernel} {s s' : Vmm}
  {P Q : ℕ → Prop} {p pa bytes lo hi d : ℕ} {e : Entry}

/-! ## Pages of the window -/

/-- The leaf that `map_mmio` writes for the page of the device address `p`. -/
def mmioEntry (feat : Features) (p : ℕ) : Entry := leafEntry feat (p / 4096 * 4096) .size4K .mmio

theorem mmio_end : mmioMapBase + mmioMapSize < 2 ^ 64 := by decide

theorem valid_mmio (hp : p < mmioMapSize) : valid (mmioMapBase + p) = true := by
  unfold mmioMapSize at hp
  rw [valid_iff]
  unfold mmioMapBase
  omega

/-- Addresses of the window that meet the same 4 KiB leaf are in the same page. -/
theorem agree_mmio {q : ℕ} (hp : p < mmioMapSize) (hq : q < mmioMapSize) :
    format.Agree 4 (mmioMapBase + p) (mmioMapBase + q) ↔ p / 4096 = q / 4096 := by
  unfold mmioMapSize at hp hq
  rw [agree_iff (le_refl 3)]
  unfold mmioMapBase span
  omega

theorem mmioEntry_congr {q : ℕ} (h : p / 4096 = q / 4096) :
    mmioEntry feat p = mmioEntry feat q := by
  unfold mmioEntry
  rw [h]

theorem mmioEntry_of_aligned (hal : p % 4096 = 0) :
    mmioEntry feat p = leafEntry feat p .size4K .mmio := by
  unfold mmioEntry
  rw [Nat.div_mul_cancel (Nat.dvd_of_mod_eq_zero hal)]

/-- The window has 4 KiB leaves only. -/
def Flat (L : Layout) (feat : Features) (k : Kernel) : Prop :=
  ∀ p < mmioMapSize, ∀ d e, (kernelSpace L feat).Maps k (mmioMapBase + p) d e → d = 3

/-- From `k` to `k'` the leaves of the window stay, and pages in `P` may get their leaf. -/
structure Grown (L : Layout) (feat : Features) (P : ℕ → Prop) (k k' : Kernel) : Prop where
  kept : ∀ p < mmioMapSize, ∀ d e, (kernelSpace L feat).Maps k (mmioMapBase + p) d e →
    (kernelSpace L feat).Maps k' (mmioMapBase + p) d e
  new : ∀ p < mmioMapSize, ∀ d e, (kernelSpace L feat).Maps k' (mmioMapBase + p) d e →
    (kernelSpace L feat).Maps k (mmioMapBase + p) d e ∨ (P p ∧ d = 3 ∧ e = mmioEntry feat p)

namespace Grown

theorem refl (k : Kernel) : Grown L feat P k k := ⟨fun _ _ _ _ h => h, fun _ _ _ _ h => Or.inl h⟩

theorem mono (h : Grown L feat P k k') (hPQ : ∀ p < mmioMapSize, P p → Q p) :
    Grown L feat Q k k' := by
  refine ⟨h.kept, fun p hp d e hm => ?_⟩
  rcases h.new p hp d e hm with hold | ⟨hP, hnew⟩
  · exact Or.inl hold
  · exact Or.inr ⟨hPQ p hp hP, hnew⟩

theorem trans (h : Grown L feat P k k') (h' : Grown L feat P k' k'') : Grown L feat P k k'' := by
  refine ⟨fun p hp d e hm => h'.kept p hp d e (h.kept p hp d e hm), fun p hp d e hm => ?_⟩
  rcases h'.new p hp d e hm with hold | hnew
  · exact h.new p hp d e hold
  · exact Or.inr hnew

theorem flat (h : Grown L feat P k k') (hflat : Flat L feat k) : Flat L feat k' := by
  intro p hp d e hm
  rcases h.new p hp d e hm with hold | ⟨-, hd, -⟩
  · exact hflat p hp d e hold
  · exact hd

/-- Growing the tree elsewhere, or without a new leaf. -/
theorem of_maps (h : ∀ p < mmioMapSize, ∀ d e, (kernelSpace L feat).Maps k' (mmioMapBase + p) d e ↔
    (kernelSpace L feat).Maps k (mmioMapBase + p) d e) : Grown L feat P k k' :=
  ⟨fun p hp d e hm => (h p hp d e).mpr hm, fun p hp d e hm => Or.inl ((h p hp d e).mp hm)⟩

theorem of_extends {va : ℕ} (h : (kernelSpace L feat).Extends (kernelSpec L.image) va k k')
    (hflat : Flat L feat k) : Grown L feat P k k' :=
  of_maps (fun p hp _ _ => h.maps_iff (hflat p hp))

/-- Writing the leaf of a page that is not mapped. -/
theorem of_puts (hput : (kernelSpace L feat).Puts (kernelSpec L.image) (mmioMapBase + p) 3
      (mmioEntry feat p) k k') (hp : p < mmioMapSize)
    (hno : ∀ y d e, format.Agree 4 (mmioMapBase + p) y → ¬(kernelSpace L feat).Maps k y d e) :
    Grown L feat (fun q => q / 4096 = p / 4096) k k' := by
  refine ⟨fun q hq d e hm => ?_, fun q hq d e hm => ?_⟩
  · rw [hput.maps, if_neg (fun ha => hno _ d e ha hm)]
    exact hm
  · rw [hput.maps] at hm
    split_ifs at hm with ha
    · have hpage := (agree_mmio hp hq).mp ha
      obtain ⟨rfl, rfl, -⟩ := hm
      exact Or.inr ⟨hpage.symm, rfl, mmioEntry_congr hpage⟩
    · exact Or.inl hm

end Grown

/-! ## One page -/

/-- **Mapping one page of the window.**  The page has its leaf afterwards, unless too few tables
are left or an older leaf is another one. -/
theorem mapLeaf_grown (H : (kernelSpace L feat).Shape (kernelSpec L.image) k)
    (hflat : Flat L feat k) (hp : p < mmioMapSize) (hal : p % 4096 = 0) :
    (((kernelSpace L feat).mapLeaf (mmioMapBase + p) p .size4K .mmio).run k).Sat
      (fun _ k' => (kernelSpace L feat).Shape (kernelSpec L.image) k' ∧
        Grown L feat (fun q => q / 4096 = p / 4096) k k' ∧
        (kernelSpace L feat).Maps k' (mmioMapBase + p) 3 (mmioEntry feat p) ∧
        ∀ n, (kernelSpec L.image).Spare (n + 3) k → (kernelSpec L.image).Spare n k')
      (fun er k' => (kernelSpace L feat).Shape (kernelSpec L.image) k' ∧
        Grown L feat (fun _ => False) k k' ∧
        ((er = .outOfMemory ∧ ¬(kernelSpec L.image).Spare 3 k) ∨
          (er = .conflict ∧ ∃ e, (kernelSpace L feat).Maps k (mmioMapBase + p) 3 e ∧
            e ≠ mmioEntry feat p))) := by
  have hentry : mmioEntry feat p = leafEntry feat p .size4K .mmio := mmioEntry_of_aligned hal
  have hroom := RadixTree.mapLeaf_room (kernelSpec_failsWhenEmpty L.image) H (valid_mmio hp)
    (by unfold mmioMapBase; omega) hal .mmio
  refine ((RadixTree.mapLeaf_sat H _ _ _ _).and hroom).mono (fun _ k' h => ?_) (fun er k' h => ?_)
  · obtain ⟨⟨-, -, -, k₁, hx, hcase⟩, hspare⟩ := h
    rw [show leafEntry (kernelSpace L feat).feat p .size4K .mmio = mmioEntry feat p
      from hentry.symm] at hcase
    have hgrown : Grown L feat (fun q => q / 4096 = p / 4096) k k₁ := .of_extends hx hflat
    rcases hcase with ⟨rfl, hm⟩ | ⟨hno, hput⟩
    · exact ⟨hx.shape, hgrown, hm, hspare⟩
    · refine ⟨hput.shape, hgrown.trans (.of_puts hput hp hno), ?_, hspare⟩
      rw [hput.maps, if_pos (Agree.refl _ _)]
      exact ⟨rfl, rfl, present_leafEntry _ _ _ _⟩
  · obtain ⟨hx, hwhy⟩ := h
    refine ⟨hx.shape, .of_extends hx hflat, hwhy.imp id ?_⟩
    rintro ⟨her, -, e, hm, hne⟩
    refine ⟨her, e, (hx.maps_iff (hflat p hp)).mp hm, ?_⟩
    rw [hentry]
    exact hne

/-! ## One request -/

/-- How far a request has come after `m` bytes. -/
structure Through (L : Layout) (feat : Features) (lo m : ℕ) (k k' : Kernel) : Prop where
  shape : (kernelSpace L feat).Shape (kernelSpec L.image) k'
  grown : Grown L feat (fun q => lo ≤ q ∧ q < lo + m) k k'
  leaves : ∀ q, lo ≤ q → q < lo + m →
    (kernelSpace L feat).Maps k' (mmioMapBase + q) 3 (mmioEntry feat q)
  spare : ∀ n, (kernelSpec L.image).Spare (n + 3 * (m / 4096)) k → (kernelSpec L.image).Spare n k'

theorem through_zero (H : (kernelSpace L feat).Shape (kernelSpec L.image) k) :
    Through L feat lo 0 k k :=
  ⟨H, .refl k, fun q hle hlt => absurd hlt (by omega), fun _ h => h⟩

/-- The next page. -/
theorem Through.step {i : ℕ} (h : Through L feat lo (i * 4096) k k') (hlo : lo % 4096 = 0)
    (hend : lo + (i * 4096 + 4096) ≤ mmioMapSize)
    (H' : (kernelSpace L feat).Shape (kernelSpec L.image) k'')
    (hgrown : Grown L feat (fun q => q / 4096 = (lo + i * 4096) / 4096) k' k'')
    (hleaf : (kernelSpace L feat).Maps k'' (mmioMapBase + (lo + i * 4096)) 3
      (mmioEntry feat (lo + i * 4096)))
    (hspare : ∀ n, (kernelSpec L.image).Spare (n + 3) k' → (kernelSpec L.image).Spare n k'') :
    Through L feat lo (i * 4096 + 4096) k k'' := by
  have hbefore : Grown L feat (fun q => lo ≤ q ∧ q < lo + (i * 4096 + 4096)) k k' :=
    h.grown.mono (fun q _ hq => ⟨hq.1, by omega⟩)
  have hnow : Grown L feat (fun q => lo ≤ q ∧ q < lo + (i * 4096 + 4096)) k' k'' :=
    hgrown.mono (fun q _ hq => ⟨by omega, by omega⟩)
  refine ⟨H', hbefore.trans hnow, fun q hle hlt => ?_, fun n hn => ?_⟩
  · by_cases hq : q < lo + i * 4096
    · exact hgrown.kept q (by omega) 3 _ (h.leaves q hle hq)
    · have hpage : (lo + i * 4096) / 4096 = q / 4096 := by omega
      rw [← mmioEntry_congr hpage]
      exact hleaf.congr ((agree_mmio (by omega) (by omega)).mpr hpage)
  · apply hspare
    apply h.spare
    rw [show n + 3 + 3 * (i * 4096 / 4096) = n + 3 * ((i * 4096 + 4096) / 4096) by omega]
    exact hn

/-- **Mapping pages of the window**, from `lo` up to `hi`. -/
theorem mapRange_grown (H : (kernelSpace L feat).Shape (kernelSpec L.image) k)
    (hflat : Flat L feat k) (hlo : lo % 4096 = 0) (hhi : hi % 4096 = 0) (hlt : lo < hi)
    (hend : hi ≤ mmioMapSize) :
    (((kernelSpace L feat).mapRange (mmioMapBase + lo) lo (hi - lo) .size4K .mmio).run k).Sat
      (fun _ k' => Through L feat lo (hi - lo) k k')
      (fun er k' => Grown L feat (fun q => lo ≤ q ∧ q < hi) k k' ∧
        ((er = .outOfMemory ∧ ¬(kernelSpec L.image).Spare (3 * ((hi - lo) / 4096)) k) ∨
          (er = .conflict ∧ ∃ q e, lo ≤ q ∧ q < hi ∧
            (kernelSpace L feat).Maps k (mmioMapBase + q) 3 e ∧ e ≠ mmioEntry feat q))) := by
  have hwrap := mmio_end
  have hroom : lo + (hi - lo) ≤ mmioMapSize := by omega
  rw [RadixTree.mapRange]
  refine (RadixTree.sat_forEachLeaf (I := fun m k' => Through L feat lo m k k') (through_zero H)
    (fun hbad => ?_) (fun i k₁ hi₁ h₁ => ?_)).mono (fun _ _ h => h.2) (fun _ _ h => h)
  · rw [RadixTree.leafSize_size4K, PageSize.bytesIn_size4K] at hbad
    omega
  rw [RadixTree.leafSize_size4K, PageSize.bytesIn_size4K, Nat.add_mul, Nat.one_mul] at hi₁ ⊢
  rw [RadixTree.leafSize_size4K, PageSize.bytesIn_size4K] at h₁
  rw [show u64 (mmioMapBase + lo + i * 4096) = mmioMapBase + (lo + i * 4096) by
    rw [Nat.add_assoc, u64_of_lt (by omega)], u64_of_lt (by omega)]
  refine (mapLeaf_grown h₁.shape (h₁.grown.flat hflat) (by omega) (by omega)).mono
    (fun _ k₂ h₂ => ?_) (fun er k₂ h₂ => ?_)
  · obtain ⟨H₂, hgrown, hleaf, hspare⟩ := h₂
    have hnext : lo + (i * 4096 + 4096) ≤ mmioMapSize :=
      (Nat.add_le_add_left hi₁ lo).trans hroom
    exact h₁.step hlo hnext H₂ hgrown hleaf hspare
  · obtain ⟨-, hgrown, hwhy⟩ := h₂
    have hbefore : Grown L feat (fun q => lo ≤ q ∧ q < hi) k k₁ :=
      h₁.grown.mono (fun q _ hq => ⟨hq.1, by omega⟩)
    refine ⟨hbefore.trans (hgrown.mono (fun _ _ hq => hq.elim)), ?_⟩
    rcases hwhy with ⟨her, hno⟩ | ⟨her, e, hm, hne⟩
    · refine Or.inl ⟨her, fun hsp => hno (h₁.spare 3 (hsp.mono ?_))⟩
      omega
    · -- the leaf in the way was there before the request
      refine Or.inr ⟨her, lo + i * 4096, e, by omega, by omega, ?_, hne⟩
      rcases h₁.grown.new _ (by omega) 3 e hm with hold | ⟨hin, -⟩
      · exact hold
      · omega

/-- The check of `map_mmio`: the request is not empty and ends inside the window. -/
def Admitted (pa bytes : ℕ) : Prop := 0 < bytes ∧ pa + bytes ≤ mmioMapSize

theorem admitted_iff :
    Admitted pa bytes ↔ ¬(bytes = 0 ∨ pa ≥ mmioMapSize ∨ bytes > mmioMapSize - pa) := by
  unfold Admitted
  omega

/-- The device addresses in the pages that a request touches. -/
def pagesOf (pa bytes : ℕ) : Set ℕ := {p | ∃ x, pa ≤ x ∧ x < pa + bytes ∧ x / 4096 = p / 4096}

theorem mem_pagesOf (h : Admitted pa bytes) :
    p ∈ pagesOf pa bytes ↔ alignDown pa frameSize ≤ p ∧ p < alignUp (pa + bytes) frameSize := by
  obtain ⟨hfirst, hlast, -, -⟩ := mmio_range (admitted_iff.mp h)
  obtain ⟨hpos, hend⟩ := h
  rw [hfirst, hlast]
  constructor
  · rintro ⟨x, hle, hlt, hpage⟩
    omega
  · rintro ⟨hle, hlt⟩
    -- the first byte of the request in that page
    refine ⟨max pa (p / 4096 * 4096), ?_, ?_, ?_⟩
    · omega
    · omega
    · omega

theorem lt_of_mem_pagesOf (h : Admitted pa bytes) (hp : p ∈ pagesOf pa bytes) :
    p < mmioMapSize := by
  obtain ⟨-, -, hend, -⟩ := mmio_range (admitted_iff.mp h)
  have := ((mem_pagesOf h).mp hp).2
  omega

/-- **One request**: the window grows by pages of the request, and the result is the address, a
lack of tables, a conflict with an older leaf, or a refusal that changes nothing. -/
theorem mapMmio_grown (H : (kernelSpace L feat).Shape (kernelSpec L.image) s.kernel)
    (hflat : Flat L feat s.kernel) (pa bytes : ℕ) :
    ((mapMmio L feat pa bytes).run s).Sat
      (fun v s' => Admitted pa bytes ∧ v = mmioMapBase + pa ∧
        Grown L feat (· ∈ pagesOf pa bytes) s.kernel s'.kernel ∧
        ∀ p ∈ pagesOf pa bytes,
          (kernelSpace L feat).Maps s'.kernel (mmioMapBase + p) 3 (mmioEntry feat p))
      (fun er s' => (¬Admitted pa bytes ∧ er = .invalidAddress ∧ s' = s) ∨
        (Admitted pa bytes ∧ Grown L feat (· ∈ pagesOf pa bytes) s.kernel s'.kernel ∧
          ((er = .outOfMemory ∧ ¬(kernelSpec L.image).Spare
              (3 * ((alignUp (pa + bytes) frameSize - alignDown pa frameSize) / 4096)) s.kernel) ∨
            (er = .conflict ∧ ∃ p ∈ pagesOf pa bytes, ∃ e,
              (kernelSpace L feat).Maps s.kernel (mmioMapBase + p) 3 e ∧
                e ≠ mmioEntry feat p)))) := by
  rw [mapMmio]
  by_cases hbad : bytes = 0 ∨ pa ≥ mmioMapSize ∨ bytes > mmioMapSize - pa
  · rw [if_pos hbad]
    exact Or.inl ⟨fun h => admitted_iff.mp h hbad, rfl, rfl⟩
  rw [if_neg hbad]
  have hadm := admitted_iff.mpr hbad
  obtain ⟨hfirst, hlast, hend, hlt⟩ := mmio_range hbad
  dsimp only
  rw [sat_bind, inKernel, sat_zoom]
  refine (mapRange_grown H hflat (by omega) (by omega) hlt hend).mono (fun _ k' h => ?_)
    (fun er k' h => ?_)
  · refine ⟨hadm, rfl, h.grown.mono (fun q _ hq => (mem_pagesOf hadm).mpr (by omega)),
      fun p hp => ?_⟩
    have hmem := (mem_pagesOf hadm).mp hp
    exact h.leaves p hmem.1 (by omega)
  · obtain ⟨hgrown, hwhy⟩ := h
    refine Or.inr ⟨hadm, hgrown.mono (fun q _ hq => (mem_pagesOf hadm).mpr hq),
      hwhy.imp id ?_⟩
    rintro ⟨her, q, e, hle, hqlt, hm, hne⟩
    exact ⟨her, q, (mem_pagesOf hadm).mpr ⟨hle, hqlt⟩, e, hm, hne⟩

/-! ## Requests for pages that are mapped -/

/-- Mapping pages of the window that are mapped changes nothing, and succeeds if and only if they
all have the leaf asked for. -/
theorem mapRange_mapped (H : (kernelSpace L feat).Shape (kernelSpec L.image) k)
    (hlo : lo % 4096 = 0) (hhi : hi % 4096 = 0) (hlt : lo < hi) (hend : hi ≤ mmioMapSize)
    (hmapped : ∀ q, lo ≤ q → q < hi → ∃ e, (kernelSpace L feat).Maps k (mmioMapBase + q) 3 e) :
    (((kernelSpace L feat).mapRange (mmioMapBase + lo) lo (hi - lo) .size4K .mmio).run k).Sat
      (fun _ k' => k' = k ∧ ∀ q, lo ≤ q → q < hi →
        (kernelSpace L feat).Maps k (mmioMapBase + q) 3 (mmioEntry feat q))
      (fun er k' => k' = k ∧ er = .conflict ∧ ∃ q e, lo ≤ q ∧ q < hi ∧
        (kernelSpace L feat).Maps k (mmioMapBase + q) 3 e ∧ e ≠ mmioEntry feat q) := by
  have hwrap := mmio_end
  have hroom : lo + (hi - lo) = hi := by omega
  rw [RadixTree.mapRange]
  refine (RadixTree.sat_forEachLeaf (I := fun m k' => k' = k ∧ ∀ q, lo ≤ q → q < lo + m →
    (kernelSpace L feat).Maps k (mmioMapBase + q) 3 (mmioEntry feat q))
    ⟨rfl, fun q hle hq => absurd hq (by omega)⟩ (fun hbad => ?_) (fun i k₁ hi₁ h₁ => ?_)).mono
    (fun _ k' h => ?_) (fun _ _ h => h)
  · rw [RadixTree.leafSize_size4K, PageSize.bytesIn_size4K] at hbad
    omega
  · rw [RadixTree.leafSize_size4K, PageSize.bytesIn_size4K, Nat.add_mul, Nat.one_mul] at hi₁ ⊢
    rw [RadixTree.leafSize_size4K, PageSize.bytesIn_size4K] at h₁
    obtain ⟨rfl, hleaves⟩ := h₁
    rw [show u64 (mmioMapBase + lo + i * 4096) = mmioMapBase + (lo + i * 4096) by
      rw [Nat.add_assoc, u64_of_lt (by omega)], u64_of_lt (by omega)]
    have hp : lo + i * 4096 < mmioMapSize := by omega
    have hal : (lo + i * 4096) % 4096 = 0 := by omega
    obtain ⟨e, hm⟩ := hmapped (lo + i * 4096) (by omega) (by omega)
    have hentry : mmioEntry feat (lo + i * 4096) = leafEntry feat (lo + i * 4096) .size4K .mmio :=
      mmioEntry_of_aligned hal
    refine (RadixTree.mapLeaf_mapped H (valid_mmio hp) (by unfold mmioMapBase; omega) hal .mmio
      hm).mono (fun _ k₂ h₂ => ?_) (fun er k₂ h₂ => ?_)
    · obtain ⟨rfl, he⟩ := h₂
      refine ⟨rfl, fun q hle hq => ?_⟩
      by_cases hold : q < lo + i * 4096
      · exact hleaves q hle hold
      · have hpage : (lo + i * 4096) / 4096 = q / 4096 := by omega
        rw [← mmioEntry_congr hpage, hentry]
        rw [he] at hm
        exact hm.congr ((agree_mmio hp (by omega)).mpr hpage)
    · obtain ⟨rfl, her, hne⟩ := h₂
      refine ⟨rfl, her, lo + i * 4096, e, by omega, by omega, hm, ?_⟩
      rw [hentry]
      exact hne
  · rw [hroom] at h
    exact h.2

/-- **A request for mapped pages** changes nothing, and succeeds if and only if the pages all have
the leaf asked for. -/
theorem mapMmio_mapped (H : (kernelSpace L feat).Shape (kernelSpec L.image) s.kernel)
    (hadm : Admitted pa bytes) (hmapped : ∀ p ∈ pagesOf pa bytes,
      ∃ e, (kernelSpace L feat).Maps s.kernel (mmioMapBase + p) 3 e) :
    ((mapMmio L feat pa bytes).run s).Sat
      (fun v s' => v = mmioMapBase + pa ∧ s' = s ∧ ∀ p ∈ pagesOf pa bytes,
        (kernelSpace L feat).Maps s.kernel (mmioMapBase + p) 3 (mmioEntry feat p))
      (fun er s' => s' = s ∧ er = .conflict ∧ ∃ p ∈ pagesOf pa bytes, ∃ e,
        (kernelSpace L feat).Maps s.kernel (mmioMapBase + p) 3 e ∧ e ≠ mmioEntry feat p) := by
  have hbad := admitted_iff.mp hadm
  obtain ⟨hfirst, hlast, hend, hlt⟩ := mmio_range hbad
  rw [mapMmio, if_neg hbad]
  dsimp only
  rw [sat_bind, inKernel, sat_zoom]
  refine (mapRange_mapped H (by omega) (by omega) hlt hend (fun q hle hq =>
    hmapped q ((mem_pagesOf hadm).mpr ⟨hle, hq⟩))).mono (fun _ k' h => ?_) (fun er k' h => ?_)
  · obtain ⟨rfl, hleaves⟩ := h
    refine ⟨rfl, rfl, fun p hp => ?_⟩
    have hmem := (mem_pagesOf hadm).mp hp
    exact hleaves p hmem.1 hmem.2
  · obtain ⟨rfl, her, q, e, hle, hq, hm, hne⟩ := h
    exact ⟨rfl, her, q, (mem_pagesOf hadm).mpr ⟨hle, hq⟩, e, hm, hne⟩

/-! ## Every leaf is for its own page -/

/-- The leaves of the window are 4 KiB leaves that `R` relates to the leaf for their page. -/
def Identity (L : Layout) (feat : Features) (R : Entry → Entry → Prop) (k : Kernel) : Prop :=
  ∀ p < mmioMapSize, ∀ d e, (kernelSpace L feat).Maps k (mmioMapBase + p) d e →
    d = 3 ∧ R e (mmioEntry feat p)

section Identity

variable {R : Entry → Entry → Prop}

theorem Identity.flat (H : Identity L feat R k) : Flat L feat k :=
  fun p hp d e hm => (H p hp d e hm).1

theorem Grown.identity (h : Grown L feat P k k') (hR : ∀ p, R (mmioEntry feat p) (mmioEntry feat p))
    (H : Identity L feat R k) : Identity L feat R k' := by
  intro p hp d e hm
  rcases h.new p hp d e hm with hold | ⟨-, rfl, rfl⟩
  · exact H p hp d e hold
  · exact ⟨rfl, hR p⟩

/-- Changes below other root entries. -/
theorem Grown.of_untouched (h : (kernelSpace L feat).Untouched Q k k') (hQ : ¬Q 257) :
    Grown L feat P k k' := by
  refine .of_maps (fun p hp d e => h.maps _ (fun hq => hQ ?_) d e)
  rw [index_mmio (Nat.le_add_right _ _) (Nat.add_lt_add_left hp _)] at hq
  exact hq

/-- Nothing is mapped in the window at first. -/
theorem identity_of_ready (h : Ready L feat k) : Identity L feat R k := by
  intro p hp d e hm
  have h4 := index_mmio (Nat.le_add_right mmioMapBase p) (Nat.add_lt_add_left hp _)
  exact absurd hm (h.not_maps (by omega) (by omega))

/-- A call grows the window, if it does anything to it. -/
theorem exec_grown (H : Inv L feat k₀ s) (hflat : Flat L feat s.kernel) (c : Call) :
    ((exec L feat c).run s).Sat (fun _ s' => Grown L feat (fun _ => True) s.kernel s'.kernel)
      (fun _ s' => Grown L feat (fun _ => True) s.kernel s'.kernel) := by
  have hother : c.roots = (· = 384) →
      ((exec L feat c).run s).Sat (fun _ s' => Grown L feat (fun _ => True) s.kernel s'.kernel)
        (fun _ s' => Grown L feat (fun _ => True) s.kernel s'.kernel) := by
    intro hc
    have hafter := exec_after H c
    rw [hc] at hafter
    exact hafter.mono (fun _ s' h => .of_untouched h.elsewhere (by decide))
      (fun _ s' h => .of_untouched h.elsewhere (by decide))
  cases c with
  | alloc bytes p => exact hother rfl
  | free ptr bytes => exact hother rfl
  | protect ptr bytes p => exact hother rfl
  | mapMmio pa bytes =>
    rw [exec, sat_bind]
    refine (mapMmio_grown H.window.shape hflat pa bytes).mono (fun v s' h => ?_) (fun er s' h => ?_)
    · exact h.2.2.1.mono (fun _ _ _ => trivial)
    · rcases h with ⟨-, -, rfl⟩ | ⟨-, hgrown, -⟩
      · exact .refl _
      · exact hgrown.mono (fun _ _ _ => trivial)

theorem Reachable.identity (hR : ∀ p, R (mmioEntry feat p) (mmioEntry feat p))
    (h : Reachable L feat ⟨k₀, .empty⟩ s) (h₀ : Ready L feat k₀) : Identity L feat R s.kernel := by
  induction h with
  | start => exact identity_of_ready h₀
  | call c hreach hrun ih =>
    exact ((exec_grown (hreach.inv h₀) ih.flat c).of_state? hrun).identity hR ih

end Identity

/-- What the window translates, when its leaves are the ones for their pages. -/
theorem translation_mmio (H : (kernelSpace L feat).Shape (kernelSpec L.image) k)
    (hp : p < mmioMapSize)
    (hm : (kernelSpace L feat).Maps k (mmioMapBase + p) 3 (mmioEntry feat p)) :
    (kernelSpace L feat).translation k (mmioMapBase + p) = some (p, readBack feat .mmio) := by
  rw [RadixTree.translation_of_maps H (valid_mmio hp) hm, mmioEntry, address_leafEntry,
    prot_leafEntry]
  have hphys : p / 4096 * 4096 % 2 ^ 52 / 4096 * 4096 + (mmioMapBase + p) % span 3 = p := by
    unfold mmioMapSize at hp
    unfold mmioMapBase span
    omega
  rw [hphys]

/-! ## Lists of requests -/

/-- Making requests one after the other, whatever becomes of each. -/
def mapMmioAll (L : Layout) (feat : Features) :
    List (ℕ × ℕ) → Comp Fault MmError Vmm (List (Except MmError ℕ))
  | [] => pure []
  | request :: rest => do
    let result ← attempt (mapMmio L feat request.1 request.2)
    let results ← mapMmioAll L feat rest
    pure (result :: results)

/-- How a request is answered, when the window is that of `k` in the end. -/
def Answered (L : Layout) (feat : Features) (k : Kernel) (request : ℕ × ℕ) :
    Except MmError ℕ → Prop
  | .ok v => Admitted request.1 request.2 ∧ v = mmioMapBase + request.1 ∧
      ∀ p ∈ pagesOf request.1 request.2,
        (kernelSpace L feat).Maps k (mmioMapBase + p) 3 (mmioEntry feat p)
  | .error er => er = .outOfMemory ∨ (er = .invalidAddress ∧ ¬Admitted request.1 request.2)

theorem Answered.grown {request : ℕ × ℕ} {result : Except MmError ℕ}
    (h : Answered L feat k request result) (hgrown : Grown L feat P k k') :
    Answered L feat k' request result := by
  cases result with
  | error er => exact h
  | ok v =>
    obtain ⟨hadm, hv, hleaves⟩ := h
    exact ⟨hadm, hv, fun p hp => hgrown.kept p (lt_of_mem_pagesOf hadm hp) 3 _ (hleaves p hp)⟩

/-- The device addresses in the pages that some request touches. -/
def pagesOfAll (requests : List (ℕ × ℕ)) : Set ℕ := {p | ∃ r ∈ requests, p ∈ pagesOf r.1 r.2}

/-- What the requests leave behind. -/
structure Served (L : Layout) (feat : Features) (k₀ : Kernel) (requests : List (ℕ × ℕ))
    (results : List (Except MmError ℕ)) (s s' : Vmm) : Prop where
  inv : Inv L feat k₀ s'
  identity : Identity L feat (· = ·) s'.kernel
  elsewhere : (kernelSpace L feat).Untouched (· = 257) s.kernel s'.kernel
  grown : Grown L feat (· ∈ pagesOfAll requests) s.kernel s'.kernel
  answers : List.Forall₂ (Answered L feat s'.kernel) requests results

/-- One request, then the rest. -/
theorem Served.cons {request : ℕ × ℕ} {rest : List (ℕ × ℕ)} {result : Except MmError ℕ}
    {results : List (Except MmError ℕ)} {s₁ : Vmm}
    (hfirst : (kernelSpace L feat).Untouched (· = 257) s.kernel s₁.kernel)
    (hgrown : Grown L feat (· ∈ pagesOf request.1 request.2) s.kernel s₁.kernel)
    (hanswer : Answered L feat s₁.kernel request result)
    (h : Served L feat k₀ rest results s₁ s') :
    Served L feat k₀ (request :: rest) (result :: results) s s' := by
  refine ⟨h.inv, h.identity, hfirst.trans h.elsewhere, (hgrown.mono ?_).trans (h.grown.mono ?_),
    .cons (hanswer.grown h.grown) h.answers⟩
  · intro p _ hp
    exact ⟨request, List.mem_cons_self, hp⟩
  · rintro p _ ⟨r, hr, hp⟩
    exact ⟨r, List.mem_cons_of_mem _ hr, hp⟩

/-- **Any list of requests** is served to its end. -/
theorem mapMmioAll_sat (requests : List (ℕ × ℕ)) : ∀ (s : Vmm), Inv L feat k₀ s →
    Identity L feat (· = ·) s.kernel →
    ((mapMmioAll L feat requests).run s).Sat
      (fun results s' => Served L feat k₀ requests results s s') (fun _ _ => False) := by
  induction requests with
  | nil =>
    intro s H hid
    exact ⟨H, hid, .refl _, .refl _, .nil⟩
  | cons request rest ih =>
    intro s H hid
    -- what one request leaves is enough for the rest
    have hrest : ∀ (result : Except MmError ℕ) (s₁ : Vmm), After L feat k₀ (· = 257) s s₁ →
        Grown L feat (· ∈ pagesOf request.1 request.2) s.kernel s₁.kernel →
        Answered L feat s₁.kernel request result →
        ((do
          let results ← mapMmioAll L feat rest
          pure (result :: results) : Comp Fault MmError Vmm _).run s₁).Sat
          (fun results s' => Served L feat k₀ (request :: rest) results s s')
          (fun _ _ => False) := by
      intro result s₁ hafter hgrown hanswer
      rw [sat_bind]
      refine (ih s₁ hafter.inv (hgrown.identity (fun _ => rfl) hid)).mono (fun results s' h => ?_)
        (fun _ _ h => h)
      exact h.cons hafter.elsewhere hgrown hanswer
    rw [mapMmioAll, sat_bind, sat_attempt]
    refine ((mapMmio_after H request.1 request.2).and (mapMmio_grown H.window.shape hid.flat
      request.1 request.2)).mono (fun v s₁ h => ?_) (fun er s₁ h => ?_)
    · obtain ⟨hafter, hadm, hv, hgrown, hleaves⟩ := h
      exact hrest _ s₁ hafter hgrown ⟨hadm, hv, hleaves⟩
    · obtain ⟨hafter, ⟨hadm, rfl, rfl⟩ | ⟨hadm, hgrown, ⟨rfl, -⟩ | ⟨-, p, hp, e, hm, hne⟩⟩⟩ := h
      · exact hrest _ _ hafter (.refl _) (Or.inr ⟨rfl, hadm⟩)
      · exact hrest _ s₁ hafter hgrown (Or.inl rfl)
      · -- an older leaf of that page would be the same
        exact absurd (hid p (lt_of_mem_pagesOf hadm hp) 3 e hm).2 hne

/-- When all requests succeed, exactly their pages are mapped besides what was. -/
theorem Served.maps_iff {requests : List (ℕ × ℕ)} {results : List (Except MmError ℕ)}
    (h : Served L feat k₀ requests results s s') (hok : ∀ r ∈ results, ∃ v, r = .ok v)
    (hp : p < mmioMapSize) : (kernelSpace L feat).Maps s'.kernel (mmioMapBase + p) d e ↔
      (kernelSpace L feat).Maps s.kernel (mmioMapBase + p) d e ∨
        (p ∈ pagesOfAll requests ∧ d = 3 ∧ e = mmioEntry feat p) := by
  constructor
  · exact h.grown.new p hp d e
  · rintro (hold | ⟨⟨r, hr, hpr⟩, rfl, rfl⟩)
    · exact h.grown.kept p hp d e hold
    · obtain ⟨i, hi, rfl⟩ := List.getElem_of_mem hr
      have hi' : i < results.length := h.answers.length_eq ▸ hi
      have hanswer := List.Forall₂.get h.answers hi hi'
      obtain ⟨v, hv⟩ := hok _ (List.get_mem results ⟨i, hi'⟩)
      rw [hv] at hanswer
      exact hanswer.2.2 p hpr

/-- Addresses below the root entry of the window are in the window. -/
theorem exists_mmio {x : ℕ} (hx : valid x = true) (h4 : index 4 x = 257) :
    ∃ p < mmioMapSize, x = mmioMapBase + p := by
  rw [valid_iff] at hx
  rw [index_eq] at h4
  refine ⟨x - mmioMapBase, ?_, ?_⟩
  · unfold mmioMapSize mmioMapBase
    omega
  · unfold mmioMapBase
    omega

/-- The order of requests that all succeed does not matter. -/
theorem Served.translation_perm {requests requests' : List (ℕ × ℕ)}
    {results results' : List (Except MmError ℕ)} {s'' : Vmm} (hperm : requests.Perm requests')
    (h : Served L feat k₀ requests results s s') (hok : ∀ r ∈ results, ∃ v, r = .ok v)
    (h' : Served L feat k₀ requests' results' s s'') (hok' : ∀ r ∈ results', ∃ v, r = .ok v)
    (x : ℕ) : (kernelSpace L feat).translation s''.kernel x
      = (kernelSpace L feat).translation s'.kernel x := by
  by_cases hx : valid x = true
  swap
  · have hnone : ∀ k, (kernelSpace L feat).translation k x = none := by
      intro k
      rw [Option.eq_none_iff_forall_ne_some]
      intro q hq
      exact hx (RadixTree.valid_of_translation hq)
    rw [hnone, hnone]
  apply RadixTree.translation_congr_maps h.inv.window.shape h'.inv.window.shape hx
  intro d e
  by_cases h4 : index 4 x = 257
  · obtain ⟨p, hp, rfl⟩ := exists_mmio hx h4
    have hpages : p ∈ pagesOfAll requests' ↔ p ∈ pagesOfAll requests :=
      exists_congr (fun r => and_congr_left' hperm.mem_iff.symm)
    rw [h.maps_iff hok hp, h'.maps_iff hok' hp, hpages]
  · rw [h.elsewhere.maps x h4, h'.elsewhere.maps x h4]

/-! ## Arithmetic -/

/-- `map_mmio` with every operation in 64 bits. -/
def mapMmio64 (L : Layout) (feat : Features) (pa bytes : ℕ) : Comp Fault MmError Vmm ℕ := do
  if bytes = 0 ∨ pa ≥ mmioMapSize ∨ bytes > sub64 mmioMapSize pa then fail .invalidAddress
  else
    let first := alignDown pa frameSize
    let last := alignUp (u64 (pa + bytes)) frameSize
    inKernel ((Mmu.kernelSpace L feat).mapRange (u64 (mmioMapBase + first)) first (sub64 last first)
      .size4K .mmio)
    pure (u64 (mmioMapBase + pa))

theorem mapMmio64_eq (pa bytes : ℕ) : mapMmio64 L feat pa bytes = mapMmio L feat pa bytes := by
  have hwrap := mmio_end
  by_cases hpa : pa ≥ mmioMapSize
  · rw [mapMmio64, mapMmio, if_pos (Or.inr (Or.inl hpa)), if_pos (Or.inr (Or.inl hpa))]
  have hsub : sub64 mmioMapSize pa = mmioMapSize - pa := sub64_of_le (by omega) (by omega)
  rw [mapMmio64, mapMmio, hsub]
  by_cases hbad : bytes = 0 ∨ pa ≥ mmioMapSize ∨ bytes > mmioMapSize - pa
  · rw [if_pos hbad, if_pos hbad]
  obtain ⟨hfirst, hlast, hend, hlt⟩ := mmio_range hbad
  have hsum : u64 (pa + bytes) = pa + bytes := u64_of_lt (by omega)
  have hva : u64 (mmioMapBase + alignDown pa frameSize) = mmioMapBase + alignDown pa frameSize :=
    u64_of_lt (by omega)
  have hptr : u64 (mmioMapBase + pa) = mmioMapBase + pa := u64_of_lt (by omega)
  rw [if_neg hbad, if_neg hbad]
  dsimp only
  rw [hsum, hva, hptr, sub64_of_le (by omega) hlt.le]

/-- The sums that `map_mmio` and its range take for a request that the check admits. -/
theorem no_wrap_of_admitted (h : Admitted pa bytes) : pa ≤ mmioMapSize ∧
    pa + bytes + (frameSize - 1) < 2 ^ 64 ∧
    alignDown pa frameSize ≤ alignUp (pa + bytes) frameSize ∧
    mmioMapBase + alignUp (pa + bytes) frameSize < 2 ^ 64 := by
  have hwrap := mmio_end
  obtain ⟨-, -, hend, hlt⟩ := mmio_range (admitted_iff.mp h)
  obtain ⟨hpos, hle⟩ := h
  unfold frameSize at *
  unfold mmioMapSize mmioMapBase at *
  omega

/-! ## The window over many requests -/

/-- **The window of device memory does not depend on the order of requests.**  From every state
that calls reach once the address space has been set up, any list of requests is served to its
end.  No request ends in a conflict, and one that succeeds returns the address of its own device
address; its pages translate to themselves, uncached, in the end.  Every page of the window that
is mapped translates to itself, uncached.  Two orders in which all requests succeed end with the
same translations.  And for 64-bit arguments no operation wraps. -/
theorem mmio_window_order_independent (h₀ : Booted L feat boot k₀)
    (h : Reachable L feat ⟨k₀, .empty⟩ s) (requests : List (ℕ × ℕ)) :
    (∃ results s', (mapMmioAll L feat requests).run s = .ok results s' ∧
      List.Forall₂ (fun request result => result ≠ .error .conflict ∧
        ∀ v, result = .ok v → v = mmioMapBase + request.1 ∧
          ∀ p ∈ pagesOf request.1 request.2,
            (kernelSpace L feat).translation s'.kernel (mmioMapBase + p)
              = some (p, readBack feat .mmio)) requests results ∧
      (∀ p < mmioMapSize, ∀ q,
        (kernelSpace L feat).translation s'.kernel (mmioMapBase + p) = some q →
        q = (p, readBack feat .mmio)) ∧
      ∀ requests' results' s'', requests.Perm requests' →
        (mapMmioAll L feat requests').run s = .ok results' s'' →
        (∀ r ∈ results, ∃ v, r = .ok v) → (∀ r ∈ results', ∃ v, r = .ok v) →
        ∀ x, (kernelSpace L feat).translation s''.kernel x
          = (kernelSpace L feat).translation s'.kernel x) ∧
    ∀ pa < 2 ^ 64, ∀ bytes < 2 ^ 64, mapMmio64 L feat pa bytes = mapMmio L feat pa bytes ∧
      (Admitted pa bytes → pa ≤ mmioMapSize ∧ pa + bytes + (frameSize - 1) < 2 ^ 64 ∧
        alignDown pa frameSize ≤ alignUp (pa + bytes) frameSize ∧
        mmioMapBase + alignUp (pa + bytes) frameSize < 2 ^ 64) := by
  have H := h.inv h₀.ready
  have hid : Identity L feat (· = ·) s.kernel := h.identity (fun _ => rfl) h₀.ready
  refine ⟨?_, fun pa _ bytes _ => ⟨mapMmio64_eq pa bytes, no_wrap_of_admitted⟩⟩
  obtain ⟨results, s', hrun, hserved⟩ := (mapMmioAll_sat requests s H hid).exists_ok
    (fun _ _ h => h)
  have hshape := hserved.inv.window.shape
  refine ⟨results, s', hrun, hserved.answers.imp (fun request result hanswer => ?_),
    fun p hp q hq => ?_, fun requests' results' s'' hperm hrun' hok hok' x => ?_⟩
  · cases result with
    | ok v =>
      obtain ⟨hadm, rfl, hleaves⟩ := hanswer
      refine ⟨by simp, fun v hv => ?_⟩
      obtain rfl := Except.ok.inj hv
      exact ⟨rfl, fun p hp => translation_mmio hshape (lt_of_mem_pagesOf hadm hp) (hleaves p hp)⟩
    | error er =>
      refine ⟨?_, fun v hv => by cases hv⟩
      rintro ⟨⟩
      rcases hanswer with her | ⟨her, -⟩
      · cases her
      · cases her
  · -- a mapped page has the leaf for itself
    by_cases hm : ∃ d e, (kernelSpace L feat).Maps s'.kernel (mmioMapBase + p) d e
    · obtain ⟨d, e, hm⟩ := hm
      obtain ⟨rfl, rfl⟩ := hserved.identity p hp d e hm
      rw [translation_mmio hshape hp hm] at hq
      exact (Option.some.inj hq).symm
    · rw [RadixTree.translation_of_not_maps hshape (valid_mmio hp)
        (fun d e hm' => hm ⟨d, e, hm'⟩)] at hq
      cases hq
  · have hserved' := (mapMmioAll_sat requests' s H hid).of_ok hrun'
    exact hserved.translation_perm hperm hok hserved' hok' x

theorem mmio_window_order_independent_small : ∃ k,
    Booted smallLayout ⟨true, true, false⟩ Pmm.smallBoot k ∧
    ∃ results s', (mapMmioAll smallLayout ⟨true, true, false⟩
        [(0xfee00000, 0x1000), (0xfec00010, 0x20)]).run ⟨k, .empty⟩ = .ok results s' ∧
      ∀ p < mmioMapSize, ∀ q, (kernelSpace smallLayout ⟨true, true, false⟩).translation s'.kernel
        (mmioMapBase + p) = some q → q = (p, .mmio) := by
  obtain ⟨k, hk, -⟩ := exists_booted_small
  obtain ⟨⟨results, s', hrun, -, hself, -⟩, -⟩ := mmio_window_order_independent hk .start
    [(0xfee00000, 0x1000), (0xfec00010, 0x20)]
  exact ⟨k, hk, results, s', hrun, hself⟩

end Vmm

end DoomOs
