/-
# What requests are answered with

Two results about single calls in every state that calls reach.

* `find_gap_lowest_fit`: the search through the gaps of the allocation table finds room when
  there is any in the window, and `alloc` takes the lowest place that has it.
* `protect_exact`: `protect` accepts a request exactly when its pages lie in one allocation,
  for every pointer and every length, and then changes these pages only.
-/
import DoomOs.VmmRuns

namespace DoomOs

open Comp Paging RadixFormat Mmu

/-! ## The lowest fit -/

namespace AllocationTable

open Allocation

variable {t : AllocationTable} {i index bytes b : ℕ}

/-- A range of `bytes` at `b`, with the page behind it, lies in the window and apart from all
allocations and the pages behind them. -/
structure Fits (t : AllocationTable) (bytes b : ℕ) : Prop where
  aligned : b % 4096 = 0
  first_le : vmallocBase ≤ b
  last_le : b + bytes + 4096 ≤ vmallocBase + vmallocSize
  apart : ∀ i < t.count, Disjoint (bytesAt b (bytes + 4096))
    (bytesAt (t.allocations i).base ((t.allocations i).bytes + 4096))

/-- Two ranges that hold something are apart when one ends before the other. -/
theorem disjoint_bytesAt {a n m : ℕ} (hn : 0 < n) (hm : 0 < m) :
    Disjoint (bytesAt b n) (bytesAt a m) ↔ b + n ≤ a ∨ a + m ≤ b := by
  rw [Set.disjoint_left]
  constructor
  · intro h
    by_contra hno
    -- the later of the two starts is in both
    have hmax := h (show max a b ∈ bytesAt b n from ⟨by omega, by omega⟩)
    exact hmax ⟨by omega, by omega⟩
  · rintro h x ⟨h1, h2⟩ ⟨h3, h4⟩
    omega

theorem gapStart_mono (H : t.Inv) (hi : i ≤ index) (hindex : index ≤ t.count) :
    t.gapStart i ≤ t.gapStart index := by
  rcases hi.eq_or_lt with rfl | hlt
  · exact le_rfl
  · have h1 := gapStart_le_gapEnd H (show i ≤ t.count by omega)
    have h2 := gapEnd_of_lt (t := t) (show i < t.count by omega)
    have h3 := before_gapStart H hlt hindex
    omega

/-- The gap that a place lies in is large enough. -/
theorem exists_fits (H : t.Inv) (hbytes : bytes + 4096 < 2 ^ 64) (h : t.Fits bytes b) :
    ∃ j ≤ t.count, t.fits bytes j = true ∧ t.gapStart j ≤ b := by
  have hcase : ∀ i < t.count, b + bytes + 4096 ≤ (t.allocations i).base ∨
      (t.allocations i).base + (t.allocations i).bytes + 4096 ≤ b := by
    intro i hi
    have hroom : 0 < bytes + 4096 := by omega
    have hroom' : 0 < (t.allocations i).bytes + 4096 := by omega
    rcases (disjoint_bytesAt hroom hroom').mp (h.apart i hi) with hd | hd
    · exact Or.inl (by rw [Nat.add_assoc]; exact hd)
    · exact Or.inr (by rw [Nat.add_assoc]; exact hd)
  -- the first allocation that does not end before `b`
  have hex : ∃ j, j = t.count ∨
      ¬(t.allocations j).base + (t.allocations j).bytes + 4096 ≤ b := ⟨t.count, Or.inl rfl⟩
  have hspec := Nat.find_spec hex
  have hmin : ∀ i < Nat.find hex,
      (t.allocations i).base + (t.allocations i).bytes + 4096 ≤ b := by
    intro i hi
    have hno := Nat.find_min hex hi
    rw [not_or, not_not] at hno
    exact hno.2
  have hle : Nat.find hex ≤ t.count := Nat.find_min' hex (Or.inl rfl)
  generalize Nat.find hex = j at hspec hmin hle
  have hstart : t.gapStart j ≤ b := by
    cases j with
    | zero =>
      rw [gapStart_zero]
      exact h.first_le
    | succ j =>
      rw [gapStart_succ H (by omega)]
      exact hmin j (by omega)
  have hend : b + bytes + 4096 ≤ t.gapEnd j := by
    rcases eq_or_ne j t.count with rfl | hne
    · rw [gapEnd_count]
      exact h.last_le
    · rw [gapEnd_of_lt (by omega)]
      exact (hcase j (by omega)).resolve_right (hspec.resolve_left hne)
  refine ⟨j, hle, ?_, hstart⟩
  have hgap := gapEnd_le H hle
  have hlast := vmalloc_end
  rw [fits, decide_eq_true_eq, frameSize, u64_of_lt hbytes, sub64_of_le (by omega) (by omega)]
  omega

/-- A gap that is found starts at the lowest place. -/
theorem findGap_isLeast (H : t.Inv) (hbytes : bytes + 4096 < 2 ^ 64)
    (h : t.findGap bytes = .ok index) : IsLeast {b | t.Fits bytes b} (t.gapStart index) := by
  obtain ⟨-, hindex⟩ := findGap_room H h
  have hfit := findGap_fits H hbytes h
  have hend := gapEnd_le H hindex
  refine ⟨⟨gapStart_aligned H hindex, first_le_gapStart H hindex, hfit.trans hend,
    fun i hi => ?_⟩, fun b hb => ?_⟩
  · have hroom : 0 < bytes + 4096 := by omega
    have hroom' : 0 < (t.allocations i).bytes + 4096 := by omega
    rw [disjoint_bytesAt hroom hroom', ← Nat.add_assoc, ← Nat.add_assoc]
    by_cases hlt : i < index
    · exact Or.inr (before_gapStart H hlt hindex)
    · exact Or.inl (hfit.trans (gapEnd_le_base H (not_lt.mp hlt) hi))
  · -- `find?` stops at the first gap that is large enough
    obtain ⟨j, hj, hfits, hle⟩ := exists_fits H hbytes hb
    have hfirst : index ≤ j := by
      by_contra hlt
      rw [findGap] at h
      split_ifs at h
      cases hfind : (List.range (t.count + 1)).find? (t.fits bytes) with
      | none =>
        rw [hfind] at h
        cases h
      | some k =>
        rw [hfind] at h
        obtain rfl : k = index := Except.ok.inj h
        obtain ⟨-, -, hbefore⟩ := List.find?_range_eq_some.mp hfind
        have hno := hbefore j (by omega)
        rw [hfits] at hno
        cases hno
    exact (gapStart_mono H hfirst hj).trans hle

/-- While the table has room, a gap is found when there is a place. -/
theorem exists_findGap_iff (H : t.Inv) (hbytes : bytes + 4096 < 2 ^ 64)
    (hcount : t.count < maxAllocations) :
    (∃ index, t.findGap bytes = .ok index) ↔ ∃ b, t.Fits bytes b := by
  constructor
  · rintro ⟨index, h⟩
    exact ⟨_, (findGap_isLeast H hbytes h).1⟩
  · rintro ⟨b, hb⟩
    obtain ⟨j, hj, hfits, -⟩ := exists_fits H hbytes hb
    have hsome : ((List.range (t.count + 1)).find? (t.fits bytes)).isSome := by
      rw [List.find?_isSome]
      exact ⟨j, List.mem_range.mpr (by omega), hfits⟩
    obtain ⟨index, hindex⟩ := Option.isSome_iff_exists.mp hsome
    refine ⟨index, ?_⟩
    rw [findGap, if_neg (by omega), hindex]

end AllocationTable

namespace Vmm

variable {L : Layout} {feat : Features} {boot : BootInfo} {k₀ : Kernel} {s s' : Vmm}

/-- What a successful `alloc` has done to the table. -/
theorem alloc_ok {bytes base : ℕ} {p : PageProt}
    (h : (alloc L feat bytes p).run s = .ok base s') :
    ∃ index, s.table.findGap (alignUp bytes frameSize) = .ok index ∧
      base = s.table.gapStart index := by
  rw [alloc] at h
  by_cases hbad : bytes = 0 ∨ bytes > vmallocSize
  · rw [if_pos hbad] at h
    cases h
  rw [if_neg hbad] at h
  dsimp only at h
  rw [run_gets_bind] at h
  cases hfind : s.table.findGap (alignUp bytes frameSize) with
  | error er =>
    rw [hfind] at h
    cases h
  | ok index =>
    rw [hfind] at h
    dsimp only at h
    rw [run_gets_bind] at h
    obtain ⟨_, s₁, -, h⟩ := run_bind_eq_ok h
    obtain ⟨_, s₂, -, h⟩ := run_bind_eq_ok h
    rw [run_pure] at h
    cases h
    exact ⟨index, rfl, rfl⟩

/-- **`find_gap` is complete and `alloc` takes the lowest place.**  In every state that calls
reach from an empty table, as long as the table has room: a gap is found exactly when the
window has a place for the range and the page behind it, and `alloc` uses the lowest. -/
theorem find_gap_lowest_fit {s₀ : Vmm} (h₀ : s₀.table.count = 0) (h : Reachable L feat s₀ s)
    (hcount : s.table.count < 1024) {bytes : ℕ} (hpos : 0 < bytes) (hle : bytes ≤ vmallocSize) :
    ((∃ index, s.table.findGap (alignUp bytes frameSize) = .ok index) ↔
      ∃ b, s.table.Fits (alignUp bytes frameSize) b) ∧
    (∀ index, s.table.findGap (alignUp bytes frameSize) = .ok index →
      IsLeast {b | s.table.Fits (alignUp bytes frameSize) b} (s.table.gapStart index)) ∧
    ∀ p base s', (alloc L feat bytes p).run s = .ok base s' →
      IsLeast {b | s.table.Fits (alignUp bytes frameSize) b} base := by
  have H := h.table (AllocationTable.inv_of_count_eq_zero h₀)
  obtain ⟨-, -, hlt⟩ := alignUp_bytes (show bytes ≠ 0 by omega) (by omega)
  refine ⟨AllocationTable.exists_findGap_iff H hlt hcount,
    fun index hfind => AllocationTable.findGap_isLeast H hlt hfind, fun p base s' hrun => ?_⟩
  obtain ⟨index, hfind, rfl⟩ := alloc_ok hrun
  exact AllocationTable.findGap_isLeast H hlt hfind

theorem find_gap_lowest_fit_small : ∃ k s₁ s₂,
    (alloc smallLayout ⟨true, true, false⟩ 0x1000 .kernelData).run ⟨k, .empty⟩
      = .ok vmallocBase s₁ ∧
    (alloc smallLayout ⟨true, true, false⟩ 0x2000 .kernelData).run s₁
      = .ok (vmallocBase + 0x2000) s₂ ∧
    IsLeast {b | s₁.table.Fits 0x2000 b} (vmallocBase + 0x2000) := by
  obtain ⟨k, s₁, s₂, -, halloc₁, hcount, halloc₂, -⟩ := exists_allocs_small
  have hreach : Reachable smallLayout ⟨true, true, false⟩ ⟨k, .empty⟩ s₁ := .alloc .start halloc₁
  have hroom : s₁.table.count < 1024 := by omega
  exact ⟨k, s₁, s₂, halloc₁, halloc₂,
    (find_gap_lowest_fit rfl hreach hroom (by decide) (by decide)).2.2 _ _ _ halloc₂⟩

/-! ## Protecting -/

/-- The end that `protect` computes is the end of the pages it is asked about, or the request
is refused. -/
theorem protect_last {ptr bytes : ℕ} (hptr : ptr < 2 ^ 64) (hbytes : bytes < 2 ^ 64)
    (hal : ptr % 4096 = 0) :
    (ptr + bytes + 4095 < 2 ^ 64 ∧
      alignUp (u64 (ptr + bytes)) frameSize = ptr + (bytes + 4095) / 4096 * 4096) ∨
    (2 ^ 64 ≤ ptr + bytes + 4095 ∧ alignUp (u64 (ptr + bytes)) frameSize ≤ ptr) := by
  rw [frameSize, alignUp, alignDown_4096]
  unfold u64
  omega

/-- When `protect` is refused, nothing has happened; otherwise the pages have been found. -/
theorem protect_cases (H : Inv L feat k₀ s) {ptr bytes : ℕ} (hptr : ptr < 2 ^ 64)
    (hbytes : bytes < 2 ^ 64) (p : PageProt) :
    ((∃ er, (protect L feat ptr bytes p).run s = .err er s) ∧
      ¬(0 < bytes ∧ ptr % 4096 = 0 ∧ ∃ i < s.table.count, (s.table.allocations i).base ≤ ptr ∧
        ptr + (bytes + 4095) / 4096 * 4096
          ≤ (s.table.allocations i).base + (s.table.allocations i).bytes)) ∨
    (0 < bytes ∧ ptr % 4096 = 0 ∧ ∃ i < s.table.count, (s.table.allocations i).base ≤ ptr ∧
        ptr + (bytes + 4095) / 4096 * 4096
          ≤ (s.table.allocations i).base + (s.table.allocations i).bytes ∧
        (protect L feat ptr bytes p).run s = (inKernel ((kernelSpace L feat).protectRange ptr
          ((bytes + 4095) / 4096 * 4096) .size4K p)).run s) := by
  have hend := AllocationTable.vmalloc_end
  by_cases hbad : bytes = 0 ∨ ptr &&& (frameSize - 1) ≠ 0 ∨
      alignUp (u64 (ptr + bytes)) frameSize ≤ ptr
  · refine Or.inl ⟨⟨.invalidAddress, ?_⟩, ?_⟩
    · rw [protect, if_pos hbad]
      rfl
    · rintro ⟨hpos, hal, i, hi, hfirst, hlast⟩
      have hwlast := (H.table.inWindow i hi).last_le
      have hmask : ptr &&& (frameSize - 1) = 0 :=
        (Nat.and_two_pow_sub_one_eq_mod ptr 12).trans hal
      rcases protect_last hptr hbytes hal with ⟨-, heq⟩ | ⟨hwrap, -⟩
      · rw [heq, hmask] at hbad
        omega
      · omega
  obtain ⟨h0, hmask, hlt⟩ := not_or.mp hbad |>.imp_right not_or.mp
  have hal : ptr % 4096 = 0 := by
    rw [← Nat.and_two_pow_sub_one_eq_mod ptr 12]
    exact not_not.mp hmask
  rcases protect_last hptr hbytes hal with ⟨-, heq⟩ | ⟨-, hle⟩
  swap
  · exact absurd hle hlt
  cases hfind : s.table.covering ptr (ptr + (bytes + 4095) / 4096 * 4096) with
  | none =>
    refine Or.inl ⟨⟨.invalidAddress, ?_⟩, ?_⟩
    · rw [protect, if_neg hbad, run_gets_bind, heq, hfind]
      rfl
    · rintro ⟨-, -, i, hi, hfirst, hlast⟩
      obtain ⟨j, hj⟩ := AllocationTable.exists_covering H.table hi hfirst hlast
      rw [hfind] at hj
      cases hj
  | some index =>
    have hrun : (protect L feat ptr bytes p).run s
        = (inKernel ((kernelSpace L feat).protectRange ptr
          ((bytes + 4095) / 4096 * 4096) .size4K p)).run s := by
      rw [protect, if_neg hbad, run_gets_bind, heq, hfind]
      dsimp only
      rw [Nat.add_sub_cancel_left]
    obtain ⟨hindex, hfirst, hlast⟩ := AllocationTable.covering_some H.table hfind
    exact Or.inr ⟨by omega, hal, index, hindex, hfirst, hlast, hrun⟩

/-- **`protect` changes the pages of one allocation or nothing.**  In every state that calls
reach once the address space has been set up, and for every pointer and length of 64 bits:
`protect` succeeds exactly when there is something to protect, the pointer is aligned and the
pages lie in one allocation; it then changes the protection of these pages and nothing else,
and otherwise it changes nothing. -/
theorem protect_exact (h₀ : Booted L feat boot k₀) (h : Reachable L feat ⟨k₀, .empty⟩ s)
    {ptr bytes : ℕ} (hptr : ptr < 2 ^ 64) (hbytes : bytes < 2 ^ 64) (p : PageProt) :
    ((∃ s', (protect L feat ptr bytes p).run s = .ok () s') ↔
      0 < bytes ∧ ptr % 4096 = 0 ∧ ∃ i < s.table.count, (s.table.allocations i).base ≤ ptr ∧
        ptr + (bytes + 4095) / 4096 * 4096
          ≤ (s.table.allocations i).base + (s.table.allocations i).bytes) ∧
    (∀ s', (protect L feat ptr bytes p).run s = .ok () s' → ∀ x,
      if ptr ≤ x ∧ x < ptr + (bytes + 4095) / 4096 * 4096 then
        ∃ phys p₀, (kernelSpace L feat).translation s.kernel x = some (phys, p₀) ∧
          (kernelSpace L feat).translation s'.kernel x = some (phys, readBack feat p)
      else (kernelSpace L feat).translation s'.kernel x
        = (kernelSpace L feat).translation s.kernel x) ∧
    ∀ er s', (protect L feat ptr bytes p).run s = .err er s' → ∀ x,
      (kernelSpace L feat).translation s'.kernel x
        = (kernelSpace L feat).translation s.kernel x := by
  have H := h.inv h₀.ready
  rcases protect_cases H hptr hbytes p with
    ⟨⟨er, herr⟩, hno⟩ | ⟨hpos, hal, i, hi, hfirst, hlast, hrun⟩
  · rw [herr]
    refine ⟨⟨fun ⟨s', hs'⟩ => (by cases hs'), fun hyes => absurd hyes hno⟩,
      fun s' hs' => (by cases hs'), fun er' s' hs' x => ?_⟩
    cases hs'
    rfl
  · have hw := H.table.inWindow i hi
    have hwlast := hw.last_le
    have hend := AllocationTable.vmalloc_end
    have hafter := protectRange_after H p hi hfirst hlast hal (by omega) (by omega)
    rw [Nat.add_sub_cancel_left, ← hrun] at hafter
    obtain ⟨_, s₁, hok, -⟩ := hafter.exists_ok (fun _ _ h => h)
    refine ⟨⟨fun _ => ⟨hpos, hal, i, hi, hfirst, hlast⟩, fun _ => ⟨s₁, hok⟩⟩, fun s' hs' x => ?_,
      fun er s' hs' => ?_⟩
    · obtain ⟨-, -, -, hprotects⟩ := hafter.of_ok hs'
      by_cases hx : valid x = true
      · exact hprotects x hx
      · -- the pages are canonical
        have hout : ¬(ptr ≤ x ∧ x < ptr + (bytes + 4095) / 4096 * 4096) := by
          intro hin
          have hwfirst := hw.first_le
          exact hx (valid_window ⟨by omega, by omega⟩)
        rw [if_neg hout, RadixTree.translation_of_not_valid hx,
          RadixTree.translation_of_not_valid hx]
    · rw [hok] at hs'
      cases hs'

theorem protect_exact_small : ∃ k s₁ s₂,
    Booted smallLayout ⟨true, true, false⟩ Pmm.smallBoot k ∧
    (alloc smallLayout ⟨true, true, false⟩ 0x1000 .kernelData).run ⟨k, .empty⟩
      = .ok vmallocBase s₁ ∧
    (protect smallLayout ⟨true, true, false⟩ vmallocBase 1 .kernelRodata).run s₁ = .ok () s₂ ∧
    (∃ phys, (kernelSpace smallLayout ⟨true, true, false⟩).translation s₂.kernel
      (vmallocBase + 0xfff) = some (phys, .kernelRodata)) ∧
    ¬∃ s', (protect smallLayout ⟨true, true, false⟩ vmallocBase 0x1001 .kernelRodata).run s₁
      = .ok () s' := by
  obtain ⟨k, s₁, hk, halloc, hcount, hentry, -⟩ := exists_alloc_small
  have hreach : Reachable smallLayout ⟨true, true, false⟩ ⟨k, .empty⟩ s₁ := .alloc .start halloc
  obtain ⟨hok, heffect, -⟩ := protect_exact hk hreach (show vmallocBase < 2 ^ 64 by decide)
    (show 1 < 2 ^ 64 by decide) .kernelRodata
  obtain ⟨s₂, hrun⟩ := hok.mpr ⟨by decide, by decide, 0, by omega, by rw [hentry],
    by rw [hentry]⟩
  refine ⟨k, s₁, s₂, hk, halloc, hrun, ?_, fun hyes => ?_⟩
  · have hpage := heffect s₂ hrun (vmallocBase + 0xfff)
    rw [if_pos (by decide)] at hpage
    obtain ⟨phys, -, -, hnow⟩ := hpage
    exact ⟨phys, hnow⟩
  · -- the second page is not part of the allocation
    obtain ⟨-, -, i, hi, -, hlast⟩ := (protect_exact hk hreach (by decide) (by decide)
      .kernelRodata).1.mp hyes
    obtain rfl : i = 0 := by omega
    rw [hentry] at hlast
    exact absurd hlast (by decide)

end Vmm

end DoomOs
