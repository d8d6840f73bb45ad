/-
# Frames that a failed `alloc` does not give back

When the frames run out on the way to a page, the tables that were linked for it stay.
Nothing is below them, so removing the pages before does not take them off again, and their
frames are lost to the allocator.

This happens exactly when, for one of the pages, at least two frames are left (one for the
page and one for a table) and not all that the page needs (`RunsDry`).  Whenever it does not
happen a failed `alloc` gives every frame back (`failed_alloc_frames_exact`).
-/
import DoomOs.VmmUndo

namespace DoomOs

open Comp Paging RadixFormat Mmu

namespace Vmm

variable {L : Layout} {feat : Features} {boot : BootInfo} {b s₀ s s' : Kernel} {live : Set ℕ}
  {y va base n k t : ℕ} {p : PageProt}

/-! ## A page that is refused -/

namespace PageRefused

variable (h : PageRefused L feat va s s')
include h

theorem kept (ht : (kernelSpace L feat).tableOn s y k = some t) :
    (kernelSpace L feat).tableOn s' y k = some t := by
  rcases h with ⟨rfl, -⟩ | ⟨f, s₁, s₂, htake, -, -, -, hgrow, hgive⟩
  · exact ht
  · rw [tableOn_of_mem hgive.mem]
    apply hgrow.tables
    rw [tableOn_of_mem htake.mem]
    exact ht

/-- With one frame at most, no table has been linked. -/
theorem tableOn_eq (hle : s.avail.ncard ≤ 1) (y k : ℕ) :
    (kernelSpace L feat).tableOn s' y k = (kernelSpace L feat).tableOn s y k := by
  apply Option.ext
  intro t
  refine ⟨fun ht => ?_, fun ht => h.kept ht⟩
  rcases h with ⟨rfl, -⟩ | ⟨f, s₁, s₂, htake, hgrows, -, -, -, hgive⟩
  · exact ht
  · have hempty : s₁.avail = ∅ := by
      have hone := htake.ncard
      exact (Set.ncard_eq_zero s₁.finite_avail).mp (by omega)
    rw [tableOn_of_mem hgive.mem] at ht
    have hold := hgrows.of_empty hempty ht
    rw [tableOn_of_mem htake.mem] at hold
    exact hold

/-- With two frames or more, at least one has. -/
theorem exists_new (hge : 2 ≤ s.avail.ncard) :
    ∃ d < 3, ∃ t ∈ s.avail, (kernelSpace L feat).tableOn s va (d + 1) = none ∧
      (kernelSpace L feat).tableOn s' va (d + 1) = some t := by
  rcases h with ⟨rfl, hempty⟩ | ⟨f, s₁, s₂, htake, hgrows, hempty, -, -, hgive⟩
  · rw [hempty, Set.ncard_empty] at hge
    omega
  have hcount : s₂.avail.ncard + (kernelSpace L feat).missing s₁ va 3
      = s₁.avail.ncard + (kernelSpace L feat).missing s₂ va 3 := hgrows.count
  have hone := htake.ncard
  rw [hempty, Set.ncard_empty] at hcount
  -- fewer tables are missing than before
  have hlost : ¬∀ d ∈ Finset.range 3, (kernelSpace L feat).tableOn s₁ va (d + 1) = none →
      (kernelSpace L feat).tableOn s₂ va (d + 1) = none := by
    intro hall
    have hle : (kernelSpace L feat).missing s₁ va 3 ≤ (kernelSpace L feat).missing s₂ va 3 := by
      refine Finset.card_le_card (fun d hd => ?_)
      obtain ⟨hd3, hnone⟩ := Finset.mem_filter.mp hd
      exact Finset.mem_filter.mpr ⟨hd3, hall d hd3 hnone⟩
    omega
  push Not at hlost
  obtain ⟨d, hd, hnone, hsome⟩ := hlost
  obtain ⟨t, ht⟩ := Option.ne_none_iff_exists'.mp hsome
  have hav : t ∈ s₁.avail := by
    rcases hgrows.fresh va (d + 1) t ht with hold | ⟨-, -, hav⟩
    · rw [hold] at hnone
      cases hnone
    · exact hav
  rw [htake.avail] at hav
  refine ⟨d, Finset.mem_range.mp hd, t, hav.1, ?_, ?_⟩
  · rw [← tableOn_of_mem htake.mem]
    exact hnone
  · rw [tableOn_of_mem hgive.mem]
    exact ht

theorem tidy (hle : s.avail.ncard ≤ 1) (H : Since L feat b s₀ live ∅ s)
    (ht : (kernelSpace L feat).Tidy (· = 384) s) : (kernelSpace L feat).Tidy (· = 384) s' := by
  intro y k t h4 hy
  have hold := hy
  rw [h.tableOn_eq hle] at hold
  obtain ⟨x, j, e, ha, hm⟩ := ht y k t h4 hold
  have hx : index 4 x = 384 := (ha 0 (by omega)).symm.trans h4
  exact ⟨x, j, e, ha, ((h.sameLeaves H).key hx).mpr hm⟩

end PageRefused

/-! ## Unwinding -/

section Unwinding

variable (hal : base % 4096 = 0) (hwin : ∀ i < n, base + i * 4096 ∈ window)
  (H : Since L feat b s₀ live ∅ s) (hnew : ∀ x ∈ bytesAt base (n * 4096), x ∉ live)
include hal hwin H hnew

/-- With one frame left at most, unwinding gives back all that was taken. -/
theorem avail_of_unwound {s₁ s₂ : Kernel} (hk : k < n)
    (hmapped : PagesMapped L feat p base s k s₁)
    (hrefused : PageRefused L feat (base + k * 4096) s₁ s₂)
    (hgone : PagesGone L feat base s₂ k s') (hle : s₁.avail.ncard ≤ 1)
    (hu : (kernelSpace L feat).Untouched (· = 384) s s')
    (ht : (kernelSpace L feat).Tidy (· = 384) s) :
    s'.avail = s.avail ∧ (kernelSpace L feat).Tidy (· = 384) s' := by
  have hunwound : Unwound L feat p base s n s' := ⟨k, s₁, s₂, hk, hmapped, hrefused, hgone⟩
  have hwin' : ∀ i < k, base + i * 4096 ∈ window := fun i hi => hwin i (by omega)
  have hnew' : ∀ x ∈ bytesAt base (k * 4096), x ∉ live := fun x hx =>
    hnew x (bytesAt_mono base hk.le hx)
  have H₁ := H.pagesMapped hal hwin' hnew' hmapped
  have H' := H.unwound hal hwin hnew hunwound
  have hsame := Unwound.sameLeaves hal hwin hunwound H hnew
  have ht' := hgone.tidy (hrefused.tidy hle H₁ (hmapped.tidy ht))
  have htables := tables_eq_of_tidy ht ht' hsame hu
    (fun y j t hy => hrefused.kept (hmapped.added.kept y j t hy)) hgone.takenOff.sub
  exact ⟨avail_eq_of_same H.here H'.here hsame htables, ht'⟩

/-- With more, a table stays. -/
theorem leak_of_unwound {s₁ s₂ : Kernel} (hk : k < n)
    (hmapped : PagesMapped L feat p base s k s₁)
    (hrefused : PageRefused L feat (base + k * 4096) s₁ s₂)
    (hgone : PagesGone L feat base s₂ k s') (hge : 2 ≤ s₁.avail.ncard) : s'.avail ≠ s.avail := by
  have H' := H.unwound hal hwin hnew ⟨k, s₁, s₂, hk, hmapped, hrefused, hgone⟩
  obtain ⟨d, hd, t, hav, hnone, ht⟩ := hrefused.exists_new hge
  have hadded := hmapped.added
  have hway := ((hadded.tableOn_eq_none (show d + 1 ≤ 3 by omega)).mp hnone).2
  -- the pages that are removed do not meet the new table
  have hstays : (kernelSpace L feat).tableOn s' (base + k * 4096) (d + 1) = some t := by
    rcases hgone.takenOff.lost _ _ t ht with hstays | ⟨i, hi, ha⟩
    · exact hstays
    · exact absurd ha (hway i hi)
  intro heq
  have hfree := hadded.avail t hav
  rw [← heq] at hfree
  exact H'.here.shape.not_avail _ _ t hstays hfree

end Unwinding

/-! ## Running dry -/

section Calls

variable {k₀ : Kernel} {v v' : Vmm} {bytes : ℕ}

/-- The frames run out on the way to some page of the request: once the pages before it and
their tables have been served, there are frames for the page and for a table, but not for all
the tables it needs. -/
def RunsDry (L : Layout) (feat : Features) (v : Vmm) (bytes : ℕ) : Prop :=
  ¬(bytes = 0 ∨ bytes > vmallocSize) ∧
  ∃ index, v.table.findGap (alignUp bytes frameSize) = .ok index ∧
    ∃ k < alignUp bytes frameSize / 4096,
      k + missingTables L feat v.kernel (v.table.gapStart index) k + 2 ≤ v.kernel.avail.ncard ∧
      v.kernel.avail.ncard ≤ k + missingTables L feat v.kernel (v.table.gapStart index) (k + 1)

theorem Placed.runsDry_iff {index : ℕ} (h : Placed v.table bytes index n) :
    RunsDry L feat v bytes ↔ ∃ k < n,
      k + missingTables L feat v.kernel (v.table.gapStart index) k + 2 ≤ v.kernel.avail.ncard ∧
      v.kernel.avail.ncard
        ≤ k + missingTables L feat v.kernel (v.table.gapStart index) (k + 1) := by
  have hpages : alignUp bytes frameSize / 4096 = n := by
    rw [h.size]
    exact Nat.mul_div_cancel n (by norm_num)
  rw [RunsDry, hpages]
  constructor
  · rintro ⟨-, index', hfind, hdry⟩
    rw [h.found] at hfind
    cases hfind
    exact hdry
  · intro hdry
    exact ⟨h.accepted, index, h.found, hdry⟩

/-- Behind the first page of a GiB only the table of the last level can be missing. -/
theorem missingTables_succ_le {s : Kernel} (hbase : base % 0x40000000 = 0) (hpos : 0 < k)
    (hk : k < 0x40000) :
    missingTables L feat s base (k + 1) ≤ missingTables L feat s base k + 1 := by
  rw [missingTables, Finset.sum_range_succ]
  refine Nat.add_le_add_left ((Finset.card_le_card (t := {2}) (fun d hd => ?_)).trans
    (Finset.card_singleton 2).le) _
  obtain ⟨hd3, -, hno⟩ := Finset.mem_filter.mp hd
  rw [Finset.mem_singleton]
  by_contra hne
  have hd3 := Finset.mem_range.mp hd3
  -- the first page is on the same two tables
  have hway : format.Agree (1 + 1) (base + 0 * 4096) (base + k * 4096) := by
    rw [agree_iff (by norm_num)]
    simp only [span]
    omega
  exact hno 0 hpos (hway.mono (by omega))

/-- In a GiB of its own a request does not run dry, with four frames or more, and not too
many. -/
theorem Placed.not_runsDry {index : ℕ} (h : Placed v.table bytes index n)
    (hal : v.table.gapStart index % 0x40000000 = 0) (hge : 4 ≤ v.kernel.avail.ncard)
    (hle : v.kernel.avail.ncard ≤ 0x40000) : ¬RunsDry L feat v bytes := by
  rw [h.runsDry_iff]
  rintro ⟨k, -, hlow, hhigh⟩
  rcases Nat.eq_zero_or_pos k with rfl | hpos
  · have htables := missingTables_le L feat v.kernel (v.table.gapStart index) (0 + 1)
    omega
  · have hstep : missingTables L feat v.kernel (v.table.gapStart index) (k + 1)
        ≤ missingTables L feat v.kernel (v.table.gapStart index) k + 1 :=
      missingTables_succ_le hal hpos (by omega)
    omega

/-- Where the page that is refused stands in the count. -/
theorem two_le_iff_runsDry {index : ℕ} {s₁ s₂ : Kernel} (hplaced : Placed v.table bytes index n)
    (hk : k < n) (hmapped : PagesMapped L feat p (v.table.gapStart index) v.kernel k s₁)
    (hrefused : PageRefused L feat (v.table.gapStart index + k * 4096) s₁ s₂) :
    2 ≤ s₁.avail.ncard ↔ RunsDry L feat v bytes := by
  rw [hplaced.runsDry_iff]
  have hadded := hmapped.added
  have hcount := hadded.count
  have hsucc := hadded.missingTables_succ
  have hle := hrefused.ncard_le
  constructor
  · intro hge
    exact ⟨k, hk, by omega, by omega⟩
  · rintro ⟨j, -, hlow, hhigh⟩
    -- a page before was mapped, and a page behind would need more
    rcases lt_trichotomy j k with hlt | rfl | hgt
    · have hmono := missingTables_mono L feat v.kernel (v.table.gapStart index)
        (show j + 1 ≤ k by omega)
      omega
    · omega
    · have hmono := missingTables_mono L feat v.kernel (v.table.gapStart index)
        (show k + 1 ≤ j by omega)
      omega

/-- A request that runs dry fails. -/
theorem alloc_dry (H : Inv L feat k₀ v) (hdry : RunsDry L feat v bytes) (p : PageProt) :
    ∃ er v', (alloc L feat bytes p).run v = .err er v' ∧ v'.kernel.avail ≠ v.kernel.avail := by
  have hfails := (alloc_cases H bytes p).exists_err (fun base v' h => by
    obtain ⟨index, n, hplaced, rfl, -, hmapped⟩ := h
    obtain ⟨k, hk, -, hhigh⟩ := hplaced.runsDry_iff.mp hdry
    have hcount := hmapped.added.count
    have hmono := missingTables_mono L feat v.kernel (v.table.gapStart index)
      (show k + 1 ≤ n by omega)
    omega)
  obtain ⟨er, v', hrun, ⟨-, hno⟩ |
      ⟨index, n, hplaced, -, k, s₁, s₂, hk, hmapped, hrefused, hgone⟩⟩ := hfails
  · obtain ⟨hok, index, hfind, -⟩ := hdry
    obtain ⟨n, hplaced⟩ := placed_of_findGap H.table hok hfind
    exact absurd hplaced (hno index n)
  · refine ⟨er, v', hrun, ?_⟩
    exact leak_of_unwound hplaced.aligned (page_mem_window hplaced.base_mem hplaced.last_mem)
      H.window.since hplaced.new hk hmapped hrefused hgone
      ((two_le_iff_runsDry hplaced hk hmapped hrefused).mpr hdry)

/-- A request that fails without running dry gives all frames back. -/
theorem alloc_not_dry (H : Inv L feat k₀ v) (ht : (kernelSpace L feat).Tidy (· = 384) v.kernel)
    (hdry : ¬RunsDry L feat v bytes) {er : MmError}
    (hrun : (alloc L feat bytes p).run v = .err er v') :
    v'.kernel.avail = v.kernel.avail ∧ (kernelSpace L feat).Tidy (· = 384) v'.kernel := by
  have hafter := (alloc_after H bytes p).of_err hrun
  rcases (alloc_cases H bytes p).of_err hrun with
    ⟨rfl, -⟩ | ⟨index, n, hplaced, -, k, s₁, s₂, hk, hmapped, hrefused, hgone⟩
  · exact ⟨rfl, ht⟩
  · have hle : s₁.avail.ncard ≤ 1 := by
      by_contra hgt
      exact hdry ((two_le_iff_runsDry hplaced hk hmapped hrefused).mp (by omega))
    exact avail_of_unwound hplaced.aligned (page_mem_window hplaced.base_mem hplaced.last_mem)
      H.window.since hplaced.new hk hmapped hrefused hgone hle hafter.elsewhere ht

/-! ## Runs in which no request runs dry -/

/-- The states that calls, successful or not, reach from `s₀` while no `alloc` runs dry. -/
inductive NeverDry (L : Layout) (feat : Features) (s₀ : Vmm) : Vmm → Prop
  | start : NeverDry L feat s₀ s₀
  | call {s s' : Vmm} (c : Call) : NeverDry L feat s₀ s →
      (∀ bytes p, c = .alloc bytes p → ¬RunsDry L feat s bytes) →
      ((exec L feat c).run s).state? = some s' → NeverDry L feat s₀ s'

theorem NeverDry.reachable {s₀ : Vmm} (h : NeverDry L feat s₀ v) : Reachable L feat s₀ v := by
  induction h with
  | start => exact .start
  | call c _ _ hrun ih => exact .call c ih hrun

theorem NeverDry.tidy (h : NeverDry L feat ⟨k₀, .empty⟩ v) (h₀ : Ready L feat k₀) :
    (kernelSpace L feat).Tidy (· = 384) v.kernel := by
  induction h with
  | start => exact tidy_of_ready h₀
  | @call s s' c hs hdry hrun ih =>
    have H := hs.reachable.inv h₀
    by_cases hc : ∀ bytes p, c ≠ .alloc bytes p
    · exact ((exec_tidy H ih c).mono (fun _ _ h => h) (fun _ _ h => h hc)).of_state? hrun
    push Not at hc
    obtain ⟨bytes, p, rfl⟩ := hc
    rw [exec, state?_bind_pure] at hrun
    cases halloc : (alloc L feat bytes p).run s with
    | ok base s₁ =>
      rw [halloc] at hrun
      obtain rfl : s₁ = s' := Option.some.inj hrun
      obtain ⟨index, n, -, -, -, hmapped⟩ := (alloc_cases H bytes p).of_ok halloc
      exact hmapped.tidy ih
    | err er s₁ =>
      rw [halloc] at hrun
      obtain rfl : s₁ = s' := Option.some.inj hrun
      exact (alloc_not_dry H ih (hdry bytes p rfl) halloc).2
    | halt f =>
      rw [halloc] at hrun
      cases hrun

/-- **Exactly when a failed `alloc` gives every frame back.**  In every run in which no `alloc`
before ran dry, the free frames after a failed `alloc` are those before it, for every size and
every protection, if and only if this `alloc` does not run dry either. -/
theorem failed_alloc_frames_exact {s : Vmm} (h₀ : Booted L feat boot k₀)
    (h : NeverDry L feat ⟨k₀, .empty⟩ s) (bytes : ℕ) (p : PageProt) :
    (∀ er s', (alloc L feat bytes p).run s = .err er s' → s'.kernel.avail = s.kernel.avail) ↔
      ¬RunsDry L feat s bytes := by
  have H := h.reachable.inv h₀.ready
  constructor
  · intro hall hdry
    obtain ⟨er, s', hrun, hne⟩ := alloc_dry H hdry p
    exact hne (hall er s' hrun)
  · intro hdry er s' hrun
    exact (alloc_not_dry H (h.tidy h₀.ready) hdry hrun).1

theorem failed_alloc_frames_exact_small : ∃ k er s',
    Booted smallLayout ⟨true, true, false⟩ Pmm.smallBoot k ∧
    ¬RunsDry smallLayout ⟨true, true, false⟩ ⟨k, .empty⟩ 0x800000000 ∧
    (alloc smallLayout ⟨true, true, false⟩ 0x800000000 .kernelData).run ⟨k, .empty⟩ = .err er s' ∧
    s'.kernel.avail = k.avail := by
  obtain ⟨k, hk, hspare, hle⟩ := exists_booted_small
  have H : Inv smallLayout ⟨true, true, false⟩ k ⟨k, .empty⟩ := inv_start hk.ready
  have hroom := le_ncard_of_spare hspare
  have hfind : AllocationTable.empty.findGap (alignUp 0x800000000 frameSize) = .ok 0 := by decide
  obtain ⟨n, hplaced⟩ := placed_of_findGap H.table (by decide) hfind
  have hdry : ¬RunsDry smallLayout ⟨true, true, false⟩ ⟨k, .empty⟩ 0x800000000 :=
    hplaced.not_runsDry (show AllocationTable.empty.gapStart 0 % 0x40000000 = 0 by decide)
      (show 4 ≤ k.avail.ncard by omega) (show k.avail.ncard ≤ 0x40000 by omega)
  obtain ⟨er, s', hrun⟩ := alloc_too_large H .kernelData
  exact ⟨k, er, s', hk, hdry, hrun,
    (failed_alloc_frames_exact hk .start 0x800000000 .kernelData).mpr hdry er s' hrun⟩

/-! ## Using up the frames -/

/-- `map_mmio` of a page that is not mapped takes a frame for each table that is missing. -/
theorem mapMmio_page (H : Inv L feat k₀ v) {pa : ℕ} (hal : pa % 4096 = 0)
    (hlt : pa + 4096 ≤ mmioMapSize) (hroom : 3 ≤ v.kernel.avail.ncard)
    (hno : ∀ j e, ¬(kernelSpace L feat).Maps v.kernel (mmioMapBase + pa) j e) :
    ∃ a v', (mapMmio L feat pa 1).run v = .ok a v' ∧ v'.table = v.table ∧
      ∃ k₁, (kernelSpace L feat).Grows (kernelSpec L.image) (mmioMapBase + pa) 3 v.kernel k₁ ∧
        (kernelSpace L feat).missing k₁ (mmioMapBase + pa) 3 = 0 ∧
        (kernelSpace L feat).Extends (kernelSpec L.image) (mmioMapBase + pa) v.kernel k₁ ∧
        ∃ e, (kernelSpace L feat).Puts (kernelSpec L.image)
          (mmioMapBase + pa) 3 e k₁ v'.kernel := by
  simp only [mmioMapSize] at hlt
  have hok : ¬(1 = 0 ∨ pa ≥ mmioMapSize ∨ 1 > mmioMapSize - pa) := by
    simp only [mmioMapSize]
    omega
  have hva : mmioMapBase + pa < 2 ^ 64 := by
    simp only [mmioMapBase]
    omega
  have hvalid : valid (mmioMapBase + pa) = true := by
    rw [valid_iff]
    simp only [mmioMapBase]
    omega
  have hbase : (mmioMapBase + pa) % 4096 = 0 := by
    simp only [mmioMapBase]
    omega
  obtain ⟨hfirst, hlast, -, -⟩ := mmio_range hok
  have hone : alignUp (pa + 1) frameSize - alignDown pa frameSize = 4096 := by omega
  have hstart : alignDown pa frameSize = pa := by omega
  have hsingle :
      ((kernelSpace L feat).mapRange (mmioMapBase + pa) pa 4096 .size4K .mmio).run v.kernel
      = ((kernelSpace L feat).mapLeaf (mmioMapBase + pa) pa .size4K .mmio).run v.kernel := by
    have hrange := (kernelSpace L feat).mapRange_single (mmioMapBase + pa) pa .size4K .mmio v.kernel
    rw [u64_of_lt hva, u64_of_lt (by omega)] at hrange
    exact hrange
  have hleaf := RadixTree.mapLeaf_grows (kernelSpec_failsWhenEmpty _) (kernelSpec_finiteAvail _)
    H.window.shape (mmioMapBase + pa) pa .size4K .mmio
  rw [← hsingle] at hleaf
  have hnone : ∀ {k₁ : Kernel} {j : ℕ} {e : Entry},
      (kernelSpace L feat).Extends (kernelSpec L.image) (mmioMapBase + pa) v.kernel k₁ →
      ¬(kernelSpace L feat).Maps k₁ (mmioMapBase + pa) j e := fun hx hm => by
    obtain ⟨j', e', hm'⟩ := hx.covered _ _ _ hm
    exact hno j' e' hm'
  obtain ⟨_, k₂, hrun, -, -, -, k₁, ⟨hgrows, hzero⟩, hx, hcase⟩ :=
    hleaf.exists_ok (fun er k₂ herr => by
    rcases herr with ⟨-, hbad⟩ | ⟨⟨-, hgrows, hempty, hpos⟩, -⟩ | ⟨-, -, hx, e, hs, hp, -⟩
    · exact hbad ⟨hvalid, hbase, hal⟩
    · have hcount : k₂.avail.ncard + (kernelSpace L feat).missing v.kernel (mmioMapBase + pa) 3
          = v.kernel.avail.ncard + (kernelSpace L feat).missing k₂ (mmioMapBase + pa) 3 :=
        hgrows.count
      have hle := (kernelSpace L feat).missing_le v.kernel (mmioMapBase + pa) 3
      have hposs : 0 < (kernelSpace L feat).missing k₂ (mmioMapBase + pa) 3 := hpos
      rw [show k₂.avail = ∅ from hempty, Set.ncard_empty] at hcount
      omega
    · exact hnone hx ⟨hs, hp, rfl⟩)
  rcases hcase with ⟨-, hm⟩ | ⟨-, hput⟩
  · exact absurd hm (hnone hx)
  refine ⟨mmioMapBase + pa, ⟨k₂, v.table⟩, ?_, rfl, k₁, hgrows, hzero, hx, _, hput⟩
  rw [mapMmio, if_neg hok]
  dsimp only
  rw [hone, hstart, run_bind, inKernel, run_zoom, hrun]
  rfl

/-- Where block `i` of 2 MiB of the device memory is mapped. -/
def mmioBlock (i : ℕ) : ℕ := mmioMapBase + i * 0x200000

theorem agree_mmioBlock {d i j : ℕ} (hi : i < 2 ^ 18) (hj : j < 2 ^ 18) (hd : 2 ≤ d) (hd3 : d ≤ 3)
    (ha : format.Agree (d + 1) (mmioBlock i) (mmioBlock j)) : i = j := by
  have ha2 := ha.mono (show 2 + 1 ≤ d + 1 by omega)
  rw [agree_iff (by omega)] at ha2
  simp only [mmioBlock, mmioMapBase, span] at ha2
  omega

theorem index_mmioBlock {i : ℕ} (hi : i < 2 ^ 18) : index 4 (mmioBlock i) = 257 := by
  rw [index_eq]
  simp only [mmioBlock, mmioMapBase]
  omega

/-- One page in each of the first `i` blocks of the device memory has been mapped, and nothing
else since `k₀`; two frames are left at least. -/
structure Drained (L : Layout) (feat : Features) (k₀ : Kernel) (i : ℕ) (v : Vmm) : Prop where
  reach : Reachable L feat ⟨k₀, .empty⟩ v
  table : v.table = .empty
  window : ∀ y, index 4 y = 384 → (kernelSpace L feat).tableOn v.kernel y 1 = none
  root : 0 < i → ∀ j < 2 ^ 18, ∃ t, (kernelSpace L feat).tableOn v.kernel (mmioBlock j) 1 = some t
  ahead : ∀ j < 2 ^ 18, i ≤ j → (kernelSpace L feat).tableOn v.kernel (mmioBlock j) 3 = none ∧
    ∀ d e, ¬(kernelSpace L feat).Maps v.kernel (mmioBlock j) d e
  left : 2 ≤ v.kernel.avail.ncard

theorem drained_start (h₀ : Ready L feat k₀) (hleft : 2 ≤ k₀.avail.ncard) :
    Drained L feat k₀ 0 ⟨k₀, .empty⟩ := by
  refine ⟨.start, rfl, fun y hy => h₀.roots y (by omega) (by omega), fun h => absurd h (by omega),
    fun j hj _ => ?_, hleft⟩
  have h4 := index_mmioBlock hj
  refine ⟨tableOn_none_below (h₀.roots (mmioBlock j) (by omega) (by omega)) (by omega),
    fun d e => h₀.not_maps (by omega) (by omega)⟩

/-- The tables that the next block needs. -/
theorem Drained.missing {i : ℕ} (h : Drained L feat k₀ i v) (hi : i < 2 ^ 18) :
    0 < (kernelSpace L feat).missing v.kernel (mmioBlock i) 3 ∧
    (kernelSpace L feat).missing v.kernel (mmioBlock i) 3 ≤ 3 ∧
    (0 < i → (kernelSpace L feat).missing v.kernel (mmioBlock i) 3 ≤ 2) := by
  refine ⟨?_, (kernelSpace L feat).missing_le v.kernel (mmioBlock i) 3, fun hpos => ?_⟩
  · exact RadixTree.missing_pos (show 2 < 3 by omega) (h.ahead i hi le_rfl).1
  · obtain ⟨t, ht⟩ := h.root hpos i hi
    exact RadixTree.missing_le_sub ht

/-- The next block. -/
theorem Drained.step {i : ℕ} (h : Drained L feat k₀ i v) (h₀ : Ready L feat k₀) (hi : i < 2 ^ 18)
    (hroom : 5 ≤ v.kernel.avail.ncard ∨ (0 < i ∧ 4 ≤ v.kernel.avail.ncard)) :
    ∃ v', Drained L feat k₀ (i + 1) v' ∧ v'.kernel.avail.ncard < v.kernel.avail.ncard := by
  have hsize : i * 0x200000 + 4096 ≤ mmioMapSize := by
    simp only [mmioMapSize]
    omega
  obtain ⟨a, v', hrun, htable, k₁, hgrows, hzero, hx, e, hput⟩ :=
    mapMmio_page (h.reach.inv h₀) (by omega) hsize (by omega) (h.ahead i hi le_rfl).2
  have hav : v'.kernel.avail = k₁.avail := hput.avail
  have hcount : k₁.avail.ncard + (kernelSpace L feat).missing v.kernel (mmioBlock i) 3
      = v.kernel.avail.ncard + (kernelSpace L feat).missing k₁ (mmioBlock i) 3 := hgrows.count
  have hzero' : (kernelSpace L feat).missing k₁ (mmioBlock i) 3 = 0 := hzero
  obtain ⟨hpos, hle, hle'⟩ := h.missing hi
  obtain ⟨t₃, ht₃⟩ := RadixTree.exists_of_missing_eq_zero hzero
  obtain ⟨t₁, ht₁⟩ := tableOn_above ht₃ (show 1 ≤ 3 by omega)
  refine ⟨v', ⟨?_, htable.trans h.table, fun y hy => ?_, fun _ j hj => ?_, fun j hj hle => ⟨?_, ?_⟩,
    ?_⟩, ?_⟩
  · refine .call (.mapMmio (i * 0x200000) 1) h.reach ?_
    rw [exec, state?_bind_pure, hrun]
    rfl
  · rw [hput.tables]
    refine hgrows.tableOn_eq_none (fun ha => ?_) (h.window y hy)
    have h4 : index 4 (mmioBlock i) = index 4 y := ha 0 (by omega)
    rw [index_mmioBlock hi] at h4
    omega
  · have ha : format.Agree 1 (mmioBlock i) (mmioBlock j) := by
      intro d hd
      obtain rfl : d = 0 := by omega
      exact (index_mmioBlock hi).trans (index_mmioBlock hj).symm
    refine ⟨t₁, ?_⟩
    rw [hput.tables]
    exact (tableOn_congr ha).symm.trans ht₁
  · rw [hput.tables]
    refine hgrows.tableOn_eq_none (fun ha => ?_) (h.ahead j hj (by omega)).1
    have := agree_mmioBlock hi hj le_rfl (by omega) ha
    omega
  · intro d e' hm
    rw [hput.maps] at hm
    split_ifs at hm with ha
    · have := agree_mmioBlock hi hj (by omega) le_rfl ha
      omega
    · obtain ⟨d', e'', hm'⟩ := hx.covered _ _ _ hm
      exact (h.ahead j hj (by omega)).2 d' e'' hm'
  · rw [hav]
    omega
  · rw [hav]
    omega

/-- Two or three frames can be left. -/
theorem exists_drained (h₀ : Ready L feat k₀) : ∀ (m i : ℕ) (v : Vmm), Drained L feat k₀ i v →
    0 < i → v.kernel.avail.ncard ≤ m → i + m < 2 ^ 18 →
    ∃ i' v', Drained L feat k₀ i' v' ∧ v'.kernel.avail.ncard ≤ 3 := by
  intro m
  induction m with
  | zero =>
    intro i v h _ hm _
    exact ⟨i, v, h, by omega⟩
  | succ m ih =>
    intro i v h hi hm hlt
    by_cases hleft : v.kernel.avail.ncard ≤ 3
    · exact ⟨i, v, h, hleft⟩
    · obtain ⟨v', h', hless⟩ := h.step h₀ (by omega) (Or.inr ⟨hi, by omega⟩)
      exact ih (i + 1) v' h' (by omega) (by omega) (by omega)

/-- With two or three frames and nothing in the window, one page runs dry. -/
theorem Drained.runsDry {i : ℕ} (h : Drained L feat k₀ i v) (hle : v.kernel.avail.ncard ≤ 3) :
    RunsDry L feat v 0x1000 := by
  have hplaced : Placed v.table 0x1000 0 1 := by
    rw [h.table]
    exact placed_empty
  have hmissing : missingTables L feat v.kernel (v.table.gapStart 0) 1 = 3 := by
    have h4 := index_window hplaced.base_mem
    rw [missingTables, Finset.sum_range_one, Finset.filter_true_of_mem (fun d _ => ?_),
      Finset.card_range]
    refine ⟨?_, fun j hj => absurd hj (Nat.not_lt_zero j)⟩
    rw [Nat.zero_mul, Nat.add_zero]
    exact tableOn_none_below (h.window _ h4) (by omega)
  have hleft := h.left
  refine hplaced.runsDry_iff.mpr ⟨0, Nat.one_pos, ?_, ?_⟩
  · rw [missingTables, Finset.sum_range_zero]
    omega
  · rw [Nat.zero_add, Nat.zero_add, hmissing]
    exact hle

/-- After mapping device memory until two or three frames are left, a page cannot be allocated,
and the attempt costs frames. -/
theorem failed_alloc_keeps_frames : ∃ k s er s',
    Booted smallLayout ⟨true, true, false⟩ Pmm.smallBoot k ∧
    Reachable smallLayout ⟨true, true, false⟩ ⟨k, .empty⟩ s ∧
    (alloc smallLayout ⟨true, true, false⟩ 0x1000 .kernelData).run s = .err er s' ∧
    s'.kernel.avail ≠ s.kernel.avail := by
  obtain ⟨k, hk, hspare, hle⟩ := exists_booted_small
  have hroom := le_ncard_of_spare hspare
  obtain ⟨v, hv, hless⟩ := (drained_start hk.ready (by omega)).step hk.ready (by norm_num)
    (Or.inl (show 5 ≤ k.avail.ncard by omega))
  obtain ⟨i, s, hs, hthree⟩ := exists_drained hk.ready 1024 1 v hv Nat.one_pos
    (hless.le.trans hle) (by norm_num)
  obtain ⟨er, s', hrun, hne⟩ := alloc_dry (hs.reach.inv hk.ready) (hs.runsDry hthree) .kernelData
  exact ⟨k, s, er, s', hk, hs.reach, hrun, hne⟩

end Calls

end Vmm

end DoomOs
