/-
# The allocation table

The table of the virtual memory manager keeps its ranges in order and a page apart,
all inside the window (`Inv`).  The gaps that `find_gap` looks at then never wrap
(`gapStart_le_gapEnd`), a gap that it finds holds the range and the page behind it
(`findGap_fits`), and `insert` and `erase` keep the table in this state
(`Inv.insert`, `Inv.erase`).
-/
import DoomOs.Vmm

namespace DoomOs

open Comp

/-! ## Ranges in the window -/

/-- The `n` addresses from `base` on. -/
def bytesAt (base n : ℕ) : Set ℕ := {x | base ≤ x ∧ x < base + n}

namespace Allocation

/-- Whole pages inside the window, with a page behind them. -/
structure InWindow (a : Allocation) : Prop where
  base_aligned : a.base % 4096 = 0
  bytes_aligned : a.bytes % 4096 = 0
  pos : 0 < a.bytes
  first_le : vmallocBase ≤ a.base
  last_le : a.base + a.bytes + 4096 ≤ vmallocBase + vmallocSize

/-- `a` ends at least a page before `b` starts. -/
def Before (a b : Allocation) : Prop := a.base + a.bytes + 4096 ≤ b.base

/-- The addresses of a range. -/
def addresses (a : Allocation) : Set ℕ := bytesAt a.base a.bytes

end Allocation

namespace AllocationTable

open Allocation

variable {t t' : AllocationTable} {i index bytes : ℕ} {entry : Allocation}

/-- What holds of the table between calls. -/
structure Inv (t : AllocationTable) : Prop where
  count_le : t.count ≤ maxAllocations
  inWindow : ∀ i < t.count, (t.allocations i).InWindow
  before : ∀ i j, i < j → j < t.count → (t.allocations i).Before (t.allocations j)

theorem inv_of_count_eq_zero (h : t.count = 0) : t.Inv :=
  ⟨by omega, fun i hi => absurd hi (by omega), fun i j _ hj => absurd hj (by omega)⟩

/-- The addresses that are allocated. -/
def live (t : AllocationTable) : Set ℕ := {x | ∃ i < t.count, x ∈ (t.allocations i).addresses}

theorem vmalloc_end : vmallocBase + vmallocSize < 2 ^ 64 := by decide

/-! ## Gaps -/

theorem gapStart_zero : t.gapStart 0 = vmallocBase := by
  rw [gapStart, if_pos rfl]

theorem gapStart_succ (H : t.Inv) (hi : i < t.count) :
    t.gapStart (i + 1) = (t.allocations i).base + (t.allocations i).bytes + 4096 := by
  have hlast := (H.inWindow i hi).last_le
  have hend := vmalloc_end
  rw [gapStart, if_neg (Nat.succ_ne_zero i), Nat.add_sub_cancel]
  exact u64_of_lt (lt_of_le_of_lt hlast hend)

theorem gapEnd_count : t.gapEnd t.count = vmallocBase + vmallocSize := by
  rw [gapEnd, if_pos rfl]

theorem gapEnd_of_lt (hi : i < t.count) : t.gapEnd i = (t.allocations i).base := by
  rw [gapEnd, if_neg (by omega)]

theorem gapEnd_le (H : t.Inv) (hi : i ≤ t.count) : t.gapEnd i ≤ vmallocBase + vmallocSize := by
  rcases hi.eq_or_lt with rfl | hlt
  · exact gapEnd_count.le
  · rw [gapEnd_of_lt hlt]
    have := (H.inWindow i hlt).last_le
    omega

/-- **No gap has a negative length.** -/
theorem gapStart_le_gapEnd (H : t.Inv) (hi : i ≤ t.count) : t.gapStart i ≤ t.gapEnd i := by
  cases i with
  | zero =>
    rw [gapStart_zero]
    rcases Nat.eq_zero_or_pos t.count with h0 | hpos
    · rw [← h0, gapEnd_count]
      omega
    · rw [gapEnd_of_lt hpos]
      exact (H.inWindow 0 hpos).first_le
  | succ i =>
    rw [gapStart_succ H (by omega)]
    rcases hi.eq_or_lt with heq | hlt
    · rw [heq, gapEnd_count]
      exact (H.inWindow i (by omega)).last_le
    · rw [gapEnd_of_lt hlt]
      exact H.before i (i + 1) (by omega) hlt

theorem gapStart_aligned (H : t.Inv) (hi : i ≤ t.count) : t.gapStart i % 4096 = 0 := by
  cases i with
  | zero =>
    rw [gapStart_zero]
    rfl
  | succ i =>
    rw [gapStart_succ H (by omega)]
    have hb := (H.inWindow i (by omega)).base_aligned
    have hs := (H.inWindow i (by omega)).bytes_aligned
    omega

theorem first_le_gapStart (H : t.Inv) (hi : i ≤ t.count) : vmallocBase ≤ t.gapStart i := by
  cases i with
  | zero => rw [gapStart_zero]
  | succ i =>
    rw [gapStart_succ H (by omega)]
    have := (H.inWindow i (by omega)).first_le
    omega

/-- Ranges before a gap end before it. -/
theorem before_gapStart (H : t.Inv) (hi : i < index) (hindex : index ≤ t.count) :
    (t.allocations i).base + (t.allocations i).bytes + 4096 ≤ t.gapStart index := by
  obtain ⟨j, rfl⟩ : ∃ j, index = j + 1 := ⟨index - 1, by omega⟩
  rw [gapStart_succ H (by omega)]
  rcases Nat.lt_succ_iff_lt_or_eq.mp hi with hlt | rfl
  · have h := H.before i j hlt (by omega)
    rw [Before] at h
    omega
  · exact le_rfl

/-- Ranges from a gap on start behind it. -/
theorem gapEnd_le_base (H : t.Inv) (hi : index ≤ i) (hlt : i < t.count) :
    t.gapEnd index ≤ (t.allocations i).base := by
  rw [gapEnd_of_lt (by omega)]
  rcases hi.eq_or_lt with rfl | hij
  · exact le_rfl
  · have h := H.before index i hij hlt
    rw [Before] at h
    omega

theorem findGap_some (h : t.findGap bytes = .ok index) :
    t.count ≠ maxAllocations ∧ index ≤ t.count ∧ t.fits bytes index = true := by
  rw [findGap] at h
  split_ifs at h with hfull
  cases hfind : (List.range (t.count + 1)).find? (t.fits bytes) with
  | none =>
    rw [hfind] at h
    cases h
  | some j =>
    rw [hfind] at h
    obtain rfl : j = index := Except.ok.inj h
    obtain ⟨hfits, hmem, -⟩ := List.find?_range_eq_some.mp hfind
    have hj := List.mem_range.mp hmem
    exact ⟨hfull, by omega, hfits⟩

/-- Where a gap is found there is room in the table. -/
theorem findGap_room (H : t.Inv) (h : t.findGap bytes = .ok index) :
    t.count < maxAllocations ∧ index ≤ t.count := by
  obtain ⟨hfull, hindex, -⟩ := findGap_some h
  have := H.count_le
  exact ⟨by omega, hindex⟩

/-- **A gap that is found holds the range and the page behind it.** -/
theorem findGap_fits (H : t.Inv) (hbytes : bytes + 4096 < 2 ^ 64)
    (h : t.findGap bytes = .ok index) : t.gapStart index + bytes + 4096 ≤ t.gapEnd index := by
  obtain ⟨-, hindex, hfits⟩ := findGap_some h
  have hle := gapStart_le_gapEnd H hindex
  have hend := gapEnd_le H hindex
  have hlast := vmalloc_end
  rw [fits, decide_eq_true_eq, frameSize, u64_of_lt hbytes,
    sub64_of_le (by omega) hle] at hfits
  omega

/-! ## Inserting -/

theorem assign_run (hi : i < maxAllocations) : (assign i entry).run t
    = .ok () { t with allocations := Function.update t.allocations i entry } := by
  rw [assign, if_pos hi, run_modify]

theorem shiftUp_sat : ∀ (i : ℕ) (t : AllocationTable), i < maxAllocations →
    ((shiftUp index i).run t).Sat
      (fun _ t' => t'.count = t.count ∧ ∀ j, t'.allocations j
        = if index < j ∧ j ≤ i then t.allocations (j - 1) else t.allocations j)
      (fun _ _ => False) := by
  intro i
  induction i with
  | zero =>
    intro t _
    exact ⟨rfl, fun j => by rw [if_neg (by omega)]⟩
  | succ i ih =>
    intro t hi
    rw [shiftUp]
    by_cases hlt : i + 1 > index
    · rw [if_pos hlt, run_gets_bind, run_bind_ok (assign_run hi)]
      refine (ih _ (by omega)).mono (fun _ t' h => ?_) (fun _ _ h => h)
      obtain ⟨hcount, hentries⟩ := h
      refine ⟨hcount, fun j => ?_⟩
      rw [hentries]
      dsimp only
      -- the entry just written is the one at `i + 1`
      rcases lt_trichotomy j (i + 1) with hj | rfl | hj
      · rw [Function.update_of_ne (by omega), Function.update_of_ne (by omega)]
        by_cases hin : index < j
        · rw [if_pos ⟨hin, by omega⟩, if_pos ⟨hin, by omega⟩]
        · rw [if_neg (by omega), if_neg (by omega)]
      · rw [if_neg (by omega), if_pos ⟨hlt, le_rfl⟩, Function.update_self, Nat.add_sub_cancel]
      · rw [if_neg (by omega), if_neg (by omega), Function.update_of_ne (by omega)]
    · rw [if_neg hlt]
      exact ⟨rfl, fun j => by rw [if_neg (by omega)]⟩

/-- The table after `insert`. -/
structure Inserted (index : ℕ) (entry : Allocation) (t t' : AllocationTable) : Prop where
  count : t'.count = t.count + 1
  below : ∀ i < index, t'.allocations i = t.allocations i
  self : t'.allocations index = entry
  above : ∀ i, index ≤ i → i < t.count → t'.allocations (i + 1) = t.allocations i

theorem insert_sat (entry : Allocation) (hindex : index ≤ t.count)
    (hcount : t.count < maxAllocations) :
    ((insert index entry).run t).Sat (fun _ t' => Inserted index entry t t')
      (fun _ _ => False) := by
  rw [insert, run_gets_bind, sat_bind]
  refine (shiftUp_sat t.count t hcount).mono (fun _ t₁ h₁ => ?_) (fun _ _ h => h)
  obtain ⟨hc, hentries⟩ := h₁
  rw [run_bind_ok (assign_run (by omega)), run_modify]
  refine ⟨congrArg (· + 1) hc, fun i hi => ?_, Function.update_self _ _ _, fun i hi hlt => ?_⟩
  · refine (Function.update_of_ne (by omega) _ _).trans ((hentries i).trans ?_)
    rw [if_neg (by omega)]
  · refine (Function.update_of_ne (by omega) _ _).trans ((hentries (i + 1)).trans ?_)
    rw [if_pos ⟨by omega, by omega⟩, Nat.add_sub_cancel]

/-- The entries after `insert`: the new one and those of before. -/
theorem Inserted.cases (h : Inserted index entry t t') (hindex : index ≤ t.count)
    (hi : i < t'.count) :
    (i < index ∧ t'.allocations i = t.allocations i) ∨
    (i = index ∧ t'.allocations i = entry) ∨
    ∃ j, i = j + 1 ∧ index ≤ j ∧ j < t.count ∧ t'.allocations i = t.allocations j := by
  have hcount := h.count
  rcases lt_trichotomy i index with hlt | rfl | hgt
  · exact Or.inl ⟨hlt, h.below i hlt⟩
  · exact Or.inr (Or.inl ⟨rfl, h.self⟩)
  · obtain ⟨j, rfl⟩ : ∃ j, i = j + 1 := ⟨i - 1, by omega⟩
    exact Or.inr (Or.inr ⟨j, rfl, by omega, by omega, h.above j (by omega) (by omega)⟩)

/-- **Inserting into a gap that was found keeps the table in order.** -/
theorem Inv.insert (H : t.Inv) (hbytes : bytes + 4096 < 2 ^ 64) (hpos : 0 < bytes)
    (hal : bytes % 4096 = 0) (hfind : t.findGap bytes = .ok index)
    (h : Inserted index ⟨t.gapStart index, bytes⟩ t t') : t'.Inv := by
  obtain ⟨hroom, hindex⟩ := findGap_room H hfind
  have hfit := findGap_fits H hbytes hfind
  have hcount := h.count
  have hend := gapEnd_le H hindex
  refine ⟨by omega, fun i hi => ?_, fun i j hij hj => ?_⟩
  · rcases h.cases hindex hi with ⟨hlt, heq⟩ | ⟨rfl, heq⟩ | ⟨j, rfl, hle, hlt, heq⟩ <;> rw [heq]
    · exact H.inWindow i (by omega)
    · exact ⟨gapStart_aligned H hindex, hal, hpos, first_le_gapStart H hindex, hfit.trans hend⟩
    · exact H.inWindow j hlt
  · rcases h.cases hindex hj with ⟨hjlt, heqj⟩ | ⟨rfl, heqj⟩ | ⟨j', rfl, hjle, hjlt, heqj⟩
    · rw [heqj, h.below i (by omega)]
      exact H.before i j hij (by omega)
    · rw [heqj, h.below i hij]
      exact before_gapStart H hij hindex
    · rw [heqj]
      rcases h.cases hindex (by omega : i < t'.count) with
        ⟨hlt, heq⟩ | ⟨rfl, heq⟩ | ⟨i', rfl, hle, hlt, heq⟩ <;> rw [heq]
      · exact H.before i j' (by omega) hjlt
      · exact hfit.trans (gapEnd_le_base H hjle hjlt)
      · exact H.before i' j' (by omega) hjlt

theorem Inserted.live (h : Inserted index entry t t') (hindex : index ≤ t.count) :
    t'.live = t.live ∪ entry.addresses := by
  have hcount := h.count
  ext x
  constructor
  · rintro ⟨i, hi, hx⟩
    rcases h.cases hindex hi with ⟨hlt, heq⟩ | ⟨rfl, heq⟩ | ⟨j, rfl, hle, hlt, heq⟩ <;>
      rw [heq] at hx
    · exact Or.inl ⟨i, by omega, hx⟩
    · exact Or.inr hx
    · exact Or.inl ⟨j, hlt, hx⟩
  · rintro (⟨i, hi, hx⟩ | hx)
    · by_cases hlt : i < index
      · exact ⟨i, by omega, by rw [h.below i hlt]; exact hx⟩
      · exact ⟨i + 1, by omega, by rw [h.above i (by omega) hi]; exact hx⟩
    · exact ⟨index, by omega, by rw [h.self]; exact hx⟩

/-- What a gap that was found will hold is not allocated. -/
theorem not_live_of_gap (H : t.Inv) (hbytes : bytes + 4096 < 2 ^ 64)
    (hfind : t.findGap bytes = .ok index) {x : ℕ} (hx : t.gapStart index ≤ x)
    (hlt : x < t.gapStart index + bytes + 4096) : x ∉ t.live := by
  obtain ⟨hroom, hindex⟩ := findGap_room H hfind
  have hfit := findGap_fits H hbytes hfind
  rintro ⟨i, hi, hle, hend⟩
  by_cases hbelow : i < index
  · have := before_gapStart H hbelow hindex
    omega
  · have := gapEnd_le_base H (not_lt.mp hbelow) hi
    omega

/-! ## Erasing -/

theorem shiftDown_sat (hindex : index < t.count) (hcount : t.count ≤ maxAllocations) :
    ((shiftDown index t.count).run t).Sat
      (fun _ t' => t'.count = t.count ∧ ∀ j, t'.allocations j
        = if index ≤ j ∧ j + 1 < t.count then t.allocations (j + 1) else t.allocations j)
      (fun _ _ => False) := by
  rw [shiftDown]
  refine Outcome.Sat.mono (sat_forRange (I := fun k t' => t'.count = t.count ∧
    ∀ j, t'.allocations j
      = if index ≤ j ∧ j < index + k then t.allocations (j + 1) else t.allocations j)
    (E := fun _ _ => False) (fun k t₁ hk hI => ?_) ⟨rfl, fun j => by rw [if_neg (by omega)]⟩)
    (fun _ t' h => ?_) (fun _ _ h => h)
  · obtain ⟨hc, hentries⟩ := hI
    rw [run_gets_bind, assign_run (by omega)]
    refine ⟨hc, fun j => ?_⟩
    dsimp only
    rcases eq_or_ne j (index + k) with rfl | hne
    · rw [Function.update_self, hentries, if_neg (by omega), if_pos ⟨by omega, by omega⟩,
        show index + 1 + k = index + k + 1 by omega]
    · rw [Function.update_of_ne hne, hentries]
      by_cases hin : index ≤ j ∧ j < index + k
      · rw [if_pos hin, if_pos ⟨hin.1, by omega⟩]
      · rw [if_neg hin, if_neg (by omega)]
  · obtain ⟨hc, hentries⟩ := h
    refine ⟨hc, fun j => ?_⟩
    rw [hentries]
    by_cases hin : index ≤ j ∧ j + 1 < t.count
    · rw [if_pos hin, if_pos ⟨hin.1, by omega⟩]
    · rw [if_neg hin, if_neg (by omega)]

/-- The table after `erase`. -/
structure Erased (index : ℕ) (t t' : AllocationTable) : Prop where
  count : t'.count + 1 = t.count
  below : ∀ i < index, t'.allocations i = t.allocations i
  above : ∀ i, index ≤ i → i < t'.count → t'.allocations i = t.allocations (i + 1)

theorem erase_sat (hindex : index < t.count) (hcount : t.count ≤ maxAllocations) :
    ((erase index).run t).Sat (fun _ t' => Erased index t t') (fun _ _ => False) := by
  rw [erase, run_gets_bind, sat_bind]
  refine (shiftDown_sat hindex hcount).mono (fun _ t₁ h₁ => ?_) (fun _ _ h => h)
  obtain ⟨hc, hentries⟩ := h₁
  rw [run_modify]
  refine ⟨?_, fun i hi => ?_, fun i hi hlt => ?_⟩
  · show t₁.count - 1 + 1 = t.count
    omega
  · refine (hentries i).trans ?_
    rw [if_neg (by omega)]
  · have hlt' : i < t₁.count - 1 := hlt
    refine (hentries i).trans ?_
    rw [if_pos ⟨hi, by omega⟩]

/-- Which entry of before an entry is after `erase`. -/
theorem Erased.allocations_eq (h : Erased index t t') (hi : i < t'.count) :
    t'.allocations i = t.allocations (if i < index then i else i + 1) := by
  split_ifs with hlt
  · exact h.below i hlt
  · exact h.above i (not_lt.mp hlt) hi

/-- **Erasing keeps the table in order.** -/
theorem Inv.erase (H : t.Inv) (h : Erased index t t') : t'.Inv := by
  have hcount := h.count
  have hle := H.count_le
  refine ⟨by omega, fun i hi => ?_, fun i j hij hj => ?_⟩
  · rw [h.allocations_eq hi]
    exact H.inWindow _ (by split_ifs <;> omega)
  · rw [h.allocations_eq hj, h.allocations_eq (by omega : i < t'.count)]
    exact H.before _ _ (by split_ifs <;> omega) (by split_ifs <;> omega)

theorem Erased.live (H : t.Inv) (h : Erased index t t') (hindex : index < t.count) :
    t'.live = t.live \ (t.allocations index).addresses := by
  have hcount := h.count
  ext x
  constructor
  · rintro ⟨i, hi, hx⟩
    rw [h.allocations_eq hi] at hx
    refine ⟨⟨_, by split_ifs <;> omega, hx⟩, fun hx' => ?_⟩
    -- ranges do not overlap, and `index` is not among the entries that are left
    obtain ⟨hle, hlt⟩ := hx
    obtain ⟨hle', hlt'⟩ := hx'
    split_ifs at hle hlt with hi'
    · have hb := H.before i index hi' hindex
      rw [Before] at hb
      omega
    · have hb := H.before index (i + 1) (by omega) (by omega)
      rw [Before] at hb
      omega
  · rintro ⟨⟨i, hi, hx⟩, hne⟩
    rcases lt_trichotomy i index with hlt | rfl | hgt
    · exact ⟨i, by omega, by rw [h.below i hlt]; exact hx⟩
    · exact absurd hx hne
    · obtain ⟨j, rfl⟩ : ∃ j, i = j + 1 := ⟨i - 1, by omega⟩
      exact ⟨j, by omega, by rw [h.above j (by omega) (by omega)]; exact hx⟩

/-! ## Finding entries -/

theorem indexOf_some {base : ℕ} (h : t.indexOf base = some index) :
    index < t.count ∧ (t.allocations index).base = base := by
  obtain ⟨hbase, hmem, -⟩ := List.find?_range_eq_some.mp h
  exact ⟨List.mem_range.mp hmem, of_decide_eq_true hbase⟩

/-- The search finds each allocation by its base. -/
theorem indexOf_base (H : t.Inv) (hi : i < t.count) :
    t.indexOf (t.allocations i).base = some i := by
  refine List.find?_range_eq_some.mpr ⟨decide_eq_true rfl, List.mem_range.mpr hi, fun j hj => ?_⟩
  have hbefore : (t.allocations j).base + (t.allocations j).bytes + 4096 ≤ (t.allocations i).base :=
    H.before j i hj hi
  simp only [Bool.not_eq_true', decide_eq_false_iff_not]
  omega

theorem covering_some {first last : ℕ} (H : t.Inv) (h : t.covering first last = some index) :
    index < t.count ∧ (t.allocations index).base ≤ first ∧
      last ≤ (t.allocations index).base + (t.allocations index).bytes := by
  obtain ⟨hcover, hmem, -⟩ := List.find?_range_eq_some.mp h
  have hindex := List.mem_range.mp hmem
  obtain ⟨hfirst, hlast⟩ := of_decide_eq_true hcover
  have hend := (H.inWindow index hindex).last_le
  have hlt := vmalloc_end
  rw [u64_of_lt (by omega)] at hlast
  exact ⟨hindex, hfirst, hlast⟩

/-- `protect` finds the range that holds the pages it is asked about. -/
theorem exists_covering {first last : ℕ} (H : t.Inv) (hindex : index < t.count)
    (hfirst : (t.allocations index).base ≤ first)
    (hlast : last ≤ (t.allocations index).base + (t.allocations index).bytes) :
    ∃ i, t.covering first last = some i := by
  have hend := (H.inWindow index hindex).last_le
  have hlt := vmalloc_end
  have hsome : ((List.range t.count).find? fun index =>
      decide (first ≥ (t.allocations index).base ∧
        last ≤ u64 ((t.allocations index).base + (t.allocations index).bytes))).isSome := by
    rw [List.find?_isSome]
    refine ⟨index, List.mem_range.mpr hindex, decide_eq_true ⟨hfirst, ?_⟩⟩
    rw [u64_of_lt (by omega)]
    exact hlast
  exact Option.isSome_iff_exists.mp hsome

end AllocationTable

end DoomOs
