/-
# The storage of a bitmap

The rest of `kernel/core/utils/bitmap.hpp` without the shifts.  The storage is an array of
`STORAGE_TYPE_INSTANCE_COUNT` words, a quotient that is rounded down: a last word that
would be filled in part does not exist.  The static assertions of the class ask for one
word, not for a whole number of them.

`ranges_exact` puts together what the range operations do when the width divides the size,
and `storage_covers_iff` says that this is when the storage covers the declared size.
-/
import DoomOs.Bitmap

namespace DoomOs

namespace Bitmap

variable {N W : ℕ}

/-! ## The operations on the whole bitmap -/

/-- `STORAGE_TYPE_INSTANCE_COUNT`. -/
def storageTypeInstanceCount (N W : ℕ) : ℕ := N / W

/-- What the static assertions of `bitmap` and of the `array` of its words ask for. -/
def Asserted (N W : ℕ) : Prop := 0 < N ∧ 0 < storageTypeInstanceCount N W

instance (N W : ℕ) : Decidable (Asserted N W) := inferInstanceAs (Decidable (_ ∧ _))

/-- `reset`: the loop of `apply`, over all the words. -/
def reset (b : Bitmap N W) : Bitmap N W := b.applyWhole false 0 (storageTypeInstanceCount N W)

/-- `fill`. -/
def fill (b : Bitmap N W) : Bitmap N W := b.applyWhole true 0 (storageTypeInstanceCount N W)

/-- The loop of `all`: `n` words from `word` on. -/
def allFrom (b : Bitmap N W) : (word n : ℕ) → Bool
  | _, 0 => true
  | word, n + 1 => if b.words word ≠ BitVec.allOnes W then false else allFrom b (word + 1) n

/-- `all`. -/
def all (b : Bitmap N W) : Bool := b.allFrom 0 (storageTypeInstanceCount N W)

/-- `set(index)`. -/
def set (b : Bitmap N W) (index : ℕ) : Bitmap N W :=
  ⟨Function.update b.words (wordOf W index) (b.words (wordOf W index) ||| bitOf W index)⟩

/-- `count_set()`. -/
def countSetAll (b : Bitmap N W) : ℕ := b.countSet 0 (storageTypeInstanceCount N W)

/-- `count_set_in`. -/
def countSetIn (b : Bitmap N W) (first count : ℕ) : ℕ :=
  if count = 0 then 0
  else
    let last := first + count - 1
    let firstWord := wordOf W first
    let lastWord := wordOf W last
    if firstWord = lastWord then
      popcount (b.words firstWord &&& maskFrom W first &&& maskUpto W last)
    else
      popcount (b.words firstWord &&& maskFrom W first) +
        b.countSet (firstWord + 1) (lastWord - (firstWord + 1)) +
        popcount (b.words lastWord &&& maskUpto W last)

/-! ## Words and bits -/

/-- A size that is a whole number of words. -/
theorem storageTypeInstanceCount_mul (hN : W ∣ N) : storageTypeInstanceCount N W * W = N :=
  Nat.div_mul_cancel hN

/-- The words of a whole number of words. -/
theorem wordOf_lt (hN : W ∣ N) {i : ℕ} (hi : i < N) : wordOf W i < storageTypeInstanceCount N W :=
  Nat.div_lt_div_of_lt_of_dvd hN hi

/-- `set` changes the bit it names, and no other. -/
theorem test_set (hW : 0 < W) (b : Bitmap N W) (index i : ℕ) :
    (b.set index).test i = (decide (i = index) || b.test i) := by
  have hoff : i % W < W := Nat.mod_lt _ hW
  have hbit : bitOf W index = BitVec.twoPow W (index % W) := rfl
  rw [test_eq hW, test_eq hW]
  simp only [set, wordOf, hbit]
  by_cases hw : i / W = index / W
  · rw [hw, Function.update_self]
    have hiff : i = index ↔ index % W = i % W := by
      constructor
      · rintro rfl
        rfl
      · intro hr
        rw [← Nat.div_add_mod i W, ← Nat.div_add_mod index W, hw, hr]
    simp [hiff, hoff, Bool.or_comm, eq_comm]
  · rw [Function.update_of_ne hw]
    have hne : i ≠ index := fun e => hw (by rw [e])
    simp [hne]

theorem test_fill (hW : 0 < W) (b : Bitmap N W) {i : ℕ}
    (hi : wordOf W i < storageTypeInstanceCount N W) : b.fill.test i = true := by
  have hoff : i % W < W := Nat.mod_lt _ hW
  rw [test_eq hW, fill, words_applyWhole, Nat.zero_add, if_pos ⟨Nat.zero_le _, hi⟩]
  simp [hoff]

theorem allFrom_eq_true_iff (b : Bitmap N W) : ∀ n word : ℕ,
    b.allFrom word n = true ↔ ∀ w, word ≤ w → w < word + n → b.words w = BitVec.allOnes W := by
  intro n
  induction n with
  | zero =>
    intro word
    simp only [allFrom, true_iff]
    intro w hle hlt
    omega
  | succ n ih =>
    intro word
    rw [allFrom]
    by_cases hword : b.words word = BitVec.allOnes W
    · simp only [hword, ne_eq, not_true, if_false, ih]
      constructor
      · intro h w hle hlt
        by_cases hw : w = word
        · rw [hw, hword]
        · exact h w (by omega) (by omega)
      · intro h w hle hlt
        exact h w (by omega) (by omega)
    · simp only [hword, ne_eq, not_false_eq_true, if_true, Bool.false_eq_true, false_iff]
      intro h
      exact hword (h word le_rfl (by omega))

/-- A word of which all bits are set. -/
theorem words_eq_allOnes_iff (hW : 0 < W) (b : Bitmap N W) (w : ℕ) :
    b.words w = BitVec.allOnes W ↔ ∀ j < W, b.test (w * W + j) = true := by
  constructor
  · intro h j hj
    rw [test_mul_add hW b w j hj, h]
    simp [hj]
  · intro h
    apply BitVec.eq_of_getLsbD_eq
    intro j hj
    rw [← test_mul_add hW b w j hj, h j hj]
    simp [hj]

/-- `all` looks at the bits of the words that exist. -/
theorem all_eq_true_iff (hW : 0 < W) (b : Bitmap N W) :
    b.all = true ↔ ∀ i < storageTypeInstanceCount N W * W, b.test i = true := by
  rw [all, allFrom_eq_true_iff]
  simp only [Nat.zero_le, true_imp_iff, Nat.zero_add, words_eq_allOnes_iff hW]
  constructor
  · intro h i hi
    have hword := h (i / W) (Nat.div_lt_of_lt_mul (by rwa [Nat.mul_comm])) (i % W)
      (Nat.mod_lt _ hW)
    rwa [Nat.div_add_mod'] at hword
  · intro h w hw j hj
    apply h
    calc w * W + j < w * W + W := by omega
      _ = (w + 1) * W := by ring
      _ ≤ storageTypeInstanceCount N W * W := Nat.mul_le_mul_right W hw

/-! ## The counts -/

/-- The bits that are set in one word among the offsets `[lo, hi)`. -/
theorem popcount_and (hW : 0 < W) (b : Bitmap N W) (w : ℕ) (sel : BitVec W) (lo : ℕ) {hi : ℕ}
    (hhi : hi ≤ W) (hsel : ∀ j, sel.getLsbD j = true ↔ lo ≤ j ∧ j < hi) :
    popcount (b.words w &&& sel) = b.setCount (w * W + lo) (w * W + hi) := by
  rw [popcount_eq, setCount]
  refine Finset.card_bij (fun j _ => w * W + j) ?_ ?_ ?_
  · intro j hj
    rw [Finset.mem_filter, Finset.mem_range, BitVec.getLsbD_and, Bool.and_eq_true, hsel] at hj
    rw [Finset.mem_filter, Finset.mem_Ico, test_mul_add hW _ _ _ hj.1]
    exact ⟨⟨by omega, by omega⟩, hj.2.1⟩
  · intro i _ j _ h
    omega
  · intro j hj
    rw [Finset.mem_filter, Finset.mem_Ico] at hj
    obtain ⟨⟨hlo, hlt⟩, ht⟩ := hj
    have hoff : w * W + (j - w * W) = j := by omega
    refine ⟨j - w * W, ?_, hoff⟩
    rw [Finset.mem_filter, Finset.mem_range, BitVec.getLsbD_and, Bool.and_eq_true, hsel,
      ← test_mul_add hW _ _ _ (by omega), hoff]
    exact ⟨by omega, ht, by omega, by omega⟩

/-- **Range counts.**  `count_set_in` counts the set bits of its range. -/
theorem countSetIn_eq (hW : 0 < W) (b : Bitmap N W) (first count : ℕ) :
    b.countSetIn first count = b.setCount first (first + count) := by
  by_cases hc : count = 0
  · rw [countSetIn, if_pos hc, hc, Nat.add_zero, setCount, Finset.Ico_self, Finset.filter_empty,
      Finset.card_empty]
  have hf := Nat.div_add_mod' first W
  have hl := Nat.div_add_mod' (first + count - 1) W
  have hfr := Nat.mod_lt first hW
  have hlr := Nat.mod_lt (first + count - 1) hW
  rw [countSetIn, if_neg hc]
  by_cases hw : first / W = (first + count - 1) / W
  · have hone := popcount_and hW b (first / W)
      (maskFrom W first &&& maskUpto W (first + count - 1)) (first % W)
      (Nat.succ_le_of_lt hlr) (fun j => by
        rw [BitVec.getLsbD_and, getLsbD_maskFrom, getLsbD_maskUpto]
        simp only [Bool.and_eq_true, decide_eq_true_eq]
        omega)
    rw [← BitVec.and_assoc, hf, hw, show (first + count - 1) / W * W
      + ((first + count - 1) % W + 1) = first + count by omega, ← hw] at hone
    rw [if_pos hw]
    exact hone
  · have hlt : first / W < (first + count - 1) / W :=
      lt_of_le_of_ne (Nat.div_le_div_right (by omega)) hw
    have hhead := popcount_and hW b (first / W) (maskFrom W first) (first % W) le_rfl
      (fun j => by rw [getLsbD_maskFrom, decide_eq_true_eq])
    have hmiddle := countSet_eq hW b ((first + count - 1) / W - (first / W + 1)) (first / W + 1)
    have htail := popcount_and hW b ((first + count - 1) / W) (maskUpto W (first + count - 1))
      0 (Nat.succ_le_of_lt hlr) (fun j => by
        rw [getLsbD_maskUpto, decide_eq_true_eq]
        omega)
    rw [hf, show first / W * W + W = (first / W + 1) * W by ring] at hhead
    rw [show first / W + 1 + ((first + count - 1) / W - (first / W + 1))
      = (first + count - 1) / W by omega] at hmiddle
    rw [Nat.add_zero, show (first + count - 1) / W * W + ((first + count - 1) % W + 1)
      = first + count by omega] at htail
    have hle : (first / W + 1) * W ≤ (first + count - 1) / W * W := Nat.mul_le_mul_right W hlt
    have hfirst : first ≤ (first / W + 1) * W := by
      rw [Nat.add_mul, Nat.one_mul]
      omega
    rw [if_neg hw, hhead, hmiddle, htail, ← b.setCount_add hfirst hle,
      ← b.setCount_add (hfirst.trans hle) (by omega)]

/-! ## The ranges -/

theorem FirstSet.eq_some_iff {b : Bitmap N W} {lo hi r : ℕ} {o : Option ℕ}
    (h : b.FirstSet lo hi o) :
    o = some r ↔ IsLeast {i | (lo ≤ i ∧ i < hi) ∧ b.test i = true} r := by
  constructor
  · rintro rfl
    obtain ⟨hlo, hhi, hr, hbefore⟩ := h
    refine ⟨⟨⟨hlo, hhi⟩, hr⟩, ?_⟩
    rintro j ⟨hj, ht⟩
    by_contra hlt
    rw [hbefore j hj.1 (not_le.mp hlt)] at ht
    cases ht
  · rintro ⟨⟨hr, ht⟩, hleast⟩
    cases o with
    | none =>
      have hnone : b.test r = false := h r hr.1 hr.2
      rw [hnone] at ht
      cases ht
    | some i =>
      obtain ⟨hlo, hhi, hi', hbefore⟩ := h
      have hri : r ≤ i := hleast ⟨⟨hlo, hhi⟩, hi'⟩
      by_cases hlt : r < i
      · rw [hbefore r hr.1 hlt] at ht
        cases ht
      · rw [le_antisymm (not_lt.mp hlt) hri]

/-- There is one first set bit at most. -/
theorem FirstSet.unique {b : Bitmap N W} {lo hi : ℕ} {o o' : Option ℕ}
    (h : b.FirstSet lo hi o) (h' : b.FirstSet lo hi o') : o = o' := by
  ext r
  simp only [h.eq_some_iff, h'.eq_some_iff]

/-- **Range operations are exact.**  When the size is a whole number of words, setting and
clearing a range changes its bits and no others, a search returns the least set index of the
range or nothing when there is none, and a count is the number of its set bits.  All words
that are used exist, and the queries on whole words are those on the range of their bits. -/
theorem ranges_exact (hW : 0 < W) (hN : W ∣ N) (b : Bitmap N W) {first count : ℕ}
    (h : first + count ≤ N) :
    (∀ i, (b.setRange first count).test i
      = if first ≤ i ∧ i < first + count then true else b.test i) ∧
    (∀ i, (b.clearRange first count).test i
      = if first ≤ i ∧ i < first + count then false else b.test i) ∧
    (∀ r, b.findSetIn first count = some r ↔
      IsLeast {i | (first ≤ i ∧ i < first + count) ∧ b.test i = true} r) ∧
    (b.findSetIn first count = none ↔
      ∀ i, first ≤ i → i < first + count → b.test i = false) ∧
    b.countSetIn first count = b.setCount first (first + count) ∧
    (∀ i, first ≤ i → i < first + count → wordOf W i < storageTypeInstanceCount N W) ∧
    ∀ w n, w + n ≤ storageTypeInstanceCount N W →
      (w + n) * W ≤ N ∧ b.findSet w n = b.findSetIn (w * W) (n * W) ∧
        b.countSet w n = b.countSetIn (w * W) (n * W) := by
  have hfirst := firstSet_findSetIn hW b first count
  refine ⟨?_, ?_, fun r => hfirst.eq_some_iff, hfirst.eq_none_iff, ?_, ?_, ?_⟩
  · exact fun i => test_apply hW b first count true i
  · exact fun i => test_apply hW b first count false i
  · exact countSetIn_eq hW b first count
  · intro i _ hi
    exact wordOf_lt hN (lt_of_lt_of_le hi h)
  · intro w n hwn
    have hwords := firstSet_findSet hW b n w
    have hbits := firstSet_findSetIn hW b (w * W) (n * W)
    rw [← Nat.add_mul] at hbits
    refine ⟨?_, hwords.unique hbits, ?_⟩
    · rw [← storageTypeInstanceCount_mul hN]
      exact Nat.mul_le_mul_right W hwn
    · rw [countSet_eq hW, countSetIn_eq hW, Nat.add_mul]

/-- A range over two words of eight bits, and a set bit at the end of it. -/
theorem ranges_exact_small :
    (((zero 16 8).setRange 6 3).clearRange 7 1).findSetIn 7 9 = some 8 ∧
      IsLeast {i | (7 ≤ i ∧ i < 7 + 9) ∧
        (((zero 16 8).setRange 6 3).clearRange 7 1).test i = true} 8 := by
  have hfind : (((zero 16 8).setRange 6 3).clearRange 7 1).findSetIn 7 9 = some 8 := by
    decide +kernel
  obtain ⟨-, -, hleast, -⟩ := @ranges_exact 16 8 (by decide) (by decide)
    (((zero 16 8).setRange 6 3).clearRange 7 1) 7 9 (by decide)
  exact ⟨hfind, (hleast 8).mp hfind⟩

/-! ## The declared size -/

/-- The storage covers the declared size: each index has its word, after `fill` every bit is
set and counted, and after a range has been set `all` holds of no bitmap with a clear bit. -/
structure StorageCovers (N W : ℕ) : Prop where
  word_lt : ∀ i < N, wordOf W i < storageTypeInstanceCount N W
  fill : ∀ b : Bitmap N W, (∀ i < N, b.fill.test i = true) ∧ b.fill.countSetAll = N
  all : ∀ (b : Bitmap N W) (first count : ℕ), first + count ≤ N →
    (b.setRange first count).all = true → ∀ i < N, (b.setRange first count).test i = true

theorem Asserted.width_pos (h : Asserted N W) : 0 < W := by
  rcases Nat.eq_zero_or_pos W with rfl | hW
  · have hcount := h.2
    rw [storageTypeInstanceCount, Nat.div_zero] at hcount
    omega
  · exact hW

/-- A whole number of words covers every size. -/
theorem storageCovers_of_dvd (hW : 0 < W) (hN : W ∣ N) : StorageCovers N W := by
  refine ⟨fun i hi => wordOf_lt hN hi, fun b => ?_, fun b first count _ hall => ?_⟩
  · have hset : ∀ i < N, b.fill.test i = true := fun i hi => test_fill hW b (wordOf_lt hN hi)
    refine ⟨hset, ?_⟩
    rw [countSetAll, countSet_eq hW, Nat.zero_mul, Nat.zero_add, storageTypeInstanceCount_mul hN]
    apply (b.fill.setCount_eq_sub_iff 0 N).mpr
    exact fun i _ hi => hset i hi
  · rw [all_eq_true_iff hW, storageTypeInstanceCount_mul hN] at hall
    exact hall

/-- A last word that would be filled in part does not exist. -/
theorem dvd_of_word_lt (hW : 0 < W) (hN : 0 < N)
    (h : ∀ i < N, wordOf W i < storageTypeInstanceCount N W) : W ∣ N := by
  have hmod := Nat.div_add_mod N W
  by_contra hndvd
  have hpos : 0 < N % W := Nat.pos_of_ne_zero fun hzero => hndvd (Nat.dvd_of_mod_eq_zero hzero)
  have hlast := h (N - 1) (by omega)
  rw [storageTypeInstanceCount, wordOf, Nat.div_lt_iff_lt_mul hW, Nat.mul_comm] at hlast
  omega

/-- **What the storage covers.**  Of the sizes and word types that the assertions accept,
those whose storage covers the declared size are those where the width divides the size. -/
theorem storage_covers_iff (h : Asserted N W) : StorageCovers N W ↔ W ∣ N := by
  constructor
  · intro hcovers
    exact dvd_of_word_lt h.width_pos h.1 hcovers.word_lt
  · exact storageCovers_of_dvd h.width_pos

theorem storage_covers_iff_small : Asserted 16 8 ∧ StorageCovers 16 8 := by
  have hasserted : Asserted 16 8 := by decide
  exact ⟨hasserted, (storage_covers_iff hasserted).mpr (by decide)⟩

/-- 65 bits in words of 64: the assertions hold, but there is one word, so the last index
lies outside, and `fill` leaves 64 bits to count. -/
theorem storage_misses_last_word :
    Asserted 65 64 ∧ ¬ wordOf 64 64 < storageTypeInstanceCount 65 64 ∧
      (zero 65 64).fill.countSetAll = 64 ∧ ¬ StorageCovers 65 64 := by
  have hword : ¬ wordOf 64 64 < storageTypeInstanceCount 65 64 := by decide
  refine ⟨by decide, hword, by decide +kernel, ?_⟩
  intro hcovers
  exact hword (hcovers.word_lt 64 (by decide))

end Bitmap

end DoomOs
