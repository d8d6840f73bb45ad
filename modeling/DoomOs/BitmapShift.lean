/-
# Shifting a bitmap in place

`shift_left` and `shift_right` of `kernel/core/utils/bitmap.hpp`.  Each writes the words of
the storage one after the other and reads the old words at the distance of the shift, so a
word must not be written before it has been read for the last time: shifting to the left
goes from the last word to the first, shifting to the right from the first to the last.
-/
import DoomOs.BitmapStorage

namespace DoomOs

namespace Bitmap

variable {N W : ℕ}

/-- Writing one word. -/
def store (b : Bitmap N W) (word : ℕ) (value : BitVec W) : Bitmap N W :=
  ⟨Function.update b.words word value⟩

theorem words_store (b : Bitmap N W) (word : ℕ) (value : BitVec W) (w : ℕ) :
    (b.store word value).words w = if w = word then value else b.words w := by
  show Function.update b.words word value w = _
  by_cases hw : w = word
  · rw [if_pos hw, hw, Function.update_self]
  · rw [if_neg hw, Function.update_of_ne hw]

/-! ## Shifting to the left -/

/-- What `shift_left` stores in a word. -/
def leftWord (b : Bitmap N W) (wordShift bitShift destination : ℕ) : BitVec W :=
  if destination < wordShift then 0#W
  else
    let source := destination - wordShift
    let value := b.words source <<< bitShift
    if bitShift ≠ 0 ∧ source ≠ 0 then value ||| b.words (source - 1) >>> (W - bitShift)
    else value

/-- The loop of `shift_left` over the words below `destination`, the last one first. -/
def shiftLeftFrom (wordShift bitShift : ℕ) : (destination : ℕ) → Bitmap N W → Bitmap N W
  | 0, b => b
  | destination + 1, b =>
    shiftLeftFrom wordShift bitShift destination
      (b.store destination (b.leftWord wordShift bitShift destination))

/-- `shift_left`. -/
def shiftLeft (b : Bitmap N W) (count : ℕ) : Bitmap N W :=
  if count = 0 then b
  else if count ≥ N then b.reset
  else shiftLeftFrom (count / W) (count % W) (storageTypeInstanceCount N W) b

/-! ## Shifting to the right -/

/-- What `shift_right` stores in a word. -/
def rightWord (b : Bitmap N W) (wordShift bitShift destination : ℕ) : BitVec W :=
  let source := destination + wordShift
  if source ≥ storageTypeInstanceCount N W then 0#W
  else
    let value := b.words source >>> bitShift
    if bitShift ≠ 0 ∧ source + 1 < storageTypeInstanceCount N W then
      value ||| b.words (source + 1) <<< (W - bitShift)
    else value

/-- The loop of `shift_right` over `n` words from `destination` on. -/
def shiftRightFrom (wordShift bitShift : ℕ) : (n destination : ℕ) → Bitmap N W → Bitmap N W
  | 0, _, b => b
  | n + 1, destination, b =>
    shiftRightFrom wordShift bitShift n (destination + 1)
      (b.store destination (b.rightWord wordShift bitShift destination))

/-- `shift_right`. -/
def shiftRight (b : Bitmap N W) (count : ℕ) : Bitmap N W :=
  if count = 0 then b
  else if count ≥ N then b.reset
  else shiftRightFrom (count / W) (count % W) (storageTypeInstanceCount N W) 0 b

/-! ## Every word is written from the old ones -/

/-- The words that `shift_left` reads stand at the place it writes or in front of it. -/
theorem leftWord_congr {b b' : Bitmap N W} {destination : ℕ}
    (h : ∀ w ≤ destination, b'.words w = b.words w) (wordShift bitShift : ℕ) :
    b'.leftWord wordShift bitShift destination = b.leftWord wordShift bitShift destination := by
  unfold leftWord
  dsimp only
  rw [h (destination - wordShift) (by omega), h (destination - wordShift - 1) (by omega)]

theorem words_shiftLeftFrom (wordShift bitShift : ℕ) : ∀ (n : ℕ) (b : Bitmap N W) (w : ℕ),
    (shiftLeftFrom wordShift bitShift n b).words w =
      if w < n then b.leftWord wordShift bitShift w else b.words w := by
  intro n
  induction n with
  | zero =>
    intro b w
    rw [shiftLeftFrom, if_neg (Nat.not_lt_zero w)]
  | succ n ih =>
    intro b w
    rw [shiftLeftFrom, ih, words_store]
    by_cases hlt : w < n
    · rw [if_pos hlt, if_pos (by omega)]
      apply leftWord_congr
      intro v hv
      rw [words_store, if_neg (by omega)]
    · rw [if_neg hlt]
      by_cases hw : w = n
      · rw [if_pos hw, if_pos (by omega), hw]
      · rw [if_neg hw, if_neg (by omega)]

/-- The words that `shift_right` reads stand at the place it writes or behind it. -/
theorem rightWord_congr {b b' : Bitmap N W} {destination : ℕ}
    (h : ∀ w ≥ destination, b'.words w = b.words w) (wordShift bitShift : ℕ) :
    b'.rightWord wordShift bitShift destination
      = b.rightWord wordShift bitShift destination := by
  unfold rightWord
  dsimp only
  rw [h (destination + wordShift) (by omega), h (destination + wordShift + 1) (by omega)]

theorem words_shiftRightFrom (wordShift bitShift : ℕ) :
    ∀ (n destination : ℕ) (b : Bitmap N W) (w : ℕ),
    (shiftRightFrom wordShift bitShift n destination b).words w =
      if destination ≤ w ∧ w < destination + n then b.rightWord wordShift bitShift w
      else b.words w := by
  intro n
  induction n with
  | zero =>
    intro destination b w
    rw [shiftRightFrom, if_neg (by omega)]
  | succ n ih =>
    intro destination b w
    rw [shiftRightFrom, ih, words_store]
    by_cases hin : destination + 1 ≤ w ∧ w < destination + 1 + n
    · rw [if_pos hin, if_pos (by omega)]
      apply rightWord_congr
      intro v hv
      rw [words_store, if_neg (by omega)]
    · rw [if_neg hin]
      by_cases hw : w = destination
      · rw [if_pos hw, if_pos (by omega), hw]
      · rw [if_neg hw, if_neg (by omega)]

/-! ## The bits of a word -/

/-- A bit of a word after the shift to the left is the bit that far below it. -/
theorem getLsbD_leftWord (hW : 0 < W) (b : Bitmap N W) (wordShift w : ℕ) {bitShift j : ℕ}
    (hbit : bitShift < W) (hj : j < W) :
    (b.leftWord wordShift bitShift w).getLsbD j = true ↔
      wordShift * W + bitShift ≤ w * W + j ∧
        b.test (w * W + j - (wordShift * W + bitShift)) = true := by
  unfold leftWord
  dsimp only
  by_cases hword : w < wordShift
  · rw [if_pos hword, BitVec.getLsbD_zero]
    have hle : (w + 1) * W ≤ wordShift * W := Nat.mul_le_mul_right W hword
    rw [Nat.add_mul, Nat.one_mul] at hle
    constructor
    · intro h
      cases h
    · intro h
      omega
  obtain ⟨source, rfl⟩ : ∃ source, w = wordShift + source := ⟨w - wordShift, by omega⟩
  rw [if_neg hword, Nat.add_sub_cancel_left, Nat.add_mul]
  have hsub : wordShift * W + source * W + j - (wordShift * W + bitShift)
      = source * W + j - bitShift := by omega
  rw [hsub]
  by_cases hin : bitShift ≤ j
  · -- the bit comes from the word at the distance of the shift
    have hlow : (b.words source <<< bitShift).getLsbD j = b.test (source * W + j - bitShift) := by
      rw [BitVec.getLsbD_shiftLeft, Nat.add_sub_assoc hin, test_mul_add hW b source _ (by omega)]
      simp [hj, hin]
    have hcarry : (b.words (source - 1) >>> (W - bitShift)).getLsbD j = false := by
      rw [BitVec.getLsbD_ushiftRight]
      exact BitVec.getLsbD_of_ge _ _ (by omega)
    split_ifs <;> simp [hlow, hcarry] <;> omega
  · -- the bit is carried over from the word before that one
    have hlow : (b.words source <<< bitShift).getLsbD j = false := by
      rw [BitVec.getLsbD_shiftLeft]
      simp
      omega
    by_cases hsource : source = 0
    · subst hsource
      simp [hlow]
      omega
    obtain ⟨previous, rfl⟩ : ∃ previous, source = previous + 1 := ⟨source - 1, by omega⟩
    have hcarry : (b.words previous >>> (W - bitShift)).getLsbD j
        = b.test ((previous + 1) * W + j - bitShift) := by
      rw [BitVec.getLsbD_ushiftRight, Nat.add_mul, Nat.one_mul,
        show previous * W + W + j - bitShift = previous * W + (W - bitShift + j) by omega,
        test_mul_add hW b previous _ (by omega)]
    have hle : bitShift ≤ (previous + 1) * W + j := by
      rw [Nat.add_mul, Nat.one_mul]
      omega
    rw [if_pos ⟨by omega, hsource⟩, Nat.add_sub_cancel, BitVec.getLsbD_or, hlow, hcarry,
      Bool.false_or]
    constructor
    · intro h
      exact ⟨by omega, h⟩
    · exact fun h => h.2

/-- A bit of a word after the shift to the right is the bit that far above it, if there is
one. -/
theorem getLsbD_rightWord (hW : 0 < W) (b : Bitmap N W) (wordShift w : ℕ) {bitShift j : ℕ}
    (hbit : bitShift < W) (hj : j < W) :
    (b.rightWord wordShift bitShift w).getLsbD j = true ↔
      w * W + j + (wordShift * W + bitShift) < storageTypeInstanceCount N W * W ∧
        b.test (w * W + j + (wordShift * W + bitShift)) = true := by
  unfold rightWord
  dsimp only
  have hadd : w * W + j + (wordShift * W + bitShift) = (w + wordShift) * W + (j + bitShift) := by
    rw [Nat.add_mul]
    omega
  rw [hadd]
  generalize w + wordShift = source
  generalize storageTypeInstanceCount N W = words
  by_cases hend : source ≥ words
  · rw [if_pos hend, BitVec.getLsbD_zero]
    have hle : words * W ≤ source * W := Nat.mul_le_mul_right W hend
    constructor
    · intro h
      cases h
    · intro h
      omega
  rw [if_neg hend]
  have hle : (source + 1) * W ≤ words * W := Nat.mul_le_mul_right W (by omega)
  rw [Nat.add_mul, Nat.one_mul] at hle
  by_cases hin : j + bitShift < W
  · -- the bit comes from the word at the distance of the shift
    have hhigh : (b.words source >>> bitShift).getLsbD j
        = b.test (source * W + (j + bitShift)) := by
      rw [BitVec.getLsbD_ushiftRight, test_mul_add hW b source _ hin, Nat.add_comm]
    have hcarry : (b.words (source + 1) <<< (W - bitShift)).getLsbD j = false := by
      rw [BitVec.getLsbD_shiftLeft]
      simp
      omega
    split_ifs <;> simp [hhigh, hcarry] <;> omega
  · -- the bit is carried over from the word behind that one
    have hhigh : (b.words source >>> bitShift).getLsbD j = false := by
      rw [BitVec.getLsbD_ushiftRight]
      exact BitVec.getLsbD_of_ge _ _ (by omega)
    by_cases hnext : source + 1 < words
    · have hcarry : (b.words (source + 1) <<< (W - bitShift)).getLsbD j
          = b.test (source * W + (j + bitShift)) := by
        rw [BitVec.getLsbD_shiftLeft,
          show source * W + (j + bitShift) = (source + 1) * W + (j - (W - bitShift)) by
            rw [Nat.add_mul, Nat.one_mul]
            omega,
          test_mul_add hW b (source + 1) _ (by omega)]
        simp [hj]
        omega
      have hle' : (source + 1 + 1) * W ≤ words * W := Nat.mul_le_mul_right W hnext
      rw [Nat.add_mul, Nat.add_mul, Nat.one_mul] at hle'
      rw [if_pos ⟨by omega, hnext⟩, BitVec.getLsbD_or, hhigh, hcarry, Bool.false_or]
      constructor
      · intro h
        exact ⟨by omega, h⟩
      · exact fun h => h.2
    · have hlast : words * W ≤ (source + 1) * W := Nat.mul_le_mul_right W (by omega)
      rw [Nat.add_mul, Nat.one_mul] at hlast
      rw [if_neg (fun h => hnext h.2), hhigh]
      constructor
      · intro h
        cases h
      · intro h
        omega

/-! ## The shifts -/

theorem test_reset (hW : 0 < W) (b : Bitmap N W) {i : ℕ}
    (hi : wordOf W i < storageTypeInstanceCount N W) : b.reset.test i = false := by
  rw [test_eq hW, reset, words_applyWhole, Nat.zero_add, if_pos ⟨Nat.zero_le _, hi⟩]
  simp

/-- **Shifting to the left.** -/
theorem test_shiftLeft (hW : 0 < W) (hN : W ∣ N) (b : Bitmap N W) (count : ℕ) {i : ℕ}
    (hi : i < N) :
    (b.shiftLeft count).test i = true ↔ count ≤ i ∧ b.test (i - count) = true := by
  unfold shiftLeft
  by_cases hzero : count = 0
  · rw [if_pos hzero, hzero]
    simp
  rw [if_neg hzero]
  by_cases hall : count ≥ N
  · rw [if_pos hall, test_reset hW b (wordOf_lt hN hi)]
    simp
    omega
  have hword := getLsbD_leftWord hW b (count / W) (i / W) (Nat.mod_lt count hW) (Nat.mod_lt i hW)
  rw [Nat.div_add_mod', Nat.div_add_mod'] at hword
  rw [if_neg hall, test_eq hW, words_shiftLeftFrom, if_pos (wordOf_lt hN hi), hword]

/-- **Shifting to the right.** -/
theorem test_shiftRight (hW : 0 < W) (hN : W ∣ N) (b : Bitmap N W) (count : ℕ) {i : ℕ}
    (hi : i < N) :
    (b.shiftRight count).test i = true ↔ i + count < N ∧ b.test (i + count) = true := by
  unfold shiftRight
  by_cases hzero : count = 0
  · rw [if_pos hzero, hzero]
    simp [hi]
  rw [if_neg hzero]
  by_cases hall : count ≥ N
  · rw [if_pos hall, test_reset hW b (wordOf_lt hN hi)]
    simp
    omega
  have hword := getLsbD_rightWord hW b (count / W) (i / W) (Nat.mod_lt count hW)
    (Nat.mod_lt i hW)
  rw [Nat.div_add_mod', Nat.div_add_mod', storageTypeInstanceCount_mul hN] at hword
  rw [if_neg hall, test_eq hW, words_shiftRightFrom, Nat.zero_add,
    if_pos ⟨Nat.zero_le _, wordOf_lt hN hi⟩, hword]

/-- **Shifts are exact.**  When the size is a whole number of words, a bit is set after a
shift if and only if the bit that was moved there was set, and nothing is moved in. -/
theorem shifts_exact (hW : 0 < W) (hN : W ∣ N) (b : Bitmap N W) (count : ℕ) :
    ∀ i < N,
      ((b.shiftLeft count).test i = true ↔ count ≤ i ∧ b.test (i - count) = true) ∧
      ((b.shiftRight count).test i = true ↔ i + count < N ∧ b.test (i + count) = true) := by
  intro i hi
  exact ⟨test_shiftLeft hW hN b count hi, test_shiftRight hW hN b count hi⟩

/-- Three words of eight bits and a shift over the border of two words, there and back. -/
theorem shifts_exact_small :
    let b := (zero 24 8).setRange 5 2
    (b.shiftLeft 10).test 16 = true ∧ ((b.shiftLeft 10).shiftRight 10).test 6 = true := by
  intro b
  have hleft := (shifts_exact (by decide) (by decide) b 10 16 (by decide)).1
  have hright := (shifts_exact (by decide) (by decide) (b.shiftLeft 10) 10 6 (by decide)).2
  have hset : (b.shiftLeft 10).test 16 = true := hleft.mpr ⟨by decide, by decide +kernel⟩
  exact ⟨hset, hright.mpr ⟨by decide, hset⟩⟩

end Bitmap

end DoomOs
