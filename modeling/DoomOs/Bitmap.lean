/-
# The fixed-size bitmap

`bitmap<N, StorageType>` of `kernel/core/utils/bitmap.hpp`, for a word type of `W`
bits.  The storage is a function of the word index, since the source does not
check its accesses; `NPOS` is `none`.

The word loops and masks of the source are kept.  What they come to is said bit
by bit: `test_apply` for the range operations, `FirstSet` for the searches, and
`countSet_eq` for the population counts.
-/
import DoomOs.Page

namespace DoomOs

/-- `bitmap<N, StorageType>`, with `W` bits to a word. -/
structure Bitmap (N W : ℕ) where
  words : ℕ → BitVec W

namespace Bitmap

variable {N W : ℕ}

/-! ## Words and masks -/

/-- `bit`. -/
def bit (W index : ℕ) : BitVec W := if index ≥ W then 0#W else 1#W <<< index

/-- `mask`. -/
def mask (W bitCount : ℕ) : BitVec W :=
  if bitCount ≥ W then BitVec.allOnes W else bit W bitCount - 1#W

/-- `word_of`. -/
@[reducible] def wordOf (W index : ℕ) : ℕ := index / W

/-- `offset_of`. -/
@[reducible] def offsetOf (W index : ℕ) : ℕ := index % W

/-- `bit_of`. -/
def bitOf (W index : ℕ) : BitVec W := 1#W <<< offsetOf W index

/-- `mask_from`. -/
def maskFrom (W first : ℕ) : BitVec W := ~~~ mask W (offsetOf W first)

/-- `mask_upto`. -/
def maskUpto (W last : ℕ) : BitVec W := mask W (offsetOf W last + 1)

/-- `std::countr_zero`. -/
def countrZero (value : BitVec W) : ℕ := value.ctz.toNat

/-- `std::popcount`. -/
def popcount (value : BitVec W) : ℕ := value.cpop.toNat

/-! ## Single bits and ranges -/

/-- The bitmap a default constructor builds. -/
def zero (N W : ℕ) : Bitmap N W := ⟨fun _ => 0#W⟩

/-- `test`. -/
def test (b : Bitmap N W) (index : ℕ) : Bool :=
  (b.words (wordOf W index) &&& bitOf W index) != 0#W

/-- `apply_word`. -/
def applyWord (b : Bitmap N W) (word : ℕ) (selected : BitVec W) (value : Bool) : Bitmap N W :=
  if value then ⟨Function.update b.words word (b.words word ||| selected)⟩
  else ⟨Function.update b.words word (b.words word &&& ~~~ selected)⟩

/-- The loop of `apply` over whole words: `n` of them from `word` on. -/
def applyWhole (b : Bitmap N W) (value : Bool) : (word n : ℕ) → Bitmap N W
  | _, 0 => b
  | word, n + 1 =>
    applyWhole ⟨Function.update b.words word (if value then BitVec.allOnes W else 0#W)⟩
      value (word + 1) n

/-- `apply`. -/
def apply (b : Bitmap N W) (first count : ℕ) (value : Bool) : Bitmap N W :=
  if count = 0 then b
  else
    let last := first + count - 1
    let firstWord := wordOf W first
    let lastWord := wordOf W last
    if firstWord = lastWord then
      b.applyWord firstWord (maskFrom W first &&& maskUpto W last) value
    else
      ((b.applyWord firstWord (maskFrom W first) value).applyWhole value (firstWord + 1)
        (lastWord - (firstWord + 1))).applyWord lastWord (maskUpto W last) value

/-- `set(first, count)`. -/
def setRange (b : Bitmap N W) (first count : ℕ) : Bitmap N W := b.apply first count true

/-- `clear(first, count)`. -/
def clearRange (b : Bitmap N W) (first count : ℕ) : Bitmap N W := b.apply first count false

/-- `clear(index)`. -/
def clear (b : Bitmap N W) (index : ℕ) : Bitmap N W :=
  ⟨Function.update b.words (wordOf W index) (b.words (wordOf W index) &&& ~~~ bitOf W index)⟩

/-! ## Searches and counts -/

/-- `find_set(first_word, words)`. -/
def findSet (b : Bitmap N W) : (firstWord words : ℕ) → Option ℕ
  | _, 0 => none
  | word, n + 1 =>
    if b.words word ≠ 0#W then some (word * W + countrZero (b.words word))
    else findSet b (word + 1) n

/-- The first set bit of `word` among `selected`. -/
def findSelected (b : Bitmap N W) (word : ℕ) (selected : BitVec W) : Option ℕ :=
  if b.words word &&& selected ≠ 0#W then
    some (word * W + countrZero (b.words word &&& selected))
  else none

/-- `find_set_in`. -/
def findSetIn (b : Bitmap N W) (first count : ℕ) : Option ℕ :=
  if count = 0 then none
  else
    let last := first + count - 1
    let firstWord := wordOf W first
    let lastWord := wordOf W last
    if firstWord = lastWord then
      b.findSelected firstWord (maskFrom W first &&& maskUpto W last)
    else
      (b.findSelected firstWord (maskFrom W first)).or
        ((b.findSet (firstWord + 1) (lastWord - (firstWord + 1))).or
          (b.findSelected lastWord (maskUpto W last)))

/-- `count_set(first_word, words)`. -/
def countSet (b : Bitmap N W) : (firstWord words : ℕ) → ℕ
  | _, 0 => 0
  | word, n + 1 => popcount (b.words word) + countSet b (word + 1) n

/-! ## What the masks select -/

theorem getLsbD_mask (n i : ℕ) : (mask W n).getLsbD i = decide (i < n ∧ i < W) := by
  unfold mask
  by_cases hn : n ≥ W
  · rw [if_pos hn, BitVec.getLsbD_allOnes]
    by_cases hi : i < W
    · simp [hi, show i < n by omega]
    · simp [hi]
  · rw [if_neg hn, bit, if_neg hn]
    have hlt : n < W := by omega
    have hpow : 2 ^ n < 2 ^ W := Nat.pow_lt_pow_right (by decide) hlt
    have hval : ((1#W <<< n) - 1#W).toNat = 2 ^ n - 1 := by
      have hone : 1 < 2 ^ W := by
        calc 1 ≤ 2 ^ n := Nat.one_le_two_pow
          _ < 2 ^ W := hpow
      have hsh : (1#W <<< n).toNat = 2 ^ n := by
        rw [BitVec.toNat_shiftLeft, BitVec.toNat_ofNat, Nat.mod_eq_of_lt hone,
          Nat.one_shiftLeft, Nat.mod_eq_of_lt hpow]
      have h1 : (1#W).toNat = 1 := by rw [BitVec.toNat_ofNat, Nat.mod_eq_of_lt hone]
      have hle : 1#W ≤ 1#W <<< n := by
        rw [BitVec.le_def, h1, hsh]
        exact Nat.one_le_two_pow
      rw [BitVec.toNat_sub_of_le hle, hsh, h1]
    rw [BitVec.getLsbD, hval, Nat.testBit_two_pow_sub_one]
    by_cases hi : i < n
    · simp [hi, show i < W by omega]
    · simp [hi]

theorem getLsbD_maskFrom (first i : ℕ) :
    (maskFrom W first).getLsbD i = decide (first % W ≤ i ∧ i < W) := by
  rw [maskFrom, BitVec.getLsbD_not, getLsbD_mask, offsetOf]
  by_cases hi : i < W <;> by_cases hf : first % W ≤ i <;> simp [hi, hf]
  omega

theorem getLsbD_maskUpto (last i : ℕ) :
    (maskUpto W last).getLsbD i = decide (i ≤ last % W ∧ i < W) := by
  rw [maskUpto, getLsbD_mask, offsetOf]
  by_cases hi : i < W
  · rw [decide_eq_decide, Nat.lt_succ_iff]
  · simp [hi]

/-- `test` reads the bit at its word and offset. -/
theorem test_eq (hW : 0 < W) (b : Bitmap N W) (i : ℕ) :
    b.test i = (b.words (i / W)).getLsbD (i % W) := by
  have hlt : i % W < W := Nat.mod_lt _ hW
  have hbit : bitOf W i = BitVec.twoPow W (i % W) := rfl
  have hne : BitVec.twoPow W (i % W) ≠ 0#W := by
    intro h
    have := congrArg (fun x => x.getLsbD (i % W)) h
    simp [hlt] at this
  rw [test, wordOf, hbit, BitVec.and_twoPow]
  by_cases hb : (b.words (i / W)).getLsbD (i % W)
  · simp [hb, hne]
  · simp [hb]

/-- Comparing two indices by word and offset. -/
theorem le_iff_word {W : ℕ} (hW : 0 < W) (a b : ℕ) :
    a ≤ b ↔ a / W < b / W ∨ (a / W = b / W ∧ a % W ≤ b % W) := by
  have ha := Nat.div_add_mod a W
  have hb := Nat.div_add_mod b W
  have hra := Nat.mod_lt a hW
  have hrb := Nat.mod_lt b hW
  constructor
  · intro h
    rcases Nat.lt_or_ge (a / W) (b / W) with hlt | hge
    · exact Or.inl hlt
    · have heq : a / W = b / W := le_antisymm (Nat.div_le_div_right h) hge
      rw [heq] at ha
      exact Or.inr ⟨heq, by omega⟩
  · rintro (h | ⟨h, hr⟩)
    · by_contra hlt
      exact absurd (Nat.div_le_div_right (c := W) (by omega : b ≤ a)) (by omega)
    · rw [h] at ha
      omega

/-! ## The range operations -/

theorem words_applyWhole (value : Bool) : ∀ (n word : ℕ) (b : Bitmap N W) (w : ℕ),
    (b.applyWhole value word n).words w =
      if word ≤ w ∧ w < word + n then (if value then BitVec.allOnes W else 0#W)
      else b.words w := by
  intro n
  induction n with
  | zero =>
    intro word b w
    rw [applyWhole, if_neg (by omega)]
  | succ n ih =>
    intro word b w
    rw [applyWhole, ih]
    by_cases hw : w = word
    · subst hw
      have hout : ¬ (w + 1 ≤ w ∧ w < w + 1 + n) := by omega
      have hin : w ≤ w ∧ w < w + (n + 1) := by omega
      rw [if_neg hout, if_pos hin]
      exact Function.update_self ..
    · have hsame : Function.update b.words word (if value then BitVec.allOnes W else 0#W) w
          = b.words w := Function.update_of_ne hw ..
      by_cases hin : word + 1 ≤ w ∧ w < word + 1 + n
      · rw [if_pos hin, if_pos (by omega : word ≤ w ∧ w < word + (n + 1))]
      · rw [if_neg hin, if_neg (by omega : ¬ (word ≤ w ∧ w < word + (n + 1)))]
        exact hsame

theorem words_applyWord (b : Bitmap N W) (word : ℕ) (sel : BitVec W) (value : Bool) (w j : ℕ) :
    ((b.applyWord word sel value).words w).getLsbD j =
      if w = word ∧ sel.getLsbD j then value else (b.words w).getLsbD j := by
  by_cases hw : w = word
  · subst hw
    cases value
    · cases hs : sel.getLsbD j
      · by_cases hj : j < W
        · have hs' : sel[j] = false := by rw [← BitVec.getLsbD_eq_getElem hj, hs]
          simp [applyWord, hs', hj]
        · simp [applyWord, BitVec.getLsbD_of_ge _ _ (Nat.le_of_not_lt hj)]
      · have hj : j < W := BitVec.lt_of_getLsbD hs
        simp [applyWord, hs]
    · cases hs : sel.getLsbD j <;> simp [applyWord, hs]
  · cases value <;> simp [applyWord, hw]

/-- **Range operations are exact.**  Exactly the bits `first .. first + count - 1`
take the value. -/
theorem test_apply (hW : 0 < W) (b : Bitmap N W) (first count : ℕ) (value : Bool) (i : ℕ) :
    (b.apply first count value).test i =
      if first ≤ i ∧ i < first + count then value else b.test i := by
  by_cases hc : count = 0
  · rw [apply, if_pos hc, if_neg (by omega)]
  have hoff : i % W < W := Nat.mod_lt _ hW
  have hlo := le_iff_word hW first i
  have hhi : i < first + count ↔ i ≤ first + count - 1 := by omega
  have hhi' := le_iff_word hW i (first + count - 1)
  rw [test_eq hW, test_eq hW, apply, if_neg hc]
  by_cases hw : first / W = (first + count - 1) / W
  · rw [if_pos hw, words_applyWord, BitVec.getLsbD_and, getLsbD_maskFrom, getLsbD_maskUpto]
    refine if_congr ?_ rfl rfl
    rw [hlo, hhi, hhi']
    simp only [Bool.and_eq_true, decide_eq_true_eq, wordOf]
    omega
  · have hlt : first / W < (first + count - 1) / W :=
      lt_of_le_of_ne (Nat.div_le_div_right (by omega)) hw
    have hmid : first / W + 1 + ((first + count - 1) / W - (first / W + 1))
        = (first + count - 1) / W := by omega
    rw [if_neg hw, words_applyWord, getLsbD_maskUpto, words_applyWhole, hmid]
    rcases Nat.lt_or_ge (i / W) ((first + count - 1) / W) with hl | hl
    · have hnot : ¬ (i / W = (first + count - 1) / W ∧
          decide (i % W ≤ (first + count - 1) % W ∧ i % W < W) = true) := by omega
      rw [if_neg hnot]
      by_cases hin : first / W + 1 ≤ i / W
      · have hval : first ≤ i ∧ i < first + count := by
          rw [hlo, hhi, hhi']
          omega
        rw [if_pos ⟨hin, hl⟩, if_pos hval]
        cases value <;> simp [hoff]
      · rw [if_neg (fun h => hin h.1), words_applyWord, getLsbD_maskFrom]
        refine if_congr ?_ rfl rfl
        rw [hlo, hhi, hhi', decide_eq_true_eq, wordOf]
        omega
    · have hnot : ¬ (first / W + 1 ≤ i / W ∧ i / W < (first + count - 1) / W) := by omega
      have hnot' : ¬ (i / W = first / W ∧ (maskFrom W first).getLsbD (i % W) = true) := by omega
      rw [if_neg hnot, words_applyWord, if_neg hnot']
      refine if_congr ?_ rfl rfl
      rw [hlo, hhi, hhi', decide_eq_true_eq, wordOf]
      omega

@[simp] theorem test_setRange (hW : 0 < W) (b : Bitmap N W) (first count i : ℕ) :
    (b.setRange first count).test i = (decide (first ≤ i ∧ i < first + count) || b.test i) := by
  rw [setRange, test_apply hW]
  by_cases h : first ≤ i ∧ i < first + count <;> simp [h]

@[simp] theorem test_clearRange (hW : 0 < W) (b : Bitmap N W) (first count i : ℕ) :
    (b.clearRange first count).test i =
      (!decide (first ≤ i ∧ i < first + count) && b.test i) := by
  rw [clearRange, test_apply hW]
  by_cases h : first ≤ i ∧ i < first + count <;> simp [h]

/-- Clearing one bit. -/
theorem test_clear (hW : 0 < W) (b : Bitmap N W) (index i : ℕ) :
    (b.clear index).test i = (!decide (i = index) && b.test i) := by
  have hoff : i % W < W := Nat.mod_lt _ hW
  have hbit : bitOf W index = BitVec.twoPow W (index % W) := rfl
  rw [test_eq hW, test_eq hW]
  simp only [clear, wordOf, hbit]
  by_cases hw : i / W = index / W
  · rw [hw, Function.update_self]
    have hiff : i = index ↔ i % W = index % W := by
      constructor
      · rintro rfl
        rfl
      · intro hr
        rw [← Nat.div_add_mod i W, ← Nat.div_add_mod index W, hw, hr]
    by_cases hr : i % W = index % W
    · have hlt : index % W < W := Nat.mod_lt _ hW
      simp [hiff, hr, hlt]
    · simp [hiff, hr, hoff]
  · rw [Function.update_of_ne hw]
    have hne : i ≠ index := fun e => hw (by rw [e])
    simp [hne]

/-! ## The searches -/

/-- `r` is the first set bit of `[lo, hi)`, or `none` if there is none. -/
def FirstSet (b : Bitmap N W) (lo hi : ℕ) : Option ℕ → Prop
  | none => ∀ j, lo ≤ j → j < hi → b.test j = false
  | some i => lo ≤ i ∧ i < hi ∧ b.test i = true ∧ ∀ j, lo ≤ j → j < i → b.test j = false

/-- Searching two adjacent ranges one after the other searches their union. -/
theorem FirstSet.or {b : Bitmap N W} {lo mid hi : ℕ} {r r' : Option ℕ}
    (h : b.FirstSet lo mid r) (h' : b.FirstSet mid hi r') (hlo : lo ≤ mid) (hhi : mid ≤ hi) :
    b.FirstSet lo hi (r.or r') := by
  cases r with
  | some i =>
    obtain ⟨h1, h2, h3, h4⟩ := h
    exact ⟨h1, by omega, h3, h4⟩
  | none =>
    rw [Option.none_or]
    cases r' with
    | some i =>
      obtain ⟨h1, h2, h3, h4⟩ := h'
      refine ⟨by omega, h2, h3, fun j hj hji => ?_⟩
      rcases Nat.lt_or_ge j mid with hlt | hge
      · exact h j hj hlt
      · exact h4 j hge hji
    | none =>
      intro j hj hjh
      rcases Nat.lt_or_ge j mid with hlt | hge
      · exact h j hj hlt
      · exact h' j hge hjh

theorem FirstSet.eq_none_iff {b : Bitmap N W} {lo hi : ℕ} {r : Option ℕ}
    (h : b.FirstSet lo hi r) : r = none ↔ ∀ j, lo ≤ j → j < hi → b.test j = false := by
  cases r with
  | none => exact ⟨fun _ => h, fun _ => rfl⟩
  | some i =>
    obtain ⟨h1, h2, h3, -⟩ := h
    refine ⟨fun e => absurd e (Option.some_ne_none i), fun hall => ?_⟩
    rw [hall i h1 h2] at h3
    cases h3

theorem test_mul_add (hW : 0 < W) (b : Bitmap N W) (w j : ℕ) (hj : j < W) :
    b.test (w * W + j) = (b.words w).getLsbD j := by
  have hdiv : (w * W + j) / W = w := by
    rw [Nat.mul_comm, Nat.mul_add_div hW, Nat.div_eq_of_lt hj, Nat.add_zero]
  have hmod : (w * W + j) % W = j := by
    rw [Nat.mul_comm, Nat.mul_add_mod, Nat.mod_eq_of_lt hj]
  rw [test_eq hW, hdiv, hmod]

/-- A search inside one word, among the offsets `[lo, hi)`. -/
theorem firstSet_findSelected (hW : 0 < W) (b : Bitmap N W) (w : ℕ) (sel : BitVec W) (lo hi : ℕ)
    (hhi : hi ≤ W) (hsel : ∀ j, sel.getLsbD j = true ↔ lo ≤ j ∧ j < hi) :
    b.FirstSet (w * W + lo) (w * W + hi) (b.findSelected w sel) := by
  unfold findSelected
  by_cases hz : b.words w &&& sel ≠ 0#W
  · rw [if_pos hz]
    have hbit := BitVec.getLsbD_true_ctz_of_ne_zero hz
    rw [BitVec.getLsbD_and, Bool.and_eq_true, hsel] at hbit
    obtain ⟨hb, hlo, hlt⟩ := hbit
    refine ⟨?_, ?_, ?_, ?_⟩
    · simp only [countrZero]
      omega
    · simp only [countrZero]
      omega
    · rw [test_mul_add hW _ _ _ (by simp only [countrZero]; omega)]
      exact hb
    · intro j hj hji
      obtain ⟨k, rfl⟩ : ∃ k, j = w * W + k := ⟨j - w * W, by omega⟩
      have hk : k < (b.words w &&& sel).ctz.toNat := by
        simp only [countrZero] at hji
        omega
      have hfalse := BitVec.getLsbD_false_of_lt_ctz hk
      rw [BitVec.getLsbD_and, (hsel k).mpr ⟨by omega, by omega⟩, Bool.and_true] at hfalse
      rw [test_mul_add hW _ _ _ (by omega)]
      exact hfalse
  · rw [if_neg hz]
    intro j hj hjh
    obtain ⟨k, rfl⟩ : ∃ k, j = w * W + k := ⟨j - w * W, by omega⟩
    have hzero := congrArg (fun x => x.getLsbD k) (not_not.mp hz)
    simp only [BitVec.getLsbD_and, BitVec.getLsbD_zero, (hsel k).mpr ⟨by omega, by omega⟩,
      Bool.and_true] at hzero
    rw [test_mul_add hW _ _ _ (by omega)]
    exact hzero

/-- **Word search.**  `find_set` returns the first set bit of its words. -/
theorem firstSet_findSet (hW : 0 < W) (b : Bitmap N W) : ∀ n w : ℕ,
    b.FirstSet (w * W) ((w + n) * W) (b.findSet w n) := by
  intro n
  induction n with
  | zero =>
    intro w j hj hjh
    rw [Nat.add_zero] at hjh
    omega
  | succ n ih =>
    intro w
    have hword := firstSet_findSelected hW b w (BitVec.allOnes W) 0 W le_rfl (by simp)
    have hrest := ih (w + 1)
    rw [Nat.add_zero, show w * W + W = (w + 1) * W by ring] at hword
    rw [show w + 1 + n = w + (n + 1) by ring] at hrest
    have hor := hword.or hrest (Nat.mul_le_mul_right W (by omega))
      (Nat.mul_le_mul_right W (by omega))
    have heq : b.findSet w (n + 1)
        = (b.findSelected w (BitVec.allOnes W)).or (b.findSet (w + 1) n) := by
      rw [findSet, findSelected, BitVec.and_allOnes]
      by_cases hz : b.words w ≠ 0#W
      · rw [if_pos hz, if_pos hz, Option.some_or]
      · rw [if_neg hz, if_neg hz, Option.none_or]
    rw [heq]
    exact hor

/-- **Range search.**  `find_set_in` returns the first set bit of its range. -/
theorem firstSet_findSetIn (hW : 0 < W) (b : Bitmap N W) (first count : ℕ) :
    b.FirstSet first (first + count) (b.findSetIn first count) := by
  by_cases hc : count = 0
  · rw [findSetIn, if_pos hc]
    intro j hj hjh
    omega
  have hf := Nat.div_add_mod' first W
  have hl := Nat.div_add_mod' (first + count - 1) W
  have hfr := Nat.mod_lt first hW
  have hlr := Nat.mod_lt (first + count - 1) hW
  rw [findSetIn, if_neg hc]
  by_cases hw : first / W = (first + count - 1) / W
  · rw [if_pos hw]
    have hsel := firstSet_findSelected hW b (first / W)
      (maskFrom W first &&& maskUpto W (first + count - 1)) (first % W)
      ((first + count - 1) % W + 1) hlr (fun j => by
        rw [BitVec.getLsbD_and, getLsbD_maskFrom, getLsbD_maskUpto]
        simp only [Bool.and_eq_true, decide_eq_true_eq]
        omega)
    rw [hf, hw, show (first + count - 1) / W * W + ((first + count - 1) % W + 1)
      = first + count by omega, ← hw] at hsel
    exact hsel
  · rw [if_neg hw]
    have hlt : first / W < (first + count - 1) / W :=
      lt_of_le_of_ne (Nat.div_le_div_right (by omega)) hw
    have h1 := firstSet_findSelected hW b (first / W) (maskFrom W first) (first % W) W le_rfl
      (fun j => by rw [getLsbD_maskFrom, decide_eq_true_eq])
    have h2 := firstSet_findSet hW b ((first + count - 1) / W - (first / W + 1)) (first / W + 1)
    have h3 := firstSet_findSelected hW b ((first + count - 1) / W)
      (maskUpto W (first + count - 1)) 0 ((first + count - 1) % W + 1) hlr (fun j => by
        rw [getLsbD_maskUpto, decide_eq_true_eq]
        omega)
    rw [hf, show first / W * W + W = (first / W + 1) * W by ring] at h1
    rw [show first / W + 1 + ((first + count - 1) / W - (first / W + 1))
      = (first + count - 1) / W by omega] at h2
    rw [Nat.add_zero, show (first + count - 1) / W * W + ((first + count - 1) % W + 1)
      = first + count by omega] at h3
    have hle : (first / W + 1) * W ≤ (first + count - 1) / W * W :=
      Nat.mul_le_mul_right W hlt
    have hfle : first ≤ (first / W + 1) * W := by
      rw [Nat.add_mul, Nat.one_mul]
      omega
    exact h1.or (h2.or h3 hle (by omega)) hfle (by omega)

/-! ## The counts -/

/-- How many bits of `[lo, hi)` are set. -/
def setCount (b : Bitmap N W) (lo hi : ℕ) : ℕ :=
  ((Finset.Ico lo hi).filter (fun i => b.test i = true)).card

theorem popcount_eq (x : BitVec W) :
    popcount x = ((Finset.range W).filter (fun i => x.getLsbD i = true)).card := by
  have hrec : ∀ n, x.cpopNatRec n 0
      = ((Finset.range n).filter (fun i => x.getLsbD i = true)).card := by
    intro n
    induction n with
    | zero => simp
    | succ n ih =>
      rw [BitVec.cpopNatRec_succ, BitVec.cpopNatRec_eq, ih, Finset.range_add_one,
        Finset.filter_insert]
      by_cases hb : x.getLsbD n = true
      · rw [if_pos hb, Finset.card_insert_of_notMem (by simp), hb]
        rfl
      · rw [if_neg hb, Bool.eq_false_of_not_eq_true hb]
        rfl
  rw [popcount, BitVec.toNat_cpop, hrec]

theorem setCount_add (b : Bitmap N W) {lo mid hi : ℕ} (h : lo ≤ mid) (h' : mid ≤ hi) :
    b.setCount lo hi = b.setCount lo mid + b.setCount mid hi := by
  unfold setCount
  rw [← Finset.Ico_union_Ico_eq_Ico h h', Finset.filter_union]
  exact Finset.card_union_of_disjoint
    (Finset.disjoint_filter_filter (Finset.Ico_disjoint_Ico_consecutive lo mid hi))

theorem setCount_word (hW : 0 < W) (b : Bitmap N W) (w : ℕ) :
    b.setCount (w * W) ((w + 1) * W) = popcount (b.words w) := by
  rw [popcount_eq, setCount]
  symm
  refine Finset.card_bij (fun j _ => w * W + j) ?_ ?_ ?_
  · intro j hj
    rw [Finset.mem_filter, Finset.mem_range] at hj
    rw [Finset.mem_filter, Finset.mem_Ico, test_mul_add hW _ _ _ hj.1, Nat.add_mul, Nat.one_mul]
    exact ⟨⟨by omega, by omega⟩, hj.2⟩
  · intro i _ j _ h
    omega
  · intro j hj
    rw [Finset.mem_filter, Finset.mem_Ico, Nat.add_mul, Nat.one_mul] at hj
    obtain ⟨⟨hlo, hhi⟩, ht⟩ := hj
    have hlt : j - w * W < W := by omega
    refine ⟨j - w * W, ?_, by omega⟩
    rw [Finset.mem_filter, Finset.mem_range, ← test_mul_add hW _ _ _ hlt,
      Nat.add_sub_cancel' hlo]
    exact ⟨hlt, ht⟩

/-- **Word counts.**  `count_set` counts the set bits of its words. -/
theorem countSet_eq (hW : 0 < W) (b : Bitmap N W) : ∀ n w : ℕ,
    b.countSet w n = b.setCount (w * W) ((w + n) * W) := by
  intro n
  induction n with
  | zero =>
    intro w
    simp [countSet, setCount]
  | succ n ih =>
    intro w
    rw [countSet, ih, ← setCount_word hW,
      ← b.setCount_add (Nat.mul_le_mul_right W (by omega)) (Nat.mul_le_mul_right W (by omega)),
      show w + 1 + n = w + (n + 1) by ring]

theorem setCount_congr {b b' : Bitmap N W} {lo hi : ℕ}
    (h : ∀ i, lo ≤ i → i < hi → b'.test i = b.test i) : b'.setCount lo hi = b.setCount lo hi := by
  unfold setCount
  congr 1
  refine Finset.filter_congr (fun i hi => ?_)
  rw [Finset.mem_Ico] at hi
  rw [h i hi.1 hi.2]

theorem setCount_le (b : Bitmap N W) (lo hi : ℕ) : b.setCount lo hi ≤ hi - lo := by
  calc b.setCount lo hi ≤ (Finset.Ico lo hi).card := Finset.card_filter_le _ _
    _ = hi - lo := Nat.card_Ico lo hi

theorem setCount_eq_zero_iff (b : Bitmap N W) (lo hi : ℕ) :
    b.setCount lo hi = 0 ↔ ∀ i, lo ≤ i → i < hi → b.test i = false := by
  rw [setCount, Finset.card_eq_zero, Finset.filter_eq_empty_iff]
  simp only [Finset.mem_Ico, Bool.not_eq_true, and_imp]

theorem setCount_eq_sub_iff (b : Bitmap N W) (lo hi : ℕ) :
    b.setCount lo hi = hi - lo ↔ ∀ i, lo ≤ i → i < hi → b.test i = true := by
  rw [← Nat.card_Ico lo hi, setCount, Finset.card_filter_eq_iff]
  simp only [Finset.mem_Ico, and_imp]

/-- Switching one bit of the range on adds one. -/
theorem setCount_of_set {b b' : Bitmap N W} {lo hi k : ℕ} (hlo : lo ≤ k) (hhi : k < hi)
    (hoff : b.test k = false) (hon : b'.test k = true)
    (h : ∀ i, lo ≤ i → i < hi → i ≠ k → b'.test i = b.test i) :
    b'.setCount lo hi = b.setCount lo hi + 1 := by
  have hset : (Finset.Ico lo hi).filter (fun i => b'.test i = true)
      = insert k ((Finset.Ico lo hi).filter (fun i => b.test i = true)) := by
    ext i
    simp only [Finset.mem_filter, Finset.mem_Ico, Finset.mem_insert]
    by_cases hik : i = k
    · subst hik
      simp [hlo, hhi, hon]
    · constructor
      · rintro ⟨hi, ht⟩
        exact Or.inr ⟨hi, by rw [← h i hi.1 hi.2 hik, ht]⟩
      · rintro (e | ⟨hi, ht⟩)
        · exact absurd e hik
        · exact ⟨hi, by rw [h i hi.1 hi.2 hik, ht]⟩
  rw [setCount, hset, Finset.card_insert_of_notMem (by simp [hoff]), setCount]

end Bitmap

end DoomOs
