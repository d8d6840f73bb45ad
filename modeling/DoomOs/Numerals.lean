/-
# Numerals

Numbers as they are written, the first digit in front: `numeral b n` are the digits of `n`
in base `b` without leading zeros, a single zero for the number zero, and `horner b` is the
number that digits stand for.

* `horner_numeral` and `numeral_canonical` say that a numeral is read back as its number and
  has no leading zero;
* `numeral_eq` takes the last digit off, which is what a loop that divides does;
* `length_numeral_le_iff` bounds the number of digits, and `map_range_digits` pads a numeral
  with zeros to a fixed width.
-/
import Mathlib.Data.List.GetD
import Mathlib.Data.Nat.Digits.Lemmas

namespace DoomOs

/-- The digits of `n` in base `b`, the first one in front. -/
def numeral (b n : ℕ) : List ℕ := if n = 0 then [0] else (Nat.digits b n).reverse

/-- The number that digits stand for. -/
def horner (b : ℕ) (digits : List ℕ) : ℕ := digits.foldl (fun value d => value * b + d) 0

variable {b n k : ℕ}

theorem horner_concat (b : ℕ) (digits : List ℕ) (d : ℕ) :
    horner b (digits ++ [d]) = horner b digits * b + d := by
  unfold horner
  rw [List.foldl_concat]

/-- The last digit is the remainder, and what stands before it is the numeral of the
quotient. -/
theorem numeral_eq (hb : 1 < b) (n : ℕ) :
    numeral b n = if n / b = 0 then [n % b] else numeral b (n / b) ++ [n % b] := by
  unfold numeral
  by_cases hn : n = 0
  · subst hn
    simp
  · rw [if_neg hn, Nat.digits_eq_cons_digits_div hb hn, List.reverse_cons]
    by_cases hdiv : n / b = 0
    · rw [if_pos hdiv, hdiv, Nat.digits_zero]
      rfl
    · rw [if_neg hdiv, if_neg hdiv]

theorem numeral_ne_nil (b n : ℕ) : numeral b n ≠ [] := by
  unfold numeral
  by_cases hn : n = 0
  · simp [hn]
  · simp [hn, Nat.digits_ne_nil_iff_ne_zero]

theorem numeral_lt (hb : 1 < b) {d : ℕ} (hd : d ∈ numeral b n) : d < b := by
  unfold numeral at hd
  by_cases hn : n = 0
  · rw [if_pos hn, List.mem_singleton] at hd
    omega
  · rw [if_neg hn, List.mem_reverse] at hd
    exact Nat.digits_lt_base hb hd

/-- A numeral that begins with a zero is that zero. -/
theorem numeral_canonical (h : (numeral b n).head? = some 0) : numeral b n = [0] := by
  unfold numeral at h ⊢
  by_cases hn : n = 0
  · rw [if_pos hn]
  · have hne : Nat.digits b n ≠ [] := Nat.digits_ne_nil_iff_ne_zero.mpr hn
    rw [if_neg hn, List.head?_reverse, List.getLast?_eq_some_getLast hne] at h
    exact absurd (Option.some.inj h) (Nat.getLast_digit_ne_zero b hn)

/-- **Reading back.** -/
theorem horner_numeral (hb : 1 < b) (n : ℕ) : horner b (numeral b n) = n := by
  induction n using Nat.strong_induction_on with
  | _ n ih =>
    rw [numeral_eq hb]
    by_cases hdiv : n / b = 0
    · rw [if_pos hdiv]
      have hlt : n < b := (Nat.div_eq_zero_iff_lt (by omega)).mp hdiv
      show 0 * b + n % b = n
      rw [Nat.mod_eq_of_lt hlt, Nat.zero_mul, Nat.zero_add]
    · have hlt : n / b < n := Nat.div_lt_self (Nat.pos_of_ne_zero fun h => hdiv (by simp [h])) hb
      rw [if_neg hdiv, horner_concat, ih _ hlt, Nat.div_add_mod']

/-- The number of digits. -/
theorem length_numeral_le_iff (hb : 1 < b) (hk : 0 < k) : (numeral b n).length ≤ k ↔ n < b ^ k := by
  unfold numeral
  by_cases hn : n = 0
  · have hpos : 0 < b ^ k := Nat.pow_pos (by omega)
    simp [hn, hpos]
    omega
  · rw [if_neg hn, List.length_reverse, Nat.digits_length_le_iff hb]

/-- The `k` digits of a number that has no more are its numeral behind zeros. -/
theorem map_range_digits (hb : 1 < b) (hk : 0 < k) (hn : n < b ^ k) :
    (List.range k).reverse.map (fun i => n / b ^ i % b)
      = List.replicate (k - (numeral b n).length) 0 ++ numeral b n := by
  have hlow : (List.range k).map (fun i => n / b ^ i % b)
      = Nat.digits b n ++ List.replicate (k - (Nat.digits b n).length) 0 := by
    have hlen : (Nat.digits b n).length ≤ k := (Nat.digits_length_le_iff hb n).mpr hn
    apply List.ext_getElem
    · simp [hlen]
    · intro i hi _
      rw [List.getElem_map, List.getElem_range, ← Nat.getD_digits n i hb]
      by_cases hlt : i < (Nat.digits b n).length
      · rw [List.getElem_append_left hlt, List.getD_eq_getElem _ _ hlt]
      · rw [List.getElem_append_right (by omega), List.getElem_replicate,
          List.getD_eq_default _ _ (by omega)]
  rw [List.map_reverse, hlow, List.reverse_append, List.reverse_replicate]
  unfold numeral
  by_cases hzero : n = 0
  · rw [if_pos hzero, hzero, Nat.digits_zero, List.reverse_nil, List.append_nil,
      List.length_nil, List.length_singleton, ← List.replicate_succ']
    congr 1
    omega
  · rw [if_neg hzero, List.length_reverse]

end DoomOs
