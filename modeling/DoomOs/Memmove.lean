/-
# Moving bytes

`memmove` of `kernel/runtime/memory.cpp`.  It copies from the first byte on when the
destination lies below the source, and from the last byte back when it lies above.  Either
way a byte is read before the copy can reach it.
-/
import DoomOs.Moves
import DoomOs.Multiboot2

namespace DoomOs

namespace Runtime

/-- The loop `d[i] = s[i]` of `memmove` over `n` indices from `i` on. -/
def copyForward (dest src : ℕ) : (n i : ℕ) → Memory → Memory
  | 0, _, m => m
  | n + 1, i, m =>
    copyForward dest src n (i + 1) (Function.update m (u64 (dest + i)) (m (u64 (src + i))))

/-- The loop `d[i - 1] = s[i - 1]` of `memmove` from `i` back. -/
def copyBackward (dest src : ℕ) : (i : ℕ) → Memory → Memory
  | 0, m => m
  | i + 1, m =>
    copyBackward dest src i (Function.update m (u64 (dest + i)) (m (u64 (src + i))))

/-- `memmove`: what it returns, and memory behind it. -/
def memmove (dest src count : ℕ) (m : Memory) : ℕ × Memory :=
  if dest = src ∨ count = 0 then (dest, m)
  else if dest < src then (dest, copyForward dest src count 0 m)
  else (dest, copyBackward dest src count m)

/-! ## The two loops are ordered moves -/

theorem copyForward_eq_moveAll (dest src : ℕ) : ∀ (n i : ℕ) (m : Memory),
    copyForward dest src n i m
      = moveAll (fun j => u64 (dest + j)) (fun j => u64 (src + j)) (List.range' i n) m := by
  intro n
  induction n with
  | zero => exact fun i m => rfl
  | succ n ih =>
    intro i m
    rw [copyForward, ih, List.range'_succ, moveAll]

theorem copyBackward_eq_moveAll (dest src : ℕ) : ∀ (n : ℕ) (m : Memory),
    copyBackward dest src n m
      = moveAll (fun j => u64 (dest + j)) (fun j => u64 (src + j)) (List.range n).reverse m := by
  intro n
  induction n with
  | zero => exact fun m => rfl
  | succ n ih =>
    intro m
    rw [copyBackward, ih, List.range_succ, List.reverse_append, List.reverse_singleton,
      List.singleton_append, moveAll]

/-! ## Any overlap -/

/-- The moves of a region to another, in an order in which no byte is overwritten before it
is read. -/
theorem moveAll_region {dest src count : ℕ} {order : List ℕ} (m : Memory)
    (hd : dest + count ≤ 2 ^ 64) (hs : src + count ≤ 2 ^ 64) (hnodup : order.Nodup)
    (hmem : ∀ i, i ∈ order ↔ i < count)
    (horder : order.Pairwise (fun i j => dest + i ≠ src + j)) :
    (∀ i < count, moveAll (fun j => u64 (dest + j)) (fun j => u64 (src + j)) order m (dest + i)
      = m (src + i)) ∧
    ∀ a, a < dest ∨ dest + count ≤ a →
      moveAll (fun j => u64 (dest + j)) (fun j => u64 (src + j)) order m a = m a := by
  have hdest : ∀ i ∈ order, u64 (dest + i) = dest + i := fun i hi =>
    u64_of_lt (by have hlt := (hmem i).mp hi; omega)
  have hsrc : ∀ i ∈ order, u64 (src + i) = src + i := fun i hi =>
    u64_of_lt (by have hlt := (hmem i).mp hi; omega)
  constructor
  · intro i hi
    have hi' := (hmem i).mpr hi
    have hmove := @moveAll_exact _ _ _ _ (fun j => u64 (dest + j)) (fun j => u64 (src + j))
      order m ?_ ?_ i hi'
    · rwa [hdest i hi', hsrc i hi'] at hmove
    · apply hnodup.map_on
      intro j hj k hk heq
      rw [hdest j hj, hdest k hk] at heq
      omega
    · apply horder.imp_of_mem
      intro j k hj hk hne
      rwa [hdest j hj, hsrc k hk]
  · intro a ha
    apply moveAll_frame
    intro i hi
    have hlt := (hmem i).mp hi
    rw [hdest i hi]
    omega

/-- **Any overlap.**  When neither region wraps around the address space, the destination
holds afterwards what the source held before, and everything else is as it was. -/
theorem memmove_exact (m : Memory) {dest src count : ℕ} (hd : dest + count ≤ 2 ^ 64)
    (hs : src + count ≤ 2 ^ 64) :
    (∀ i < count, (memmove dest src count m).2 (dest + i) = m (src + i)) ∧
    (∀ a, a < dest ∨ dest + count ≤ a → (memmove dest src count m).2 a = m a) ∧
    (memmove dest src count m).1 = dest := by
  unfold memmove
  by_cases hsame : dest = src ∨ count = 0
  · rw [if_pos hsame]
    refine ⟨fun i hi => ?_, fun _ _ => rfl, rfl⟩
    rcases hsame with rfl | rfl
    · rfl
    · exact absurd hi (Nat.not_lt_zero i)
  rw [if_neg hsame]
  rw [not_or] at hsame
  by_cases hbelow : dest < src
  · -- byte `i` is written while the sources of the later bytes lie above it
    rw [if_pos hbelow, copyForward_eq_moveAll, ← List.range_eq_range']
    obtain ⟨hmoved, hframe⟩ := moveAll_region m hd hs List.nodup_range
      (fun i => List.mem_range) (List.pairwise_lt_range.imp fun {i j} hij => by omega)
    exact ⟨hmoved, hframe, rfl⟩
  · -- byte `i` is written while the sources of the later bytes lie below it
    rw [if_neg hbelow, copyBackward_eq_moveAll]
    obtain ⟨hmoved, hframe⟩ := moveAll_region m hd hs (List.nodup_reverse.mpr List.nodup_range)
      (fun i => by rw [List.mem_reverse, List.mem_range])
      (List.pairwise_reverse.mpr (List.pairwise_lt_range.imp fun {i j} hij => by omega))
    exact ⟨hmoved, hframe, rfl⟩

/-- Four bytes that are moved up by one, and down by one. -/
theorem memmove_exact_small :
    let m : Memory := fun a => UInt8.ofNat a
    ((memmove 11 10 4 m).2 14 = 13 ∧ (memmove 11 10 4 m).2 10 = 10) ∧
      (memmove 10 11 4 m).2 10 = 11 := by
  intro m
  obtain ⟨hup, hframe, -⟩ := @memmove_exact m 11 10 4 (by decide) (by decide)
  obtain ⟨hdown, -⟩ := @memmove_exact m 10 11 4 (by decide) (by decide)
  exact ⟨⟨hup 3 (by decide), hframe 10 (by decide)⟩, hdown 0 (by decide)⟩

end Runtime

end DoomOs
