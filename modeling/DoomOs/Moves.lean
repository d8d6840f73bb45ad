/-
# Moving values one after the other

A loop that reads one place and writes another, `d i := s i`, for the indices of a list in
their order.  When the places that are written are different from one another, each of them
ends up with what its source held at the beginning, provided that no source is written
before it is read; all other places keep what they held.
-/
import Mathlib.Data.List.Nodup
import Mathlib.Logic.Function.Basic

namespace DoomOs

variable {ι A V : Type} [DecidableEq A] {d s : ι → A} {is : List ι} {m : A → V} {a : A}

/-- The moves `d i := s i`, in the order of the list. -/
def moveAll (d s : ι → A) : List ι → (A → V) → A → V
  | [], m => m
  | i :: is, m => moveAll d s is (Function.update m (d i) (m (s i)))

/-- What is not written keeps its value. -/
theorem moveAll_frame : ∀ {is : List ι} {m : A → V}, (∀ i ∈ is, d i ≠ a) →
    moveAll d s is m a = m a := by
  intro is
  induction is with
  | nil => exact fun _ => rfl
  | cons i is ih =>
    intro m h
    rw [List.forall_mem_cons] at h
    rw [moveAll, ih h.2, Function.update_of_ne h.1.symm]

/-- **Ordered moves.**  What is written is what its source held at the beginning. -/
theorem moveAll_exact : ∀ {is : List ι} {m : A → V}, (is.map d).Nodup →
    is.Pairwise (fun i j => d i ≠ s j) → ∀ i ∈ is, moveAll d s is m (d i) = m (s i) := by
  intro is
  induction is with
  | nil =>
    intro m _ _ i hi
    exact absurd hi List.not_mem_nil
  | cons k is ih =>
    intro m hd hs i hi
    rw [List.map_cons, List.nodup_cons] at hd
    rw [List.pairwise_cons] at hs
    rw [moveAll]
    rcases List.mem_cons.mp hi with rfl | hi
    · -- the place is not written again
      rw [moveAll_frame, Function.update_self]
      intro j hj heq
      exact hd.1 (heq ▸ List.mem_map_of_mem hj)
    · -- the first move leaves the source of a later one alone
      rw [ih hd.2 hs.2 i hi, Function.update_of_ne (hs.1 i hi).symm]

end DoomOs
