/-
# Code that reads memory

Firmware tables say themselves how long they are, so the question is as much which
bytes a piece of code looks at as what it returns.  Here a computation carries the list
of the addresses it has read beside its own state.

* `loadByte` and `loadLe` read one byte and a little-endian field;
* `sumBytes` is the loop of a checksum, `compareBytes` that of a signature;
* each has one equation that says what it returns and what it reads, and `Reads` is
  that statement for any computation which leaves its state alone.
-/
import DoomOs.Multiboot2Walk

namespace DoomOs

open Comp

/-- A state, with the addresses of the bytes that have been read. -/
structure Seen (σ : Type) where
  state : σ
  reads : List ℕ

/-- Further reads. -/
def Seen.after {σ : Type} (s : Seen σ) (addresses : List ℕ) : Seen σ :=
  { s with reads := s.reads ++ addresses }

/-- Another state, and no reads. -/
def Seen.withState {σ : Type} (s : Seen σ) (state : σ) : Seen σ := { s with state }

/-- Code that reads memory and returns no errors. -/
abbrev Reading (φ σ : Type) : Type → Type := Comp φ Empty (Seen σ)

namespace Reading

variable {φ σ α β : Type} (m : Memory)

/-! ## The reads -/

/-- One byte. -/
def loadByte (a : ℕ) : Reading φ σ UInt8 := do
  modify fun s => s.after [a]
  pure (m a)

/-- A little-endian field of `n` bytes. -/
def loadLe (a : ℕ) : (n : ℕ) → Reading φ σ ℕ
  | 0 => pure 0
  | n + 1 => do
    let low ← loadByte m a
    let high ← loadLe (a + 1) n
    pure (low.toNat + 256 * high)

/-- The sum of `n` bytes, as a byte. -/
def sumBytes : (n a : ℕ) → (sum : UInt8) → Reading φ σ UInt8
  | 0, _, sum => pure sum
  | n + 1, a, sum => do
    let c ← loadByte m a
    sumBytes n (a + 1) (sum + c)

/-- Whether the bytes at an address are these, up to the first that is not. -/
def compareBytes : (a : ℕ) → List UInt8 → Reading φ σ Bool
  | _, [] => pure true
  | a, c :: cs => do
    if (← loadByte m a) ≠ c then pure false else compareBytes (a + 1) cs

/-! ## What they return and read -/

variable {m}

@[simp] theorem state_after (s : Seen σ) (l : List ℕ) : (s.after l).state = s.state := rfl

@[simp] theorem reads_after (s : Seen σ) (l : List ℕ) : (s.after l).reads = s.reads ++ l := rfl

@[simp] theorem state_withState (s : Seen σ) (t : σ) : (s.withState t).state = t := rfl

@[simp] theorem reads_withState (s : Seen σ) (t : σ) : (s.withState t).reads = s.reads := rfl

theorem after_nil (s : Seen σ) : s.after [] = s := by
  rw [Seen.after, List.append_nil]

theorem after_after (s : Seen σ) (l l' : List ℕ) : (s.after l).after l' = s.after (l ++ l') := by
  rw [Seen.after, Seen.after, Seen.after, List.append_assoc]

/-- The computation returns `a`, whatever the state, and reads the bytes at `l`. -/
def Reads (x : Reading φ σ α) (a : α) (l : List ℕ) : Prop := ∀ s, x.run s = .ok a (s.after l)

theorem reads_pure (a : α) : Reads (pure a : Reading φ σ α) a [] := by
  intro s
  rw [run_pure, after_nil]

theorem Reads.bind {x : Reading φ σ α} {f : α → Reading φ σ β} {a : α} {b : β} {l l' : List ℕ}
    (hx : Reads x a l) (hf : Reads (f a) b l') : Reads (x >>= f) b (l ++ l') := by
  intro s
  rw [run_bind_ok (hx s), hf, after_after]

/-- The computation returns, and whatever it does to the state, it reads the bytes at `l`. -/
def Looks (x : Reading φ σ α) (l : List ℕ) : Prop :=
  ∀ s, ∃ a s', x.run s = .ok a s' ∧ s'.reads = s.reads ++ l

theorem Reads.looks {x : Reading φ σ α} {a : α} {l : List ℕ} (hx : Reads x a l) : Looks x l :=
  fun s => ⟨a, s.after l, hx s, rfl⟩

theorem Reads.bind_pure {x : Reading φ σ α} {a : α} {l : List ℕ} (hx : Reads x a l) (f : α → β) :
    Reads (x >>= fun y => pure (f y)) (f a) l := by
  intro s
  rw [run_bind_ok (hx s), run_pure]

theorem Reads.bind_looks {x : Reading φ σ α} {f : α → Reading φ σ β} {a : α} {l l' : List ℕ}
    (hx : Reads x a l) (hf : Looks (f a) l') : Looks (x >>= f) (l ++ l') := by
  intro s
  obtain ⟨b, s', hrun, hreads⟩ := hf (s.after l)
  refine ⟨b, s', by rw [run_bind_ok (hx s), hrun], ?_⟩
  rw [hreads, reads_after, List.append_assoc]

theorem looks_withState (f : Seen σ → σ) :
    Looks (modify fun s => s.withState (f s) : Reading φ σ Unit) [] := by
  intro s
  exact ⟨(), _, rfl, (List.append_nil _).symm⟩

/-- The bytes of a field lie in a window that starts in front of it, if there are any,
when the field ends inside. -/
theorem field_inside (a i k n : ℕ) :
    (∀ x ∈ List.range' (a + i) k, a ≤ x ∧ x < a + n) ↔ k = 0 ∨ i + k ≤ n := by
  constructor
  · intro h
    by_contra hout
    have hlast := h (a + i + (k - 1)) (List.mem_range'_1.mpr ⟨by omega, by omega⟩)
    omega
  · intro h x hx
    obtain ⟨hle, hlt⟩ := List.mem_range'_1.mp hx
    omega

theorem reads_loadByte (a : ℕ) : Reads (loadByte m a : Reading φ σ UInt8) (m a) [a] := by
  intro s
  rfl

theorem reads_loadLe : ∀ n a : ℕ,
    Reads (loadLe m a n : Reading φ σ ℕ) (leAt m a n) (List.range' a n) := by
  intro n
  induction n with
  | zero => exact fun a => reads_pure 0
  | succ n ih =>
    intro a
    exact (reads_loadByte a).bind ((ih (a + 1)).bind_pure fun high => (m a).toNat + 256 * high)

/-- The sum of `n` bytes from an address on. -/
def byteSum (m : Memory) (a n : ℕ) : ℕ := ∑ i ∈ Finset.range n, (m (a + i)).toNat

theorem byteSum_succ (m : Memory) (a n : ℕ) :
    byteSum m a (n + 1) = (m a).toNat + byteSum m (a + 1) n := by
  rw [byteSum, Finset.sum_range_succ', Nat.add_zero, Nat.add_comm, byteSum]
  congr 1
  apply Finset.sum_congr rfl
  intro i _
  rw [Nat.add_right_comm, Nat.add_assoc]

theorem reads_sumBytes : ∀ (n a : ℕ) (sum : UInt8), ∃ total : UInt8,
    Reads (sumBytes m n a sum : Reading φ σ UInt8) total (List.range' a n) ∧
      total.toNat = (sum.toNat + byteSum m a n) % 256 := by
  intro n
  induction n with
  | zero =>
    intro a sum
    refine ⟨sum, reads_pure sum, ?_⟩
    rw [byteSum, Finset.sum_range_zero, Nat.add_zero, Nat.mod_eq_of_lt sum.toNat_lt]
  | succ n ih =>
    intro a sum
    obtain ⟨total, hreads, htotal⟩ := ih (a + 1) (sum + m a)
    have hadd : (sum + m a).toNat = (sum.toNat + (m a).toNat) % 256 := UInt8.toNat_add _ _
    refine ⟨total, (reads_loadByte a).bind hreads, ?_⟩
    rw [htotal, hadd, byteSum_succ, Nat.mod_add_mod, Nat.add_assoc]

/-- The `n` bytes from an address on. -/
def bytesFrom (m : Memory) (a n : ℕ) : List UInt8 := (List.range n).map fun i => m (a + i)

theorem bytesFrom_succ (m : Memory) (a n : ℕ) :
    bytesFrom m a (n + 1) = m a :: bytesFrom m (a + 1) n := by
  rw [bytesFrom, List.range_succ_eq_map, List.map_cons, List.map_map, bytesFrom]
  congr 1
  apply List.map_congr_left
  intro i _
  show m (a + (i + 1)) = m (a + 1 + i)
  rw [Nat.add_right_comm, Nat.add_assoc]

/-- A comparison reads a first part of the bytes it is about. -/
theorem reads_compareBytes : ∀ (cs : List UInt8) (a : ℕ), ∃ k ≤ cs.length,
    Reads (compareBytes m a cs : Reading φ σ Bool) (decide (bytesFrom m a cs.length = cs))
      (List.range' a k) := by
  intro cs
  induction cs with
  | nil => exact fun a => ⟨0, le_rfl, reads_pure true⟩
  | cons c cs ih =>
    intro a
    rw [List.length_cons]
    by_cases hc : m a = c
    · obtain ⟨k, hk, hreads⟩ := ih (a + 1)
      refine ⟨k + 1, Nat.succ_le_succ hk, ?_⟩
      have htail : decide (bytesFrom m a (cs.length + 1) = c :: cs)
          = decide (bytesFrom m (a + 1) cs.length = cs) := by
        simp [bytesFrom_succ, hc]
      rw [htail]
      apply (reads_loadByte a).bind
      rw [if_neg (by simpa using hc)]
      exact hreads
    · refine ⟨1, Nat.succ_le_succ (Nat.zero_le _), ?_⟩
      have hhead : decide (bytesFrom m a (cs.length + 1) = c :: cs) = false := by
        simp [bytesFrom_succ, hc]
      rw [hhead]
      apply (reads_loadByte a).bind
      rw [if_pos (by simpa using hc)]
      exact reads_pure false

end Reading

end DoomOs
