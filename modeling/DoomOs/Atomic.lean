/-
# Atomic objects

`kernel/sync/atomic.hpp`: the memory orders, which of them an operation passes on to the
compiler's builtin, and the operations that the kernel uses, as instructions over a
release/acquire memory.  The objects are unsigned integers, whose storage is their value.
-/
import DoomOs.SharedMemory

namespace DoomOs

open SharedMemory

/-- `memory_order`. -/
inductive MemoryOrder where
  | RELAXED
  | CONSUME
  | ACQUIRE
  | RELEASE
  | ACQ_REL
  | SEQ_CST
  deriving DecidableEq, Repr

namespace MemoryOrder

/-- What an order asks for.  Compilers treat `CONSUME` as `ACQUIRE`; the single order of all
`SEQ_CST` accesses is left out, which only allows more runs. -/
def order : MemoryOrder → Order
  | RELAXED => ⟨false, false⟩
  | CONSUME => ⟨true, false⟩
  | ACQUIRE => ⟨true, false⟩
  | RELEASE => ⟨false, true⟩
  | ACQ_REL => ⟨true, true⟩
  | SEQ_CST => ⟨true, true⟩

/-- `to_load_order`. -/
def toLoadOrder : MemoryOrder → MemoryOrder
  | RELEASE => SEQ_CST
  | ACQ_REL => SEQ_CST
  | o => o

/-- `to_store_order`. -/
def toStoreOrder : MemoryOrder → MemoryOrder
  | CONSUME => SEQ_CST
  | ACQUIRE => SEQ_CST
  | ACQ_REL => SEQ_CST
  | o => o

/-- `default_failure_order`. -/
def defaultFailureOrder : MemoryOrder → MemoryOrder
  | RELEASE => RELAXED
  | ACQ_REL => ACQUIRE
  | o => o

/-- `to_failure_order`. -/
def toFailureOrder : MemoryOrder → MemoryOrder
  | RELEASE => RELAXED
  | ACQ_REL => ACQUIRE
  | o => o

/-- No load is asked to release, and no store to acquire, with less than the strongest order. -/
theorem toLoadOrder_legal (o : MemoryOrder) :
    o.toLoadOrder ≠ RELEASE ∧ o.toLoadOrder ≠ ACQ_REL ∧
      o.toStoreOrder ≠ CONSUME ∧ o.toStoreOrder ≠ ACQUIRE ∧ o.toStoreOrder ≠ ACQ_REL := by
  cases o <;> decide

/-- An access never asks for less than its caller did, of what its kind can do. -/
theorem order_legal (o : MemoryOrder) :
    (o.order.acquire = true → o.toLoadOrder.order.acquire = true) ∧
      (o.order.release = true → o.toStoreOrder.order.release = true) ∧
      (o.toFailureOrder.order.acquire = o.order.acquire) ∧
      o.toFailureOrder.order.release = (o == SEQ_CST) ∧
      o.defaultFailureOrder.toFailureOrder = o.toFailureOrder := by
  cases o <;> decide

end MemoryOrder

namespace Atomic

variable {A D V P : Type}

/-- `load`. -/
def load (x : A) (o : MemoryOrder) (k : ℕ → P) : Instr A D V P := .load x o.toLoadOrder.order k

/-- `store`. -/
def store (x : A) (value : ℕ) (o : MemoryOrder) (p : P) : Instr A D V P :=
  .store x value o.toStoreOrder.order p

/-- `compare_exchange`: `k` is given what was found in place of `expected`. -/
def compareExchange (x : A) (expected desired : ℕ) (success failure : MemoryOrder) (p : P)
    (k : ℕ → P) : Instr A D V P :=
  .cas x expected desired success.order failure.toFailureOrder.order p k

end Atomic

end DoomOs
