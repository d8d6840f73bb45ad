/-
# The frame allocator on all CPUs

`alloc` and `free` of `kernel/mm/pmm.cpp` take a `spinlock_guard`, so that any CPU may call
them at any time.  The variables that `m_lock` guards are taken as one cell; a CPU frees only
blocks that it was given.

`exclusive_on_all_cpus`: however the calls interleave, no frame is in two blocks that are out,
be they of one CPU or of two, and no call panics.
-/
import DoomOs.PmmRuns
import DoomOs.Spinlock

namespace DoomOs

namespace Pmm

open SharedMemory Spinlock

variable {T : Type} [DecidableEq T]

/-- A block that is out. -/
abbrev OutBlock : Type := PageSize × ℕ

/-- The code that a guard protects, over the one cell that holds the allocator. -/
def guarded (x : Comp Fault MmError Pmm ℕ) : Body Unit Pmm (Except MmError ℕ) :=
  .get () fun s =>
    match x.run s with
    | .ok a s' => .put () s' (.done (.ok a))
    | .err e s' => .put () s' (.done (.error e))
    | .halt _ => .stop

/-- `alloc` and `free`.  What `free` checks before it takes the guard reads no cell. -/
def guardedCode : Demand PageSize OutBlock → Body Unit Pmm (Except MmError ℕ)
  | .take size => guarded (alloc size)
  | .give b => guarded do
    free b.1 b.2
    pure 0

/-- The block that an answer of `alloc` hands out. -/
def granted (size : PageSize) (r : Except MmError ℕ) : Option OutBlock :=
  match r with
  | .ok base => some (size, base)
  | .error _ => none

/-- A CPU with its blocks. -/
abbrev cpu : Client (Multiset OutBlock) (Demand PageSize OutBlock) (Except MmError ℕ) :=
  Client.holder (fun _ => True) granted

/-- The allocator's own account of what is out. -/
def OutOf (s₀ : Pmm) (σ : Unit → Pmm) (out : Multiset OutBlock) : Prop :=
  ∃ l : List OutBlock, (l : Multiset OutBlock) = out ∧ Owned s₀ (σ ()) l

/-- `alloc` and `free` keep the account. -/
theorem accounts (s₀ : Pmm) : Accounts (fun _ => True) granted guardedCode (OutOf s₀) := by
  refine ⟨?_, ?_⟩
  · rintro σ out size ⟨l, rfl, hown⟩ -
    have hsat := alloc_sat hown.inv size
    simp only [guardedCode, guarded, Body.exec]
    cases hrun : (alloc size).run (σ ()) with
    | ok base s' =>
      refine ⟨_, _, rfl, (size, base) :: l, rfl, ?_⟩
      rw [Function.update_self]
      exact hown.alloc (hsat.of_ok hrun)
    | err e s' =>
      refine ⟨_, _, rfl, l, rfl, ?_⟩
      rw [Function.update_self]
      obtain ⟨-, rfl, -⟩ := hsat.of_err hrun
      exact hown
    | halt f => exact absurd hrun (hsat.ne_halt f)
  · rintro σ out b ⟨l, rfl, hown⟩ hb
    have hb' : b ∈ l := hb
    obtain ⟨_, s', hrun, hpost⟩ :=
      (free_sat hown.inv (hown.releasable hb')).exists_ok (fun _ _ h => h)
    refine ⟨.ok 0, Function.update σ () s', ?_, l.erase b, by convert (Multiset.coe_erase l b).symm,
      ?_⟩
    · simp only [guardedCode, guarded, Body.exec]
      rw [Comp.run_bind_ok hrun]
      rfl
    · rw [Function.update_self]
      exact hown.free hb' hpost

/-- Two blocks that are out together share no frame. -/
theorem OutOf.disjoint {s₀ : Pmm} {σ : Unit → Pmm} {out : Multiset OutBlock}
    (h : OutOf s₀ σ out) {b b' : OutBlock} (hle : b ::ₘ {b'} ≤ out) :
    Disjoint (blockFrames b.1 b.2) (blockFrames b'.1 b'.2) := by
  obtain ⟨l, rfl, hown⟩ := h
  have hsub : List.Subperm [b, b'] l := hle
  obtain ⟨l', hperm, hl'⟩ := hsub
  have hpair : [b, b'].Pairwise fun x y => Disjoint (blockFrames x.1 x.2) (blockFrames y.1 y.2) :=
    (hperm.pairwise_iff fun h => h.symm).mp (hown.disjoint.sublist hl')
  exact List.rel_of_pairwise_cons hpair (List.mem_singleton.mpr rfl)

/-- The blocks of a CPU. -/
def blocksOf (c : SharedMemory.Config T Unit Unit Pmm
    (Control Unit Pmm (Multiset OutBlock) (Demand PageSize OutBlock) (Except MmError ℕ))) (t : T) :
    Multiset OutBlock := (c.control t).caller

/-- However the calls of the CPUs to `alloc` and `free` interleave, the blocks that two CPUs have
share no frame, nor do two that one CPU has; each is aligned to its size and was free when
`populate` ended; and no call panics. -/
theorem exclusive_on_all_cpus (boot : BootInfo) (bootStart kernelEnd : ℕ)
    {tr : List (T × Control Unit Pmm (Multiset OutBlock) (Demand PageSize OutBlock)
      (Except MmError ℕ))}
    {c : SharedMemory.Config T Unit Unit Pmm
      (Control Unit Pmm (Multiset OutBlock) (Demand PageSize OutBlock) (Except MmError ℕ))}
    (h : SharedMemory.Run (prog cpu guardedCode)
      (initial 0 fun _ => populate boot bootStart kernelEnd zero) tr c) :
    (∀ t u, t ≠ u → ∀ b ∈ blocksOf c t, ∀ b' ∈ blocksOf c u,
      Disjoint (blockFrames b.1 b.2) (blockFrames b'.1 b'.2)) ∧
    (∀ t b b', b ::ₘ {b'} ≤ blocksOf c t →
      Disjoint (blockFrames b.1 b.2) (blockFrames b'.1 b'.2)) ∧
    (∀ t, ∀ b ∈ blocksOf c t, b.2 % b.1.bytesIn = 0 ∧
      blockFrames b.1 b.2 ⊆ (populate boot bootStart kernelEnd zero).freeFrames) ∧
    ∀ t own j, c.control t ≠ .inside own j .stop := by
  set s₀ := populate boot bootStart kernelEnd zero with hs₀
  have hacc := accounts s₀
  have h0 : OutOf s₀ (fun _ => s₀) 0 :=
    ⟨[], rfl, ⟨inv_populate boot bootStart kernelEnd, List.Pairwise.nil, by simp, by simp, by simp⟩⟩
  obtain ⟨s, σ, hserved, hcaller, -⟩ := linearizable h
  obtain ⟨out, hout, hle⟩ := hacc.sum_le hserved h0
  have hmem : ∀ {t b}, b ∈ blocksOf c t → b ∈ s t := fun {t b} hb => hcaller t ▸ hb
  refine ⟨fun t u htu b hb b' hb' => ?_, fun t b b' hb => ?_, fun t b hb => ?_, ?_⟩
  · exact hout.disjoint (Accounts.pair_le hle htu (hmem hb) (hmem hb'))
  · have hone := hle {t}
    rw [Finset.sum_singleton] at hone
    rw [blocksOf, hcaller t] at hb
    exact hout.disjoint (hb.trans hone)
  · obtain ⟨l, rfl, hown⟩ := hout
    have hb' : b ∈ l := Accounts.mem_out hle (hmem hb)
    exact ⟨hown.aligned b hb', hown.initially b hb'⟩
  · intro t own j
    refine not_stopped h (fun cs s σ t j hserved hj => ?_) t own j
    exact hacc.exec_ne_none (hacc.sum_le hserved h0) hj

/-- A CPU can be given a frame. -/
theorem exists_run_alloc {s₀ s' : Pmm} {base : ℕ}
    (hrun : (alloc .size4K).run s₀ = .ok base s') :
    ∃ (tr : List (Bool × Control Unit Pmm (Multiset OutBlock) (Demand PageSize OutBlock)
        (Except MmError ℕ)))
      (c : SharedMemory.Config Bool Unit Unit Pmm
        (Control Unit Pmm (Multiset OutBlock) (Demand PageSize OutBlock) (Except MmError ℕ))),
      SharedMemory.Run (prog cpu guardedCode) (initial 0 fun _ => s₀) tr c ∧
      (PageSize.size4K, base) ∈ blocksOf c true := by
  have hexec : (guardedCode (.take .size4K)).exec (fun _ => s₀) =
      some (.ok base, Function.update (fun _ => s₀) () s') := by
    simp only [guardedCode, guarded, Body.exec, hrun]
  have hcalls : cpu.calls 0 (.take .size4K) := trivial
  have hserved : Served cpu guardedCode 0 (fun _ => s₀) [(true, .take .size4K, .ok base)] _ _ :=
    .call .start hcalls hexec
  obtain ⟨tr, c, h, -, hidle, -⟩ := exists_run_of_served hserved
  refine ⟨tr, c, h, ?_⟩
  rw [blocksOf, hidle true, Control.caller, Function.update_self]
  show (PageSize.size4K, base) ∈ (PageSize.size4K, base) ::ₘ 0
  exact Multiset.mem_cons_self _ _

/-- A machine of two CPUs, one of which has a frame. -/
theorem exclusive_on_all_cpus_small :
    ∃ (tr : List (Bool × Control Unit Pmm (Multiset OutBlock) (Demand PageSize OutBlock)
        (Except MmError ℕ)))
      (c : SharedMemory.Config Bool Unit Unit Pmm
        (Control Unit Pmm (Multiset OutBlock) (Demand PageSize OutBlock) (Except MmError ℕ)))
      (base : ℕ),
      SharedMemory.Run (prog cpu guardedCode) (initial 0 fun _ => smallPmm) tr c ∧
      (PageSize.size4K, base) ∈ blocksOf c true ∧ base % 4096 = 0 := by
  obtain ⟨base, s', hrun⟩ := alloc_smallPmm
  obtain ⟨tr, c, h, hb⟩ := exists_run_alloc hrun
  have h' := h
  rw [smallPmm_eq] at h'
  obtain ⟨-, -, halign, -⟩ := exclusive_on_all_cpus smallBoot 0x100000 0x200000 h'
  exact ⟨tr, c, base, h, hb, (halign true _ hb).1⟩

end Pmm

end DoomOs
