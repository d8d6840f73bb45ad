/-
# Anonymous mappings

`kernel/mm/posix/stub_impl.cpp`: `mmap`, `munmap` and `mprotect` on top of the virtual memory
manager.  `mmap` allocates writable pages, clears them and, where no write access is asked for,
takes it away again; `mprotect` translates the protection on its own.

Where write and execute access are both asked for, `mmap` returns before it looks at the
latter, and the pages are not executable; `mprotect` makes them so
(`mmap_agrees_with_mprotect`).
-/
import DoomOs.Files
import DoomOs.VmmStores
import DoomOs.VmmUndo

namespace DoomOs

open Comp Paging RadixFormat Mmu

namespace Vmm

/-! ## The calls -/

/-- `PROT_READ`. -/
def protRead : BitVec 32 := 0x1

/-- `PROT_WRITE`. -/
def protWrite : BitVec 32 := 0x2

/-- `PROT_EXEC`. -/
def protExec : BitVec 32 := 0x4

/-- `MAP_PRIVATE`. -/
def mapPrivate : BitVec 32 := 0x02

/-- `MAP_ANONYMOUS`. -/
def mapAnonymous : BitVec 32 := 0x20

/-- `MAP_NORESERVE`. -/
def mapNoreserve : BitVec 32 := 0x4000

/-- `SUPPORTED_PROTECTION`. -/
def supportedProtection : BitVec 32 := protRead ||| protWrite ||| protExec

/-- `SUPPORTED_FLAGS`. -/
def supportedFlags : BitVec 32 := mapPrivate ||| mapAnonymous ||| mapNoreserve

variable (L : Layout) (feat : Features)

/-- `mmap`. -/
def mmap (address length : ℕ) (protection flags : BitVec 32) (fd offset : ℤ) :
    Comp Fault Files.Errno Vmm ℕ := do
  if address ≠ 0 ∨ length = 0 ∨ fd ≠ -1 ∨ offset ≠ 0 ∨ flags &&& mapPrivate = 0 ∨
      flags &&& mapAnonymous = 0 ∨ flags &&& ~~~supportedFlags ≠ 0 ∨
      protection &&& ~~~supportedProtection ≠ 0 then fail .einval
  else
    let memory ← handle (alloc L feat length .kernelData) fun _ => fail .enomem
    memset L feat memory 0 (alignUp length frameSize)
    if protection &&& protWrite ≠ 0 then pure memory
    else
      let p : PageProt := { global := true, exec := decide (protection &&& protExec ≠ 0) }
      handle (protect L feat memory length p) fun _ => stop (.cannotDropWrite memory)
      pure memory

/-- `munmap`. -/
def munmap (address length : ℕ) : Comp Fault Files.Errno Vmm Unit :=
  handle (free L feat address length) fun _ => fail .einval

/-- `mprotect`. -/
def mprotect (address length : ℕ) (protection : BitVec 32) : Comp Fault Files.Errno Vmm Unit := do
  if protection &&& ~~~supportedProtection ≠ 0 then fail .einval
  else
    let p : PageProt := {
      global := true
      write := decide (protection &&& protWrite ≠ 0)
      exec := decide (protection &&& protExec ≠ 0) }
    let first := alignDown address frameSize
    let last := alignUp (u64 (address + length)) frameSize
    handle (protect L feat first (sub64 last first) p) fun _ => fail .enomem

/-! ## Runs -/

/-- What kernel code can do to the memory of the virtual memory manager: call it, call one of
the functions above, and store to an address that is allocated. -/
inductive UseStep (s s' : Vmm) : Prop
  | call (c : Call) (h : ((exec L feat c).run s).state? = some s')
  | mmap (address length : ℕ) (protection flags : BitVec 32) (fd offset : ℤ)
      (h : ((mmap L feat address length protection flags fd offset).run s).state? = some s')
  | munmap (address length : ℕ) (h : ((munmap L feat address length).run s).state? = some s')
  | mprotect (address length : ℕ) (protection : BitVec 32)
      (h : ((mprotect L feat address length protection).run s).state? = some s')
  | store (va : ℕ) (v : BitVec 8) (live : va ∈ s.table.live)
      (h : (storeByte L feat va v : Comp Fault Files.Errno Vmm Unit).run s = .ok () s')

/-- The states that are reached from `s₀`. -/
def Used (s₀ s : Vmm) : Prop := Relation.ReflTransGen (UseStep L feat) s₀ s

/-- The protection of an address. -/
def protectionAt (s : Vmm) (va : ℕ) : Option PageProt :=
  ((kernelSpace L feat).translation s.kernel va).map Prod.snd

variable {L} {feat} {boot : BootInfo} {k₀ : Kernel} {s s' s₀ : Vmm} {a length : ℕ}
  {protection : BitVec 32} {p : PageProt}

/-! ## What the calls do -/

/-- The protection of the pages that `mmap` returns. -/
def granted (protection : BitVec 32) : PageProt :=
  if protection &&& protWrite ≠ 0 then .kernelData
  else { global := true, exec := decide (protection &&& protExec ≠ 0) }

/-- The protection that `mprotect` gives. -/
def requested (protection : BitVec 32) : PageProt where
  global := true
  write := decide (protection &&& protWrite ≠ 0)
  exec := decide (protection &&& protExec ≠ 0)

/-- The pages of a mapping that `mmap` has made. -/
structure Fresh (L : Layout) (feat : Features) (k₀ : Kernel) (s s' : Vmm) (a length : ℕ)
    (p : PageProt) : Prop where
  after : After L feat k₀ (· = 384) s s'
  pos : length ≠ 0
  le : length ≤ vmallocSize
  allocated : Allocated L feat s' a (alignUp length frameSize) (readBack feat p)
  zero : ∀ x ∈ bytesAt a (alignUp length frameSize), loadByte L feat s' x = some 0

/-- `mmap` after its `alloc` does not fail. -/
theorem mmap_finish (H : Inv L feat k₀ s₀) (hafter : After L feat k₀ (· = 384) s s₀)
    (hpos : length ≠ 0) (hle : length ≤ vmallocSize)
    (h : Allocated L feat s₀ a (alignUp length frameSize) (readBack feat .kernelData))
    (protection : BitVec 32) :
    ((do
      memset L feat a 0 (alignUp length frameSize)
      if protection &&& protWrite ≠ 0 then pure a
      else
        let p : PageProt := { global := true, exec := decide (protection &&& protExec ≠ 0) }
        handle (protect L feat a length p) fun _ => stop (.cannotDropWrite a)
        pure a : Comp Fault Files.Errno Vmm ℕ).run s₀).Sat
      (fun a' s' => a' = a ∧ Fresh L feat k₀ s s' a length (granted protection))
      (fun _ _ => False) := by
  rw [sat_bind]
  refine (memset_sat H (h.writable H rfl) 0).mono (fun _ s₁ h₁ => ?_) (fun _ _ h => h)
  obtain ⟨hcleared, htable, hzero⟩ := h₁
  have hzero' : ∀ x ∈ bytesAt a (alignUp length frameSize), loadByte L feat s₁ x = some 0 := by
    rintro x ⟨hfirst, hlast⟩
    have hbyte := hzero (x - a) (by omega)
    rw [Nat.add_sub_cancel' hfirst] at hbyte
    exact hbyte
  have hafter₁ := hafter.trans (hcleared.mono fun _ h => h.elim)
  have h₁ := h.after H hcleared htable
  by_cases hw : protection &&& protWrite ≠ 0
  · rw [if_pos hw, granted, if_pos hw]
    exact ⟨rfl, hafter₁, hpos, hle, h₁, hzero'⟩
  · rw [if_neg hw, granted, if_neg hw, sat_bind, sat_handle]
    refine (protect_allocation hafter₁.inv hpos hle h₁ _).mono (fun _ s₂ h₂ => ?_)
      (fun _ _ h => h.elim)
    obtain ⟨hprotected, h₂, hsame⟩ := h₂
    refine ⟨rfl, hafter₁.trans hprotected, hpos, hle, h₂, fun x hx => ?_⟩
    rw [hsame x hx]
    exact hzero' x hx

/-- **`mmap`** returns cleared pages, and panics nowhere. -/
theorem mmap_sat (H : Inv L feat k₀ s) (address length : ℕ) (protection flags : BitVec 32)
    (fd offset : ℤ) :
    ((mmap L feat address length protection flags fd offset).run s).Sat
      (fun a s' => Fresh L feat k₀ s s' a length (granted protection) ∧
        protection &&& ~~~supportedProtection = 0 ∧
        ∃ s₀, (alloc L feat length .kernelData).run s = .ok a s₀)
      (fun _ s' => After L feat k₀ (· = 384) s s') := by
  rw [mmap]
  by_cases hbad : address ≠ 0 ∨ length = 0 ∨ fd ≠ -1 ∨ offset ≠ 0 ∨ flags &&& mapPrivate = 0 ∨
      flags &&& mapAnonymous = 0 ∨ flags &&& ~~~supportedFlags ≠ 0 ∨
      protection &&& ~~~supportedProtection ≠ 0
  · rw [if_pos hbad]
    exact H.after
  rw [if_neg hbad, sat_bind, sat_handle]
  simp only [not_or, ne_eq, not_not] at hbad
  have halloc := alloc_allocated H length .kernelData
  cases hrun : (alloc L feat length .kernelData).run s with
  | ok a s₀ =>
    obtain ⟨hafter, hpos, hle, h⟩ := halloc.of_ok hrun
    refine (mmap_finish hafter.inv hafter hpos hle h protection).mono (fun a' s' h' => ?_)
      (fun _ _ h => h.elim)
    obtain ⟨rfl, hfresh⟩ := h'
    exact ⟨hfresh, hbad.2.2.2.2.2.2.2, s₀, rfl⟩
  | err er s₀ => exact halloc.of_err hrun
  | halt f => exact absurd hrun (halloc.ne_halt f)

/-- Private anonymous memory is refused only by `alloc`. -/
theorem mmap_of_alloc (H : Inv L feat k₀ s) (hok : protection &&& ~~~supportedProtection = 0)
    (halloc : (alloc L feat length .kernelData).run s = .ok a s₀) :
    ∃ s₁, (mmap L feat 0 length protection (mapPrivate ||| mapAnonymous) (-1) 0).run s = .ok a s₁ ∧
      Fresh L feat k₀ s s₁ a length (granted protection) := by
  obtain ⟨hafter, hpos, hle, h⟩ := (alloc_allocated H length .kernelData).of_ok halloc
  have hgood : ¬((0 : ℕ) ≠ 0 ∨ length = 0 ∨ (-1 : ℤ) ≠ -1 ∨ (0 : ℤ) ≠ 0 ∨
      (mapPrivate ||| mapAnonymous) &&& mapPrivate = 0 ∨
      (mapPrivate ||| mapAnonymous) &&& mapAnonymous = 0 ∨
      (mapPrivate ||| mapAnonymous) &&& ~~~supportedFlags ≠ 0 ∨
      protection &&& ~~~supportedProtection ≠ 0) := by
    rw [hok]
    simp [hpos]
    decide
  have hrun : ((mmap L feat 0 length protection (mapPrivate ||| mapAnonymous) (-1) 0).run s).Sat
      (fun a' s' => a' = a ∧ Fresh L feat k₀ s s' a length (granted protection))
      (fun _ _ => False) := by
    rw [mmap, if_neg hgood, sat_bind, sat_handle, halloc]
    exact mmap_finish hafter.inv hafter hpos hle h protection
  obtain ⟨_, s₁, hs₁, rfl, hfresh⟩ := hrun.exists_ok (fun _ _ h => h)
  exact ⟨s₁, hs₁, hfresh⟩

/-- **`mprotect`** on a whole mapping gives its pages the protection that is asked for. -/
theorem mprotect_fresh (H : Inv L feat k₀ s) (hok : protection &&& ~~~supportedProtection = 0)
    (hpos : length ≠ 0) (hle : length ≤ vmallocSize)
    (h : Allocated L feat s a (alignUp length frameSize) p) :
    ∃ s', (mprotect L feat a length protection).run s = .ok () s' ∧
      Allocated L feat s' a (alignUp length frameSize) (readBack feat (requested protection)) := by
  obtain ⟨i, hi, hentry⟩ := h.entry
  have hw := H.table.inWindow i hi
  have hlast := hw.last_le
  have hal := hw.base_aligned
  have hend := AllocationTable.vmalloc_end
  rw [hentry] at hlast hal
  dsimp only at hlast hal
  -- the pages that `mprotect` computes are those of the allocation
  have hsize : alignUp length frameSize = length + 4095 - (length + 4095) % 4096 := by
    unfold vmallocSize at hle
    rw [frameSize, alignUp_4096 (by omega)]
  have hfirst : alignDown a frameSize = a := by
    rw [frameSize, alignDown_4096]
    omega
  have hup : alignUp (u64 (a + length)) frameSize = a + alignUp length frameSize := by
    rw [hsize, u64_of_lt (by omega), frameSize, alignUp_4096 (by omega)]
    omega
  have hdiff : sub64 (a + alignUp length frameSize) a = alignUp length frameSize := by
    rw [sub64_of_le (by omega) (by omega), Nat.add_sub_cancel_left]
  have hwhole : alignUp (alignUp length frameSize) frameSize = alignUp length frameSize := by
    unfold vmallocSize at hle
    rw [hsize, frameSize, alignUp_4096 (by omega)]
    omega
  have hle' : alignUp length frameSize ≤ vmallocSize := by
    unfold vmallocSize at hle ⊢
    omega
  have hrun : ((mprotect L feat a length protection).run s).Sat
      (fun _ s' => Allocated L feat s' a (alignUp length frameSize)
        (readBack feat (requested protection))) (fun _ _ => False) := by
    rw [mprotect, if_neg (fun hne => hne hok)]
    dsimp only
    rw [hfirst, hup, hdiff, sat_handle]
    have hpos' : alignUp length frameSize ≠ 0 := by omega
    have hprotect := protect_allocation H hpos' hle' (by rw [hwhole]; exact h)
      (requested protection)
    rw [hwhole] at hprotect
    exact hprotect.mono (fun _ _ h => h.2.1) (fun _ _ h => h.elim)
  obtain ⟨_, s', hs', h'⟩ := hrun.exists_ok (fun _ _ h => h)
  exact ⟨s', hs', h'⟩

/-! ## Every state -/

theorem storeByte_ok {ε : Type} {va : ℕ} {v : BitVec 8}
    (h : (storeByte L feat va v : Comp Fault ε Vmm Unit).run s = .ok () s') :
    ∃ phys p, (kernelSpace L feat).translation s.kernel va = some (phys, p) ∧
      s' = { s with kernel := s.kernel.setByte phys v } := by
  rw [storeByte, run_gets_bind] at h
  cases htr : (kernelSpace L feat).translation s.kernel va with
  | none =>
    rw [htr] at h
    cases h
  | some q =>
    obtain ⟨phys, p⟩ := q
    rw [htr] at h
    dsimp only at h
    by_cases hw : p.write = true
    · rw [if_pos hw] at h
      cases h
      exact ⟨phys, p, rfl, rfl⟩
    · rw [if_neg hw] at h
      cases h

/-- **One step** keeps the invariant. -/
theorem UseStep.keeps (h : UseStep L feat s s') (H : Inv L feat k₀ s) : Inv L feat k₀ s' := by
  cases h with
  | call c h => exact (exec_inv H c).of_state? h
  | mmap address length protection flags fd offset h =>
    exact ((mmap_sat H address length protection flags fd offset).mono
      (fun _ _ h => h.1.after.inv) (fun _ _ h => h.inv)).of_state? h
  | munmap address length h =>
    have hsat : ((Vmm.munmap L feat address length).run s).Sat (fun _ s' => Inv L feat k₀ s')
        (fun _ s' => Inv L feat k₀ s') := by
      rw [Vmm.munmap, sat_handle]
      exact (free_after H address length).mono (fun _ _ h => h.inv) (fun _ _ h => h.inv)
    exact hsat.of_state? h
  | mprotect address length protection h =>
    have hsat : ((Vmm.mprotect L feat address length protection).run s).Sat
        (fun _ s' => Inv L feat k₀ s') (fun _ s' => Inv L feat k₀ s') := by
      rw [Vmm.mprotect]
      by_cases hbad : protection &&& ~~~supportedProtection ≠ 0
      · rw [if_pos hbad]
        exact H
      · rw [if_neg hbad, sat_handle]
        exact (protect_after H _ _ _).mono (fun _ _ h => h.inv) (fun _ _ h => h.inv)
    exact hsat.of_state? h
  | store va v live h =>
    obtain ⟨i, hi, hmem⟩ := live
    obtain ⟨phys, p, htr, rfl⟩ := storeByte_ok h
    exact (setByte_after H (window_of_mem H.table hi hmem) htr v).inv

/-- **Every run** keeps it. -/
theorem Used.inv (h : Used L feat ⟨k₀, .empty⟩ s) (h₀ : Ready L feat k₀) : Inv L feat k₀ s := by
  induction h with
  | refl => exact inv_start h₀
  | tail _ hstep ih => exact hstep.keeps ih

/-! ## The two protections -/

theorem Allocated.protectionAt {n x : ℕ} (h : Allocated L feat s a n p) (hx : x ∈ bytesAt a n) :
    protectionAt L feat s x = some p := by
  obtain ⟨phys, htr⟩ := h.pages x hx
  rw [Vmm.protectionAt, htr]
  rfl

theorem Fresh.start_mem (h : Fresh L feat k₀ s s' a length p) :
    a ∈ bytesAt a (alignUp length frameSize) :=
  ⟨le_rfl, Nat.lt_add_of_pos_right (alignUp_bytes h.pos (not_lt.mpr h.le)).2.1⟩

/-- The two functions give the same protection unless write and execute access are both asked
for and the processor can refuse the latter. -/
theorem readBack_granted_iff (feat : Features) (protection : BitVec 32) :
    readBack feat (granted protection) = readBack feat (requested protection) ↔
      ¬(protection &&& protWrite ≠ 0 ∧ protection &&& protExec ≠ 0) ∨ feat.nx = false := by
  by_cases hw : protection &&& protWrite ≠ 0
  · rw [granted, if_pos hw, requested, decide_eq_true hw]
    by_cases hx : protection &&& protExec ≠ 0
    · rw [decide_eq_true hx]
      rw [or_iff_right (not_not.mpr ⟨hw, hx⟩)]
      simp [readBack, PageProt.kernelData]
    · rw [decide_eq_false hx]
      exact ⟨fun _ => Or.inl fun h => hx h.2, fun _ => rfl⟩
  · rw [granted, if_neg hw, requested, decide_eq_false hw]
    exact ⟨fun _ => Or.inl fun h => hw h.1, fun _ => rfl⟩

/-- **`mmap` and `mprotect`.**  In every state that is reached once the address space has been
set up, and for every length and protection for which `mmap` returns private anonymous memory:
all bytes of the pages are zero; from the same state `mmap` for reading and writing returns the
same pages, and `mprotect` with that protection succeeds on them; and the pages of the one have
the protections of the other if and only if write and execute access are not both asked for,
or the processor has no no-execute pages. -/
theorem mmap_agrees_with_mprotect (h₀ : Booted L feat boot k₀) (h : Used L feat ⟨k₀, .empty⟩ s)
    {length a : ℕ} {protection : BitVec 32} {s₁ : Vmm}
    (hrun : (mmap L feat 0 length protection (mapPrivate ||| mapAnonymous) (-1) 0).run s
      = .ok a s₁) :
    (∀ x ∈ bytesAt a (alignUp length frameSize), loadByte L feat s₁ x = some 0) ∧
    ∃ s₂ s₃, (mmap L feat 0 length (protRead ||| protWrite) (mapPrivate ||| mapAnonymous) (-1)
        0).run s = .ok a s₂ ∧
      (mprotect L feat a length protection).run s₂ = .ok () s₃ ∧
      ((∀ x ∈ bytesAt a (alignUp length frameSize),
          protectionAt L feat s₁ x = protectionAt L feat s₃ x) ↔
        ¬(protection &&& protWrite ≠ 0 ∧ protection &&& protExec ≠ 0) ∨ feat.nx = false) := by
  have H := h.inv h₀.ready
  obtain ⟨hfresh, hok, s₀, halloc⟩ := (mmap_sat H 0 length protection _ (-1) 0).of_ok hrun
  obtain ⟨s₂, hs₂, hfresh₂⟩ := mmap_of_alloc H (show (protRead ||| protWrite) &&&
    ~~~supportedProtection = 0 by decide) halloc
  obtain ⟨s₃, hs₃, hallocated⟩ := mprotect_fresh hfresh₂.after.inv hok hfresh₂.pos hfresh₂.le
    hfresh₂.allocated
  refine ⟨hfresh.zero, s₂, s₃, hs₂, hs₃, ?_⟩
  rw [← readBack_granted_iff feat protection]
  constructor
  · intro hsame
    have hstart := hsame a hfresh.start_mem
    rw [hfresh.allocated.protectionAt hfresh.start_mem,
      hallocated.protectionAt hfresh.start_mem] at hstart
    exact Option.some.inj hstart
  · intro heq x hx
    rw [hfresh.allocated.protectionAt hx, hallocated.protectionAt hx, heq]

theorem mmap_agrees_with_mprotect_small : ∃ k a s₁ s₂ s₃,
    Booted smallLayout ⟨true, true, false⟩ Pmm.smallBoot k ∧
    (mmap smallLayout ⟨true, true, false⟩ 0 0x1000 (protRead ||| protExec)
      (mapPrivate ||| mapAnonymous) (-1) 0).run ⟨k, .empty⟩ = .ok a s₁ ∧
    (mprotect smallLayout ⟨true, true, false⟩ a 0x1000 (protRead ||| protExec)).run s₂
      = .ok () s₃ ∧
    loadByte smallLayout ⟨true, true, false⟩ s₁ a = some 0 ∧
    protectionAt smallLayout ⟨true, true, false⟩ s₁ a
      = protectionAt smallLayout ⟨true, true, false⟩ s₃ a := by
  obtain ⟨k, s₀, hk, halloc, -⟩ := exists_alloc_small
  obtain ⟨s₁, hrun, hfresh⟩ := mmap_of_alloc (inv_start hk.ready)
    (show (protRead ||| protExec) &&& ~~~supportedProtection = 0 by decide) halloc
  obtain ⟨hzero, s₂, s₃, -, hs₃, hiff⟩ := mmap_agrees_with_mprotect hk .refl hrun
  have hsame := hiff.mpr (Or.inl (by decide))
  exact ⟨k, vmallocBase, s₁, s₂, s₃, hk, hrun, hs₃, hzero _ hfresh.start_mem,
    hsame _ hfresh.start_mem⟩

/-- Asked for write and execute access, `mmap` gives write access only, and `mprotect` both. -/
theorem mmap_drops_exec : ∃ k a s₁ s₂ s₃,
    Booted smallLayout ⟨true, true, false⟩ Pmm.smallBoot k ∧
    (mmap smallLayout ⟨true, true, false⟩ 0 0x1000 (protRead ||| protWrite ||| protExec)
      (mapPrivate ||| mapAnonymous) (-1) 0).run ⟨k, .empty⟩ = .ok a s₁ ∧
    (mmap smallLayout ⟨true, true, false⟩ 0 0x1000 (protRead ||| protWrite)
      (mapPrivate ||| mapAnonymous) (-1) 0).run ⟨k, .empty⟩ = .ok a s₂ ∧
    (mprotect smallLayout ⟨true, true, false⟩ a 0x1000
      (protRead ||| protWrite ||| protExec)).run s₂ = .ok () s₃ ∧
    protectionAt smallLayout ⟨true, true, false⟩ s₁ a
      = some { write := true, global := true, exec := false } ∧
    protectionAt smallLayout ⟨true, true, false⟩ s₃ a
      = some { write := true, global := true, exec := true } := by
  obtain ⟨k, s₀, hk, halloc, -⟩ := exists_alloc_small
  have hok : (protRead ||| protWrite ||| protExec) &&& ~~~supportedProtection = 0 := by decide
  obtain ⟨s₁, hs₁, hfresh⟩ := mmap_of_alloc (inv_start hk.ready) hok halloc
  obtain ⟨s₂, hs₂, hfresh₂⟩ := mmap_of_alloc (inv_start hk.ready)
    (show (protRead ||| protWrite) &&& ~~~supportedProtection = 0 by decide) halloc
  obtain ⟨s₃, hs₃, hallocated⟩ := mprotect_fresh hfresh₂.after.inv hok hfresh₂.pos hfresh₂.le
    hfresh₂.allocated
  exact ⟨k, vmallocBase, s₁, s₂, s₃, hk, hs₁, hs₂, hs₃,
    hfresh.allocated.protectionAt hfresh.start_mem,
    hallocated.protectionAt hfresh.start_mem⟩

end Vmm

end DoomOs
