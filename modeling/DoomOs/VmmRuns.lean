/-
# The virtual memory manager, run after run

What holds in every state that calls of the virtual memory manager reach after the address
space has been set up, whether they succeed or fail.

* `allocation_table_invariant`: the allocation table is sorted, and its ranges lie in the
  window a page apart.
* `frame_accounting`: the frames that were free at first are free, are tables of the tree,
  or are behind one page of one allocation.
* `window_correspondence`: exactly the allocated addresses of the window are mapped.
-/
import DoomOs.MmuImage
import DoomOs.VmmGrowth

namespace DoomOs

open Comp Paging RadixFormat Mmu

namespace Vmm

variable {L : Layout} {feat : Features} {boot : BootInfo} {k₀ : Kernel} {s s' : Vmm}

/-! ## The table, whatever happens to the page tables -/

/-- Work on the page tables does not touch the table. -/
theorem inKernel_cases {α : Type} (x : Comp Fault MmError Kernel α) (s : Vmm) :
    (∃ a k, (inKernel x).run s = .ok a ⟨k, s.table⟩) ∨
    (∃ e k, (inKernel x).run s = .err e ⟨k, s.table⟩) ∨ ∃ f, (inKernel x).run s = .halt f := by
  rw [inKernel, run_zoom]
  cases x.run s.kernel with
  | ok a k => exact Or.inl ⟨a, k, rfl⟩
  | err e k => exact Or.inr (Or.inl ⟨e, k, rfl⟩)
  | halt f => exact Or.inr (Or.inr ⟨f, rfl⟩)

/-- Work on the page tables followed by work on the table. -/
theorem table_of_inKernel_bind {α β : Type} {x : Comp Fault MmError Kernel α}
    {f : α → Comp Fault MmError Vmm β} (H : s.table.Inv)
    (hf : ∀ a k, ((f a).run ⟨k, s.table⟩).Sat (fun _ s' => s'.table.Inv) (fun _ s' => s'.table.Inv))
    (h : ((inKernel x >>= f).run s).state? = some s') : s'.table.Inv := by
  rcases inKernel_cases x s with ⟨a, k, hrun⟩ | ⟨e, k, hrun⟩ | ⟨f, hrun⟩
  · rw [run_bind_ok hrun] at h
    exact (hf a k).of_state? h
  · rw [run_bind_err hrun] at h
    rw [← Option.some.inj h]
    exact H
  · rw [run_bind_halt hrun] at h
    cases h

theorem table_of_inKernel {α : Type} {x : Comp Fault MmError Kernel α} (H : s.table.Inv)
    (h : ((inKernel x).run s).state? = some s') : s'.table.Inv := by
  rcases inKernel_cases x s with ⟨a, k, hrun⟩ | ⟨e, k, hrun⟩ | ⟨f, hrun⟩
  · rw [hrun] at h
    rw [← Option.some.inj h]
    exact H
  · rw [hrun] at h
    rw [← Option.some.inj h]
    exact H
  · rw [hrun] at h
    cases h

/-- The size that `alloc` asks for. -/
theorem alignUp_bytes {bytes : ℕ} (hpos : bytes ≠ 0) (hle : ¬bytes > vmallocSize) :
    alignUp bytes frameSize % 4096 = 0 ∧ 0 < alignUp bytes frameSize ∧
      alignUp bytes frameSize + 4096 < 2 ^ 64 := by
  simp only [vmallocSize] at hle
  rw [frameSize, alignUp_4096 (by omega)]
  omega

theorem alloc_table (H : s.table.Inv) {bytes : ℕ} {p : PageProt}
    (h : ((alloc L feat bytes p).run s).state? = some s') : s'.table.Inv := by
  rw [alloc] at h
  by_cases hbad : bytes = 0 ∨ bytes > vmallocSize
  · rw [if_pos hbad] at h
    rw [← Option.some.inj h]
    exact H
  rw [if_neg hbad] at h
  obtain ⟨hpos, hle⟩ := not_or.mp hbad
  obtain ⟨hal, hsize, hlt⟩ := alignUp_bytes hpos hle
  dsimp only at h
  rw [run_gets_bind] at h
  cases hfind : s.table.findGap (alignUp bytes frameSize) with
  | error er =>
    rw [hfind] at h
    rw [← Option.some.inj h]
    exact H
  | ok index =>
    obtain ⟨hroom, hindex⟩ := AllocationTable.findGap_room H hfind
    rw [hfind] at h
    dsimp only at h
    rw [run_gets_bind] at h
    refine table_of_inKernel_bind H (fun _ k => ?_) h
    rw [sat_bind, inTable, sat_zoom]
    exact (AllocationTable.insert_sat _ hindex hroom).mono
      (fun _ t ht => H.insert hlt hsize hal hfind ht) (fun _ _ h => h.elim)

theorem free_table (H : s.table.Inv) {ptr bytes : ℕ}
    (h : ((free L feat ptr bytes).run s).state? = some s') : s'.table.Inv := by
  rw [free, run_gets_bind] at h
  cases hfind : s.table.indexOf ptr with
  | none =>
    rw [hfind] at h
    rw [← Option.some.inj h]
    exact H
  | some index =>
    obtain ⟨hindex, -⟩ := AllocationTable.indexOf_some hfind
    rw [hfind] at h
    dsimp only at h
    rw [run_gets_bind] at h
    split_ifs at h
    · rw [← Option.some.inj h]
      exact H
    · refine table_of_inKernel_bind H (fun _ k => ?_) h
      rw [inTable, sat_zoom]
      exact (AllocationTable.erase_sat hindex H.count_le).mono (fun _ t ht => H.erase ht)
        (fun _ _ h => h.elim)

theorem protect_table (H : s.table.Inv) {ptr bytes : ℕ} {p : PageProt}
    (h : ((protect L feat ptr bytes p).run s).state? = some s') : s'.table.Inv := by
  rw [protect] at h
  split_ifs at h
  · rw [← Option.some.inj h]
    exact H
  · rw [run_gets_bind] at h
    cases hfind : s.table.covering ptr (alignUp (u64 (ptr + bytes)) frameSize) with
    | none =>
      rw [hfind] at h
      rw [← Option.some.inj h]
      exact H
    | some index =>
      rw [hfind] at h
      exact table_of_inKernel H h

theorem mapMmio_table (H : s.table.Inv) {pa bytes : ℕ}
    (h : ((mapMmio L feat pa bytes).run s).state? = some s') : s'.table.Inv := by
  rw [mapMmio] at h
  split_ifs at h
  · rw [← Option.some.inj h]
    exact H
  · refine table_of_inKernel_bind H (fun _ k => ?_) h
    exact H

/-- Dropping the result of a call does not change the state it leaves. -/
theorem state?_bind_pure {α : Type} (x : Comp Fault MmError Vmm α) (s : Vmm) :
    ((x >>= fun _ => pure ()).run s).state? = (x.run s).state? := by
  rw [run_bind]
  cases x.run s <;> rfl

theorem exec_table (H : s.table.Inv) (c : Call)
    (h : ((exec L feat c).run s).state? = some s') : s'.table.Inv := by
  cases c with
  | alloc bytes p =>
    rw [exec, state?_bind_pure] at h
    exact alloc_table H h
  | free ptr bytes => exact free_table H h
  | protect ptr bytes p => exact protect_table H h
  | mapMmio pa bytes =>
    rw [exec, state?_bind_pure] at h
    exact mapMmio_table H h

theorem Reachable.table {s₀ : Vmm} (h : Reachable L feat s₀ s) (h₀ : s₀.table.Inv) :
    s.table.Inv := by
  induction h with
  | start => exact h₀
  | call c _ hrun ih => exact exec_table ih c hrun

/-! ## The invariant -/

/-- What holds between calls, when `k₀` was taken over. -/
structure Inv (L : Layout) (feat : Features) (k₀ : Kernel) (s : Vmm) : Prop where
  table : s.table.Inv
  window : Window L feat k₀ s.table.live ∅ s.kernel

theorem live_empty : AllocationTable.empty.live = ∅ := by
  ext x
  simp only [Set.mem_empty_iff_false, iff_false]
  rintro ⟨i, hi, -⟩
  exact absurd hi (Nat.not_lt_zero i)

theorem inv_start (h : Ready L feat k₀) : Inv L feat k₀ ⟨k₀, .empty⟩ := by
  refine ⟨AllocationTable.inv_of_count_eq_zero rfl, ?_⟩
  rw [live_empty]
  exact window_of_ready h

/-- The invariant holds in `s'`, and from `s` to `s'` only what is below the root entries in
`P` changed. -/
structure After (L : Layout) (feat : Features) (k₀ : Kernel) (P : ℕ → Prop) (s s' : Vmm) :
    Prop where
  inv : Inv L feat k₀ s'
  elsewhere : (kernelSpace L feat).Untouched P s.kernel s'.kernel

theorem Inv.after {P : ℕ → Prop} (H : Inv L feat k₀ s) : After L feat k₀ P s s := ⟨H, .refl _⟩

theorem After.mono {P Q : ℕ → Prop} (h : After L feat k₀ P s s') (hPQ : ∀ i, P i → Q i) :
    After L feat k₀ Q s s' :=
  ⟨h.inv, h.elsewhere.mono hPQ⟩

theorem After.trans {P : ℕ → Prop} {s'' : Vmm} (h : After L feat k₀ P s s')
    (h' : After L feat k₀ P s' s'') : After L feat k₀ P s s'' :=
  ⟨h'.inv, h.elsewhere.trans h'.elsewhere⟩

/-- The gap `index` was found for `bytes`, which are `n` pages. -/
structure Placed (t : AllocationTable) (bytes index n : ℕ) : Prop where
  accepted : ¬(bytes = 0 ∨ bytes > vmallocSize)
  found : t.findGap (alignUp bytes frameSize) = .ok index
  size : alignUp bytes frameSize = n * 4096
  pos : 0 < n
  size_lt : n * 4096 + 4096 < 2 ^ 64
  room : t.count < maxAllocations
  index_le : index ≤ t.count
  base_mem : t.gapStart index ∈ window
  last_mem : t.gapStart index + n * 4096 ∈ window
  aligned : t.gapStart index % 4096 = 0
  new : ∀ x ∈ bytesAt (t.gapStart index) (n * 4096), x ∉ t.live

theorem placed_of_findGap {t : AllocationTable} (H : t.Inv) {bytes index : ℕ}
    (hok : ¬(bytes = 0 ∨ bytes > vmallocSize))
    (hfind : t.findGap (alignUp bytes frameSize) = .ok index) :
    ∃ n, Placed t bytes index n := by
  obtain ⟨hpos, hle⟩ := not_or.mp hok
  obtain ⟨hal, hsize, hlt⟩ := alignUp_bytes hpos hle
  obtain ⟨hroom, hindex⟩ := AllocationTable.findGap_room H hfind
  have hfit := AllocationTable.findGap_fits H hlt hfind
  have hend := AllocationTable.gapEnd_le H hindex
  have hfirst := AllocationTable.first_le_gapStart H hindex
  have hpages : alignUp bytes frameSize = alignUp bytes frameSize / 4096 * 4096 := by omega
  refine ⟨alignUp bytes frameSize / 4096, hok, hfind, hpages, by omega, ?_, hroom, hindex,
    ⟨hfirst, by omega⟩, ?_, AllocationTable.gapStart_aligned H hindex, fun x hx => ?_⟩
  · rw [← hpages]
    exact hlt
  · rw [← hpages]
    exact ⟨by omega, by omega⟩
  · rw [← hpages] at hx
    exact AllocationTable.not_live_of_gap H hlt hfind hx.1 (by have := hx.2; omega)

/-- **What `alloc` does.** -/
theorem alloc_cases (H : Inv L feat k₀ s) (bytes : ℕ) (p : PageProt) :
    ((alloc L feat bytes p).run s).Sat
      (fun base s' => ∃ index n, Placed s.table bytes index n ∧ base = s.table.gapStart index ∧
        AllocationTable.Inserted index ⟨base, n * 4096⟩ s.table s'.table ∧
        PagesMapped L feat p base s.kernel n s'.kernel)
      (fun _ s' => (s' = s ∧ ∀ index n, ¬Placed s.table bytes index n) ∨
        ∃ index n, Placed s.table bytes index n ∧ s'.table = s.table ∧ Unwound L feat p
          (s.table.gapStart index) s.kernel n s'.kernel) := by
  rw [alloc]
  by_cases hbad : bytes = 0 ∨ bytes > vmallocSize
  · rw [if_pos hbad]
    exact Or.inl ⟨rfl, fun _ _ h => h.accepted hbad⟩
  rw [if_neg hbad]
  dsimp only
  rw [run_gets_bind]
  cases hfind : s.table.findGap (alignUp bytes frameSize) with
  | error er =>
    refine Or.inl ⟨rfl, fun _ _ h => ?_⟩
    have hfound := h.found
    rw [hfind] at hfound
    cases hfound
  | ok index =>
    obtain ⟨n, hplaced⟩ := placed_of_findGap H.table hbad hfind
    dsimp only
    rw [run_gets_bind, sat_bind, inKernel, sat_zoom, hplaced.size]
    refine (back_sat H.window.since hplaced.base_mem hplaced.last_mem hplaced.aligned hplaced.new
      p).mono (fun _ k hk => ?_) (fun _ k hk => Or.inr ⟨index, n, hplaced, rfl, hk⟩)
    rw [sat_bind, inTable, sat_zoom]
    exact (AllocationTable.insert_sat _ hplaced.index_le hplaced.room).mono
      (fun _ t ht => ⟨index, n, hplaced, rfl, ht, hk⟩) (fun _ _ h => h.elim)

theorem alloc_after (H : Inv L feat k₀ s) (bytes : ℕ) (p : PageProt) :
    ((alloc L feat bytes p).run s).Sat (fun _ s' => After L feat k₀ (· = 384) s s')
      (fun _ s' => After L feat k₀ (· = 384) s s') := by
  refine (alloc_cases H bytes p).mono (fun _ s' h => ?_) (fun _ s' h => ?_)
  · obtain ⟨index, n, hplaced, rfl, hins, hmapped⟩ := h
    have hk := H.window.since.pagesMapped hplaced.aligned
      (page_mem_window hplaced.base_mem hplaced.last_mem) hplaced.new hmapped
    have hfind := hplaced.found
    have hpos := hplaced.pos
    rw [hplaced.size] at hfind
    refine ⟨⟨H.table.insert hplaced.size_lt (by omega) (Nat.mul_mod_left n 4096) hfind hins, ?_⟩,
      hk.elsewhere⟩
    rw [hins.live hplaced.index_le]
    exact hk.here
  · rcases h with ⟨rfl, -⟩ | ⟨index, n, hplaced, htable, hunwound⟩
    · exact H.after
    · have hk := H.window.since.unwound hplaced.aligned
        (page_mem_window hplaced.base_mem hplaced.last_mem) hplaced.new hunwound
      refine ⟨⟨?_, ?_⟩, hk.elsewhere⟩
      · rw [htable]
        exact H.table
      · rw [htable]
        exact hk.here

/-- **What `free` does.**  It fails when no allocation has that base and that size. -/
theorem free_cases (H : Inv L feat k₀ s) (ptr bytes : ℕ) :
    ((free L feat ptr bytes).run s).Sat
      (fun _ s' => ∃ index n, index < s.table.count ∧
        s.table.allocations index = ⟨ptr, n * 4096⟩ ∧ ptr ∈ window ∧ ptr + n * 4096 ∈ window ∧
        AllocationTable.Erased index s.table s'.table ∧ PagesGone L feat ptr s.kernel n s'.kernel)
      (fun _ s' => s' = s ∧ ∀ index < s.table.count, (s.table.allocations index).base = ptr →
        (s.table.allocations index).bytes ≠ alignUp bytes frameSize) := by
  rw [free, run_gets_bind]
  cases hfind : s.table.indexOf ptr with
  | none =>
    refine ⟨rfl, fun index hindex hbase _ => ?_⟩
    rw [← hbase, AllocationTable.indexOf_base H.table hindex] at hfind
    cases hfind
  | some index =>
    obtain ⟨hindex, hbase⟩ := AllocationTable.indexOf_some hfind
    have hw := H.table.inWindow index hindex
    have hpos := hw.pos
    have hfirst := hw.first_le
    have hlast := hw.last_le
    have hpages : (s.table.allocations index).bytes
        = (s.table.allocations index).bytes / 4096 * 4096 := by
      have := hw.bytes_aligned
      omega
    dsimp only
    rw [run_gets_bind]
    split_ifs with hbytes
    · refine ⟨rfl, fun index' hindex' hbase' => ?_⟩
      rw [← hbase', AllocationTable.indexOf_base H.table hindex'] at hfind
      cases hfind
      exact hbytes
    · have hbase_mem : ptr ∈ window := ⟨by omega, by omega⟩
      have hlast_mem : ptr + (s.table.allocations index).bytes ∈ window := ⟨by omega, by omega⟩
      have hlive : ∀ x ∈ bytesAt ptr (s.table.allocations index).bytes, x ∈ s.table.live := by
        intro x hx
        refine ⟨index, hindex, ?_⟩
        rw [Allocation.addresses, hbase]
        exact hx
      have hal := hw.base_aligned
      rw [hbase] at hal ⊢
      rw [hpages] at hlast_mem hlive ⊢
      rw [sat_bind, inKernel, sat_zoom]
      refine (release_sat H.window.since hbase_mem hlast_mem hal hlive).mono (fun _ k hk => ?_)
        (fun _ _ h => h.elim)
      rw [inTable, sat_zoom]
      refine (AllocationTable.erase_sat hindex H.table.count_le).mono (fun _ t ht => ?_)
        (fun _ _ h => h.elim)
      refine ⟨index, _, hindex, ?_, hbase_mem, hlast_mem, ht, hk⟩
      rw [← hpages, ← hbase]

theorem free_after (H : Inv L feat k₀ s) (ptr bytes : ℕ) :
    ((free L feat ptr bytes).run s).Sat (fun _ s' => After L feat k₀ (· = 384) s s')
      (fun _ s' => After L feat k₀ (· = 384) s s') := by
  refine (free_cases H ptr bytes).mono (fun _ s' h => ?_) (fun _ s' h => ?_)
  · obtain ⟨index, n, hindex, hentry, hbase, hlast, herased, hgone⟩ := h
    have hal := (H.table.inWindow index hindex).base_aligned
    rw [hentry] at hal
    have hk := H.window.since.pagesGone hal (page_mem_window hbase hlast) hgone
    refine ⟨⟨H.table.erase herased, ?_⟩, hk.elsewhere⟩
    rw [herased.live H.table hindex, hentry]
    exact hk.here
  · obtain ⟨rfl, -⟩ := h
    exact H.after

/-- `protect` on pages of an allocation: the window stays, and the call does not fail. -/
theorem protectRange_after (H : Inv L feat k₀ s) {index first last : ℕ} (p : PageProt)
    (hindex : index < s.table.count) (hfirst : (s.table.allocations index).base ≤ first)
    (hlast : last ≤ (s.table.allocations index).base + (s.table.allocations index).bytes)
    (hal : first % 4096 = 0) (hal' : last % 4096 = 0) (hlt : first < last) :
    ((inKernel ((kernelSpace L feat).protectRange first (last - first) .size4K p)).run s).Sat
      (fun _ s' => After L feat k₀ (· = 384) s s' ∧ s'.table = s.table ∧
        WritesTables L feat s.kernel s'.kernel ∧
        (kernelSpace L feat).ProtectsTo first (last - first) (readBack feat p) s.kernel s'.kernel)
      (fun _ _ => False) := by
  have hw := H.table.inWindow index hindex
  have hwfirst := hw.first_le
  have hwlast := hw.last_le
  have hend := AllocationTable.vmalloc_end
  have hchanges := RadixTree.protectRange_sat H.window.shape
    (show first + (last - first) ≤ 2 ^ 64 by omega) .size4K p
  rw [inKernel, sat_zoom]
  refine ((protectRange_window_sat H.window.since hal (by omega) (by omega) (fun x hx => ?_)
    (fun x hx => ?_) p).and hchanges).mono (fun _ k hk => ?_) (fun _ _ h => h.1)
  · obtain ⟨h1, h2⟩ := hx
    exact ⟨by omega, by omega⟩
  · obtain ⟨h1, h2⟩ := hx
    exact ⟨index, hindex, by omega, by omega⟩
  · obtain ⟨⟨hsince, hwrites⟩, -, hprotects⟩ := hk
    exact ⟨⟨⟨H.table, hsince.here⟩, hsince.elsewhere⟩, rfl, hwrites, hprotects⟩

theorem protect_after (H : Inv L feat k₀ s) (ptr bytes : ℕ) (p : PageProt) :
    ((protect L feat ptr bytes p).run s).Sat (fun _ s' => After L feat k₀ (· = 384) s s')
      (fun _ s' => After L feat k₀ (· = 384) s s') := by
  rw [protect]
  by_cases hbad : bytes = 0 ∨ ptr &&& (frameSize - 1) ≠ 0 ∨
      alignUp (u64 (ptr + bytes)) frameSize ≤ ptr
  · rw [if_pos hbad]
    exact H.after
  rw [if_neg hbad, run_gets_bind]
  obtain ⟨-, hmask, hlt⟩ := not_or.mp hbad |>.imp_right not_or.mp
  cases hfind : s.table.covering ptr (alignUp (u64 (ptr + bytes)) frameSize) with
  | none => exact H.after
  | some index =>
    obtain ⟨hindex, hfirst, hlast⟩ := AllocationTable.covering_some H.table hfind
    have hal : ptr % 4096 = 0 := by
      rw [← Nat.and_two_pow_sub_one_eq_mod ptr 12]
      exact not_not.mp hmask
    have hal' : alignUp (u64 (ptr + bytes)) frameSize % 4096 = 0 := by
      rw [alignUp, frameSize, alignDown_4096]
      omega
    exact (protectRange_after H p hindex hfirst hlast hal hal' (not_le.mp hlt)).mono
      (fun _ _ h => h.1) (fun _ _ h => h.elim)

/-- The range that `map_mmio` maps for a request it accepts. -/
theorem mmio_range {pa bytes : ℕ}
    (hbad : ¬(bytes = 0 ∨ pa ≥ mmioMapSize ∨ bytes > mmioMapSize - pa)) :
    alignDown pa frameSize = pa - pa % 4096 ∧
    alignUp (pa + bytes) frameSize = (pa + bytes + 4095) - (pa + bytes + 4095) % 4096 ∧
    alignUp (pa + bytes) frameSize ≤ mmioMapSize ∧
    alignDown pa frameSize < alignUp (pa + bytes) frameSize := by
  simp only [mmioMapSize] at hbad
  rw [frameSize, alignDown_4096, alignUp_4096 (by omega)]
  unfold mmioMapSize
  refine ⟨rfl, rfl, ?_, ?_⟩
  · omega
  · omega

/-- The window of device memory is what one entry of the root covers. -/
theorem index_mmio {x : ℕ} (h : mmioMapBase ≤ x) (hx : x < mmioMapBase + mmioMapSize) :
    index 4 x = 257 := by
  simp only [mmioMapBase, mmioMapSize] at h hx
  rw [index_eq]
  omega

theorem mapMmio_after (H : Inv L feat k₀ s) (pa bytes : ℕ) :
    ((mapMmio L feat pa bytes).run s).Sat (fun _ s' => After L feat k₀ (· = 257) s s')
      (fun _ s' => After L feat k₀ (· = 257) s s') := by
  rw [mapMmio]
  by_cases hbad : bytes = 0 ∨ pa ≥ mmioMapSize ∨ bytes > mmioMapSize - pa
  · rw [if_pos hbad]
    exact H.after
  rw [if_neg hbad]
  obtain ⟨-, -, hend, hlt⟩ := mmio_range hbad
  dsimp only
  rw [sat_bind, inKernel, sat_zoom]
  have K := (Window.keeps L feat k₀ s.table.live ∅ (P := (· = 257)) (fun y hy =>
    ⟨by omega, H.window.start.roots y (by omega) (by omega)⟩)).untouched s.kernel
  have hsize : mmioMapBase + mmioMapSize ≤ 2 ^ 64 := by decide
  refine (K.mapRange_sat ⟨H.window, .refl _⟩ (by omega)
    (fun x hx hx' => index_mmio (by omega) (by omega)) _ _ _).mono
    (fun _ k hk => ⟨⟨H.table, hk.1⟩, hk.2⟩) (fun _ k hk => ⟨⟨H.table, hk.1⟩, hk.2⟩)

/-- The root entries that a call works under. -/
def Call.roots : Call → ℕ → Prop
  | .mapMmio _ _ => (· = 257)
  | _ => (· = 384)

theorem exec_after (H : Inv L feat k₀ s) (c : Call) :
    ((exec L feat c).run s).Sat (fun _ s' => After L feat k₀ c.roots s s')
      (fun _ s' => After L feat k₀ c.roots s s') := by
  cases c with
  | alloc bytes p =>
    rw [exec, sat_bind]
    exact alloc_after H bytes p
  | free ptr bytes => exact free_after H ptr bytes
  | protect ptr bytes p => exact protect_after H ptr bytes p
  | mapMmio pa bytes =>
    rw [exec, sat_bind]
    exact mapMmio_after H pa bytes

theorem exec_inv (H : Inv L feat k₀ s) (c : Call) :
    ((exec L feat c).run s).Sat (fun _ s' => Inv L feat k₀ s') (fun _ s' => Inv L feat k₀ s') :=
  (exec_after H c).mono (fun _ _ h => h.inv) (fun _ _ h => h.inv)

theorem Reachable.inv (h : Reachable L feat ⟨k₀, .empty⟩ s) (h₀ : Ready L feat k₀) :
    Inv L feat k₀ s := by
  induction h with
  | start => exact inv_start h₀
  | call c _ hrun ih => exact (exec_inv ih c).of_state? hrun

/-! ## Requests that succeed -/

theorem Reachable.alloc {s₀ : Vmm} (h : Reachable L feat s₀ s) {bytes base : ℕ} {p : PageProt}
    (hrun : (alloc L feat bytes p).run s = .ok base s') : Reachable L feat s₀ s' := by
  refine .call (.alloc bytes p) h ?_
  rw [exec, state?_bind_pure, hrun]
  rfl

/-- With four frames for each page `alloc` succeeds, where there is a gap, and takes no more
than these. -/
theorem alloc_succeeds (H : Inv L feat k₀ s) {bytes index n : ℕ}
    (hplaced : Placed s.table bytes index n) (hroom : 4 * n ≤ s.kernel.avail.ncard)
    (p : PageProt) :
    ∃ s', (alloc L feat bytes p).run s = .ok (s.table.gapStart index) s' ∧
      AllocationTable.Inserted index ⟨s.table.gapStart index, n * 4096⟩ s.table s'.table ∧
      s.kernel.avail.ncard ≤ s'.kernel.avail.ncard + 4 * n := by
  have hsame : ∀ {index' n'}, Placed s.table bytes index' n' → index' = index ∧ n' = n := by
    intro index' n' hplaced'
    have hsize := hplaced.size
    rw [hplaced'.size] at hsize
    exact ⟨Except.ok.inj (hplaced'.found.symm.trans hplaced.found), by omega⟩
  obtain ⟨_, s', hrun, index', n', hplaced', rfl, hins, hmapped⟩ :=
    (alloc_cases H bytes p).exists_ok (fun _ v h => by
      rcases h with ⟨-, hno⟩ | ⟨index', n', hplaced', -, k, s₁, s₂, hk, hmapped, hrefused, -⟩
      · exact hno index n hplaced
      · obtain ⟨rfl, rfl⟩ := hsame hplaced'
        have hcount := hmapped.added.count
        have htables := missingTables_le L feat s.kernel (s.table.gapStart index') k
        have hmissing :=
          (kernelSpace L feat).missing_le s₁ (s.table.gapStart index' + k * 4096) 3
        have hle := hrefused.ncard_le
        omega)
  obtain ⟨rfl, rfl⟩ := hsame hplaced'
  have hcount := hmapped.added.count
  have htables := missingTables_le L feat s.kernel (s.table.gapStart index') n'
  exact ⟨s', hrun, hins, by omega⟩

/-- One page fits in the window while nothing is allocated. -/
theorem placed_empty : Placed .empty 0x1000 0 1 := by
  have hfind : AllocationTable.empty.findGap (alignUp 0x1000 frameSize) = .ok 0 := by decide
  obtain ⟨n, h⟩ := placed_of_findGap (AllocationTable.inv_of_count_eq_zero rfl) (by decide) hfind
  obtain rfl : n = 1 := by
    have hsize := h.size
    rw [show alignUp 0x1000 frameSize = 0x1000 by decide] at hsize
    omega
  exact h

/-- One page can be allocated on the small machine. -/
theorem exists_alloc_small : ∃ k s₁,
    Booted smallLayout ⟨true, true, false⟩ Pmm.smallBoot k ∧
    (alloc smallLayout ⟨true, true, false⟩ 0x1000 .kernelData).run ⟨k, .empty⟩
      = .ok vmallocBase s₁ ∧
    s₁.table.count = 1 ∧ s₁.table.allocations 0 = ⟨vmallocBase, 0x1000⟩ ∧
    240 ≤ s₁.kernel.avail.ncard := by
  obtain ⟨k, hk, hspare, -⟩ := exists_booted_small
  have hroom := le_ncard_of_spare hspare
  obtain ⟨s₁, halloc, hins, hleft⟩ := alloc_succeeds (inv_start hk.ready) placed_empty
    (show 4 * 1 ≤ k.avail.ncard by omega) .kernelData
  refine ⟨k, s₁, hk, halloc, hins.count, hins.self, ?_⟩
  have hstart : (⟨k, .empty⟩ : Vmm).kernel.avail.ncard = k.avail.ncard := rfl
  omega

/-- And two pages behind it. -/
theorem exists_allocs_small : ∃ k s₁ s₂,
    Booted smallLayout ⟨true, true, false⟩ Pmm.smallBoot k ∧
    (alloc smallLayout ⟨true, true, false⟩ 0x1000 .kernelData).run ⟨k, .empty⟩
      = .ok vmallocBase s₁ ∧
    s₁.table.count = 1 ∧
    (alloc smallLayout ⟨true, true, false⟩ 0x2000 .kernelData).run s₁
      = .ok (vmallocBase + 0x2000) s₂ ∧
    s₂.table.count = 2 ∧ s₂.table.allocations 0 = ⟨vmallocBase, 0x1000⟩ ∧
    s₂.table.allocations 1 = ⟨vmallocBase + 0x2000, 0x2000⟩ := by
  obtain ⟨k, s₁, hk, halloc, hcount, hentry, hroom⟩ := exists_alloc_small
  have H : Inv smallLayout ⟨true, true, false⟩ k s₁ := (Reachable.start.alloc halloc).inv hk.ready
  have hstart : s₁.table.gapStart 1 = vmallocBase + 0x2000 := by
    rw [AllocationTable.gapStart, if_neg one_ne_zero, hentry]
    rfl
  have hfind : s₁.table.findGap (alignUp 0x2000 frameSize) = .ok 1 := by
    have h0 : s₁.table.fits (alignUp 0x2000 frameSize) 0 = false := by
      rw [AllocationTable.fits, AllocationTable.gapEnd, hcount, if_neg zero_ne_one, hentry,
        AllocationTable.gapStart, if_pos rfl]
      decide
    have h1 : s₁.table.fits (alignUp 0x2000 frameSize) 1 = true := by
      rw [AllocationTable.fits, AllocationTable.gapEnd, hcount, if_pos rfl, hstart]
      decide
    rw [AllocationTable.findGap, hcount, if_neg (by decide),
      show List.range (1 + 1) = [0, 1] by decide, List.find?_cons_of_neg (by rw [h0]; decide),
      List.find?_cons_of_pos h1]
  obtain ⟨n, hplaced⟩ := placed_of_findGap H.table (by decide) hfind
  obtain rfl : n = 2 := by
    have hsize := hplaced.size
    rw [show alignUp 0x2000 frameSize = 0x2000 by decide] at hsize
    omega
  obtain ⟨s₂, halloc₂, hins, -⟩ := alloc_succeeds H hplaced (by omega) .kernelData
  rw [hstart] at halloc₂ hins
  refine ⟨k, s₁, s₂, hk, halloc, hcount, halloc₂, ?_, ?_, hins.self⟩
  · rw [hins.count, hcount]
  · rw [hins.below 0 Nat.one_pos, hentry]

/-! ## The order of the table -/

/-- **The allocation table stays in order.**  In every state that calls reach from an empty
table, whatever they do to the page tables: the ranges are whole pages in the window,
sorted, with a page behind each; no gap has a negative length; and `insert` stays inside
the array. -/
theorem allocation_table_invariant {s₀ : Vmm} (h₀ : s₀.table.count = 0)
    (h : Reachable L feat s₀ s) :
    s.table.count ≤ 1024 ∧
    (∀ i j, i < j → j < s.table.count →
      (s.table.allocations i).base < (s.table.allocations j).base) ∧
    (∀ i < s.table.count, 0 < (s.table.allocations i).base ∧
      (s.table.allocations i).base % 4096 = 0 ∧ 0 < (s.table.allocations i).bytes ∧
      (s.table.allocations i).bytes % 4096 = 0) ∧
    (0 < s.table.count → vmallocBase ≤ (s.table.allocations 0).base) ∧
    (∀ i, i + 1 < s.table.count → (s.table.allocations i).base + (s.table.allocations i).bytes
      + 4096 ≤ (s.table.allocations (i + 1)).base) ∧
    (0 < s.table.count → (s.table.allocations (s.table.count - 1)).base
      + (s.table.allocations (s.table.count - 1)).bytes + 4096 ≤ vmallocBase + vmallocSize) ∧
    (∀ i ≤ s.table.count, s.table.gapStart i ≤ s.table.gapEnd i) ∧
    (∀ bytes index entry, s.table.findGap bytes = .ok index →
      ∃ t, (AllocationTable.insert index entry).run s.table = .ok () t) ∧
    ∀ i < s.table.count, ∀ j < s.table.count, i ≠ j →
      (s.table.allocations i).base + (s.table.allocations i).bytes
        < (s.table.allocations j).base ∨
      (s.table.allocations j).base + (s.table.allocations j).bytes
        < (s.table.allocations i).base := by
  have H := h.table (AllocationTable.inv_of_count_eq_zero h₀)
  have hbefore : ∀ i j, i < j → j < s.table.count → (s.table.allocations i).base
      + (s.table.allocations i).bytes + 4096 ≤ (s.table.allocations j).base := H.before
  refine ⟨H.count_le, fun i j hij hj => ?_, fun i hi => ?_,
    fun hpos => (H.inWindow 0 hpos).first_le, fun i hi => hbefore i (i + 1) (by omega) hi,
    fun hpos => (H.inWindow _ (by omega)).last_le,
    fun i hi => AllocationTable.gapStart_le_gapEnd H hi, fun bytes index entry hfind => ?_,
    fun i hi j hj hne => ?_⟩
  · have := hbefore i j hij hj
    omega
  · have hw := H.inWindow i hi
    have hfirst := hw.first_le
    simp only [vmallocBase] at hfirst
    exact ⟨by omega, hw.base_aligned, hw.pos, hw.bytes_aligned⟩
  · obtain ⟨hroom, hindex⟩ := AllocationTable.findGap_room H hfind
    obtain ⟨_, t, hrun, -⟩ := (AllocationTable.insert_sat entry hindex hroom).exists_ok
      (fun _ _ h => h)
    exact ⟨t, hrun⟩
  · rcases lt_or_gt_of_ne hne with hlt | hgt
    · have := hbefore i j hlt hj
      omega
    · have := hbefore j i hgt hi
      omega

theorem allocation_table_invariant_small : ∃ k s₁ s₂,
    (alloc smallLayout ⟨true, true, false⟩ 0x1000 .kernelData).run ⟨k, .empty⟩
      = .ok vmallocBase s₁ ∧
    (alloc smallLayout ⟨true, true, false⟩ 0x2000 .kernelData).run s₁
      = .ok (vmallocBase + 0x2000) s₂ ∧
    s₂.table.count = 2 ∧
    (s₂.table.allocations 0).base + (s₂.table.allocations 0).bytes + 4096
      ≤ (s₂.table.allocations 1).base ∧
    ∀ i ≤ 2, s₂.table.gapStart i ≤ s₂.table.gapEnd i := by
  obtain ⟨k, s₁, s₂, -, halloc₁, -, halloc₂, hcount, -⟩ := exists_allocs_small
  obtain ⟨-, -, -, -, hbehind, -, hgap, -⟩ :=
    allocation_table_invariant rfl ((Reachable.start.alloc halloc₁).alloc halloc₂)
  rw [hcount] at hbehind hgap
  exact ⟨k, s₁, s₂, halloc₁, halloc₂, hcount, hbehind 0 (by decide), hgap⟩

/-! ## Frames -/

/-- The slot, reached from the root, holds an entry that leads to the table `t`. -/
def LinksTo (L : Layout) (feat : Features) (s : Kernel) (slot : Slot) (t : ℕ) : Prop :=
  ∃ x d, (kernelSpace L feat).tableOn s x d = some slot.table ∧ index (4 - d) x = slot.index ∧
    format.child d (s.mem slot.table slot.index) = some t

/-- The page tables that are linked from the kernel's root. -/
def linkedTables (L : Layout) (feat : Features) (s : Vmm) : Set ℕ :=
  {t | ∃ slot, LinksTo L feat s.kernel slot t}

/-- The frame `f` is behind the page at `x` of the allocation with index `i`. -/
def BacksPage (L : Layout) (feat : Features) (s : Vmm) (i x f : ℕ) : Prop :=
  i < s.table.count ∧ x ∈ (s.table.allocations i).addresses ∧ x % 4096 = 0 ∧
    ∃ p, (kernelSpace L feat).translation s.kernel x = some (f, p)

/-- The frames behind pages of allocations. -/
def backingFrames (L : Layout) (feat : Features) (s : Vmm) : Set ℕ :=
  {f | ∃ i x, BacksPage L feat s i x f}

/-- The frames that were free in `k₀` are now free, tables, or behind pages, one of the
three each. -/
structure Accounts (L : Layout) (feat : Features) (k₀ : Kernel) (s : Vmm) : Prop where
  cover : k₀.avail = s.kernel.avail ∪ (k₀.avail ∩ linkedTables L feat s) ∪ backingFrames L feat s
  free_tables : Disjoint s.kernel.avail (linkedTables L feat s)
  free_backing : Disjoint s.kernel.avail (backingFrames L feat s)
  tables_backing : Disjoint (linkedTables L feat s) (backingFrames L feat s)
  table_once : ∀ t ∈ linkedTables L feat s, ∃! slot, LinksTo L feat s.kernel slot t
  page_once : ∀ f ∈ backingFrames L feat s, ∃! page : ℕ × ℕ, BacksPage L feat s page.1 page.2 f

theorem mem_linkedTables {t : ℕ} :
    t ∈ linkedTables L feat s ↔ t ∈ (kernelSpace L feat).tables s.kernel := by
  constructor
  · rintro ⟨⟨c, i⟩, x, d, hc, rfl, hchild⟩
    exact ⟨x, d, tableOn_succ_iff.mpr ⟨c, hc, hchild⟩⟩
  · rintro ⟨x, d, ht⟩
    obtain ⟨c, hc, hchild⟩ := tableOn_succ_iff.mp ht
    exact ⟨⟨c, index (4 - d) x⟩, x, d, hc, rfl, hchild⟩

/-- No table is linked from two slots. -/
theorem links_unique (H : Inv L feat k₀ s) {slot slot' : Slot} {t : ℕ}
    (h : LinksTo L feat s.kernel slot t) (h' : LinksTo L feat s.kernel slot' t) :
    slot = slot' := by
  obtain ⟨c, i⟩ := slot
  obtain ⟨c', i'⟩ := slot'
  obtain ⟨x, d, hc, rfl, hchild⟩ := h
  obtain ⟨y, d', hc', rfl, hchild'⟩ := h'
  obtain ⟨hd, hag⟩ := H.window.shape.separate x y (d + 1) (d' + 1) t
    (tableOn_succ_iff.mpr ⟨c, hc, hchild⟩) (tableOn_succ_iff.mpr ⟨c', hc', hchild'⟩)
  obtain rfl : d = d' := by omega
  have htable : (kernelSpace L feat).tableOn s.kernel x d
      = (kernelSpace L feat).tableOn s.kernel y d := tableOn_congr (hag.mono (by omega))
  obtain rfl : c = c' := Option.some.inj (hc.symm.trans (htable.trans hc'))
  have hindex : index (4 - d) x = index (4 - d) y := hag d (by omega)
  rw [hindex]

/-- Live addresses are in the window. -/
theorem window_of_mem (H : s.table.Inv) {i x : ℕ} (hi : i < s.table.count)
    (hx : x ∈ (s.table.allocations i).addresses) : x ∈ window := by
  obtain ⟨h1, h2⟩ := hx
  have hfirst := (H.inWindow i hi).first_le
  have hlast := (H.inWindow i hi).last_le
  exact ⟨by omega, by omega⟩

/-- The first address of a page translates to the frame behind it. -/
theorem translation_page (H : Inv L feat k₀ s) {x f : ℕ} (hx : x ∈ window) (hal : x % 4096 = 0) :
    (∃ p, (kernelSpace L feat).translation s.kernel x = some (f, p)) ↔
      Backs L feat s.kernel x f := by
  have hspan : x % span 3 = 0 := hal
  constructor
  · rintro ⟨p, htr⟩
    have hmaps : ∃ d e, (kernelSpace L feat).Maps s.kernel x d e := by
      by_contra hno
      rw [RadixTree.translation_of_not_maps H.window.shape (valid_window hx)
        (fun d e hm => hno ⟨d, e, hm⟩)] at htr
      cases htr
    obtain ⟨d, e, hm⟩ := hmaps
    obtain rfl := H.window.depth x hx d e hm
    rw [RadixTree.translation_of_maps H.window.shape (valid_window hx) hm, hspan,
      Nat.add_zero] at htr
    exact ⟨e, hm, (Prod.mk.inj (Option.some.inj htr)).1⟩
  · rintro ⟨e, hm, rfl⟩
    refine ⟨prot e, ?_⟩
    rw [RadixTree.translation_of_maps H.window.shape (valid_window hx) hm, hspan, Nat.add_zero]

theorem backsPage_iff (H : Inv L feat k₀ s) {i x f : ℕ} : BacksPage L feat s i x f ↔
    i < s.table.count ∧ x ∈ (s.table.allocations i).addresses ∧ x % 4096 = 0 ∧
      Backs L feat s.kernel x f := by
  refine and_congr_right (fun hi => and_congr_right (fun hx => and_congr_right (fun hal => ?_)))
  exact translation_page H (window_of_mem H.table hi hx) hal

theorem backingFrames_eq (H : Inv L feat k₀ s) :
    backingFrames L feat s = backing L feat s.kernel := by
  ext f
  constructor
  · rintro ⟨i, x, h⟩
    obtain ⟨hi, hx, -, hb⟩ := (backsPage_iff H).mp h
    exact ⟨x, window_of_mem H.table hi hx, hb⟩
  · rintro ⟨x, hx, hb⟩
    -- the page of `x` starts inside the same allocation
    obtain ⟨i, hi, h1, h2⟩ := (H.window.mapped x hx).mpr ⟨f, hb⟩
    have hbase := (H.table.inWindow i hi).base_aligned
    have hmem : x - x % 4096 ∈ (s.table.allocations i).addresses := ⟨by omega, by omega⟩
    obtain ⟨e, hm, rfl⟩ := hb
    refine ⟨i, x - x % 4096, (backsPage_iff H).mpr ⟨hi, hmem, by omega, e, hm.congr ?_, rfl⟩⟩
    exact (agree_window hx (window_of_mem H.table hi hmem)).mpr (by omega)

/-- No frame is behind two pages or belongs to two allocations. -/
theorem backsPage_unique (H : Inv L feat k₀ s) {i x j y f : ℕ} (h : BacksPage L feat s i x f)
    (h' : BacksPage L feat s j y f) : i = j ∧ x = y := by
  obtain ⟨hi, hx, hal, hb⟩ := (backsPage_iff H).mp h
  obtain ⟨hj, hy, hal', hb'⟩ := (backsPage_iff H).mp h'
  have hpage :=
    H.window.once x (window_of_mem H.table hi hx) y (window_of_mem H.table hj hy) f hb hb'
  obtain rfl : x = y := by omega
  refine ⟨?_, rfl⟩
  obtain ⟨h1, h2⟩ := hx
  obtain ⟨h1', h2'⟩ := hy
  have hbefore : ∀ i j, i < j → j < s.table.count → (s.table.allocations i).base
      + (s.table.allocations i).bytes + 4096 ≤ (s.table.allocations j).base := H.table.before
  rcases lt_trichotomy i j with hlt | heq | hgt
  · have := hbefore i j hlt hj
    omega
  · exact heq
  · have := hbefore j i hgt hi
    omega

theorem Inv.accounts (H : Inv L feat k₀ s) : Accounts L feat k₀ s := by
  have hframes := H.window.frames
  have hdisj := H.window.backing_disjoint
  rw [Set.union_empty] at hframes hdisj
  -- a frame that was free at first is in none of the tables of then
  have hfresh : ∀ t ∈ k₀.avail, t ∈ owned L feat k₀ := fun t ht =>
    ⟨Or.inl ht, H.window.start.image t ht⟩
  have hback : ∀ t ∈ owned L feat k₀, t ∉ linkedTables L feat s → t ∈ k₀.avail := by
    rintro t ⟨hav | ⟨y, k, ht⟩, -⟩ hnot
    · exact hav
    · exact absurd (mem_linkedTables.mpr ⟨y, k, H.window.kept y k t ht⟩) hnot
  have hfree : ∀ t ∈ s.kernel.avail, t ∉ linkedTables L feat s := by
    intro t hav ht
    obtain ⟨y, k, ht⟩ := mem_linkedTables.mp ht
    exact H.window.shape.not_avail y (k + 1) t ht hav
  have hown : ∀ t ∈ s.kernel.avail, t ∈ owned L feat s.kernel := fun t ht =>
    ⟨Or.inl ht, H.window.image t ht⟩
  have hbacking : ∀ t ∈ backing L feat s.kernel, t ∉ linkedTables L feat s := by
    intro t hb ht
    refine Set.disjoint_left.mp hdisj hb ⟨Or.inr (mem_linkedTables.mp ht), ?_⟩
    exact (H.window.frame_of_backing hb).2.2
  refine ⟨?_, ?_, ?_, ?_, fun t ht => ?_, fun f hf => ?_⟩
  · rw [backingFrames_eq H]
    ext t
    constructor
    · intro ht
      have hin := hfresh t ht
      rw [← hframes] at hin
      rcases hin with ⟨hav | htab, -⟩ | hb
      · exact Or.inl (Or.inl hav)
      · exact Or.inl (Or.inr ⟨ht, mem_linkedTables.mpr htab⟩)
      · exact Or.inr hb
    · rintro ((hav | ⟨ht, -⟩) | hb)
      · exact hback t (hframes ▸ Or.inl (hown t hav)) (hfree t hav)
      · exact ht
      · exact hback t (hframes ▸ Or.inr hb) (hbacking t hb)
  · exact Set.disjoint_left.mpr hfree
  · rw [backingFrames_eq H]
    exact Set.disjoint_left.mpr (fun t hav hb => Set.disjoint_left.mp hdisj hb (hown t hav))
  · rw [backingFrames_eq H]
    exact Set.disjoint_right.mpr hbacking
  · obtain ⟨slot, hslot⟩ := ht
    exact ⟨slot, hslot, fun slot' h => links_unique H h hslot⟩
  · obtain ⟨i, x, h⟩ := hf
    refine ⟨(i, x), h, fun page hpage => ?_⟩
    obtain ⟨h1, h2⟩ := backsPage_unique H hpage h
    exact Prod.ext h1 h2

/-- **Every frame is accounted for.**  In every state that calls reach once the address
space has been set up, the frames that were free then are free, are tables that are linked
once, or are behind one page of one allocation; and no call panics. -/
theorem frame_accounting (h₀ : Booted L feat boot k₀) (h : Reachable L feat ⟨k₀, .empty⟩ s) :
    Accounts L feat k₀ s ∧ ∀ c fault, (exec L feat c).run s ≠ .halt fault := by
  have H := h.inv h₀.ready
  exact ⟨H.accounts, fun c fault => (exec_inv H c).ne_halt fault⟩

theorem frame_accounting_small : ∃ k s₁ s₂,
    Booted smallLayout ⟨true, true, false⟩ Pmm.smallBoot k ∧
    (alloc smallLayout ⟨true, true, false⟩ 0x1000 .kernelData).run ⟨k, .empty⟩
      = .ok vmallocBase s₁ ∧
    (alloc smallLayout ⟨true, true, false⟩ 0x2000 .kernelData).run s₁
      = .ok (vmallocBase + 0x2000) s₂ ∧
    Accounts smallLayout ⟨true, true, false⟩ k s₂ ∧
    ∀ fault, (exec smallLayout ⟨true, true, false⟩ (.free vmallocBase 0x1000)).run s₂
      ≠ .halt fault := by
  obtain ⟨k, s₁, s₂, hk, halloc₁, -, halloc₂, -⟩ := exists_allocs_small
  obtain ⟨haccounts, hnever⟩ := frame_accounting hk ((Reachable.start.alloc halloc₁).alloc halloc₂)
  exact ⟨k, s₁, s₂, hk, halloc₁, halloc₂, haccounts, hnever (.free vmallocBase 0x1000)⟩

/-! ## Pages -/

/-- **Exactly the allocated addresses are mapped.**  In every state that calls reach once
the address space has been set up: an address of the window is translated when it is in an
allocation, and only then; the page behind an allocation is not; no call panics; and
`protect` on pages of one allocation succeeds. -/
theorem window_correspondence (h₀ : Booted L feat boot k₀)
    (h : Reachable L feat ⟨k₀, .empty⟩ s) :
    (∀ x, vmallocBase ≤ x → x < vmallocBase + vmallocSize →
      (((kernelSpace L feat).translation s.kernel x).isSome ↔
        ∃ i < s.table.count, (s.table.allocations i).base ≤ x ∧
          x < (s.table.allocations i).base + (s.table.allocations i).bytes)) ∧
    (∀ i < s.table.count, ∀ x,
      (s.table.allocations i).base + (s.table.allocations i).bytes ≤ x →
      x < (s.table.allocations i).base + (s.table.allocations i).bytes + 4096 →
      (kernelSpace L feat).translation s.kernel x = none) ∧
    (∀ c fault, (exec L feat c).run s ≠ .halt fault) ∧
    ∀ i < s.table.count, ∀ ptr bytes p, ptr % 4096 = 0 → 0 < bytes →
      (s.table.allocations i).base ≤ ptr →
      ptr + bytes ≤ (s.table.allocations i).base + (s.table.allocations i).bytes →
      ∃ s', (protect L feat ptr bytes p).run s = .ok () s' := by
  have H := h.inv h₀.ready
  have hmapped : ∀ x ∈ window, ((kernelSpace L feat).translation s.kernel x).isSome ↔
      x ∈ s.table.live := by
    intro x hx
    rw [H.window.mapped x hx, Option.isSome_iff_ne_none, ne_eq,
      RadixTree.translation_eq_none_iff H.window.shape (valid_window hx)]
    simp only [not_forall, not_not]
    constructor
    · rintro ⟨d, e, hm⟩
      obtain rfl := H.window.depth x hx d e hm
      exact ⟨_, e, hm, rfl⟩
    · rintro ⟨_, e, hm, -⟩
      exact ⟨3, e, hm⟩
  refine ⟨fun x hx hlt => hmapped x ⟨hx, hlt⟩, fun i hi x hx hlt => ?_,
    fun c fault => (exec_inv H c).ne_halt fault, fun i hi ptr bytes p hal hpos hfirst hlast => ?_⟩
  · -- the page behind a range is in the window and in no other range
    have hw := H.table.inWindow i hi
    have hwfirst := hw.first_le
    have hwlast := hw.last_le
    have hin : x ∈ window := ⟨by omega, by omega⟩
    rw [← Option.not_isSome_iff_eq_none, hmapped x hin]
    rintro ⟨j, hj, h1, h2⟩
    have hbefore : ∀ i j, i < j → j < s.table.count → (s.table.allocations i).base
        + (s.table.allocations i).bytes + 4096 ≤ (s.table.allocations j).base := H.table.before
    rcases lt_trichotomy i j with hij | rfl | hji
    · have := hbefore i j hij hj
      omega
    · omega
    · have := hbefore j i hji hi
      omega
  · have hw := H.table.inWindow i hi
    have hwlast := hw.last_le
    have hbase := hw.base_aligned
    have hbytes := hw.bytes_aligned
    have hend := AllocationTable.vmalloc_end
    have hup : alignUp (u64 (ptr + bytes)) frameSize
        = (ptr + bytes + 4095) - (ptr + bytes + 4095) % 4096 := by
      rw [u64_of_lt (by omega), frameSize, alignUp_4096 (by omega)]
    obtain ⟨j, hj⟩ := AllocationTable.exists_covering H.table hi hfirst
      (show alignUp (u64 (ptr + bytes)) frameSize ≤ _ by omega)
    obtain ⟨hjlt, hjfirst, hjlast⟩ := AllocationTable.covering_some H.table hj
    have hok : ¬(bytes = 0 ∨ ptr &&& (frameSize - 1) ≠ 0 ∨
        alignUp (u64 (ptr + bytes)) frameSize ≤ ptr) := by
      have hmask : ptr &&& (frameSize - 1) = 0 :=
        (Nat.and_two_pow_sub_one_eq_mod ptr 12).trans hal
      rw [hup, hmask]
      omega
    obtain ⟨_, s', hrun, -⟩ := (protectRange_after H p hjlt hjfirst hjlast hal (by omega)
      (by omega)).exists_ok (fun _ _ h => h)
    refine ⟨s', ?_⟩
    rw [protect, if_neg hok, run_gets_bind, hj]
    exact hrun

theorem window_correspondence_small : ∃ k s₁ s₂,
    Booted smallLayout ⟨true, true, false⟩ Pmm.smallBoot k ∧
    (alloc smallLayout ⟨true, true, false⟩ 0x1000 .kernelData).run ⟨k, .empty⟩
      = .ok vmallocBase s₁ ∧
    (alloc smallLayout ⟨true, true, false⟩ 0x2000 .kernelData).run s₁
      = .ok (vmallocBase + 0x2000) s₂ ∧
    ((kernelSpace smallLayout ⟨true, true, false⟩).translation s₂.kernel
      (vmallocBase + 0x3fff)).isSome ∧
    (kernelSpace smallLayout ⟨true, true, false⟩).translation s₂.kernel (vmallocBase + 0x1000)
      = none ∧
    ∃ s₃, (protect smallLayout ⟨true, true, false⟩ (vmallocBase + 0x3000) 0x1000
      .kernelRodata).run s₂ = .ok () s₃ := by
  obtain ⟨k, s₁, s₂, hk, halloc₁, -, halloc₂, hcount, hfirst, hsecond⟩ := exists_allocs_small
  obtain ⟨hmapped, hguard, -, hprotect⟩ :=
    window_correspondence hk ((Reachable.start.alloc halloc₁).alloc halloc₂)
  refine ⟨k, s₁, s₂, hk, halloc₁, halloc₂, (hmapped _ (by decide) (by decide)).mpr ⟨1, ?_, ?_, ?_⟩,
    hguard 0 ?_ _ ?_ ?_, hprotect 1 ?_ _ _ _ (by decide) (by decide) ?_ ?_⟩
  all_goals simp only [hcount, hfirst, hsecond]
  all_goals decide

end Vmm

end DoomOs
