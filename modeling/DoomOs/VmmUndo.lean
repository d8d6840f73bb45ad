/-
# What a call takes back

A failed `alloc` has mapped pages and removed them again, and a `free` that follows an
`alloc` removes what the `alloc` has mapped.  What is left of both is read off the steps
that were made for each page.

* The leaves of the window outside the range stay as they are (`SameLeaves`), so a failed
  `alloc` is not seen in the address space (`failed_alloc_invisible`).
* Mapping adds tables and removing takes some away.  As long as no call has failed all
  tables of the window are of use, and then the tables are those of the leaves
  (`tables_eq_of_tidy`): `free` undoes `alloc` down to the free frames
  (`free_undoes_alloc`).
-/
import DoomOs.VmmAnswers

namespace DoomOs

open Comp Paging RadixFormat Mmu

namespace Vmm

variable {L : Layout} {feat : Features} {boot : BootInfo} {b s₀ s s' s'' : Kernel}
  {live held : Set ℕ} {W : Set ℕ} {x y va f base n k t : ℕ} {e : Entry} {p : PageProt}

/-! ## Leaves -/

/-- The leaves of the window outside `W` are the same. -/
def SameLeaves (L : Layout) (feat : Features) (W : Set ℕ) (s s' : Kernel) : Prop :=
  ∀ x ∈ window, x ∉ W → ∀ k e,
    (kernelSpace L feat).Maps s' x k e ↔ (kernelSpace L feat).Maps s x k e

namespace SameLeaves

theorem refl (W : Set ℕ) (s : Kernel) : SameLeaves L feat W s s := fun _ _ _ _ _ => Iff.rfl

theorem symm (h : SameLeaves L feat W s s') : SameLeaves L feat W s' s :=
  fun x hx hW k e => (h x hx hW k e).symm

theorem trans (h : SameLeaves L feat W s s') (h' : SameLeaves L feat W s' s'') :
    SameLeaves L feat W s s'' :=
  fun x hx hW k e => (h' x hx hW k e).trans (h x hx hW k e)

theorem mono {W' : Set ℕ} (h : SameLeaves L feat W s s') (hW : W ⊆ W') :
    SameLeaves L feat W' s s' :=
  fun x hx hx' => h x hx (fun hmem => hx' (hW hmem))

theorem of_mem (hmem : s'.mem = s.mem) : SameLeaves L feat W s s' :=
  fun x _ _ k e => maps_of_mem hmem x k e

/-- Ranges that are not mapped before or after are no exception. -/
theorem of_not_live (h : SameLeaves L feat W s s') (H : Window L feat s₀ live ∅ s)
    (H' : Window L feat s₀ live ∅ s') (hW : ∀ x ∈ W, x ∉ live) : SameLeaves L feat ∅ s s' := by
  intro x hx _ k e
  by_cases hin : x ∈ W
  · constructor
    · intro hm
      exact absurd (H'.mapped_of_maps hx hm) (hW x hin)
    · intro hm
      exact absurd (H.mapped_of_maps hx hm) (hW x hin)
  · exact h x hx hin k e

end SameLeaves

theorem Window.sameLeaves_extend (H : Window L feat s₀ live held s)
    (hgrow : (kernelSpace L feat).Extends (kernelSpec L.image) va s s') :
    SameLeaves L feat W s s' :=
  fun _ hx _ _ _ => H.maps_extends hgrow hx

theorem PageMapped.sameLeaves (h : PageMapped L feat p va s s') (H : Since L feat b s₀ live ∅ s)
    (hva : va ∈ window) (hal : va % 4096 = 0) : SameLeaves L feat (bytesAt va 4096) s s' := by
  obtain ⟨f, s₁, s₂, htake, -, -, hgrow, hput⟩ := h
  refine ((SameLeaves.of_mem htake.mem).trans
    ((H.take rfl htake).here.sameLeaves_extend hgrow)).trans (fun x hx hout k e => ?_)
  rw [Window.mem_page hal] at hout
  rw [hput.maps, if_neg (fun ha => hout ((agree_window hva hx).mp ha))]

theorem PageRefused.sameLeaves (h : PageRefused L feat va s s')
    (H : Since L feat b s₀ live ∅ s) : SameLeaves L feat W s s' := by
  rcases h with ⟨rfl, -⟩ | ⟨f, s₁, s₂, htake, -, -, -, hgrow, hgive⟩
  · exact .refl W s'
  · exact ((SameLeaves.of_mem htake.mem).trans
      ((H.take rfl htake).here.sameLeaves_extend hgrow)).trans (.of_mem hgive.mem)

theorem PageGone.sameLeaves (h : PageGone L feat va s s') (hva : va ∈ window)
    (hal : va % 4096 = 0) : SameLeaves L feat (bytesAt va 4096) s s' := by
  obtain ⟨m, e, s₁, hrem, -, -, hgive⟩ := h
  refine SameLeaves.trans (fun x hx hout k e => ?_) (.of_mem hgive.mem)
  rw [Window.mem_page hal] at hout
  rw [hrem.maps]
  exact and_iff_left (fun ha => hout ((agree_window hva hx).mp ha))

section Pages

variable (hal : base % 4096 = 0) (hwin : ∀ i < n, base + i * 4096 ∈ window)
include hal hwin

theorem PagesMapped.sameLeaves (h : PagesMapped L feat p base s n s')
    (H : Since L feat b s₀ live ∅ s) (hnew : ∀ x ∈ bytesAt base (n * 4096), x ∉ live) :
    SameLeaves L feat (bytesAt base (n * 4096)) s s' := by
  refine h.inv (I := fun i s₁ => SameLeaves L feat (bytesAt base (i * 4096)) s s₁) (.refl _ s)
    (fun i s₁ s₂ hi hsteps hI hpage => ?_)
  have H₁ := H.pagesMapped hal (fun j hj => hwin j (by omega))
    (fun x hx => hnew x (bytesAt_mono base hi.le hx)) hsteps
  rw [bytesAt_succ]
  exact (hI.mono Set.subset_union_left).trans
    ((hpage.sameLeaves H₁ (hwin i hi) (by omega)).mono Set.subset_union_right)

theorem PagesGone.sameLeaves (h : PagesGone L feat base s n s') :
    SameLeaves L feat (bytesAt base (n * 4096)) s s' := by
  refine h.inv (I := fun i s₁ => SameLeaves L feat (bytesAt base (i * 4096)) s s₁) (.refl _ s)
    (fun i s₁ s₂ hi _ hI hpage => ?_)
  rw [bytesAt_succ]
  exact (hI.mono Set.subset_union_left).trans
    ((hpage.sameLeaves (hwin i hi) (by omega)).mono Set.subset_union_right)

theorem Unwound.sameLeaves (h : Unwound L feat p base s n s') (H : Since L feat b s₀ live ∅ s)
    (hnew : ∀ x ∈ bytesAt base (n * 4096), x ∉ live) : SameLeaves L feat ∅ s s' := by
  have H' := H.unwound hal hwin hnew h
  obtain ⟨k, s₁, s₂, hk, hmapped, hrefused, hgone⟩ := h
  have hwin' : ∀ i < k, base + i * 4096 ∈ window := fun i hi => hwin i (by omega)
  have hnew' : ∀ x ∈ bytesAt base (k * 4096), x ∉ live := fun x hx =>
    hnew x (bytesAt_mono base hk.le hx)
  have H₁ := H.pagesMapped hal hwin' hnew' hmapped
  have hsame := ((PagesMapped.sameLeaves hal hwin' hmapped H hnew').trans
    (hrefused.sameLeaves H₁)).trans (PagesGone.sameLeaves hal hwin' hgone)
  exact hsame.of_not_live H.here H'.here hnew'

end Pages

/-- The same leaves everywhere give the same translations. -/
theorem translation_of_sameLeaves (H : Window L feat s₀ live held s)
    {live' held' : Set ℕ} (H' : Window L feat s₀ live' held' s') (h : SameLeaves L feat ∅ s s')
    (hu : (kernelSpace L feat).Untouched (· = 384) s s') (x : ℕ) :
    (kernelSpace L feat).translation s' x = (kernelSpace L feat).translation s x := by
  by_cases hx : valid x = true
  swap
  · rw [RadixTree.translation_of_not_valid hx, RadixTree.translation_of_not_valid hx]
  refine RadixTree.translation_congr_maps H.shape H'.shape hx (fun k e => ?_)
  by_cases h4 : index 4 x = 384
  · exact h x (mem_window_of_index hx h4) (Set.notMem_empty x) k e
  · exact hu.maps x h4 k e

/-! ## Tables without waste -/

/-- Every key of the root entry has the digits of an address of the window. -/
theorem exists_window_key (h4 : index 4 x = 384) : ∃ z ∈ window, format.Agree 4 x z := by
  refine ⟨vmallocBase + x % vmallocSize, ?_, ?_⟩
  · have hlt := Nat.mod_lt x (show 0 < vmallocSize by decide)
    exact ⟨by omega, by omega⟩
  · rw [index_eq] at h4
    rw [agree_iff (le_refl 3)]
    simp only [vmallocBase, vmallocSize, span]
    omega

theorem SameLeaves.key (h : SameLeaves L feat ∅ s s') (h4 : index 4 x = 384) :
    (kernelSpace L feat).Maps s' x k e ↔ (kernelSpace L feat).Maps s x k e := by
  obtain ⟨z, hz, ha⟩ := exists_window_key h4
  have hsame := h z hz (Set.notMem_empty z) k e
  constructor
  · intro hm
    have hk := hm.depth_le
    exact (hsame.mp (hm.congr (ha.mono (by omega)))).congr (ha.symm.mono (by omega))
  · intro hm
    have hk := hm.depth_le
    exact (hsame.mpr (hm.congr (ha.mono (by omega)))).congr (ha.symm.mono (by omega))

/-- A table with a leaf below it is on the way of that leaf. -/
theorem tableOn_of_tidy (ht : (kernelSpace L feat).Tidy (· = 384) s')
    (hsame : SameLeaves L feat ∅ s s') (h4 : index 4 y = 384)
    (hy : (kernelSpace L feat).tableOn s' y (k + 1) = some t) :
    ∃ t', (kernelSpace L feat).tableOn s y (k + 1) = some t' := by
  obtain ⟨x, j, e, ha, hm⟩ := ht y k t h4 hy
  have hle := hm.le_of_tableOn ((tableOn_congr ha).symm.trans hy)
  have hx : index 4 x = 384 := (ha 0 (by omega)).symm.trans h4
  obtain ⟨t₁, ht₁, -⟩ := RadixTree.tableOn_of_slotOn ((hsame.key hx).mp hm).1
  obtain ⟨t', ht'⟩ := tableOn_above ht₁ hle
  exact ⟨t', (tableOn_congr ha).trans ht'⟩

/-- **The tables of a tidy window are those of its leaves**, when both come from one state. -/
theorem tables_eq_of_tidy (ht : (kernelSpace L feat).Tidy (· = 384) s)
    (ht' : (kernelSpace L feat).Tidy (· = 384) s') (hsame : SameLeaves L feat ∅ s s')
    (hu : (kernelSpace L feat).Untouched (· = 384) s s')
    (hkept : ∀ y k t, (kernelSpace L feat).tableOn s y k = some t →
      (kernelSpace L feat).tableOn s'' y k = some t)
    (hsub : ∀ y k t, (kernelSpace L feat).tableOn s' y k = some t →
      (kernelSpace L feat).tableOn s'' y k = some t) (y k : ℕ) :
    (kernelSpace L feat).tableOn s' y k = (kernelSpace L feat).tableOn s y k := by
  by_cases h4 : index 4 y = 384
  swap
  · exact hu.tables y h4 k
  rcases k with - | k
  · rfl
  apply Option.ext
  intro t
  constructor
  · intro hy
    obtain ⟨t', hy'⟩ := tableOn_of_tidy ht' hsame h4 hy
    rw [hy', ← hkept y _ t' hy', hsub y _ t hy]
  · intro hy
    obtain ⟨t', hy'⟩ := tableOn_of_tidy ht hsame.symm h4 hy
    rw [hy', ← hsub y _ t' hy', hkept y _ t hy]

/-- Where leaves and tables are the same, the same frames are free. -/
theorem avail_eq_of_same (H : Window L feat s₀ live ∅ s) (H' : Window L feat s₀ live ∅ s')
    (hsame : SameLeaves L feat ∅ s s')
    (htab : ∀ y k, (kernelSpace L feat).tableOn s' y k = (kernelSpace L feat).tableOn s y k) :
    s'.avail = s.avail := by
  have hbacking : backing L feat s' = backing L feat s := by
    ext f
    simp only [backing, Backs, Set.mem_ofPred_eq]
    refine exists_congr (fun x => and_congr_right (fun hx => exists_congr (fun e => ?_)))
    exact and_congr_left' (hsame x hx (Set.notMem_empty x) 3 e)
  have howned : owned L feat s' = owned L feat s := by
    have h1 := H.frames
    have h2 := H'.frames
    have hd1 := H.backing_disjoint
    have hd2 := H'.backing_disjoint
    rw [Set.union_empty] at h1 h2 hd1 hd2
    rw [hbacking] at h2 hd2
    rw [← Set.union_sdiff_cancel_right hd2.symm.le_bot,
      ← Set.union_sdiff_cancel_right hd1.symm.le_bot, h1, h2]
  -- what is free is what is accounted for and no table
  have hfree : ∀ {k : Kernel}, Window L feat s₀ live ∅ k → ∀ t, t ∈ k.avail ↔
      t ∈ owned L feat k ∧ t ∉ (kernelSpace L feat).tables k := by
    intro k Hk t
    constructor
    · intro ht
      refine ⟨⟨Or.inl ht, Hk.image t ht⟩, ?_⟩
      rintro ⟨x, d, hx⟩
      exact Hk.shape.not_avail x (d + 1) t hx ht
    · rintro ⟨⟨ht | ht, -⟩, hno⟩
      · exact ht
      · exact absurd ht hno
  ext t
  rw [hfree H', hfree H, howned]
  simp only [RadixTree.tables, htab]

section Calls

variable {k₀ : Kernel} {v v' : Vmm}

/-! ## A failed `alloc` -/

/-- What a failed `alloc` has done. -/
theorem alloc_failed (H : Inv L feat k₀ v) {bytes : ℕ} {er : MmError}
    (hrun : (alloc L feat bytes p).run v = .err er v') :
    v'.table = v.table ∧ SameLeaves L feat ∅ v.kernel v'.kernel ∧
      After L feat k₀ (· = 384) v v' := by
  have hafter := (alloc_after H bytes p).of_err hrun
  rcases (alloc_cases H bytes p).of_err hrun with ⟨rfl, -⟩ | ⟨index, n, hplaced, htable, hunwound⟩
  · exact ⟨rfl, .refl _ _, hafter⟩
  · exact ⟨htable, Unwound.sameLeaves hplaced.aligned
      (page_mem_window hplaced.base_mem hplaced.last_mem) hunwound H.window.since hplaced.new,
    hafter⟩

/-- **A failed `alloc` is not seen in the address space.**  In every state that calls reach
once the address space has been set up, and wherever the frames run out: a failed `alloc`
leaves the allocation table and every translation as they were, and an `alloc` that succeeds
after it takes the place that would have been chosen before. -/
theorem failed_alloc_invisible {s s' : Vmm} (h₀ : Booted L feat boot k₀)
    (h : Reachable L feat ⟨k₀, .empty⟩ s) {bytes : ℕ} {p : PageProt} {er : MmError}
    (hrun : (alloc L feat bytes p).run s = .err er s') :
    s'.table = s.table ∧
    (∀ x, (kernelSpace L feat).translation s'.kernel x
      = (kernelSpace L feat).translation s.kernel x) ∧
    ∀ bytes' p' base s₁, (alloc L feat bytes' p').run s' = .ok base s₁ →
      (∃ index, s.table.findGap (alignUp bytes' frameSize) = .ok index ∧
        base = s.table.gapStart index) ∧
      ∀ p'' base' s₂, (alloc L feat bytes' p'').run s = .ok base' s₂ → base' = base := by
  have H := h.inv h₀.ready
  obtain ⟨htable, hsame, hafter⟩ := alloc_failed H hrun
  refine ⟨htable, fun x => ?_, fun bytes' p' base s₁ hnext => ?_⟩
  · exact translation_of_sameLeaves H.window hafter.inv.window hsame hafter.elsewhere x
  · obtain ⟨index, hfind, rfl⟩ := alloc_ok hnext
    rw [htable] at hfind ⊢
    refine ⟨⟨index, hfind, rfl⟩, fun p'' base' s₂ hbefore => ?_⟩
    obtain ⟨index', hfind', rfl⟩ := alloc_ok hbefore
    rw [hfind] at hfind'
    rw [Except.ok.inj hfind']

/-- No machine has the frames for 32 GiB. -/
theorem alloc_too_large (H : Inv L feat k₀ v) (p : PageProt) :
    ∃ er v', (alloc L feat 0x800000000 p).run v = .err er v' := by
  refine Exists.imp (fun _ => Exists.imp (fun _ => And.left))
    ((alloc_cases H 0x800000000 p).exists_err (fun base v' h => ?_))
  obtain ⟨index, n, hplaced, -, -, hmapped⟩ := h
  have hsize : alignUp 0x800000000 frameSize = n * 4096 := hplaced.size
  rw [show alignUp 0x800000000 frameSize = 0x800000000 by decide] at hsize
  have hcount := hmapped.added.count
  have hle : v.kernel.avail.ncard ≤ (Finset.range maxFrames).card :=
    Kernel.ncard_avail_le (fun f hf => Finset.mem_range.mpr hf.1)
  rw [Finset.card_range, maxFrames] at hle
  omega

theorem failed_alloc_invisible_small : ∃ k er s',
    Booted smallLayout ⟨true, true, false⟩ Pmm.smallBoot k ∧
    (alloc smallLayout ⟨true, true, false⟩ 0x800000000 .kernelData).run ⟨k, .empty⟩ = .err er s' ∧
    ∀ x, (kernelSpace smallLayout ⟨true, true, false⟩).translation s'.kernel x
      = (kernelSpace smallLayout ⟨true, true, false⟩).translation k x := by
  obtain ⟨k, hk, -⟩ := exists_booted_small
  obtain ⟨er, s', hrun⟩ := alloc_too_large (inv_start hk.ready) .kernelData
  exact ⟨k, er, s', hk, hrun, (failed_alloc_invisible hk .start hrun).2.1⟩

/-! ## Runs without a failure -/

/-- The states that calls reach from `s₀` when all of them succeed. -/
inductive Succeeds (L : Layout) (feat : Features) (s₀ : Vmm) : Vmm → Prop
  | start : Succeeds L feat s₀ s₀
  | call {s s' : Vmm} (c : Call) : Succeeds L feat s₀ s → (exec L feat c).run s = .ok () s' →
      Succeeds L feat s₀ s'

theorem Succeeds.reachable {s₀ : Vmm} (h : Succeeds L feat s₀ v) : Reachable L feat s₀ v := by
  induction h with
  | start => exact .start
  | call c _ hrun ih => exact .call c ih (by rw [hrun]; rfl)

theorem tidy_of_ready (h : Ready L feat s) : (kernelSpace L feat).Tidy (· = 384) s := by
  intro y k t h4 ht
  have hnone : (kernelSpace L feat).tableOn s y 1 = none := h.roots y (by omega) (by omega)
  rw [RadixTree.tableOn, tableOn_none_below hnone (by omega)] at ht
  cases ht

theorem protect_tidy (H : Inv L feat k₀ v) (ht : (kernelSpace L feat).Tidy (· = 384) v.kernel)
    (ptr bytes : ℕ) (p : PageProt) :
    ((protect L feat ptr bytes p).run v).Sat
      (fun _ v' => (kernelSpace L feat).Tidy (· = 384) v'.kernel)
      (fun _ v' => (kernelSpace L feat).Tidy (· = 384) v'.kernel) := by
  rw [protect]
  split_ifs
  · exact ht
  · rw [run_gets_bind]
    cases v.table.covering ptr (alignUp (u64 (ptr + bytes)) frameSize) with
    | none => exact ht
    | some index =>
      dsimp only
      rw [inKernel, sat_zoom]
      exact RadixTree.protectRange_tidy (kernelSpec_failsWhenEmpty _) (kernelSpec_finiteAvail _)
        H.window.shape ht _ _ _ p

/-- A call leaves no table of the window without use, unless it is an `alloc` that fails. -/
theorem exec_tidy (H : Inv L feat k₀ v) (ht : (kernelSpace L feat).Tidy (· = 384) v.kernel)
    (c : Call) :
    ((exec L feat c).run v).Sat (fun _ v' => (kernelSpace L feat).Tidy (· = 384) v'.kernel)
      (fun _ v' => (∀ bytes p, c ≠ .alloc bytes p) →
        (kernelSpace L feat).Tidy (· = 384) v'.kernel) := by
  cases c with
  | alloc bytes p =>
    rw [exec, sat_bind]
    refine (alloc_cases H bytes p).mono (fun _ v' h => ?_)
      (fun _ _ _ hne => absurd rfl (hne bytes p))
    obtain ⟨index, n, -, -, -, hmapped⟩ := h
    exact hmapped.tidy ht
  | free ptr bytes =>
    refine (free_cases H ptr bytes).mono (fun _ v' h => ?_) (fun _ v' h _ => ?_)
    · obtain ⟨index, n, -, -, -, -, -, hgone⟩ := h
      exact hgone.tidy ht
    · rw [h.1]
      exact ht
  | protect ptr bytes p =>
    exact (protect_tidy H ht ptr bytes p).mono (fun _ _ h => h) (fun _ _ h _ => h)
  | mapMmio pa bytes =>
    -- device memory is below another entry of the root
    have hout : ∀ {v' : Vmm}, After L feat k₀ (· = 257) v v' →
        (kernelSpace L feat).Tidy (· = 384) v'.kernel := fun hafter =>
      ht.untouched hafter.elsewhere (fun i hi hi' => by omega)
    rw [exec, sat_bind]
    exact (mapMmio_after H pa bytes).mono (fun _ _ h => hout h) (fun _ _ h _ => hout h)

theorem Succeeds.tidy (h : Succeeds L feat ⟨k₀, .empty⟩ v) (h₀ : Ready L feat k₀) :
    (kernelSpace L feat).Tidy (· = 384) v.kernel := by
  induction h with
  | start => exact tidy_of_ready h₀
  | call c hs hrun ih => exact (exec_tidy (hs.reachable.inv h₀) ih c).of_ok hrun

/-! ## `free` after `alloc` -/

/-- Erasing what was inserted. -/
theorem table_of_inserted_erased {t t' t'' : AllocationTable} {index : ℕ} {entry : Allocation}
    (hins : AllocationTable.Inserted index entry t t')
    (her : AllocationTable.Erased index t' t'') :
    t''.count = t.count ∧ ∀ i < t.count, t''.allocations i = t.allocations i := by
  have hcount := hins.count
  have hcount' := her.count
  refine ⟨by omega, fun i hi => ?_⟩
  by_cases hlt : i < index
  · rw [her.below i hlt, hins.below i hlt]
  · rw [her.above i (by omega) (by omega), hins.above i (by omega) hi]

/-- **`free` undoes `alloc`.**  In every state that calls reach without a failure: an `alloc`
followed at once by a `free` of as many pages succeeds, and the allocation table, every
translation, the tables and the free frames are what they were. -/
theorem free_undoes_alloc {s s₁ : Vmm} (h₀ : Booted L feat boot k₀)
    (h : Succeeds L feat ⟨k₀, .empty⟩ s) {bytes bytes' base : ℕ} {p : PageProt}
    (halloc : (alloc L feat bytes p).run s = .ok base s₁)
    (hpages : (bytes' + 4095) / 4096 = (bytes + 4095) / 4096) :
    ∃ s₂, (free L feat base bytes').run s₁ = .ok () s₂ ∧
      s₂.table.count = s.table.count ∧
      (∀ i < s.table.count, s₂.table.allocations i = s.table.allocations i) ∧
      (∀ x, (kernelSpace L feat).translation s₂.kernel x
        = (kernelSpace L feat).translation s.kernel x) ∧
      (∀ x d, (kernelSpace L feat).tableOn s₂.kernel x d
        = (kernelSpace L feat).tableOn s.kernel x d) ∧
      s₂.kernel.avail = s.kernel.avail := by
  have H := h.reachable.inv h₀.ready
  have H₁ := ((alloc_after H bytes p).of_ok halloc).inv
  obtain ⟨index, n, hplaced, rfl, hins, hmapped⟩ := (alloc_cases H bytes p).of_ok halloc
  have hcount := hins.count
  have hle := hplaced.index_le
  have hindex : index < s₁.table.count := by omega
  have hsize : n * 4096 = alignUp bytes' frameSize := by
    obtain ⟨-, hsmall⟩ := not_or.mp hplaced.accepted
    simp only [vmallocSize] at hsmall
    rw [← hplaced.size, frameSize, alignUp_4096 (by omega), alignUp_4096 (by omega)]
    omega
  obtain ⟨_, s₂, hfree, index', n', hindex', hentry, -, -, her, hgone⟩ :=
    (free_cases H₁ (s.table.gapStart index) bytes').exists_ok (fun _ _ hno =>
      hno.2 index hindex (by rw [hins.self]) (by rw [hins.self]; exact hsize))
  -- the entry that is found is the one that was inserted
  obtain rfl : index' = index := by
    have h1 := AllocationTable.indexOf_base H₁.table hindex'
    have h2 := AllocationTable.indexOf_base H₁.table hindex
    rw [hentry] at h1
    rw [hins.self] at h2
    exact Option.some.inj (h1.symm.trans h2)
  obtain rfl : n' = n := by
    have hbytes : (⟨s.table.gapStart index', n' * 4096⟩ : Allocation).bytes = n * 4096 := by
      rw [← hentry, hins.self]
    exact Nat.eq_of_mul_eq_mul_right (by norm_num) hbytes
  have hwin := page_mem_window hplaced.base_mem hplaced.last_mem
  have hk := (H.window.since.pagesMapped hplaced.aligned hwin hplaced.new hmapped).pagesGone
    hplaced.aligned hwin hgone
  rw [union_sdiff_of_new hplaced.new] at hk
  have hsame : SameLeaves L feat ∅ s.kernel s₂.kernel :=
    ((PagesMapped.sameLeaves hplaced.aligned hwin hmapped H.window.since hplaced.new).trans
      (PagesGone.sameLeaves hplaced.aligned hwin hgone)).of_not_live H.window hk.here hplaced.new
  have htidy := h.tidy h₀.ready
  have htables := tables_eq_of_tidy htidy (hgone.tidy (hmapped.tidy htidy)) hsame hk.elsewhere
    hmapped.added.kept hgone.takenOff.sub
  obtain ⟨htable, hentries⟩ := table_of_inserted_erased hins her
  exact ⟨s₂, hfree, htable, hentries,
    translation_of_sameLeaves H.window hk.here hsame hk.elsewhere, htables,
    avail_eq_of_same H.window hk.here hsame htables⟩

theorem free_undoes_alloc_small : ∃ k base s₁ s₂,
    Booted smallLayout ⟨true, true, false⟩ Pmm.smallBoot k ∧
    (alloc smallLayout ⟨true, true, false⟩ 0x1000 .kernelData).run ⟨k, .empty⟩ = .ok base s₁ ∧
    (free smallLayout ⟨true, true, false⟩ base 1).run s₁ = .ok () s₂ ∧
    s₂.kernel.avail = k.avail := by
  obtain ⟨k, s₁, hk, halloc, -⟩ := exists_alloc_small
  obtain ⟨s₂, hfree, -, -, -, -, havail⟩ :=
    free_undoes_alloc hk .start halloc (show (1 + 4095) / 4096 = (0x1000 + 4095) / 4096 by decide)
  exact ⟨k, vmallocBase, s₁, s₂, hk, halloc, hfree, havail⟩

end Calls

end Vmm

end DoomOs
