/-
# When mapping succeeds, and what unmapping undoes

`map_range` over addresses that are not mapped fails for lack of tables, or because a
table is linked where a large page should go.  Such a table may be left by an earlier
call that ran out of tables; when none did, there is none (`map_range_conflict_exact`).

`unmap_range` right after takes all of it out again, unless the range goes around the end
of the address space: `map_range` checks its leaves one by one, `unmap_range` its range
as a whole (`unmap_undoes_map`).
-/
import DoomOs.PageMap

namespace DoomOs

open Comp Paging RadixFormat

namespace RadixTree

variable {σ ρ : Type} {tree : RadixTree σ} {E : tree.env.Spec ρ} {s₀ s s' s'' : σ}
  {x va pa length i : ℕ} {size : PageSize} {p : PageProt}

/-! ## Runs without a lack of tables -/

/-- The states reached from `s₀` by calls on the tree, when no `map_range` ran out of tables. -/
inductive Supplied (tree : RadixTree σ) (s₀ : σ) : σ → Prop
  | start : Supplied tree s₀ s₀
  | map {s s' : σ} (va pa length : ℕ) (size : PageSize) (p : PageProt) : Supplied tree s₀ s →
      (∀ s'', (tree.mapRange va pa length size p).run s ≠ .err .outOfMemory s'') →
      ((tree.mapRange va pa length size p).run s).state? = some s' → Supplied tree s₀ s'
  | protect {s s' : σ} (va length : ℕ) (size : PageSize) (p : PageProt) : Supplied tree s₀ s →
      ((tree.protectRange va length size p).run s).state? = some s' → Supplied tree s₀ s'
  | unmap {s s' : σ} (va length : ℕ) (size : PageSize) : length < 2 ^ 64 → Supplied tree s₀ s →
      ((tree.unmapRange va length size ignoreRemoved).run s).state? = some s' →
      Supplied tree s₀ s'

theorem Supplied.reachable (h : tree.Supplied s₀ s) : tree.Reachable s₀ s := by
  induction h with
  | start => exact .start
  | map va pa length size p _ _ hrun ih => exact .map va pa length size p ih hrun
  | protect va length size p _ hrun ih => exact .protect va length size p ih hrun
  | unmap va length size hlen _ hrun ih => exact .unmap va length size hlen ih hrun

/-- They leave no empty table behind. -/
theorem Supplied.tidy {P : ℕ → Prop} (hE : E.FailsWhenEmpty) (hfin : E.FiniteAvail)
    (h : tree.Supplied s₀ s) (H : tree.Shape E s₀) (h₀ : tree.Tidy P s₀) : tree.Tidy P s := by
  induction h with
  | start => exact h₀
  | map va pa length size p hs hne hrun ih =>
    have hsat := mapRange_tidy hE hfin (hs.reachable.shape H) ih va pa length size p
    cases ho : (tree.mapRange va pa length size p).run _ with
    | ok a s' =>
      rw [ho] at hrun
      rw [← Option.some.inj hrun]
      exact hsat.of_ok ho
    | err er s' =>
      rw [ho] at hrun
      rw [← Option.some.inj hrun]
      refine hsat.of_err ho ?_
      rintro rfl
      exact hne s' ho
    | halt f => exact absurd ho (hsat.ne_halt f)
  | protect va length size p hs hrun ih =>
    exact (protectRange_tidy hE hfin (hs.reachable.shape H) ih va length size p).of_state? hrun
  | unmap va length size hlen hs hrun ih =>
    exact (unmapRange_tidy hE hfin (hs.reachable.shape H) ih hlen va size).of_state? hrun

end RadixTree

/-! ## Conflicts -/

open RadixTree in
/-- **`map_range` reports a conflict exactly where a table is in the way.**  In every state
reached from an empty root, for a range of whole leaves none of whose addresses is translated:
if `alloc_table` does not fail, the call returns if and only if no table is linked in a slot of
the range; and in every state reached by calls that did not run out of tables it returns. -/
theorem map_range_conflict_exact {image : Image} {feat : Features} {root : ℕ} {s₀ : Kernel}
    (h₀ : EmptyRoot root s₀) :
    (∀ s va pa length size p, (addressSpace image feat root).Reachable s₀ s →
      WholeLeaves va pa length ((addressSpace image feat root).leafSize size) →
      (∀ x, va ≤ x → x < va + length → (addressSpace image feat root).translation s x = none) →
      (∀ s', ((addressSpace image feat root).mapRange va pa length size p).run s
        ≠ .err .outOfMemory s') →
      ((∃ s', ((addressSpace image feat root).mapRange va pa length size p).run s = .ok () s') ↔
        (addressSpace image feat root).SlotsClear s va length
          ((addressSpace image feat root).leafSize size))) ∧
    ∀ s va pa length size p, (addressSpace image feat root).Supplied s₀ s →
      WholeLeaves va pa length ((addressSpace image feat root).leafSize size) →
      (∀ x, va ≤ x → x < va + length → (addressSpace image feat root).translation s x = none) →
      (∀ s', ((addressSpace image feat root).mapRange va pa length size p).run s
        ≠ .err .outOfMemory s') →
      ∃ s', ((addressSpace image feat root).mapRange va pa length size p).run s = .ok () s' := by
  have hE := kernelSpec_failsWhenEmpty image
  have hfin := kernelSpec_finiteAvail image
  have H₀ : (addressSpace image feat root).Shape (kernelSpec image) s₀ :=
    Shape.empty h₀.inv h₀.not_free h₀.zero
  -- the only other error is the one that is excluded
  have hreturns : ∀ s va pa length size p, (addressSpace image feat root).Reachable s₀ s →
      WholeLeaves va pa length ((addressSpace image feat root).leafSize size) →
      (∀ x, va ≤ x → x < va + length → (addressSpace image feat root).translation s x = none) →
      (∀ s', ((addressSpace image feat root).mapRange va pa length size p).run s
        ≠ .err .outOfMemory s') →
      (addressSpace image feat root).SlotsClear s va length
        ((addressSpace image feat root).leafSize size) →
      ∃ s', ((addressSpace image feat root).mapRange va pa length size p).run s = .ok () s' := by
    intro s va pa length size p h hr hfree hne hclear
    have hsat := mapRange_conflict hE hfin (h.shape H₀) hr hfree p
    cases hrun : ((addressSpace image feat root).mapRange va pa length size p).run s with
    | ok a s' => exact ⟨s', rfl⟩
    | err er s' =>
      rcases hsat.of_err hrun with rfl | ⟨-, hbad⟩
      · exact absurd hrun (hne s')
      · exact absurd hclear hbad
    | halt f => exact absurd hrun (hsat.ne_halt f)
  constructor
  · intro s va pa length size p h hr hfree hne
    constructor
    · rintro ⟨s', hrun⟩
      exact (mapRange_conflict hE hfin (h.shape H₀) hr hfree p).of_ok hrun
    · exact hreturns s va pa length size p h hr hfree hne
  · intro s va pa length size p h hr hfree hne
    have htidy := h.tidy (P := fun _ => True) hE hfin H₀ (tidy_empty h₀.zero)
    exact hreturns s va pa length size p h.reachable hr hfree hne
      (htidy.slotsClear (h.reachable.shape H₀) hr hfree)

theorem map_range_conflict_exact_small : ∃ s₁ s₂ s₃ s₄,
    (smallSpace.mapRange 0 0x80000000 0x40000000 .size1G .kernelData).run smallKernel = .ok () s₁ ∧
    (smallSpace.protectRange 0x201000 0x1000 .size4K .kernelRodata).run s₁ = .ok () s₂ ∧
    (smallSpace.unmapRange 0 0x40000000 .size4K RadixTree.ignoreRemoved).run s₂ = .ok () s₃ ∧
    (smallSpace.mapRange 0 0xc0000000 0x40000000 .size1G .kernelData).run s₃ = .ok () s₄ := by
  obtain ⟨s₁, s₂, s₃, hrun₁, hrun₂, hrun₃, H₃, htidy, hspare, hfree⟩ := exists_run_small
  have h₁ : smallSpace.Supplied smallKernel s₁ :=
    .map _ _ _ _ _ .start (by rw [hrun₁]; simp) (by rw [hrun₁]; rfl)
  have h₂ : smallSpace.Supplied smallKernel s₂ := .protect _ _ _ _ h₁ (by rw [hrun₂]; rfl)
  have h₃ : smallSpace.Supplied smallKernel s₃ :=
    .unmap 0 0x40000000 .size4K (by norm_num) h₂ (by rw [hrun₃]; rfl)
  have hsupplied : ∀ s', (smallSpace.mapRange 0 0xc0000000 0x40000000 .size1G .kernelData).run s₃
      ≠ .err .outOfMemory s' :=
    fun s' => (mapRange_smallSpace _ H₃ htidy hspare hfree (by norm_num) rfl).of_err
  obtain ⟨s₄, hrun₄⟩ := (map_range_conflict_exact emptyRoot_smallKernel).2 _ _ _ _ _ _ h₃
    (wholeLeaves_low (by norm_num) rfl rfl (by norm_num)) (fun x _ hx => hfree x (by omega))
    hsupplied
  exact ⟨s₁, s₂, s₃, s₄, hrun₁, hrun₂, hrun₃, hrun₄⟩

/-! ## A machine with two frames -/

/-- The state that `populate` leaves for one usable region of two frames. -/
def tinyPmm : Pmm :=
  Pmm.populate { memoryMap := [⟨0x1000000, 0x2000, .usable⟩] } 0x100000 0x200000 Pmm.zero

theorem tinyPmm_eq : tinyPmm = Pmm.populate { memoryMap := [⟨0x1000000, 0x2000, .usable⟩] }
    0x100000 0x200000 Pmm.zero := rfl

attribute [irreducible] tinyPmm

/-- Two free frames and a zeroed root in the first page. -/
def tinyKernel : Kernel := ⟨tinyPmm, fun _ _ => 0#64⟩

theorem avail_tinyKernel : tinyKernel.avail = {0x1000000, 0x1001000} := by
  ext t
  simp only [Kernel.avail, tinyKernel, tinyPmm_eq, Set.mem_ofPred_eq, Set.mem_insert_iff,
    Set.mem_singleton_iff]
  rw [Pmm.mem_freeFrames_region (by norm_num) (by decide), Pmm.Inside]
  omega

theorem reachable_tinyPmm : Pmm.Reachable { memoryMap := [⟨0x1000000, 0x2000, .usable⟩] }
    0x100000 0x200000 tinyPmm := by
  rw [tinyPmm_eq]
  exact .populate

theorem emptyRoot_tinyKernel : EmptyRoot 0 tinyKernel := by
  refine ⟨⟨_, _, _, reachable_tinyPmm⟩, ?_, fun _ _ => rfl⟩
  rw [avail_tinyKernel]
  simp

/-- Mapping one page there fails, and leaves the two frames as tables with nothing below. -/
theorem mapRange_tinyKernel :
    ((smallSpace.mapRange 0 0x80000000 0x1000 .size4K .kernelData).run tinyKernel).Sat
      (fun _ _ => False)
      (fun _ s' => (∃ t, smallSpace.tableOn s' 0 2 = some t) ∧
        ∀ x, smallSpace.translation s' x = none) := by
  have H : smallSpace.Shape (kernelSpec ⟨0x100000, 0x200000⟩) tinyKernel :=
    emptyRoot_tinyKernel.shape
  have hsingle := smallSpace.mapRange_single 0 0x80000000 .size4K .kernelData
    tinyKernel
  have hslot : smallSpace.slotOn tinyKernel 0 0 = some 0#64 := RadixTree.slotOn_of_tableOn rfl
  -- the three tables of the way are missing, and two frames are free
  have hmissing : smallSpace.missing tinyKernel 0 3 = 3 := by
    have hnone : ∀ d, smallSpace.tableOn tinyKernel 0 (d + 1) = none := fun d =>
      tableOn_none_below (tableOn_succ_none hslot (child_zero 0)) (by omega)
    rw [RadixTree.missing, Finset.filter_true_of_mem (fun d _ => hnone d), Finset.card_range]
  have hcard : ((kernelSpec ⟨0x100000, 0x200000⟩).avail tinyKernel).ncard = 2 := by
    show tinyKernel.avail.ncard = 2
    rw [avail_tinyKernel]
    exact Set.ncard_pair (by norm_num)
  have hcount : ∀ {s' : Kernel},
      smallSpace.Grows (kernelSpec ⟨0x100000, 0x200000⟩) 0 3 tinyKernel s' →
      ((kernelSpec ⟨0x100000, 0x200000⟩).avail s').ncard + 3 = 2 + smallSpace.missing s' 0 3 := by
    intro s' hg
    rw [← hmissing, ← hcard]
    exact hg.count
  refine Eq.mpr (congrArg (fun o => Outcome.Sat o _ _) hsingle) ?_
  refine (RadixTree.mapLeaf_grows (kernelSpec_failsWhenEmpty _) (kernelSpec_finiteAvail _) H 0
    0x80000000 .size4K .kernelData).mono (fun _ s' h => ?_) (fun er s' h => ?_)
  · obtain ⟨-, -, -, s₁, ⟨hg, hzero⟩, -⟩ := h
    have h1 := hcount hg
    have h2 : smallSpace.missing s₁ 0 3 = 0 := hzero
    omega
  · rcases h with ⟨-, hbad⟩ | ⟨⟨-, hg, hempty, -⟩, hx⟩ | ⟨-, ⟨hg, hzero⟩, -⟩
    · exact absurd ⟨by decide, by decide, by decide⟩ hbad
    · have h1 := hcount hg
      rw [hempty, Set.ncard_empty] at h1
      refine ⟨?_, fun x => ?_⟩
      · refine Option.ne_none_iff_exists'.mp (fun hnone => ?_)
        have h2 := RadixTree.sub_le_missing (D := 3) (d := 1) hnone
        omega
      · by_cases hxv : valid x = true
        · exact (hx.translation H hxv).trans (emptyRoot_tinyKernel.translation x)
        · exact RadixTree.translation_of_not_valid hxv
    · have h1 := hcount hg
      have h2 : smallSpace.missing s' 0 3 = 0 := hzero
      omega
/-- After a page that could not be mapped for lack of frames, 1 GiB cannot be mapped at the
same place, though nothing is translated there. -/
theorem map_range_conflict_left_behind : ∃ s s', EmptyRoot 0 tinyKernel ∧
    smallSpace.Reachable tinyKernel s ∧
    RadixTree.WholeLeaves 0 0x80000000 0x40000000 (smallSpace.leafSize .size1G) ∧
    (∀ x, smallSpace.translation s x = none) ∧
    (smallSpace.mapRange 0 0x80000000 0x40000000 .size1G .kernelData).run s
      = .err .conflict s' := by
  obtain ⟨s, hs⟩ := mapRange_tinyKernel.exists_state?
  have hreach : smallSpace.Reachable tinyKernel s := .map _ _ _ _ _ .start hs
  obtain ⟨⟨t, ht⟩, hfree⟩ :
      (∃ t, smallSpace.tableOn s 0 2 = some t) ∧ ∀ x, smallSpace.translation s x = none :=
    (mapRange_tinyKernel.mono (fun _ _ h => h.elim) (fun _ _ h => h)).of_state? hs
  have H : smallSpace.Shape (kernelSpec ⟨0x100000, 0x200000⟩) s :=
    hreach.shape emptyRoot_tinyKernel.shape
  have hr : RadixTree.WholeLeaves 0 0x80000000 0x40000000 (smallSpace.leafSize .size1G) :=
    wholeLeaves_low (by norm_num) rfl rfl (by norm_num)
  have hconflict := RadixTree.mapRange_conflict (kernelSpec_failsWhenEmpty _)
    (kernelSpec_finiteAvail _) H hr (fun x _ _ => hfree x) .kernelData
  -- the way to the slot is there, so no table is needed
  obtain ⟨t₁, ht₁⟩ := tableOn_above ht (show 1 ≤ 2 by omega)
  have hwalk : ((smallSpace.walk 0 (levelOf .size1G) true).run s).Sat (fun _ s₁ => s₁ = s)
      (fun _ _ => False) := RadixTree.walk_still (by decide) (by decide) ⟨t₁, ht₁⟩
  have hstill := RadixTree.mapLeaf_rule H hwalk 0x80000000 .kernelData
  have hsingle := smallSpace.mapRange_single 0 0x80000000 .size1G .kernelData s
  cases hrun : (smallSpace.mapRange 0 0x80000000 0x40000000 .size1G .kernelData).run s with
  | ok a s' =>
    have hclear := hconflict.of_ok hrun 0 (by decide)
    rw [Nat.zero_mul, Nat.add_zero] at hclear
    exact absurd (hclear.symm.trans ht) (by simp)
  | err er s' =>
    rcases hstill.of_err (hsingle.symm.trans hrun) with ⟨-, hbad⟩ | ⟨hf, -⟩ | ⟨rfl, -⟩
    · exact absurd ⟨by decide, by decide, by decide⟩ hbad
    · exact hf.elim
    · exact ⟨s, s', emptyRoot_tinyKernel, hreach, hr, hfree, hrun⟩
  | halt f => exact absurd hrun (hconflict.ne_halt f)

/-! ## Unmapping what was mapped -/

namespace RadixTree

variable {σ ρ : Type} {tree : RadixTree σ} {E : tree.env.Spec ρ} {s s' : σ}
  {x va pa length i m : ℕ} {size : PageSize} {p : PageProt}

/-- From `s` to `s'` whole leaves were mapped on `m` bytes from `va` on, around the end of the
address space if need be. -/
structure Covers (tree : RadixTree σ) (E : tree.env.Spec ρ) (va : ℕ) (size : PageSize) (s : σ)
    (m : ℕ) (s' : σ) : Prop where
  shape : tree.Shape E s'
  leaves : ∀ i, i * size.bytesIn < m → valid (u64 (va + i * size.bytesIn)) = true ∧
    u64 (va + i * size.bytesIn) % size.bytesIn = 0 ∧
    ∀ y, format.Agree (depthOf size + 1) (u64 (va + i * size.bytesIn)) y →
      ∃ k e, depthOf size ≤ k ∧ tree.Maps s' y k e
  others : ∀ x, valid x = true → (∀ i, i * size.bytesIn < m →
    ¬format.Agree (depthOf size + 1) (u64 (va + i * size.bytesIn)) x) →
    tree.translation s' x = tree.translation s x

/-- The next leaf. -/
theorem Covers.step {s'' : σ} {e : Entry} (h : tree.Covers E va size s (i * size.bytesIn) s')
    (hv : valid (u64 (va + i * size.bytesIn)) = true)
    (hal : u64 (va + i * size.bytesIn) % size.bytesIn = 0) (hp : present e = true)
    (hmap : tree.MapsLeaf E (u64 (va + i * size.bytesIn)) (depthOf size) e s' s'') :
    tree.Covers E va size s (i * size.bytesIn + size.bytesIn) s'' := by
  have hpos : 0 < size.bytesIn := Nat.two_pow_pos _
  obtain ⟨s₁, hx, hcase⟩ := hmap
  have hshape : tree.Shape E s'' := by
    rcases hcase with ⟨rfl, -⟩ | ⟨-, hput⟩
    · exact hx.shape
    · exact hput.shape
  -- the leaves of before stay, perhaps in pieces
  have hkeep : ∀ y k e', depthOf size ≤ k → tree.Maps s' y k e' →
      ∃ k' e'', depthOf size ≤ k' ∧ tree.Maps s'' y k' e'' := by
    intro y k e' hk hm
    obtain ⟨k', e'', hm', hpiece⟩ := hx.finer y k e' hm
    have hle := hpiece.le
    rcases hcase with ⟨rfl, -⟩ | ⟨-, hput⟩
    · exact ⟨k', e'', by omega, hm'⟩
    · by_cases ha : format.Agree (depthOf size + 1) (u64 (va + i * size.bytesIn)) y
      · exact ⟨_, e, le_rfl, (hput.maps y _ e).mpr (by rw [if_pos ha]; exact ⟨rfl, rfl, hp⟩)⟩
      · exact ⟨k', e'', by omega, (hput.maps y k' e'').mpr (by rw [if_neg ha]; exact hm')⟩
  have hnew : ∀ y, format.Agree (depthOf size + 1) (u64 (va + i * size.bytesIn)) y →
      tree.Maps s'' y (depthOf size) e := by
    intro y ha
    rcases hcase with ⟨rfl, hm⟩ | ⟨-, hput⟩
    · exact hm.congr ha
    · exact (hput.maps y _ e).mpr (by rw [if_pos ha]; exact ⟨rfl, rfl, hp⟩)
  refine ⟨hshape, fun j hj => ?_, fun x hxv hno => ?_⟩
  · by_cases hlow : j * size.bytesIn < i * size.bytesIn
    · obtain ⟨hv', hal', hm'⟩ := h.leaves j hlow
      refine ⟨hv', hal', fun y ha => ?_⟩
      obtain ⟨k, e', hk, hm⟩ := hm' y ha
      exact hkeep y k e' hk hm
    · obtain rfl : j = i := eq_of_mul_between hpos (not_lt.mp hlow) hj
      exact ⟨hv, hal, fun y ha => ⟨_, e, le_rfl, hnew y ha⟩⟩
  · have hout := hno i (by omega)
    have hold := h.others x hxv (fun j hj => hno j (by omega))
    rw [← hold, ← hx.translation h.shape hxv]
    rcases hcase with ⟨rfl, -⟩ | ⟨-, hput⟩
    · rfl
    · rw [hput.translation hx.shape hxv hp, if_neg hout]

/-- What a successful `map_range` leaves, whatever its arguments are. -/
theorem mapRange_covers (H : tree.Shape E s) (va pa length : ℕ) (size : PageSize) (p : PageProt) :
    ((tree.mapRange va pa length size p).run s).Sat
      (fun _ s' => 0 < length ∧ length % (tree.leafSize size).bytesIn = 0 ∧
        tree.Covers E va (tree.leafSize size) s length s')
      (fun _ _ => True) := by
  rw [mapRange]
  by_cases hmod : length % (tree.leafSize size).bytesIn = 0
  swap
  · rw [forEachLeaf, if_pos (by simp [hmod])]
    exact trivial
  refine (sat_forEachLeaf (I := fun m s' => tree.Covers E va (tree.leafSize size) s m s')
    ⟨H, fun j hj => absurd hj (by omega), fun _ _ _ => rfl⟩ (fun _ _ => trivial)
    (fun j s₀ _ h₀ => ?_)).mono (fun _ _ h => ⟨h.1, hmod, h.2⟩) (fun _ _ h => h)
  rw [Nat.add_mul, Nat.one_mul]
  refine (mapLeaf_sat h₀.shape _ _ _ p).mono (fun _ s₁ h₁ => ?_) (fun _ _ _ => trivial)
  obtain ⟨hv, hal, -, hmap⟩ := h₁
  exact h₀.step hv hal (present_leafEntry _ _ _ _) hmap

/-- Every address of the range is mapped by a leaf that is not larger than asked for. -/
theorem Covers.mapped (h : tree.Covers E va size s length s') (hend : va + length ≤ 2 ^ 64)
    (hle : va ≤ x) (hlt : x < va + length) :
    valid x = true ∧ ∃ k e, depthOf size ≤ k ∧ tree.Maps s' x k e := by
  have hS : 0 < size.bytesIn := Nat.two_pow_pos _
  have hdiv := Nat.div_add_mod (x - va) size.bytesIn
  have hrem := Nat.mod_lt (x - va) hS
  rw [Nat.mul_comm] at hdiv
  obtain ⟨hv, hal, hm⟩ := h.leaves ((x - va) / size.bytesIn) (by omega)
  rw [u64_of_lt (by omega)] at hv hal hm
  have hx := valid_of_mem_leaf hv hal (x := x) (by omega)
  have hspan : (va + (x - va) / size.bytesIn * size.bytesIn) % span (depthOf size) = 0 := by
    rw [span_depthOf]
    exact hal
  refine ⟨hx, hm x ?_⟩
  rw [agree_iff_mem (depthOf_le size) hv hx hspan, span_depthOf]
  omega

/-- Every other address translates as before. -/
theorem Covers.outside (h : tree.Covers E va size s length s') (hmod : length % size.bytesIn = 0)
    (hend : va + length ≤ 2 ^ 64) (hx : valid x = true) (hout : ¬(va ≤ x ∧ x < va + length)) :
    tree.translation s' x = tree.translation s x := by
  refine h.others x hx (fun i hi ha => hout ?_)
  have hfit := mul_add_le hmod hi
  obtain ⟨hv, hal, -⟩ := h.leaves i hi
  have hS : 0 < size.bytesIn := Nat.two_pow_pos _
  rw [u64_of_lt (by omega)] at hv hal ha
  have hspan : (va + i * size.bytesIn) % span (depthOf size) = 0 := by
    rw [span_depthOf]
    exact hal
  rw [agree_iff_mem (depthOf_le size) hv hx hspan, span_depthOf] at ha
  omega

/-- **Unmapping right after mapping** takes the leaves out again; nothing has to be split. -/
theorem Covers.undo (h : tree.Covers E va (tree.leafSize size) s length s') (hpos : 0 < length)
    (hmod : length % (tree.leafSize size).bytesIn = 0) (hlen : length < 2 ^ 64)
    (hend : va + length ≤ 2 ^ 64) :
    ((tree.unmapRange va length size ignoreRemoved).run s').Sat
      (fun _ s'' => ∀ x, valid x = true → tree.translation s'' x =
        if va ≤ x ∧ x < va + length then none else tree.translation s x)
      (fun _ _ => False) := by
  have hmapped := fun x (hle : va ≤ x) (hlt : x < va + length) => h.mapped hend hle hlt
  have hfirst : tree.SplitAt s' va (depthOf (tree.leafSize size)) := by
    intro k e hm
    obtain ⟨-, k', e', hk, hm'⟩ := hmapped va le_rfl (by omega)
    obtain ⟨rfl, -⟩ := hm.unique hm'
    exact Or.inl hk
  have hsecond : tree.SplitAt s' (va + length) (depthOf (tree.leafSize size)) := by
    intro k e hm
    by_contra hcross
    obtain ⟨hk, hne⟩ := not_or.mp hcross
    -- such a leaf would map the last address of the range as well
    have hlast := hm.congr (agree_pred hm.depth_le hne)
    obtain ⟨-, k', e', hk', hm'⟩ := hmapped (va + length - 1) (by omega) (by omega)
    obtain ⟨rfl, -⟩ := hlast.unique hm'
    exact hk hk'
  have hal : va % (tree.leafSize size).bytesIn = 0 := by
    have hal := (h.leaves 0 (by omega)).2.1
    rw [Nat.zero_mul, Nat.add_zero, u64_mod_bytesIn] at hal
    exact hal
  rw [unmapRange, sat_bind]
  refine ((unmapPrepare_still h.shape (hmapped va le_rfl (by omega)).1 hal hpos hmod hlen hend
    (hmapped (va + length - 1) (by omega) (by omega)).1 hfirst hsecond).and
    (unmapPrepare_sat h.shape hlen va size)).mono (fun _ s₁ h₁ => ?_) (fun _ _ h₁ => h₁.1)
  obtain ⟨rfl, hprep⟩ := h₁
  have htrans : ∀ x, va ≤ x → x < va + length → valid x = true ∧ tree.translation s₁ x ≠ none := by
    intro x hle hlt
    obtain ⟨hx, k, e, -, hm⟩ := hmapped x hle hlt
    rw [translation_of_maps h.shape hx hm]
    exact ⟨hx, by simp⟩
  have hfuel : length < 0 + 4096 * (length / 4096 + 1) := by
    rw [Nat.zero_add]
    exact Nat.lt_mul_div_succ length (by norm_num)
  refine ((unmapFrom_room hprep.end_le hlen htrans (length / 4096 + 1) 0 s₁
    ⟨hprep.shape, by omega, fun x _ => by rw [if_neg (by omega)], ⟨[], rfl, rfl⟩,
      hprep.start_boundary, hprep.end_boundary⟩ hfuel).and
    (hprep.loop observes_ignoreRemoved)).mono (fun _ s₂ h₂ x hx => ?_) (fun _ _ h₂ => h₂.1)
  rw [h₂.2.translation x hx]
  by_cases hr : va ≤ x ∧ x < va + length
  · rw [if_pos hr, if_pos hr]
  · rw [if_neg hr, if_neg hr, h.outside hmod hend hx hr]

/-- A range that goes around the end of the address space is refused by `unmap_range`. -/
theorem unmapRange_wraps (hva : va < 2 ^ 64) (hlen : length < 2 ^ 64) (hend : 2 ^ 64 < va + length)
    (size : PageSize) (s : σ) :
    ((tree.unmapRange va length size ignoreRemoved).run s).Sat (fun _ _ => False)
      (fun _ s' => s' = s) := by
  have hsub : sub64 (u64 (va + length)) 1 < va := by
    unfold sub64 u64
    omega
  rw [unmapRange, sat_bind, unmapPrepare]
  dsimp only
  rw [sat_bind]
  refine (validate_sat va (tree.leafSize size) 0 s).mono (fun target s₁ h₁ => ?_)
    (fun _ _ h₁ => h₁.1)
  rw [if_pos (by simp [hsub])]
  exact h₁.1

end RadixTree

open RadixTree in
/-- **`unmap_range` undoes what `map_range` did, unless the range goes around the end of the
address space.**  In every state reached from an empty root: if no address of the range was
translated and `map_range` returns, then `unmap_range` over the same range right after returns
and leaves every translation as it was before the two, if and only if the range ends by 2^64. -/
theorem unmap_undoes_map {image : Image} {feat : Features} {root : ℕ} {s₀ s s' : Kernel}
    (h₀ : EmptyRoot root s₀) (h : (addressSpace image feat root).Reachable s₀ s)
    {va pa length : ℕ} {size : PageSize} {p : PageProt} (hva : va < 2 ^ 64)
    (hlen : length < 2 ^ 64)
    (hfree : ∀ i < length, (addressSpace image feat root).translation s (u64 (va + i)) = none)
    (hmap : ((addressSpace image feat root).mapRange va pa length size p).run s = .ok () s') :
    (∃ s'', ((addressSpace image feat root).unmapRange va length size ignoreRemoved).run s'
        = .ok () s'' ∧
      ∀ x, (addressSpace image feat root).translation s'' x
        = (addressSpace image feat root).translation s x) ↔
    va + length ≤ 2 ^ 64 := by
  have H : (addressSpace image feat root).Shape (kernelSpec image) s := h.shape h₀.shape
  obtain ⟨hpos, hmod, hcov⟩ := (mapRange_covers H va pa length size p).of_ok hmap
  constructor
  · rintro ⟨s'', hrun, -⟩
    by_contra hend
    exact (unmapRange_wraps hva hlen (not_le.mp hend) size s').of_ok hrun
  · intro hend
    obtain ⟨_, s'', hrun, htrans⟩ := (hcov.undo hpos hmod hlen hend).exists_ok (fun _ _ h => h)
    refine ⟨s'', hrun, fun x => ?_⟩
    by_cases hx : valid x = true
    · rw [htrans x hx]
      split_ifs with hr
      · have hnone := hfree (x - va) (by omega)
        rw [show va + (x - va) = x by omega, u64_of_lt (by omega)] at hnone
        exact hnone.symm
      · rfl
    · rw [translation_of_not_valid hx, translation_of_not_valid hx]

theorem unmap_undoes_map_small : ∃ s' s'',
    (smallSpace.mapRange 0 0x80000000 0x40000000 .size1G .kernelData).run smallKernel = .ok () s' ∧
    (smallSpace.unmapRange 0 0x40000000 .size1G RadixTree.ignoreRemoved).run s' = .ok () s'' ∧
    ∀ x, smallSpace.translation s'' x = smallSpace.translation smallKernel x := by
  obtain ⟨s', -, -, hrun, -⟩ := exists_run_small
  obtain ⟨s'', hundo, htrans⟩ := (unmap_undoes_map emptyRoot_smallKernel .start (by norm_num)
    (by norm_num) (fun i _ => emptyRoot_smallKernel.translation _) hrun).mpr (by norm_num)
  exact ⟨s', s'', hrun, hundo, htrans⟩

/-- Two pages around the end of the address space: both are mapped, and cannot be unmapped. -/
theorem unmap_undoes_map_wraps : ∃ s' er,
    EmptyRoot 0 smallKernel ∧ (∀ x, smallSpace.translation smallKernel x = none) ∧
    (smallSpace.mapRange 0xfffffffffffff000 0x80000000 0x2000 .size4K .kernelData).run smallKernel
      = .ok () s' ∧
    (smallSpace.unmapRange 0xfffffffffffff000 0x2000 .size4K RadixTree.ignoreRemoved).run s'
      = .err er s' := by
  have hE := kernelSpec_failsWhenEmpty ⟨0x100000, 0x200000⟩
  have H : smallSpace.Shape (kernelSpec ⟨0x100000, 0x200000⟩) smallKernel :=
    emptyRoot_smallKernel.shape
  have hmap : ((smallSpace.mapRange 0xfffffffffffff000 0x80000000 0x2000 .size4K .kernelData).run
      smallKernel).Sat (fun _ _ => True) (fun _ _ => False) := by
    rw [RadixTree.mapRange]
    refine (RadixTree.sat_forEachLeaf (I := fun m s' => (m = 0 → s' = smallKernel) ∧
      (m = 4096 → smallSpace.Shape (kernelSpec ⟨0x100000, 0x200000⟩) s' ∧
        (kernelSpec ⟨0x100000, 0x200000⟩).Spare 3 s' ∧ ∀ k e, ¬smallSpace.Maps s' 0 k e))
      ⟨fun _ => rfl, fun h => by omega⟩ (fun hbad => ?_) (fun i s₀ hi h₀ => ?_)).mono
      (fun _ _ _ => trivial) (fun _ _ h => h)
    · rw [RadixTree.leafSize_size4K, PageSize.bytesIn_size4K] at hbad
      omega
    rw [RadixTree.leafSize_size4K, PageSize.bytesIn_size4K] at hi h₀ ⊢
    have hcases : i = 0 ∨ i = 1 := by omega
    rcases hcases with rfl | rfl
    · obtain rfl := h₀.1 rfl
      refine (RadixTree.mapLeaf_new (n := 3) hE H ((spare_small _).mono (by norm_num)) (by decide)
        (by decide) (by decide) (emptyRoot_smallKernel.not_maps _) .kernelData).mono
        (fun _ s₁ h₁ => ⟨fun h => by omega, fun _ => ⟨h₁.1, h₁.2.1, h₁.2.2 0 ?_ ?_⟩⟩)
        (fun _ _ h => h)
      · decide
      · exact emptyRoot_smallKernel.not_maps 0
    · obtain ⟨H₁, hspare, hno⟩ := h₀.2 rfl
      exact (RadixTree.mapLeaf_new (n := 0) hE H₁ hspare (by decide) (by decide) (by decide) hno
        .kernelData).mono (fun _ s₁ h₁ => ⟨fun h => by omega, fun h => by omega⟩) (fun _ _ h => h)
  obtain ⟨_, s', hrun, -⟩ := hmap.exists_ok (fun _ _ h => h)
  have hwraps : ((smallSpace.unmapRange 0xfffffffffffff000 0x2000 .size4K
      RadixTree.ignoreRemoved).run s').Sat (fun _ _ => False) (fun _ s'' => s'' = s') :=
    RadixTree.unmapRange_wraps (by norm_num) (by norm_num) (by norm_num) .size4K s'
  cases hun : (smallSpace.unmapRange 0xfffffffffffff000 0x2000 .size4K
      RadixTree.ignoreRemoved).run s' with
  | ok a s'' => exact (hwraps.of_ok hun).elim
  | err er s'' =>
    obtain rfl := hwraps.of_err hun
    exact ⟨s'', er, emptyRoot_smallKernel, emptyRoot_smallKernel.translation, hrun, hun⟩
  | halt f => exact absurd hun (hwraps.ne_halt f)

end DoomOs
