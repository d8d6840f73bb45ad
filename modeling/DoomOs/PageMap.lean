/-
# The address space refines a flat page map

`address_space`, the page tables over the kernel's environment, in every state that
calls of `map_range`, `protect_range` and `unmap_range` reach from an empty root.

* `page_map_refinement`: mapping and protecting are updates of the flat map, also
  where they fail.
* `unmapRange_removes_exactly`: unmapping takes exactly the requested range out of
  the flat map and reports what it took, in order.
-/
import DoomOs.Mmu
import DoomOs.RadixTidy

namespace DoomOs

open Comp Paging RadixFormat

/-! ## Reachable trees -/

namespace RadixTree

variable {σ ρ : Type} {tree : RadixTree σ} {E : tree.env.Spec ρ} {s₀ s s' : σ}

/-- The states reached from `s₀` by calls on the tree, successful or not. -/
inductive Reachable (tree : RadixTree σ) (s₀ : σ) : σ → Prop
  | start : Reachable tree s₀ s₀
  | map {s s' : σ} (va pa length : ℕ) (size : PageSize) (p : PageProt) : Reachable tree s₀ s →
      ((tree.mapRange va pa length size p).run s).state? = some s' → Reachable tree s₀ s'
  | protect {s s' : σ} (va length : ℕ) (size : PageSize) (p : PageProt) : Reachable tree s₀ s →
      ((tree.protectRange va length size p).run s).state? = some s' → Reachable tree s₀ s'
  | unmap {s s' : σ} (va length : ℕ) (size : PageSize) : length < 2 ^ 64 → Reachable tree s₀ s →
      ((tree.unmapRange va length size ignoreRemoved).run s).state? = some s' →
      Reachable tree s₀ s'

theorem Reachable.shape (h : tree.Reachable s₀ s) (H : tree.Shape E s₀) : tree.Shape E s := by
  induction h with
  | start => exact H
  | map va pa length size p _ hrun ih =>
    exact ((mapRange_shape ih va pa length size p).mono (fun _ _ h => h.1)
      (fun _ _ h => h.1)).of_state? hrun
  | protect va length size p _ hrun ih =>
    exact ((protectRange_shape ih va length size p).mono (fun _ _ h => h.1)
      (fun _ _ h => h.1)).of_state? hrun
  | unmap va length size hlen _ hrun ih =>
    exact (unmapRange_shape observes_ignoreRemoved ih hlen va size).of_state? hrun

/-- What `map_range` promises about addresses mapped before and addresses newly mapped. -/
def KeepsMapped (tree : RadixTree σ) (va pa length : ℕ) (s s' : σ) : Prop :=
  ∀ x, valid x = true →
    (tree.translation s x ≠ none → tree.translation s' x = tree.translation s x) ∧
    ∀ q, tree.translation s x = none → tree.translation s' x = some q →
      va ≤ x ∧ x < va + length ∧ q.1 = pa + (x - va)

theorem MapsTo.keepsMapped {va pa m length : ℕ} {p : PageProt} (h : tree.MapsTo va pa m p s s')
    (hm : m ≤ length) : tree.KeepsMapped va pa length s s' := by
  intro x hx
  obtain ⟨h1, h2⟩ := h x hx
  refine ⟨h2, fun q hnone hq => ?_⟩
  rw [h1, hnone] at hq
  split_ifs at hq with hr
  rw [Option.some.injEq] at hq
  exact ⟨hr.1, by omega, by rw [← hq]⟩

end RadixTree

/-! ## The kernel's address space -/

/-- A state of the allocator, and a root table that it has handed out and that holds
nothing. -/
structure EmptyRoot (root : ℕ) (s : Kernel) : Prop where
  reachable : ∃ boot bootStart kernelEnd, Pmm.Reachable boot bootStart kernelEnd s.pmm
  not_free : root ∉ s.avail
  zero : ∀ i < 512, s.mem root i = 0#64

theorem EmptyRoot.inv {root : ℕ} {s : Kernel} (h : EmptyRoot root s) : s.pmm.Inv := by
  obtain ⟨_, _, _, hr⟩ := h.reachable
  exact hr.inv

/-- The tree below an empty root. -/
theorem EmptyRoot.shape {image : Image} {feat : Features} {root : ℕ} {s : Kernel}
    (h : EmptyRoot root s) : (addressSpace image feat root).Shape (kernelSpec image) s :=
  .empty h.inv h.not_free h.zero

theorem EmptyRoot.not_maps {image : Image} {feat : Features} {root : ℕ} {s : Kernel}
    (h : EmptyRoot root s) (x k : ℕ) (e : Entry) :
    ¬(addressSpace image feat root).Maps s x k e := by
  have hslot : (addressSpace image feat root).slotOn s x 0 = some 0#64 :=
    (RadixTree.slotOn_of_tableOn (t := root) rfl).trans (congrArg some (h.zero _ (index_lt _ _)))
  exact RadixTree.not_maps_of_not_present hslot (by decide) k e

theorem EmptyRoot.translation {image : Image} {feat : Features} {root : ℕ} {s : Kernel}
    (h : EmptyRoot root s) (x : ℕ) : (addressSpace image feat root).translation s x = none := by
  by_cases hx : valid x = true
  · exact RadixTree.translation_of_not_maps h.shape hx (h.not_maps x)
  · exact RadixTree.translation_of_not_valid hx

open RadixTree in
/-- **The page tables refine a flat page map.**  In every state reached from an empty
root: `map_range` maps its range and changes nothing else, and a failing call keeps
what was mapped and maps only what was asked for; `protect_range` changes the
protection of its range and nothing else, and a failing call changes no physical
address and nothing outside its range. -/
theorem page_map_refinement {image : Image} {feat : Features} {root : ℕ} {s₀ s : Kernel}
    (h₀ : EmptyRoot root s₀) (h : (addressSpace image feat root).Reachable s₀ s) :
    (∀ va pa length size p, va + length ≤ 2 ^ 64 → pa + length ≤ 2 ^ 52 →
      (((addressSpace image feat root).mapRange va pa length size p).run s).Sat
        (fun _ s' =>
          (∀ i < length, (addressSpace image feat root).translation s' (va + i)
            = some (pa + i, readBack feat p)) ∧
          (∀ x, valid x = true → ¬(va ≤ x ∧ x < va + length) →
            (addressSpace image feat root).translation s' x
              = (addressSpace image feat root).translation s x) ∧
          (addressSpace image feat root).KeepsMapped va pa length s s')
        (fun _ s' => (addressSpace image feat root).KeepsMapped va pa length s s')) ∧
    (∀ va length size p, va + length ≤ 2 ^ 64 →
      (((addressSpace image feat root).protectRange va length size p).run s).Sat
        (fun _ s' =>
          (∀ i < length, ∃ phys p₀,
            (addressSpace image feat root).translation s (va + i) = some (phys, p₀) ∧
            (addressSpace image feat root).translation s' (va + i)
              = some (phys, readBack feat p)) ∧
          ∀ x, valid x = true → ¬(va ≤ x ∧ x < va + length) →
            (addressSpace image feat root).translation s' x
              = (addressSpace image feat root).translation s x)
        (fun _ s' => ∀ x, valid x = true →
          (¬(va ≤ x ∧ x < va + length) → (addressSpace image feat root).translation s' x
              = (addressSpace image feat root).translation s x) ∧
          ((addressSpace image feat root).translation s' x).map Prod.fst
            = ((addressSpace image feat root).translation s x).map Prod.fst)) := by
  have H : (addressSpace image feat root).Shape (kernelSpec image) s := h.shape h₀.shape
  constructor
  · intro va pa length size p hva hpa
    refine (mapRange_sat H hva hpa size p).mono (fun _ s' h' => ?_) (fun _ s' h' => ?_)
    · obtain ⟨hvalid, hmaps⟩ := h'
      refine ⟨fun i hi => ?_, fun x hx hout => ?_, hmaps.keepsMapped le_rfl⟩
      · obtain ⟨h1, -⟩ := hmaps (va + i) (hvalid _ (by omega) (by omega))
        rw [h1, if_pos (by omega), Nat.add_sub_cancel_left]
        rfl
      · obtain ⟨h1, -⟩ := hmaps x hx
        rw [h1, if_neg hout]
    · obtain ⟨m, hm, hmaps⟩ := h'
      exact hmaps.keepsMapped hm
  · intro va length size p hva
    refine (protectRange_sat H hva size p).mono (fun _ s' h' => ?_) (fun _ s' h' => ?_)
    · obtain ⟨hvalid, hprot⟩ := h'
      refine ⟨fun i hi => ?_, fun x hx hout => ?_⟩
      · have h1 := hprot (va + i) (hvalid _ (by omega) (by omega))
        rw [if_pos (by omega)] at h1
        exact h1
      · have h1 := hprot x hx
        rw [if_neg hout] at h1
        exact h1
    · obtain ⟨m, hm, hprot⟩ := h'
      intro x hx
      have h1 := hprot x hx
      by_cases hr : va ≤ x ∧ x < va + m
      · rw [if_pos hr] at h1
        obtain ⟨phys, p₀, hs, hs'⟩ := h1
        refine ⟨fun hout => absurd ⟨hr.1, by omega⟩ hout, ?_⟩
        rw [hs, hs']
        rfl
      · rw [if_neg hr] at h1
        exact ⟨fun _ => h1, by rw [h1]⟩

/-! ## A small address space -/

/-- Four MiB of free memory and a zeroed root in the first page. -/
def smallKernel : Kernel := ⟨Pmm.smallPmm, fun _ _ => 0#64⟩

theorem emptyRoot_smallKernel : EmptyRoot 0 smallKernel := by
  refine ⟨⟨_, _, _, Pmm.reachable_smallPmm⟩, fun h => ?_, fun _ _ => rfl⟩
  have := (Pmm.mem_freeFrames_smallPmm _).mp h.2
  omega

/-- A small address space that has 1 GiB pages. -/
def smallSpace : RadixTree Kernel := addressSpace ⟨0x100000, 0x200000⟩ ⟨true, true, true⟩ 0

theorem wholeLeaves_low {pa length : ℕ} {size : PageSize} (hpos : 0 < length)
    (hlen : length % size.bytesIn = 0) (hpa : pa % size.bytesIn = 0) (hend : length ≤ 2 ^ 47) :
    RadixTree.WholeLeaves 0 pa length size := by
  refine ⟨hpos, hlen, Nat.zero_mod _, hpa, by omega, fun x _ hlt => ?_⟩
  rw [valid_iff]
  omega

section SmallRuns

open RadixTree

variable {s : Kernel}

/-- 1 GiB of the first addresses can be mapped in a tidy tree that maps none of them. -/
theorem mapRange_smallSpace (pa : ℕ) (H : smallSpace.Shape (kernelSpec ⟨0x100000, 0x200000⟩) s)
    (htidy : smallSpace.Tidy (fun _ => True) s)
    (hspare : (kernelSpec ⟨0x100000, 0x200000⟩).Spare 3 s)
    (hfree : ∀ x < 0x40000000, smallSpace.translation s x = none) (hpa : pa + 0x40000000 ≤ 2 ^ 52)
    (hal : pa % 0x40000000 = 0) :
    ((smallSpace.mapRange 0 pa 0x40000000 .size1G .kernelData).run s).Sat
      (fun _ s' => smallSpace.Shape (kernelSpec ⟨0x100000, 0x200000⟩) s' ∧
        smallSpace.Tidy (fun _ => True) s' ∧
        (∀ n, (kernelSpec ⟨0x100000, 0x200000⟩).Spare (n + 3) s →
          (kernelSpec ⟨0x100000, 0x200000⟩).Spare n s') ∧
        ∀ x < 0x40000000, smallSpace.translation s' x = some (pa + x, .kernelData))
      (fun _ _ => False) := by
  have hr : WholeLeaves 0 pa (smallSpace.leafSize .size1G).bytesIn (smallSpace.leafSize .size1G) :=
    wholeLeaves_low (Nat.two_pow_pos _) (Nat.mod_self _) hal (by decide)
  have hleaf := htidy.mapRange_leaf (kernelSpec_failsWhenEmpty _) (kernelSpec_finiteAvail _)
    H hspare hr (fun x _ hx => hfree x (by rwa [Nat.zero_add] at hx)) .kernelData
  have hmap := mapRange_sat H (show 0 + 0x40000000 ≤ 2 ^ 64 by norm_num) hpa .size1G .kernelData
  refine ((hleaf.and hmap).and (mapRange_shape H 0 pa 0x40000000 .size1G .kernelData)).mono
    (fun _ s' h => ?_) (fun _ _ h => h.1.1)
  obtain ⟨⟨⟨htidy', hroom⟩, hvalid, hmaps⟩, hshape, -⟩ := h
  refine ⟨hshape, htidy', hroom, fun x hx => ?_⟩
  rw [(hmaps x (hvalid x (by omega) (by omega))).1, if_pos (by omega), Nat.sub_zero]
  rfl

/-- A run: 1 GiB is mapped with one leaf, one page of it is protected, and all of it is
unmapped. -/
theorem exists_run_small : ∃ s₁ s₂ s₃,
    (smallSpace.mapRange 0 0x80000000 0x40000000 .size1G .kernelData).run smallKernel = .ok () s₁ ∧
    (smallSpace.protectRange 0x201000 0x1000 .size4K .kernelRodata).run s₁ = .ok () s₂ ∧
    (smallSpace.unmapRange 0 0x40000000 .size4K ignoreRemoved).run s₂ = .ok () s₃ ∧
    smallSpace.Shape (kernelSpec ⟨0x100000, 0x200000⟩) s₃ ∧ smallSpace.Tidy (fun _ => True) s₃ ∧
    (kernelSpec ⟨0x100000, 0x200000⟩).Spare 3 s₃ ∧
    ∀ x < 0x40000000, smallSpace.translation s₃ x = none := by
  have hE := kernelSpec_failsWhenEmpty ⟨0x100000, 0x200000⟩
  have hfin := kernelSpec_finiteAvail ⟨0x100000, 0x200000⟩
  have hspare : (kernelSpec ⟨0x100000, 0x200000⟩).Spare 1024 smallKernel := spare_small _
  -- the map
  obtain ⟨_, s₁, hrun₁, H₁, htidy₁, hroom₁, hmaps⟩ := (mapRange_smallSpace 0x80000000
    emptyRoot_smallKernel.shape (tidy_empty emptyRoot_smallKernel.zero) (hspare.mono (by norm_num))
    (fun x _ => emptyRoot_smallKernel.translation x) (by norm_num) rfl).exists_ok (fun _ _ h => h)
  have hspare₁ := hroom₁ 1021 hspare
  have hvalid : ∀ x < 0x40000000, valid x = true := fun x hx => by
    rw [valid_iff]
    omega
  have hmapped₁ : ∀ x, 0 ≤ x → x < 0 + 0x40000000 →
      valid x = true ∧ smallSpace.translation s₁ x ≠ none := by
    intro x _ hx
    rw [hmaps x (by omega)]
    exact ⟨hvalid x (by omega), by simp⟩
  -- the protection, which cuts the leaf twice
  have hprotect := protectRange_room hE H₁ (show 0x201000 % 4096 = 0 from rfl)
    (show 0 < 0x1000 by norm_num) rfl (fun x hle hlt => hmapped₁ x (Nat.zero_le x) (by omega))
    .kernelRodata
  obtain ⟨_, s₂, hrun₂, ⟨⟨hroom₂, H₂, -⟩, htidy₂⟩, -, hprot⟩ := (((hprotect.and
    (protectRange_shape H₁ _ _ _ _)).and (protectRange_tidy hE hfin H₁ htidy₁ _ _ _ _)).and
    (protectRange_sat H₁ (by norm_num) _ _)).exists_ok
      (fun _ _ h => h.1.1.1 (hspare₁.mono (by norm_num)))
  have hspare₂ := hroom₂ 1018 hspare₁
  have hmapped₂ : ∀ x, 0 ≤ x → x < 0 + 0x40000000 →
      valid x = true ∧ smallSpace.translation s₂ x ≠ none := by
    intro x hle hx
    obtain ⟨hv, hne⟩ := hmapped₁ x hle hx
    refine ⟨hv, ?_⟩
    have hp := hprot x hv
    split_ifs at hp with hin
    · obtain ⟨phys, p₀, -, hp⟩ := hp
      rw [hp]
      simp
    · rw [hp]
      exact hne
  -- and the removal
  have hunmap := unmapRange_room hE H₂ (show 0 % 4096 = 0 from rfl)
    (show 0 < 0x40000000 by norm_num) rfl (by norm_num) hmapped₂
  obtain ⟨_, s₃, hrun₃, ⟨hroom₃, H₃, hgone⟩, htidy₃⟩ := ((hunmap.and
    (unmapRange_sat H₂ (by norm_num) _ _)).and
    (unmapRange_tidy hE hfin H₂ htidy₂ (by norm_num) _ _)).exists_ok
      (fun _ _ h => h.1.1 (hspare₂.mono (by norm_num)))
  refine ⟨s₁, s₂, s₃, hrun₁, hrun₂, hrun₃, H₃, htidy₃, hroom₃ 3 (hspare₂.mono (by norm_num)),
    fun x hx => ?_⟩
  rw [hgone x (hvalid x hx), if_pos (by omega)]

end SmallRuns

theorem page_map_refinement_small : ∃ s₁ s₂ s₃ s₄,
    (smallSpace.mapRange 0 0x80000000 0x40000000 .size1G .kernelData).run smallKernel = .ok () s₁ ∧
    (smallSpace.protectRange 0x201000 0x1000 .size4K .kernelRodata).run s₁ = .ok () s₂ ∧
    (smallSpace.unmapRange 0 0x40000000 .size4K RadixTree.ignoreRemoved).run s₂ = .ok () s₃ ∧
    (smallSpace.mapRange 0 0xc0000000 0x40000000 .size1G .kernelData).run s₃ = .ok () s₄ ∧
    (∀ x < 0x40000000, smallSpace.translation s₂ x = some (0x80000000 + x,
      if 0x201000 ≤ x ∧ x < 0x202000 then .kernelRodata else .kernelData)) ∧
    ∀ x < 0x40000000, smallSpace.translation s₄ x = some (0xc0000000 + x, .kernelData) := by
  obtain ⟨s₁, s₂, s₃, hrun₁, hrun₂, hrun₃, H₃, htidy, hspare, hfree⟩ := exists_run_small
  obtain ⟨_, s₄, hrun₄, -⟩ := (mapRange_smallSpace 0xc0000000 H₃ htidy hspare hfree
    (by norm_num) rfl).exists_ok (fun _ _ h => h)
  have h₁ : smallSpace.Reachable smallKernel s₁ := .map _ _ _ _ _ .start (by rw [hrun₁]; rfl)
  have h₂ : smallSpace.Reachable smallKernel s₂ := .protect _ _ _ _ h₁ (by rw [hrun₂]; rfl)
  have h₃ : smallSpace.Reachable smallKernel s₃ :=
    .unmap 0 0x40000000 .size4K (by norm_num) h₂ (by rw [hrun₃]; rfl)
  obtain ⟨hmaps₁, -, -⟩ := ((page_map_refinement emptyRoot_smallKernel .start).1 0 0x80000000
    0x40000000 .size1G .kernelData (by norm_num) (by norm_num)).of_ok hrun₁
  obtain ⟨hprot, hsame⟩ := ((page_map_refinement emptyRoot_smallKernel h₁).2 0x201000 0x1000 .size4K
    .kernelRodata (by norm_num)).of_ok hrun₂
  obtain ⟨hmaps₄, -, -⟩ := ((page_map_refinement emptyRoot_smallKernel h₃).1 0 0xc0000000
    0x40000000 .size1G .kernelData (by norm_num) (by norm_num)).of_ok hrun₄
  refine ⟨s₁, s₂, s₃, s₄, hrun₁, hrun₂, hrun₃, hrun₄, fun x hx => ?_, fun x hx => ?_⟩
  · have hold := hmaps₁ x hx
    rw [Nat.zero_add] at hold
    split_ifs with hin
    · obtain ⟨phys, p₀, hwas, hnow⟩ := hprot (x - 0x201000) (by omega)
      rw [show 0x201000 + (x - 0x201000) = x by omega] at hwas hnow
      obtain ⟨rfl, -⟩ := Prod.mk.inj (Option.some.inj (hwas.symm.trans hold))
      exact hnow
    · exact (hsame x (by rw [valid_iff]; omega) (by omega)).trans hold
  · have hnew := hmaps₄ x hx
    rw [Nat.zero_add] at hnew
    exact hnew

/-! ## Unmapping, observed -/

/-- The address space, with the list of what `on_removed` has seen beside it. -/
def observedSpace (image : Image) (feat : Features) (root : ℕ) :
    RadixTree (Kernel × List Mapping) :=
  ⟨(kernelEnv image).beside (List Mapping), feat, root⟩

/-- An `on_removed` that writes down what it is given. -/
def recordRemoved (m : Mapping) : Comp Fault MmError (Kernel × List Mapping) Unit :=
  modify fun s => (s.1, s.2 ++ [m])

open RadixTree in
theorem observes_recordRemoved (image : Image) (feat : Features) (root : ℕ) :
    (observedSpace image feat root).Observes ((kernelSpec image).beside (List Mapping))
      (fun r m => r ++ [m]) recordRemoved :=
  fun _ _ hgood => ⟨hgood, rfl, rfl, rfl⟩

theorem foldl_snoc {α : Type} (ms l : List α) : ms.foldl (fun r m => r ++ [m]) l = l ++ ms := by
  induction ms generalizing l with
  | nil => rw [List.foldl_nil, List.append_nil]
  | cons m ms ih => rw [List.foldl_cons, ih, List.append_assoc, List.singleton_append]

open RadixTree in
/-- **Unmapping removes exactly the requested range**, and terminates.  Nothing outside
the range changes, however the call ends; when it succeeds the range is not mapped any
more and the mappings reported tile it with what was mapped before; and when it fails
before the first removal nothing changed and nothing was reported. -/
theorem unmapRange_removes_exactly {image : Image} {feat : Features} {root : ℕ}
    {s₀ s : Kernel × List Mapping} (h₀ : EmptyRoot root s₀.1)
    (h : (observedSpace image feat root).Reachable s₀ s) (va length : ℕ) (size : PageSize)
    (hlen : length < 2 ^ 64) :
    (((observedSpace image feat root).unmapRange va length size recordRemoved).run s).Sat
      (fun _ s' =>
        (∀ x, valid x = true → (observedSpace image feat root).translation s' x =
          if va ≤ x ∧ x < va + length then none
          else (observedSpace image feat root).translation s x) ∧
        ∃ ms, Tiles ((observedSpace image feat root).translation s) va ms (va + length) ∧
          s'.2 = s.2 ++ ms)
      (fun _ s' => ∀ x, valid x = true → ¬(va ≤ x ∧ x < va + length) →
        (observedSpace image feat root).translation s' x
          = (observedSpace image feat root).translation s x) ∧
    ∀ e s', ((observedSpace image feat root).unmapPrepare va length size).run s = .err e s' →
      ((observedSpace image feat root).unmapRange va length size recordRemoved).run s = .err e s' ∧
      s'.2 = s.2 ∧ ∀ x, valid x = true → (observedSpace image feat root).translation s' x
        = (observedSpace image feat root).translation s x := by
  have H : (observedSpace image feat root).Shape ((kernelSpec image).beside (List Mapping)) s :=
    h.shape (Shape.empty h₀.inv h₀.not_free h₀.zero)
  have hprep := unmapPrepare_sat H hlen va size
  constructor
  · rw [unmapRange, sat_bind]
    refine hprep.mono (fun _ s₁ h₁ => ?_)
      (fun _ s₁ h₁ x hx _ => h₁.2.2 x hx)
    refine (h₁.loop (observes_recordRemoved image feat root)).mono (fun _ s₂ h₂ => ?_)
      (fun _ s₂ h₂ x hx hout => ?_)
    · obtain ⟨ms, htiles, hlog⟩ := h₂.reported
      refine ⟨fun x hx => ?_, ms, htiles.congr (fun x q hq => ?_), ?_⟩
      · rw [h₂.translation x hx, h₁.translation x hx]
      · rw [← h₁.translation x (valid_of_translation hq)]
        exact hq
      · refine hlog.trans ((foldl_snoc ms _).trans ?_)
        rw [h₁.rest]
        rfl
    · obtain ⟨m, h₂⟩ := h₂
      have hle := h₂.le
      rw [h₂.translation x hx, if_neg (by omega), h₁.translation x hx]
  · intro e s' hrun
    obtain ⟨-, hrest, htr⟩ := hprep.of_err hrun
    exact ⟨by rw [unmapRange, run_bind_err hrun], hrest, htr⟩

/-- One page out of a large one, right after that was mapped. -/
theorem unmapRange_removes_exactly_small : ∃ s,
    (((observedSpace ⟨0x100000, 0x200000⟩ ⟨true, true, true⟩ 0).mapRange 0x40000000 0x80000000
      0x40000000 .size1G .kernelData).run (smallKernel, [])).state? = some s ∧
    (((observedSpace ⟨0x100000, 0x200000⟩ ⟨true, true, true⟩ 0).unmapRange 0x40201000 0x1000 .size4K
      recordRemoved).run s).Sat
      (fun _ s' => ∃ ms, RadixTree.Tiles
        ((observedSpace ⟨0x100000, 0x200000⟩ ⟨true, true, true⟩ 0).translation s)
          0x40201000 ms 0x40202000 ∧ s'.2 = s.2 ++ ms)
      (fun _ _ => True) := by
  have H : (observedSpace ⟨0x100000, 0x200000⟩ ⟨true, true, true⟩ 0).Shape
      ((kernelSpec ⟨0x100000, 0x200000⟩).beside (List Mapping)) (smallKernel, []) :=
    .empty emptyRoot_smallKernel.inv emptyRoot_smallKernel.not_free emptyRoot_smallKernel.zero
  obtain ⟨s, hs⟩ := (RadixTree.mapRange_shape H 0x40000000 0x80000000 0x40000000 .size1G
    .kernelData).exists_state?
  have hreach : (observedSpace ⟨0x100000, 0x200000⟩ ⟨true, true, true⟩ 0).Reachable
      (smallKernel, []) s := .map _ _ _ _ _ .start hs
  have hsat := (unmapRange_removes_exactly emptyRoot_smallKernel hreach 0x40201000 0x1000 .size4K
    (by norm_num)).1
  exact ⟨s, hs, hsat.mono (fun _ _ h => h.2) (fun _ _ _ => trivial)⟩

end DoomOs
