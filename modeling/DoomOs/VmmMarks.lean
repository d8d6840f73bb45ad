/-
# Mapping device memory again

A page of the window of device memory has the leaf that every request for it asks for,
until the processor uses the page: from then on its leaf carries a mark, and `map_leaf`
compares whole entries.  Runs here are calls of the virtual memory manager together with
marks of the processor (`Observed`).

* `map_mmio_repeats_iff`: a request for pages that are mapped already is granted again
  exactly when no leaf of these pages is marked.
-/
import DoomOs.MmuImage
import DoomOs.RadixMarks
import DoomOs.VmmMmio

namespace DoomOs

open Comp Paging RadixFormat Mmu

namespace Vmm

variable {L : Layout} {feat : Features} {boot : BootInfo} {k₀ k k' : Kernel} {s s' : Vmm}
  {live held : Set ℕ} {G : Set ℕ} {p pa bytes : ℕ} {e : Entry}

/-! ## Marks keep the invariants -/

/-- Marks do not move frames. -/
theorem Window.marked (H : Window L feat k₀ live held k)
    (h : (kernelSpace L feat).Marked (kernelSpec L.image) k k') :
    Window L feat k₀ live held k' := by
  have howned : owned L feat k' = owned L feat k := h.owned
  have hav : k'.avail = k.avail := h.avail
  refine H.of_same h.shape (fun t ht => H.image t (hav ▸ ht))
    (fun y d t _ ht => (h.tables y (d + 1)).trans ht) (fun x hx d e hm => ?_)
    (fun x hx f => ?_) ?_ ?_
  · obtain ⟨e₀, hm₀, -⟩ := h.was x d e hm
    exact H.depth x hx d e₀ hm₀
  · constructor
    · rintro ⟨e, hm, rfl⟩
      obtain ⟨e₀, hm₀, heq⟩ := h.was x 3 e hm
      exact ⟨e₀, hm₀, (address_congr heq).symm⟩
    · rintro ⟨e, hm, rfl⟩
      obtain ⟨e₁, hm₁, heq⟩ := h.stays x 3 e hm
      exact ⟨e₁, hm₁, address_congr heq⟩
  · rw [howned]
  · rw [howned]
    exact H.held_disjoint

/-- A leaf is the one that `map_mmio` writes, except for marks. -/
def LeafOf (e entry : Entry) : Prop := unmarked e = entry

theorem marks_mmioEntry (feat : Features) (p : ℕ) :
    (mmioEntry feat p).getLsbD 5 = false ∧ (mmioEntry feat p).getLsbD 6 = false :=
  marks_leafEntry feat _ .size4K .mmio

theorem leafOf_mmioEntry (feat : Features) (p : ℕ) :
    LeafOf (mmioEntry feat p) (mmioEntry feat p) := by
  obtain ⟨h5, h6⟩ := marks_mmioEntry feat p
  exact unmarked_eq_self h5 h6

theorem Identity.marked (H : Identity L feat LeafOf k)
    (h : (kernelSpace L feat).Marked (kernelSpec L.image) k k') : Identity L feat LeafOf k' := by
  intro p hp d e hm
  obtain ⟨e₀, hm₀, heq⟩ := h.was _ d e hm
  obtain ⟨hd, hleaf⟩ := H p hp d e₀ hm₀
  exact ⟨hd, heq.trans hleaf⟩

/-- A leaf for its own page is the one asked for exactly when it is not marked. -/
theorem eq_mmioEntry_iff (h : LeafOf e (mmioEntry feat p)) :
    e = mmioEntry feat p ↔ e.getLsbD 5 = false ∧ e.getLsbD 6 = false := by
  constructor
  · rintro rfl
    exact marks_mmioEntry feat p
  · rintro ⟨h5, h6⟩
    exact (unmarked_eq_self h5 h6).symm.trans h

/-! ## Runs with the processor -/

/-- The states that calls and marks reach from `s₀`, when the processor marks as `allowed` says,
together with the device addresses whose pages successful requests have asked for. -/
inductive Observed (L : Layout) (feat : Features) (allowed : Kernel → Kernel → Prop) (s₀ : Vmm) :
    Set ℕ → Vmm → Prop
  | start : Observed L feat allowed s₀ ∅ s₀
  | call {G : Set ℕ} {s s' : Vmm} (c : Call) : Observed L feat allowed s₀ G s →
      ((exec L feat c).run s).state? = some s' → Observed L feat allowed s₀ G s'
  | granted {G : Set ℕ} {s s' : Vmm} {pa bytes v : ℕ} : Observed L feat allowed s₀ G s →
      (mapMmio L feat pa bytes).run s = .ok v s' →
      Observed L feat allowed s₀ (G ∪ pagesOf pa bytes) s'
  | marked {G : Set ℕ} {s : Vmm} {k : Kernel} : Observed L feat allowed s₀ G s →
      (kernelSpace L feat).Marks s.kernel k → allowed s.kernel k →
      Observed L feat allowed s₀ G ⟨k, s.table⟩

/-- What holds in such states, for leaves that are related by `R` to the one for their page. -/
structure ObservedInv (L : Layout) (feat : Features) (k₀ : Kernel) (R : Entry → Entry → Prop)
    (G : Set ℕ) (s : Vmm) : Prop where
  inv : Inv L feat k₀ s
  identity : Identity L feat R s.kernel
  granted : ∀ p ∈ G, p < mmioMapSize ∧ ∃ e, (kernelSpace L feat).Maps s.kernel (mmioMapBase + p) 3 e

section Runs

variable {R : Entry → Entry → Prop}

/-- Growing the window keeps the pages that were granted. -/
theorem ObservedInv.grown {P : ℕ → Prop} (H : ObservedInv L feat k₀ R G s)
    (hR : ∀ p, R (mmioEntry feat p) (mmioEntry feat p)) (hinv : Inv L feat k₀ s')
    (h : Grown L feat P s.kernel s'.kernel) : ObservedInv L feat k₀ R G s' := by
  refine ⟨hinv, h.identity hR H.identity, fun p hp => ?_⟩
  obtain ⟨hlt, e, hm⟩ := H.granted p hp
  exact ⟨hlt, e, h.kept p hlt 3 e hm⟩

theorem ObservedInv.marked (H : ObservedInv L feat k₀ R G s)
    (h : (kernelSpace L feat).Marked (kernelSpec L.image) s.kernel k)
    (hid : Identity L feat R k) : ObservedInv L feat k₀ R G ⟨k, s.table⟩ := by
  refine ⟨⟨H.inv.table, H.inv.window.marked h⟩, hid, fun p hp => ?_⟩
  obtain ⟨hlt, e, hm⟩ := H.granted p hp
  obtain ⟨e', hm', -⟩ := h.stays _ 3 e hm
  exact ⟨hlt, e', hm'⟩

theorem Observed.inv {allowed : Kernel → Kernel → Prop}
    (h : Observed L feat allowed ⟨k₀, .empty⟩ G s) (h₀ : Ready L feat k₀)
    (hR : ∀ p, R (mmioEntry feat p) (mmioEntry feat p))
    (hmark : ∀ k k', (kernelSpace L feat).Marked (kernelSpec L.image) k k' → allowed k k' →
      Identity L feat R k → Identity L feat R k') : ObservedInv L feat k₀ R G s := by
  induction h with
  | start => exact ⟨inv_start h₀, identity_of_ready h₀, fun p hp => hp.elim⟩
  | call c _ hrun ih =>
    have hstep := (exec_inv ih.inv c).and (exec_grown ih.inv ih.identity.flat c)
    obtain ⟨hinv, hgrown⟩ := hstep.of_state?
      (P := fun s' => Inv L feat k₀ s' ∧ Grown L feat _ _ _) hrun
    exact ih.grown hR hinv hgrown
  | granted _ hrun ih =>
    have hinv := ((mapMmio_after ih.inv _ _).of_ok hrun).inv
    obtain ⟨hadm, -, hgrown, hleaves⟩ :=
      (mapMmio_grown ih.inv.window.shape ih.identity.flat _ _).of_ok hrun
    have H := ih.grown hR hinv hgrown
    refine ⟨H.inv, H.identity, ?_⟩
    rintro p (hp | hp)
    · exact H.granted p hp
    · exact ⟨lt_of_mem_pagesOf hadm hp, _, hleaves p hp⟩
  | marked _ hmarks hallowed ih =>
    have hm := hmarks.marked ih.inv.window.shape
    exact ih.marked hm (hmark _ _ hm hallowed ih.identity)

end Runs

/-! ## Asking again -/

/-- The request is granted, and no translation changes. -/
def Repeats (L : Layout) (feat : Features) (s : Vmm) (pa bytes : ℕ) : Prop :=
  ∃ s', (mapMmio L feat pa bytes).run s = .ok (mmioMapBase + pa) s' ∧
    ∀ x, (kernelSpace L feat).translation s'.kernel x = (kernelSpace L feat).translation s.kernel x

/-- No leaf of the pages of the request has its accessed or its dirty bit set. -/
def UnmarkedPages (L : Layout) (feat : Features) (k : Kernel) (pa bytes : ℕ) : Prop :=
  ∀ p ∈ pagesOf pa bytes, ∀ d e, (kernelSpace L feat).Maps k (mmioMapBase + p) d e →
    e.getLsbD 5 = false ∧ e.getLsbD 6 = false

/-- Requests that are not empty, for pages that have been granted, pass the check. -/
theorem ObservedInv.admitted {R : Entry → Entry → Prop} (H : ObservedInv L feat k₀ R G s)
    (hpos : 0 < bytes) (hsub : pagesOf pa bytes ⊆ G) : Admitted pa bytes := by
  have hlast : pa + bytes - 1 ∈ pagesOf pa bytes := ⟨pa + bytes - 1, by omega, by omega, rfl⟩
  have hlt := (H.granted _ (hsub hlast)).1
  exact ⟨hpos, by omega⟩

/-- A request for granted pages repeats when they all have the leaf asked for. -/
theorem ObservedInv.repeats {R : Entry → Entry → Prop} (H : ObservedInv L feat k₀ R G s)
    (hpos : 0 < bytes) (hsub : pagesOf pa bytes ⊆ G)
    (hleaf : ∀ p ∈ pagesOf pa bytes, ∀ e, (kernelSpace L feat).Maps s.kernel (mmioMapBase + p) 3 e →
      e = mmioEntry feat p) : Repeats L feat s pa bytes := by
  have hsat := mapMmio_mapped H.inv.window.shape (H.admitted hpos hsub)
    (fun p hp => (H.granted p (hsub hp)).2)
  cases hrun : (mapMmio L feat pa bytes).run s with
  | ok v s' =>
    obtain ⟨rfl, rfl, -⟩ := hsat.of_ok hrun
    exact ⟨s', hrun, fun _ => rfl⟩
  | err er s' =>
    obtain ⟨-, -, p, hp, e, hm, hne⟩ := hsat.of_err hrun
    exact absurd (hleaf p hp e hm) hne
  | halt f => exact absurd hrun (hsat.ne_halt f)

theorem ObservedInv.repeats_iff (H : ObservedInv L feat k₀ LeafOf G s)
    (hsub : pagesOf pa bytes ⊆ G) :
    Repeats L feat s pa bytes ↔ 0 < bytes ∧ UnmarkedPages L feat s.kernel pa bytes := by
  constructor
  · rintro ⟨s', hrun, -⟩
    have hpos : 0 < bytes :=
      ((mapMmio_grown H.inv.window.shape H.identity.flat pa bytes).of_ok hrun).1.1
    have hadm := H.admitted hpos hsub
    obtain ⟨-, -, hleaves⟩ := (mapMmio_mapped H.inv.window.shape hadm
      (fun p hp => (H.granted p (hsub hp)).2)).of_ok hrun
    refine ⟨hpos, fun p hp d e hm => ?_⟩
    obtain ⟨rfl, rfl⟩ := hm.unique (hleaves p hp)
    exact marks_mmioEntry feat p
  · rintro ⟨hpos, hclean⟩
    refine H.repeats hpos hsub (fun p hp e hm => ?_)
    have hlt := (H.granted p (hsub hp)).1
    exact (eq_mmioEntry_iff (H.identity p hlt 3 e hm).2).mpr (hclean p hp 3 e hm)

/-- The processor does not mark leaves of the window of device memory. -/
def SparesMmio (L : Layout) (feat : Features) (k k' : Kernel) : Prop :=
  ∀ p < mmioMapSize, ∀ d e, (kernelSpace L feat).Maps k' (mmioMapBase + p) d e →
    (kernelSpace L feat).Maps k (mmioMapBase + p) d e

/-- **A request for pages that are mapped already is granted again exactly when the processor has
not marked them.**  In every state that calls and marks of the processor reach once the address
space has been set up, a request whose pages successful requests have covered returns its address
and leaves every translation as it is if and only if it is not empty and no leaf of its pages is
marked.  So in runs in which the processor marks no leaf of the window, every such request that
is not empty is granted again. -/
theorem map_mmio_repeats_iff (h₀ : Booted L feat boot k₀) :
    (∀ G s, Observed L feat (fun _ _ => True) ⟨k₀, .empty⟩ G s → ∀ pa bytes, pagesOf pa bytes ⊆ G →
      (Repeats L feat s pa bytes ↔ 0 < bytes ∧ UnmarkedPages L feat s.kernel pa bytes)) ∧
    ∀ G s, Observed L feat (SparesMmio L feat) ⟨k₀, .empty⟩ G s → ∀ pa bytes, 0 < bytes →
      pagesOf pa bytes ⊆ G → Repeats L feat s pa bytes := by
  constructor
  · intro G s h pa bytes hsub
    have H : ObservedInv L feat k₀ LeafOf G s :=
      h.inv h₀.ready (leafOf_mmioEntry feat) (fun _ _ hm _ hid => hid.marked hm)
    exact H.repeats_iff hsub
  · intro G s h pa bytes hpos hsub
    have H : ObservedInv L feat k₀ (· = ·) G s :=
      h.inv h₀.ready (fun _ => rfl) (fun _ _ _ hspares hid p hp d e hm =>
        hid p hp d e (hspares p hp d e hm))
    exact H.repeats hpos hsub (fun p hp e hm => (H.identity p (H.granted p (hsub hp)).1 3 e hm).2)

/-! ## The local interrupt controller of the small machine -/

/-- The small machine can map the page of its local interrupt controller. -/
theorem exists_mapMmio_small : ∃ k s, Booted smallLayout ⟨true, true, false⟩ Pmm.smallBoot k ∧
    (mapMmio smallLayout ⟨true, true, false⟩ 0xfee00000 0x1000).run ⟨k, .empty⟩
      = .ok (mmioMapBase + 0xfee00000) s := by
  obtain ⟨k, hk, hspare, -⟩ := exists_booted_small
  have H := inv_start hk.ready
  have hid : Identity smallLayout ⟨true, true, false⟩ (· = ·) k := identity_of_ready hk.ready
  have hadm : Admitted 0xfee00000 0x1000 := ⟨by decide, by decide⟩
  have hsat := mapMmio_grown H.window.shape hid.flat 0xfee00000 0x1000
  cases hrun : (mapMmio smallLayout ⟨true, true, false⟩ 0xfee00000 0x1000).run ⟨k, .empty⟩ with
  | ok v s =>
    obtain ⟨-, rfl, -⟩ := hsat.of_ok hrun
    exact ⟨k, s, hk, hrun⟩
  | err er s =>
    rcases hsat.of_err hrun with ⟨hnot, -⟩ | ⟨-, -, ⟨-, hfew⟩ | ⟨-, p, hp, e, hm, hne⟩⟩
    · exact absurd hadm hnot
    · exact absurd (hspare.mono (by decide)) hfew
    · exact absurd (hid p (lt_of_mem_pagesOf hadm hp) 3 e hm).2 hne
  | halt f => exact absurd hrun (hsat.ne_halt f)

theorem map_mmio_repeats_iff_small : ∃ k s, Booted smallLayout ⟨true, true, false⟩ Pmm.smallBoot k ∧
    (mapMmio smallLayout ⟨true, true, false⟩ 0xfee00000 0x1000).run ⟨k, .empty⟩
      = .ok (mmioMapBase + 0xfee00000) s ∧
    Repeats smallLayout ⟨true, true, false⟩ s 0xfee00000 0x1000 := by
  obtain ⟨k, s, hk, hrun⟩ := exists_mapMmio_small
  refine ⟨k, s, hk, hrun, ?_⟩
  exact (map_mmio_repeats_iff hk).2 _ s (.granted .start hrun) 0xfee00000 0x1000 (by decide)
    Set.subset_union_right

/-- The page is mapped, the processor uses it, and the same request ends in a conflict. -/
theorem map_mmio_conflict_after_use : ∃ k s k',
    Booted smallLayout ⟨true, true, false⟩ Pmm.smallBoot k ∧
    (mapMmio smallLayout ⟨true, true, false⟩ 0xfee00000 0x1000).run ⟨k, .empty⟩
      = .ok (mmioMapBase + 0xfee00000) s ∧
    (kernelSpace smallLayout ⟨true, true, false⟩).Marks s.kernel k' ∧
    Observed smallLayout ⟨true, true, false⟩ (fun _ _ => True) ⟨k, .empty⟩
      (∅ ∪ pagesOf 0xfee00000 0x1000) ⟨k', s.table⟩ ∧
    (mapMmio smallLayout ⟨true, true, false⟩ 0xfee00000 0x1000).run ⟨k', s.table⟩
      = .err .conflict ⟨k', s.table⟩ ∧
    ¬Repeats smallLayout ⟨true, true, false⟩ ⟨k', s.table⟩ 0xfee00000 0x1000 := by
  obtain ⟨k, s, hk, hrun⟩ := exists_mapMmio_small
  have hobs : Observed smallLayout ⟨true, true, false⟩ (fun _ _ => True) ⟨k, .empty⟩
      (∅ ∪ pagesOf 0xfee00000 0x1000) s := .granted .start hrun
  have H : ObservedInv smallLayout ⟨true, true, false⟩ k LeafOf _ s :=
    hobs.inv hk.ready (leafOf_mmioEntry _) (fun _ _ hm _ hid => hid.marked hm)
  have hpage : 0xfee00000 ∈ pagesOf 0xfee00000 0x1000 := ⟨0xfee00000, by decide, by decide, rfl⟩
  obtain ⟨-, e, hm⟩ := H.granted _ (Or.inr hpage)
  -- the processor uses the page
  obtain ⟨k', hmarks, hm'⟩ := hm.exists_accessed H.inv.window.shape
  have H' := H.marked (hmarks.marked H.inv.window.shape)
    (H.identity.marked (hmarks.marked H.inv.window.shape))
  have hset : (e ||| accessedBit).getLsbD 5 = true := by
    rw [BitVec.getLsbD_or, (getLsbD_marks (by decide : 5 < 64)).1]
    exact Bool.or_true _
  have hadm : Admitted 0xfee00000 0x1000 := H'.admitted (by decide) Set.subset_union_right
  have hsat := mapMmio_mapped H'.inv.window.shape hadm (fun p hp => (H'.granted p (Or.inr hp)).2)
  have hconflict : (mapMmio smallLayout ⟨true, true, false⟩ 0xfee00000 0x1000).run ⟨k', s.table⟩
      = .err .conflict ⟨k', s.table⟩ := by
    cases hagain : (mapMmio smallLayout ⟨true, true, false⟩ 0xfee00000 0x1000).run
      ⟨k', s.table⟩ with
    | ok v s' =>
      obtain ⟨-, -, hleaves⟩ := hsat.of_ok hagain
      rw [(hm'.unique (hleaves _ hpage)).2, (marks_mmioEntry _ _).1] at hset
      cases hset
    | err er s' =>
      obtain ⟨rfl, rfl, -⟩ := hsat.of_err hagain
      rfl
    | halt f => exact absurd hagain (hsat.ne_halt f)
  refine ⟨k, s, k', hk, hrun, hmarks, .marked hobs hmarks trivial, hconflict, ?_⟩
  rintro ⟨s', hagain, -⟩
  rw [hconflict] at hagain
  cases hagain

end Vmm

end DoomOs
