/-
# Backing a range and releasing it

The loops of the virtual memory manager, page by page.  What is done to one page is one of
three steps (`PageMapped`, `PageRefused`, `PageGone`), and a loop is known by the steps it
makes: `release` removes the pages of a mapped range and never finds one missing; `back`
maps them all or, where a page is refused, removes those it has mapped.  Protecting mapped
pages always succeeds.  None of them halts.

Each step is one of the transitions of `Window`, and none changes anything below another
entry of the root (`Since`).
-/
import DoomOs.RadixTidy
import DoomOs.VmmWindow

namespace DoomOs

open Comp Paging RadixFormat Mmu

namespace Vmm

variable {L : Layout} {feat : Features} {b s₀ s s' : Kernel} {live held : Set ℕ}
  {va f base length n d : ℕ} {e : Entry} {m : Mapping} {p : PageProt}

/-! ## The window, and the rest of the address space -/

/-- The window since `s₀`, while everything below other entries of the root is as it was
in `b`. -/
structure Since (L : Layout) (feat : Features) (b s₀ : Kernel) (live held : Set ℕ) (s : Kernel) :
    Prop where
  here : Window L feat s₀ live held s
  elsewhere : (kernelSpace L feat).Untouched (· = 384) b s

theorem Window.since (H : Window L feat s₀ live held s) : Since L feat s s₀ live held s :=
  ⟨H, .refl s⟩

/-- Taking a frame or giving one back does not touch the tables. -/
theorem tableOn_of_mem (hmem : s'.mem = s.mem) (y k : ℕ) :
    (kernelSpace L feat).tableOn s' y k = (kernelSpace L feat).tableOn s y k := by
  apply RadixTree.tableOn_of_read_eq
  intro _ _ c _ i
  exact congrFun (congrFun hmem c) i

theorem maps_of_mem (hmem : s'.mem = s.mem) (y k : ℕ) (e : Entry) :
    (kernelSpace L feat).Maps s' y k e ↔ (kernelSpace L feat).Maps s y k e := by
  apply RadixTree.maps_of_read_eq
  intro _ _ c _ i
  exact congrFun (congrFun hmem c) i

theorem untouched_of_mem {P : ℕ → Prop} (hmem : s'.mem = s.mem) :
    (kernelSpace L feat).Untouched P s s' :=
  ⟨fun y _ k => tableOn_of_mem hmem y k, fun y _ k e => maps_of_mem hmem y k e⟩

namespace Since

theorem take (H : Since L feat b s₀ live held s) (hheld : held = ∅) (ht : Kernel.Takes f s s') :
    Since L feat b s₀ live {f} s' :=
  ⟨H.here.take hheld ht, H.elsewhere.trans (untouched_of_mem ht.mem)⟩

theorem give (H : Since L feat b s₀ live {f} s) (hg : Kernel.Gives f s s') :
    Since L feat b s₀ live ∅ s' :=
  ⟨H.here.give hg, H.elsewhere.trans (untouched_of_mem hg.mem)⟩

theorem extend (H : Since L feat b s₀ live held s) (hva : va ∈ window)
    (hgrow : (kernelSpace L feat).Extends (kernelSpec L.image) va s s') :
    Since L feat b s₀ live held s' :=
  ⟨H.here.extend hgrow, H.elsewhere.trans (hgrow.untouched (index_window hva))⟩

theorem reprotect (H : Since L feat b s₀ live held s)
    (hput : (kernelSpace L feat).Puts (kernelSpec L.image) va 3 e s s') (hva : va ∈ window)
    (hp : present e = true) (hf : Backs L feat s va (address e)) : Since L feat b s₀ live held s' :=
  ⟨H.here.reprotect hput hva hp hf, H.elsewhere.trans (hput.untouched (index_window hva))⟩

theorem mapPage (H : Since L feat b s₀ live {f} s) (hva : va ∈ window) (hal : va % 4096 = 0)
    (hnew : va ∉ live) (hput : (kernelSpace L feat).Puts (kernelSpec L.image) va 3 e s s')
    (hp : present e = true) (hf : address e = f) :
    Since L feat b s₀ (live ∪ bytesAt va 4096) ∅ s' :=
  ⟨H.here.mapPage hva hal hnew hput hp hf,
    H.elsewhere.trans (hput.untouched (index_window hva))⟩

theorem removePage (H : Since L feat b s₀ live ∅ s) (hva : va ∈ window) (hal : va % 4096 = 0)
    (hrem : (kernelSpace L feat).Removes (kernelSpec L.image) va m s s' d e) :
    m.size = .size4K ∧ Since L feat b s₀ (live \ bytesAt va 4096) {m.frame} s' := by
  obtain ⟨hsize, H'⟩ := H.here.removePage hva hal hrem
  exact ⟨hsize, H', H.elsewhere.trans (hrem.untouched (index_window hva))⟩

end Since

/-! ## One page -/

/-- A frame was taken and mapped at `va`, with the tables that were missing. -/
def PageMapped (L : Layout) (feat : Features) (p : PageProt) (va : ℕ) (s s' : Kernel) : Prop :=
  ∃ f s₁ s₂, Kernel.Takes f s s₁ ∧
    (kernelSpace L feat).Grows (kernelSpec L.image) va 3 s₁ s₂ ∧
    (kernelSpace L feat).missing s₂ va 3 = 0 ∧
    (kernelSpace L feat).Extends (kernelSpec L.image) va s₁ s₂ ∧
    (kernelSpace L feat).Puts (kernelSpec L.image) va 3 (leafEntry feat f .size4K p) s₂ s'

/-- No frame was free for the page at `va`; or one was taken and given back, because the
frames ran out on the way to the page. -/
def PageRefused (L : Layout) (feat : Features) (va : ℕ) (s s' : Kernel) : Prop :=
  (s' = s ∧ s.avail = ∅) ∨
  ∃ f s₁ s₂, Kernel.Takes f s s₁ ∧
    (kernelSpace L feat).Grows (kernelSpec L.image) va 3 s₁ s₂ ∧ s₂.avail = ∅ ∧
    0 < (kernelSpace L feat).missing s₂ va 3 ∧
    (kernelSpace L feat).Extends (kernelSpec L.image) va s₁ s₂ ∧ Kernel.Gives f s₂ s'

/-- The page at `va` was removed, with the tables that it left empty, and its frame given
back. -/
def PageGone (L : Layout) (feat : Features) (va : ℕ) (s s' : Kernel) : Prop :=
  ∃ m e s₁, (kernelSpace L feat).Removes (kernelSpec L.image) va m s s₁ 3 e ∧
    (kernelSpace L feat).Cut va s s₁ ∧
    ((kernelSpace L feat).Tidy (· = 384) s → (kernelSpace L feat).Tidy (· = 384) s₁) ∧
    Kernel.Gives m.frame s₁ s'

namespace Since

/-- The frame in hand is the one that its leaf maps. -/
theorem address_held (H : Since L feat b s₀ live {f} s) (p : PageProt) :
    address (leafEntry feat f .size4K p) = f := by
  obtain ⟨hal, hlt, -⟩ := H.here.frame_of_held (Set.mem_singleton f)
  simp only [maxFrames] at hlt
  rw [address_leafEntry, mod_two_pow_52 hal (by omega)]

theorem pageMapped (H : Since L feat b s₀ live ∅ s) (hva : va ∈ window) (hal : va % 4096 = 0)
    (hnew : va ∉ live) (h : PageMapped L feat p va s s') :
    Since L feat b s₀ (live ∪ bytesAt va 4096) ∅ s' := by
  obtain ⟨f, s₁, s₂, htake, -, -, hgrow, hput⟩ := h
  have H₂ := (H.take rfl htake).extend hva hgrow
  exact H₂.mapPage hva hal hnew hput (present_leafEntry _ _ _ _) (H₂.address_held p)

theorem pageRefused (H : Since L feat b s₀ live ∅ s) (hva : va ∈ window)
    (h : PageRefused L feat va s s') : Since L feat b s₀ live ∅ s' := by
  rcases h with ⟨rfl, -⟩ | ⟨f, s₁, s₂, htake, -, -, -, hgrow, hgive⟩
  · exact H
  · exact ((H.take rfl htake).extend hva hgrow).give hgive

theorem pageGone (H : Since L feat b s₀ live ∅ s) (hva : va ∈ window) (hal : va % 4096 = 0)
    (h : PageGone L feat va s s') : Since L feat b s₀ (live \ bytesAt va 4096) ∅ s' := by
  obtain ⟨m, e, s₁, hrem, -, -, hgive⟩ := h
  exact (H.removePage hva hal hrem).2.give hgive

end Since

/-! ## A range of pages -/

/-- The pages from `base` on were mapped, `n` of them. -/
def PagesMapped (L : Layout) (feat : Features) (p : PageProt) (base : ℕ) :
    Kernel → ℕ → Kernel → Prop :=
  Steps fun i => PageMapped L feat p (base + i * 4096)

/-- The pages from `base` on were removed, `n` of them. -/
def PagesGone (L : Layout) (feat : Features) (base : ℕ) : Kernel → ℕ → Kernel → Prop :=
  Steps fun i => PageGone L feat (base + i * 4096)

/-- Of `n` pages from `base` on one was refused, and those before it were mapped and
removed again. -/
def Unwound (L : Layout) (feat : Features) (p : PageProt) (base : ℕ) (s : Kernel) (n : ℕ)
    (s' : Kernel) : Prop :=
  ∃ k s₁ s₂, k < n ∧ PagesMapped L feat p base s k s₁ ∧
    PageRefused L feat (base + k * 4096) s₁ s₂ ∧ PagesGone L feat base s₂ k s'

theorem bytesAt_zero (base : ℕ) : bytesAt base 0 = ∅ := by
  ext x
  simp only [bytesAt, Set.mem_ofPred_eq, Set.mem_empty_iff_false, iff_false]
  omega

theorem bytesAt_succ (base i : ℕ) :
    bytesAt base ((i + 1) * 4096) = bytesAt base (i * 4096) ∪ bytesAt (base + i * 4096) 4096 := by
  ext x
  simp only [Set.mem_union, bytesAt, Set.mem_ofPred_eq]
  omega

theorem union_sdiff_of_new {W : Set ℕ} (hnew : ∀ x ∈ W, x ∉ live) : (live ∪ W) \ W = live := by
  rw [Set.union_sdiff_right]
  exact sdiff_eq_left.mpr (Set.disjoint_right.mpr hnew)

theorem bytesAt_mono (base : ℕ) {i n : ℕ} (h : i ≤ n) :
    bytesAt base (i * 4096) ⊆ bytesAt base (n * 4096) := by
  rintro x ⟨hle, hlt⟩
  exact ⟨hle, hlt.trans_le (Nat.add_le_add_left (Nat.mul_le_mul_right 4096 h) base)⟩

theorem page_mem_bytesAt (base : ℕ) {i n : ℕ} (h : i < n) :
    base + i * 4096 ∈ bytesAt base (n * 4096) := by
  refine bytesAt_mono base (show i + 1 ≤ n from h) ?_
  rw [bytesAt_succ]
  exact Or.inr ⟨le_rfl, by omega⟩

/-- The pages of a range in the window are in the window. -/
theorem page_mem_window (hbase : base ∈ window) (hend : base + n * 4096 ∈ window) :
    ∀ i < n, base + i * 4096 ∈ window := by
  intro i hi
  obtain ⟨hle, hlt⟩ := page_mem_bytesAt base hi
  exact ⟨hbase.1.trans hle, hlt.trans hend.2⟩

namespace Since

section Pages

variable (hal : base % 4096 = 0) (hwin : ∀ i < n, base + i * 4096 ∈ window)
include hal hwin

theorem pagesMapped (H : Since L feat b s₀ live ∅ s)
    (hnew : ∀ x ∈ bytesAt base (n * 4096), x ∉ live) (h : PagesMapped L feat p base s n s') :
    Since L feat b s₀ (live ∪ bytesAt base (n * 4096)) ∅ s' := by
  refine h.inv (I := fun i s₁ => Since L feat b s₀ (live ∪ bytesAt base (i * 4096)) ∅ s₁) ?_
    (fun i s₁ s₂ hi _ H₁ hpage => ?_)
  · rw [Nat.zero_mul, bytesAt_zero, Set.union_empty]
    exact H
  · rw [bytesAt_succ, ← Set.union_assoc]
    refine H₁.pageMapped (hwin i hi) (by omega) ?_ hpage
    rintro (hlive | hdone)
    · exact hnew _ (page_mem_bytesAt base hi) hlive
    · have := hdone.2
      omega

theorem pagesGone (H : Since L feat b s₀ live ∅ s) (h : PagesGone L feat base s n s') :
    Since L feat b s₀ (live \ bytesAt base (n * 4096)) ∅ s' := by
  refine h.inv (I := fun i s₁ => Since L feat b s₀ (live \ bytesAt base (i * 4096)) ∅ s₁) ?_
    (fun i s₁ s₂ hi _ H₁ hpage => ?_)
  · rw [Nat.zero_mul, bytesAt_zero, Set.sdiff_empty]
    exact H
  · rw [bytesAt_succ, ← Set.sdiff_sdiff]
    exact H₁.pageGone (hwin i hi) (by omega) hpage

/-- Mapping, being refused and removing leaves the window as it was. -/
theorem unwound (H : Since L feat b s₀ live ∅ s)
    (hnew : ∀ x ∈ bytesAt base (n * 4096), x ∉ live) (h : Unwound L feat p base s n s') :
    Since L feat b s₀ live ∅ s' := by
  obtain ⟨k, s₁, s₂, hk, hmapped, hrefused, hgone⟩ := h
  have hwin' : ∀ i < k, base + i * 4096 ∈ window := fun i hi => hwin i (by omega)
  have hnew' : ∀ x ∈ bytesAt base (k * 4096), x ∉ live := fun x hx =>
    hnew x (bytesAt_mono base hk.le hx)
  have H₁ := H.pagesMapped hal hwin' hnew' hmapped
  have H₂ := (H₁.pageRefused (hwin k hk) hrefused).pagesGone hal hwin' hgone
  rw [union_sdiff_of_new hnew'] at H₂
  exact H₂

end Pages

end Since

/-! ## Releasing -/

/-- Giving back the frame in hand does not panic. -/
theorem free_sat (H : Since L feat b s₀ live {f} s) :
    ((Kernel.inPmm (Pmm.free .size4K f)).run s).Sat (fun _ s' => Kernel.Gives f s s')
      (fun _ _ => False) := by
  obtain ⟨hal, hlt, himg⟩ := H.here.frame_of_held (Set.mem_singleton f)
  have hnot : f ∉ owned L feat s := fun hf =>
    Set.disjoint_left.mp H.here.held_disjoint hf (Set.mem_singleton f)
  exact Kernel.freeFrame_sat H.here.shape.good hal hlt (not_used himg hnot).1

/-- One iteration of the loop of `release`. -/
theorem removeLeaf_free_sat (H : Since L feat b s₀ live ∅ s) (hva : va ∈ window)
    (hal : va % 4096 = 0) (hlive : va ∈ live) :
    (((kernelSpace L feat).removeLeaf va >>= fun m =>
      freeRemoved m >>= fun _ => pure m).run s).Sat
      (fun m s' => m.size = .size4K ∧ PageGone L feat va s s') (fun _ _ => False) := by
  have hcut := RadixTree.removeLeaf_cut H.here.shape va
  have htidy : (((kernelSpace L feat).removeLeaf va).run s).Sat
      (fun _ s' => (kernelSpace L feat).Tidy (· = 384) s → (kernelSpace L feat).Tidy (· = 384) s')
      (fun _ _ => True) := by
    by_cases ht : (kernelSpace L feat).Tidy (· = 384) s
    · exact (RadixTree.removeLeaf_tidy H.here.shape ht va).mono (fun _ _ h _ => h)
        (fun _ _ _ => trivial)
    · exact hcut.mono (fun _ _ _ h => absurd h ht) (fun _ _ _ => trivial)
  rw [sat_bind]
  refine (((RadixTree.removeLeaf_sat H.here.shape va).and hcut).and htidy).mono
    (fun m s₁ h₁ => ?_) (fun _ s₁ h₁ => ?_)
  · obtain ⟨⟨⟨-, d, e, hrem⟩, hcut⟩, htidy⟩ := h₁
    obtain rfl : d = 3 := H.here.depth va hva d e hrem.was
    obtain ⟨hsize, H₁⟩ := H.removePage hva hal hrem
    rw [sat_bind, freeRemoved, hsize]
    exact (free_sat H₁).mono (fun _ _ h => ⟨hsize, m, e, s₁, hrem, hcut, htidy, h⟩)
      (fun _ _ h => h)
  · -- an address that is live is mapped
    obtain ⟨f, e, hm, -⟩ := (H.here.mapped va hva).mp hlive
    exact h₁.1.1.2 (valid_window hva) 3 e hm

theorem unmapFrom_free_sat (H : Since L feat b s₀ live ∅ s) (hal : base % 4096 = 0)
    (hwin : ∀ i < n, base + i * 4096 ∈ window) (hlive : ∀ x ∈ bytesAt base (n * 4096), x ∈ live)
    (hend : n * 4096 < 2 ^ 64) :
    ∀ (fuel i : ℕ) (s₁ : Kernel), PagesGone L feat base s i s₁ → i ≤ n → n < i + fuel →
      (((kernelSpace L feat).unmapFrom base (n * 4096) freeRemoved fuel (i * 4096)).run s₁).Sat
        (fun _ s' => PagesGone L feat base s n s') (fun _ _ => False) := by
  intro fuel
  induction fuel with
  | zero =>
    intro i s₁ _ hi hfuel
    omega
  | succ fuel ih =>
    intro i s₁ hgone hle hfuel
    rw [RadixTree.unmapFrom]
    by_cases hlt : i * 4096 < n * 4096
    swap
    · obtain rfl : i = n := by omega
      rw [if_neg hlt]
      exact hgone
    have hin : i < n := by omega
    have hfit : (i + 1) * 4096 ≤ n * 4096 := Nat.mul_le_mul_right 4096 hin
    have H₁ := H.pagesGone hal (fun j hj => hwin j (by omega)) hgone
    have hva := hwin i hin
    have hlast := lt_of_mem_window hva
    rw [if_pos hlt, u64_of_lt (by omega)]
    have hstep := removeLeaf_free_sat H₁ hva (by omega)
      ⟨hlive _ (page_mem_bytesAt base hin), fun h => by have := h.2; omega⟩
    rw [sat_bind] at hstep ⊢
    refine hstep.mono (fun m s₂ h₂ => ?_) (fun _ _ h => h)
    rw [sat_bind] at h₂ ⊢
    refine h₂.mono (fun _ s₃ h₃ => ?_) (fun _ _ h => h)
    obtain ⟨hsize, hpage⟩ := h₃
    have hnext : i * 4096 + 4096 = (i + 1) * 4096 := by omega
    rw [hsize, PageSize.bytesIn_size4K, hnext, u64_of_lt (hfit.trans_lt hend)]
    exact ih (i + 1) s₃ (hgone.next hpage) (by omega) (by omega)

/-- The part of `unmap_range` before its loop has nothing to do in the window. -/
theorem unmapPrepare_window (H : Since L feat b s₀ live ∅ s) (hbase : base ∈ window)
    (hend : base + length ∈ window) (hal : base % 4096 = 0) (hlen : length % 4096 = 0)
    (hpos : 0 < length) :
    (((kernelSpace L feat).unmapPrepare base length .size4K).run s).Sat (fun _ s' => s' = s)
      (fun _ _ => False) := by
  have hlt := lt_of_mem_window hend
  have hlast : base + length - 1 ∈ window := ⟨by have := hbase.1; omega, by have := hend.2; omega⟩
  -- all leaves of the window are at depth 3
  have hsplit : ∀ x ∈ window, (kernelSpace L feat).SplitAt s x 3 := fun x hx k e hm =>
    Or.inl (H.here.depth x hx k e hm).ge
  exact RadixTree.unmapPrepare_still H.here.shape (valid_window hbase) hal hpos hlen (by omega)
    (by omega) (valid_window hlast) (hsplit _ hbase) (hsplit _ hend)

/-- **`release` never panics**, and removes all pages of its range. -/
theorem release_sat (H : Since L feat b s₀ live ∅ s) (hbase : base ∈ window)
    (hend : base + n * 4096 ∈ window) (hal : base % 4096 = 0)
    (hlive : ∀ x ∈ bytesAt base (n * 4096), x ∈ live) :
    ((release L feat base (n * 4096)).run s).Sat (fun _ s' => PagesGone L feat base s n s')
      (fun _ _ => False) := by
  have hlast := lt_of_mem_window hend
  rw [release]
  by_cases h0 : n * 4096 = 0
  · obtain rfl : n = 0 := by omega
    rw [if_pos h0]
    exact .none
  rw [if_neg h0, sat_bind, sat_attempt, RadixTree.unmapRange, sat_bind]
  refine (unmapPrepare_window H hbase hend hal (by omega) (by omega)).mono (fun _ s₁ h₁ => ?_)
    (fun _ _ h => h.elim)
  rw [h₁, Nat.mul_div_cancel n (show 0 < 4096 by norm_num)]
  have hloop := unmapFrom_free_sat H hal (page_mem_window hbase hend) hlive (by omega) (n + 1) 0 s
    .none (Nat.zero_le n) (by omega)
  exact hloop.mono (fun _ _ h => h) (fun _ _ h => h.elim)

/-! ## Backing -/

/-- Mapping the frame in hand at a page that is not mapped fails for lack of tables only. -/
theorem mapPage_sat (H : Since L feat b s₀ live {f} s) (hva : va ∈ window) (hal : va % 4096 = 0)
    (hnew : va ∉ live) (p : PageProt) :
    (((kernelSpace L feat).mapRange va f frameSize .size4K p).run s).Sat
      (fun _ s' => ∃ s₁, (kernelSpace L feat).Grows (kernelSpec L.image) va 3 s s₁ ∧
        (kernelSpace L feat).missing s₁ va 3 = 0 ∧
        (kernelSpace L feat).Extends (kernelSpec L.image) va s s₁ ∧
        (kernelSpace L feat).Puts (kernelSpec L.image) va 3 (leafEntry feat f .size4K p) s₁ s')
      (fun _ s' => (kernelSpace L feat).Grows (kernelSpec L.image) va 3 s s' ∧ s'.avail = ∅ ∧
        0 < (kernelSpace L feat).missing s' va 3 ∧
        (kernelSpace L feat).Extends (kernelSpec L.image) va s s') := by
  obtain ⟨hfal, hflt, -⟩ := H.here.frame_of_held (Set.mem_singleton f)
  simp only [maxFrames] at hflt
  have hend := lt_of_mem_window hva
  have hsingle := (kernelSpace L feat).mapRange_single va f .size4K p s
  rw [u64_of_lt (by omega : va < 2 ^ 64), u64_of_lt (by omega : f < 2 ^ 64)] at hsingle
  refine Eq.mpr (congrArg (fun o => Outcome.Sat o _ _) hsingle) ?_
  -- nothing maps the page, also not after the walk
  have hno : ∀ s₁ k e, (kernelSpace L feat).Extends (kernelSpec L.image) va s s₁ →
      ¬(kernelSpace L feat).Maps s₁ va k e := fun s₁ k e hgrow hm =>
    hnew ((H.extend hva hgrow).here.mapped_of_maps hva hm)
  refine (RadixTree.mapLeaf_grows (kernelSpec_failsWhenEmpty _) (kernelSpec_finiteAvail _)
    H.here.shape va f .size4K p).mono (fun _ s' h => ?_) (fun _ s' h => ?_)
  · obtain ⟨-, -, -, s₁, ⟨hgrows, hzero⟩, hgrow, ⟨-, hm⟩ | ⟨-, hput⟩⟩ := h
    · exact absurd hm (hno s₁ _ _ hgrow)
    · exact ⟨s₁, hgrows, hzero, hgrow, hput⟩
  · rcases h with ⟨-, hbad⟩ | ⟨⟨-, hgrows, hempty, hmissing⟩, hgrow⟩ | ⟨-, -, hgrow, e, hs, hp, -⟩
    · exact absurd ⟨valid_window hva, hal, hfal⟩ hbad
    · exact ⟨hgrows, hempty, hmissing, hgrow⟩
    · exact absurd ⟨hs, hp, rfl⟩ (hno s' 3 e hgrow)

/-- One iteration of the loop of `back`, after `i` pages. -/
theorem backPage_sat {i : ℕ} (H : Since L feat b s₀ (live ∪ bytesAt base (i * 4096)) ∅ s)
    (hbase : base ∈ window) (hend : base + i * 4096 ∈ window) (hal : base % 4096 = 0)
    (hnew : ∀ x ∈ bytesAt base ((i + 1) * 4096), x ∉ live) (p : PageProt) :
    ((backPage L feat base (i * 4096) p).run s).Sat
      (fun _ s' => PageMapped L feat p (base + i * 4096) s s')
      (fun _ s' => ∃ s₁, PageRefused L feat (base + i * 4096) s s₁ ∧
        PagesGone L feat base s₁ i s') := by
  have hfresh : base + i * 4096 ∉ live ∪ bytesAt base (i * 4096) := by
    rintro (h | h)
    · exact hnew _ (page_mem_bytesAt base (Nat.lt_succ_self i)) h
    · have := h.2
      omega
  have hlt := lt_of_mem_window hend
  -- whatever the reason, what has been mapped so far is released
  have hunwind : ∀ er s₁, PageRefused L feat (base + i * 4096) s s₁ →
      ((release L feat base (i * 4096) >>= fun _ =>
        (fail er : Comp Fault MmError Kernel Unit)).run s₁).Sat (fun _ _ => False)
        (fun _ s' => ∃ s₁, PageRefused L feat (base + i * 4096) s s₁ ∧
          PagesGone L feat base s₁ i s') := by
    intro er s₁ hrefused
    rw [sat_bind]
    exact (release_sat (H.pageRefused hend hrefused) hbase hend hal (fun x hx => Or.inr hx)).mono
      (fun _ s' h => ⟨s₁, hrefused, h⟩) (fun _ _ h => h.elim)
  rw [backPage, sat_bind, sat_attempt]
  refine (Kernel.allocFrame_sat H.here.shape.good).mono (fun f s₁ htake => ?_) (fun er s₁ h₁ => ?_)
  · have H₁ := H.take rfl htake
    dsimp only
    rw [sat_bind, sat_attempt, u64_of_lt (by omega)]
    refine (mapPage_sat H₁ hend (by omega) hfresh p).mono (fun _ s' h => ?_) (fun er s₂ h => ?_)
    · obtain ⟨s₂, h⟩ := h
      exact ⟨f, s₁, s₂, htake, h⟩
    · obtain ⟨hgrows, hempty, hmissing, hgrow⟩ := h
      dsimp only
      rw [sat_bind]
      refine (free_sat (H₁.extend hend hgrow)).mono (fun _ s₃ hgive => ?_) (fun _ _ h => h.elim)
      exact (hunwind er s₃ (Or.inr ⟨f, s₁, s₂, htake, hgrows, hempty, hmissing, hgrow, hgive⟩)).mono
        (fun _ _ h => h.elim) (fun _ _ h => h)
  · exact (hunwind er s₁ (Or.inl ⟨h₁.1, h₁.2.2⟩)).mono (fun _ _ h => h.elim) (fun _ _ h => h)

/-- **`back` maps the whole range or unwinds.** -/
theorem back_sat (H : Since L feat b s₀ live ∅ s) (hbase : base ∈ window)
    (hend : base + n * 4096 ∈ window) (hal : base % 4096 = 0)
    (hnew : ∀ x ∈ bytesAt base (n * 4096), x ∉ live) (p : PageProt) :
    ((back L feat base (n * 4096) p).run s).Sat (fun _ s' => PagesMapped L feat p base s n s')
      (fun _ s' => Unwound L feat p base s n s') := by
  have hwin := page_mem_window hbase hend
  have hcount : (n * 4096 + (frameSize - 1)) / frameSize = n := by
    simp only [frameSize]
    omega
  rw [back, hcount]
  refine sat_forRange (I := fun i s₁ => PagesMapped L feat p base s i s₁) (fun i s₁ hi h₁ => ?_)
    .none
  have hnew' : ∀ j ≤ n, ∀ x ∈ bytesAt base (j * 4096), x ∉ live := fun j hj x hx =>
    hnew x (bytesAt_mono base hj hx)
  have H₁ := H.pagesMapped hal (fun j hj => hwin j (by omega)) (hnew' i (by omega)) h₁
  refine (backPage_sat H₁ hbase (hwin i hi) hal (hnew' (i + 1) hi) p).mono
    (fun _ s₂ h₂ => h₁.next h₂) (fun _ s' h => ?_)
  obtain ⟨s₂, hrefused, hgone⟩ := h
  exact ⟨i, s₁, s₂, hi, h₁, hrefused, hgone⟩

/-! ## Protecting -/

/-- From `s` to `s'` tables were written, and no page that is neither free nor a table. -/
structure WritesTables (L : Layout) (feat : Features) (s s' : Kernel) : Prop where
  owned : owned L feat s' = owned L feat s
  mem : ∀ f, f ∉ L.image.pages → f ∉ Vmm.owned L feat s → ∀ i, s'.mem f i = s.mem f i

/-- **Protecting a mapped page never fails**, and writes a table. -/
theorem protectPage_sat (H : Since L feat b s₀ live ∅ s) (hva : va ∈ window) (hal : va % 4096 = 0)
    (hlive : va ∈ live) (p : PageProt) :
    (((kernelSpace L feat).protectLeaf va .size4K p).run s).Sat
      (fun _ s' => Since L feat b s₀ live ∅ s' ∧ WritesTables L feat s s') (fun _ _ => False) := by
  have hali : va % PageSize.size4K.bytesIn = 0 := by
    rw [PageSize.bytesIn_size4K]
    exact hal
  obtain ⟨_, e, hm, -⟩ := (H.here.mapped va hva).mp hlive
  refine ((RadixTree.protectLeaf_sat H.here.shape va .size4K p).and
    (RadixTree.protectLeaf_still H.here.shape (valid_window hva) hali hm p)).mono
    (fun _ s' h => ?_) (fun _ _ h => h.2)
  obtain ⟨⟨-, -, s₁, e', hgrow, hm', hput⟩, t, ht, hwrite⟩ := h
  have haddr : address (leafEntry feat (address e') .size4K p) = address e' := by
    rw [address_leafEntry, mod_two_pow_52 (address_mod e') (address_lt e')]
  refine ⟨(H.extend hva hgrow).reprotect hput hva (present_leafEntry _ _ _ _) ⟨e', hm', haddr.symm⟩,
    hput.owned.trans hgrow.owned, fun f himg hf i => ?_⟩
  rw [hwrite]
  refine store_of_ne ?_
  rintro ⟨rfl, -⟩
  exact (not_used himg hf).2 va _ ht

/-- **Protecting mapped pages never fails.** -/
theorem protectRange_window_sat (H : Since L feat b s₀ live ∅ s) (hal : va % 4096 = 0)
    (hlen : length % 4096 = 0) (hpos : 0 < length) (hwin : ∀ x ∈ bytesAt va length, x ∈ window)
    (hlive : ∀ x ∈ bytesAt va length, x ∈ live) (p : PageProt) :
    (((kernelSpace L feat).protectRange va length .size4K p).run s).Sat
      (fun _ s' => Since L feat b s₀ live ∅ s' ∧ WritesTables L feat s s') (fun _ _ => False) := by
  rw [RadixTree.protectRange]
  refine (RadixTree.sat_forEachLeaf (I := fun _ s' => Since L feat b s₀ live ∅ s' ∧
    WritesTables L feat s s') ⟨H, rfl, fun _ _ _ _ => rfl⟩ (fun hbad => ?_)
    (fun i s₁ hi h₁ => ?_)).mono (fun _ _ h => h.2) (fun _ _ h => h)
  · rw [RadixTree.leafSize_size4K, PageSize.bytesIn_size4K] at hbad
    omega
  rw [RadixTree.leafSize_size4K, PageSize.bytesIn_size4K] at hi ⊢
  obtain ⟨H₁, hwrites⟩ := h₁
  have hin : va + i * 4096 ∈ bytesAt va length := ⟨by omega, by omega⟩
  have hva := hwin _ hin
  have hlt := lt_of_mem_window hva
  rw [u64_of_lt (by omega)]
  refine (protectPage_sat H₁ hva (by omega) (hlive _ hin) p).mono (fun _ s₂ h₂ => ?_)
    (fun _ _ h => h)
  obtain ⟨H₂, hnext⟩ := h₂
  refine ⟨H₂, hnext.owned.trans hwrites.owned, fun f himg hf j => ?_⟩
  rw [hnext.mem f himg (hwrites.owned ▸ hf), hwrites.mem f himg hf]

end Vmm

end DoomOs
