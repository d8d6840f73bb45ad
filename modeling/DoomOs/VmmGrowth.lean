/-
# The tables of a range

The steps that are made for the pages of a range, counted in tables.

* Mapping pages adds the tables that their ways are missing, each of them once, and takes a
  frame for each page and each table (`PagesMapped.added`).
* Removing pages takes tables off their ways only (`PagesGone.takenOff`).
-/
import DoomOs.VmmBacking

namespace DoomOs

open Comp Paging RadixFormat Mmu

namespace Vmm

variable {L : Layout} {feat : Features} {s s' : Kernel} {x y va base n k t : ℕ} {p : PageProt}

/-! ## Missing tables -/

/-- How many tables the first `n` pages from `base` on are missing.  A table that several of
them meet counts for the first. -/
def missingTables (L : Layout) (feat : Features) (s : Kernel) (base n : ℕ) : ℕ :=
  ∑ i ∈ Finset.range n, ((Finset.range 3).filter fun d =>
    (kernelSpace L feat).tableOn s (base + i * 4096) (d + 1) = none ∧
      ∀ j < i, ¬format.Agree (d + 1) (base + j * 4096) (base + i * 4096)).card

theorem missingTables_mono (L : Layout) (feat : Features) (s : Kernel) (base : ℕ) {i j : ℕ}
    (h : i ≤ j) :
    missingTables L feat s base i ≤ missingTables L feat s base j :=
  Finset.sum_le_sum_of_subset (Finset.range_subset_range.mpr h)

theorem missingTables_le (L : Layout) (feat : Features) (s : Kernel) (base n : ℕ) :
    missingTables L feat s base n ≤ 3 * n := by
  have hsum := Finset.sum_le_card_nsmul (Finset.range n) (fun i => ((Finset.range 3).filter fun d =>
    (kernelSpace L feat).tableOn s (base + i * 4096) (d + 1) = none ∧
      ∀ j < i, ¬format.Agree (d + 1) (base + j * 4096) (base + i * 4096)).card) 3
    (fun i _ => (Finset.card_filter_le _ _).trans (Finset.card_range 3).le)
  rw [Finset.card_range, smul_eq_mul, Nat.mul_comm] at hsum
  exact hsum

/-! ## Pages and their tables -/

/-- From `s` to `s'` tables were added on the ways to `n` pages, all that were missing, and a
frame was taken for each page. -/
structure Added (L : Layout) (feat : Features) (base n : ℕ) (s s' : Kernel) : Prop where
  kept : ∀ y k t, (kernelSpace L feat).tableOn s y k = some t →
    (kernelSpace L feat).tableOn s' y k = some t
  fresh : ∀ y k t, (kernelSpace L feat).tableOn s' y k = some t →
    (kernelSpace L feat).tableOn s y k = some t ∨
      (t ∈ s.avail ∧ ∃ i < n, format.Agree k (base + i * 4096) y)
  ways : ∀ i < n, ∃ t, (kernelSpace L feat).tableOn s' (base + i * 4096) 3 = some t
  avail : ∀ t ∈ s'.avail, t ∈ s.avail
  count : s'.avail.ncard + (n + missingTables L feat s base n) = s.avail.ncard

/-- From `s` to `s'` tables were taken off the ways to `n` pages. -/
structure TakenOff (L : Layout) (feat : Features) (base n : ℕ) (s s' : Kernel) : Prop where
  sub : ∀ y k t, (kernelSpace L feat).tableOn s' y k = some t →
    (kernelSpace L feat).tableOn s y k = some t
  lost : ∀ y k t, (kernelSpace L feat).tableOn s y k = some t →
    (kernelSpace L feat).tableOn s' y k = some t ∨ ∃ i < n, format.Agree k (base + i * 4096) y

theorem missing_of_mem (hmem : s'.mem = s.mem) (va D : ℕ) :
    (kernelSpace L feat).missing s' va D = (kernelSpace L feat).missing s va D := by
  simp only [RadixTree.missing, tableOn_of_mem hmem]

namespace PageMapped

variable (h : PageMapped L feat p va s s')
include h

theorem kept (ht : (kernelSpace L feat).tableOn s y k = some t) :
    (kernelSpace L feat).tableOn s' y k = some t := by
  obtain ⟨f, s₁, s₂, htake, -, -, hgrow, hput⟩ := h
  rw [hput.tables]
  apply hgrow.tables
  rw [tableOn_of_mem htake.mem]
  exact ht

theorem fresh (ht : (kernelSpace L feat).tableOn s' y k = some t) :
    (kernelSpace L feat).tableOn s y k = some t ∨ (t ∈ s.avail ∧ format.Agree k va y) := by
  obtain ⟨f, s₁, s₂, htake, hgrows, -, -, hput⟩ := h
  rw [hput.tables] at ht
  rcases hgrows.fresh y k t ht with hold | ⟨ha, -, hav⟩
  · rw [tableOn_of_mem htake.mem] at hold
    exact Or.inl hold
  · have hsub : t ∈ s₁.avail := hav
    rw [htake.avail] at hsub
    exact Or.inr ⟨hsub.1, ha⟩

theorem way : ∃ t, (kernelSpace L feat).tableOn s' va 3 = some t := by
  obtain ⟨f, s₁, s₂, -, -, hzero, -, hput⟩ := h
  obtain ⟨t, ht⟩ := RadixTree.exists_of_missing_eq_zero hzero
  exact ⟨t, (hput.tables va 3).trans ht⟩

theorem avail (ht : t ∈ s'.avail) : t ∈ s.avail := by
  obtain ⟨f, s₁, s₂, htake, hgrows, -, -, hput⟩ := h
  have hav : s'.avail = s₂.avail := hput.avail
  rw [hav] at ht
  have hsub : t ∈ s₁.avail := hgrows.avail t ht
  rw [htake.avail] at hsub
  exact hsub.1

/-- One frame for the page, and one for each table that was missing. -/
theorem count : s'.avail.ncard + (1 + (kernelSpace L feat).missing s va 3) = s.avail.ncard := by
  obtain ⟨f, s₁, s₂, htake, hgrows, hzero, -, hput⟩ := h
  have hav : s'.avail = s₂.avail := hput.avail
  have hcount : s₂.avail.ncard + (kernelSpace L feat).missing s₁ va 3
      = s₁.avail.ncard + (kernelSpace L feat).missing s₂ va 3 := hgrows.count
  have hone := htake.ncard
  rw [missing_of_mem htake.mem, hzero] at hcount
  rw [hav]
  omega

theorem tidy {P : ℕ → Prop} (ht : (kernelSpace L feat).Tidy P s) :
    (kernelSpace L feat).Tidy P s' := by
  obtain ⟨f, s₁, s₂, htake, hgrows, -, hgrow, hput⟩ := h
  have ht₁ : (kernelSpace L feat).Tidy P s₁ :=
    ht.untouched (untouched_of_mem htake.mem) (fun _ _ (hfalse : False) => hfalse)
  exact ht₁.grows_puts hgrow hgrows hput (present_leafEntry _ _ _ _)

end PageMapped

/-- A page is refused when no frame is free, or not enough for the page and its tables. -/
theorem PageRefused.ncard_le (h : PageRefused L feat va s s') :
    s.avail.ncard = 0 ∨ s.avail.ncard ≤ (kernelSpace L feat).missing s va 3 := by
  rcases h with ⟨rfl, hempty⟩ | ⟨f, s₁, s₂, htake, hgrows, hempty, hmissing, -, -⟩
  · rw [hempty]
    exact Or.inl (Set.ncard_empty ℕ)
  · have hcount : s₂.avail.ncard + (kernelSpace L feat).missing s₁ va 3
        = s₁.avail.ncard + (kernelSpace L feat).missing s₂ va 3 := hgrows.count
    have hone := htake.ncard
    rw [hempty, Set.ncard_empty, missing_of_mem htake.mem] at hcount
    exact Or.inr (by omega)

/-- Which tables are missing once some pages have been mapped. -/
theorem Added.tableOn_eq_none (h : Added L feat base n s s') (hk : k ≤ 3) :
    (kernelSpace L feat).tableOn s' y k = none ↔
      (kernelSpace L feat).tableOn s y k = none ∧
        ∀ i < n, ¬format.Agree k (base + i * 4096) y := by
  constructor
  · intro hnone
    refine ⟨?_, fun i hi ha => ?_⟩
    · by_contra hne
      obtain ⟨t, ht⟩ := Option.ne_none_iff_exists'.mp hne
      rw [h.kept y k t ht] at hnone
      cases hnone
    · obtain ⟨t, ht⟩ := h.ways i hi
      obtain ⟨t', ht'⟩ := tableOn_above ht hk
      have hway : (kernelSpace L feat).tableOn s' y k = some t' := (tableOn_congr ha).symm.trans ht'
      rw [hway] at hnone
      cases hnone
  · rintro ⟨hnone, hno⟩
    by_contra hne
    obtain ⟨t, ht⟩ := Option.ne_none_iff_exists'.mp hne
    rcases h.fresh y k t ht with hold | ⟨-, i, hi, ha⟩
    · rw [hold] at hnone
      cases hnone
    · exact hno i hi ha

theorem Added.missingTables_succ (h : Added L feat base n s s') :
    missingTables L feat s base (n + 1)
      = missingTables L feat s base n + (kernelSpace L feat).missing s' (base + n * 4096) 3 := by
  have hfilter : ∀ d ∈ Finset.range 3,
      ((kernelSpace L feat).tableOn s (base + n * 4096) (d + 1) = none ∧
        ∀ j < n, ¬format.Agree (d + 1) (base + j * 4096) (base + n * 4096)) ↔
      (kernelSpace L feat).tableOn s' (base + n * 4096) (d + 1) = none := by
    intro d hd
    rw [h.tableOn_eq_none (show d + 1 ≤ 3 from Finset.mem_range.mp hd)]
  rw [missingTables, Finset.sum_range_succ, RadixTree.missing, Finset.filter_congr hfilter]
  rfl

theorem PagesMapped.added (h : PagesMapped L feat p base s n s') : Added L feat base n s s' := by
  refine h.inv (I := fun i s₁ => Added L feat base i s s₁)
    ⟨fun _ _ _ ht => ht, fun _ _ _ ht => Or.inl ht, fun i hi => absurd hi (Nat.not_lt_zero i),
      fun _ ht => ht, rfl⟩ (fun i s₁ s₂ _ _ hI hpage => ?_)
  refine ⟨fun y k t ht => hpage.kept (hI.kept y k t ht), fun y k t ht => ?_, fun j hj => ?_,
    fun t ht => hI.avail t (hpage.avail ht), ?_⟩
  · rcases hpage.fresh ht with hold | ⟨hav, ha⟩
    · rcases hI.fresh y k t hold with hold' | ⟨hav, j, hj, ha⟩
      · exact Or.inl hold'
      · exact Or.inr ⟨hav, j, by omega, ha⟩
    · exact Or.inr ⟨hI.avail t hav, i, by omega, ha⟩
  · rcases Nat.lt_succ_iff_lt_or_eq.mp hj with hlt | rfl
    · obtain ⟨t, ht⟩ := hI.ways j hlt
      exact ⟨t, hpage.kept ht⟩
    · exact hpage.way
  · have h1 := hI.count
    have h2 := hpage.count
    rw [hI.missingTables_succ]
    omega

theorem PagesMapped.tidy {P : ℕ → Prop} (h : PagesMapped L feat p base s n s')
    (ht : (kernelSpace L feat).Tidy P s) : (kernelSpace L feat).Tidy P s' :=
  h.inv (I := fun _ s₁ => (kernelSpace L feat).Tidy P s₁) ht
    (fun _ _ _ _ _ hI hpage => hpage.tidy hI)

theorem PageGone.takenOff (h : PageGone L feat va s s') : (kernelSpace L feat).Cut va s s' := by
  obtain ⟨m, e, s₁, -, hcut, -, hgive⟩ := h
  refine ⟨fun y k t ht => ?_, fun y k t ht => ?_⟩
  · rw [tableOn_of_mem hgive.mem] at ht
    exact hcut.sub y k t ht
  · rw [tableOn_of_mem hgive.mem]
    exact hcut.lost y k t ht

theorem PagesGone.takenOff (h : PagesGone L feat base s n s') : TakenOff L feat base n s s' := by
  refine h.inv (I := fun i s₁ => TakenOff L feat base i s s₁)
    ⟨fun _ _ _ ht => ht, fun _ _ _ ht => Or.inl ht⟩ (fun i s₁ s₂ _ _ hI hpage => ?_)
  have hcut := hpage.takenOff
  refine ⟨fun y k t ht => hI.sub y k t (hcut.sub y k t ht), fun y k t ht => ?_⟩
  rcases hI.lost y k t ht with ht' | ⟨j, hj, ha⟩
  · rcases hcut.lost y k t ht' with ht'' | ha
    · exact Or.inl ht''
    · exact Or.inr ⟨i, by omega, ha⟩
  · exact Or.inr ⟨j, by omega, ha⟩

theorem PagesGone.tidy (h : PagesGone L feat base s n s')
    (ht : (kernelSpace L feat).Tidy (· = 384) s) : (kernelSpace L feat).Tidy (· = 384) s' := by
  refine h.inv (I := fun _ s₁ => (kernelSpace L feat).Tidy (· = 384) s₁) ht
    (fun _ s₁ s₂ _ _ hI hpage => ?_)
  obtain ⟨m, e, s₃, -, -, htidy, hgive⟩ := hpage
  exact (htidy hI).untouched (untouched_of_mem hgive.mem) (fun _ _ (hfalse : False) => hfalse)

end Vmm

end DoomOs
