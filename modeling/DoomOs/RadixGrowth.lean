/-
# How the tree grows and shrinks

`Extends` and `Removes` say that the leaves stay right.  Here it is counted which tables
come and go with them.

* A walk adds tables on the way of its address only, each of them one that was available,
  and takes exactly as many as were `missing` (`walk_grows`).  Where it runs out, all that
  were available hang from the tree.
* Removing a leaf takes tables off the way of its address only (`removeLeaf_cut`).
-/
import DoomOs.RadixRoom

namespace DoomOs

open Comp Paging RadixFormat

namespace RadixTree

variable {σ ρ : Type} {tree : RadixTree σ} {E : tree.env.Spec ρ} {s s' s'' : σ}
  {x y va d k t c D target : ℕ} {e : Entry} {size : PageSize} {path : WalkPath}

/-! ## Tables that are missing -/

/-- How many of the tables on the way of `va`, down to depth `D`, are not there. -/
def missing (tree : RadixTree σ) (s : σ) (va D : ℕ) : ℕ :=
  ((Finset.range D).filter fun d => tree.tableOn s va (d + 1) = none).card

/-- Down to a table that is there none is missing. -/
theorem missing_le_sub (h : tree.tableOn s va d = some t) : tree.missing s va D ≤ D - d := by
  have hsub : ((Finset.range D).filter fun d => tree.tableOn s va (d + 1) = none)
      ⊆ Finset.Ico d D := by
    intro k hk
    obtain ⟨hlt, hnone⟩ := Finset.mem_filter.mp hk
    refine Finset.mem_Ico.mpr ⟨?_, Finset.mem_range.mp hlt⟩
    by_contra hkd
    obtain ⟨t', ht'⟩ := tableOn_above h (show k + 1 ≤ d by omega)
    rw [tableOn, ht'] at hnone
    cases hnone
  have hcard := Finset.card_le_card hsub
  rw [Nat.card_Ico] at hcard
  exact hcard

theorem missing_eq_zero (h : tree.tableOn s va D = some t) : tree.missing s va D = 0 := by
  have hle := missing_le_sub (D := D) h
  omega

theorem missing_le (tree : RadixTree σ) (s : σ) (va D : ℕ) : tree.missing s va D ≤ D :=
  missing_le_sub (t := tree.root) (d := 0) rfl

/-- Below a table that is not there all are missing. -/
theorem sub_le_missing (h : tree.tableOn s va (d + 1) = none) : D - d ≤ tree.missing s va D := by
  have hsub : Finset.Ico d D ⊆
      (Finset.range D).filter fun d => tree.tableOn s va (d + 1) = none := by
    intro k hk
    obtain ⟨hle, hlt⟩ := Finset.mem_Ico.mp hk
    exact Finset.mem_filter.mpr ⟨Finset.mem_range.mpr hlt, tableOn_none_below h (by omega)⟩
  have hcard := Finset.card_le_card hsub
  rw [Nat.card_Ico] at hcard
  exact hcard

theorem missing_pos (hd : d < D) (h : tree.tableOn s va (d + 1) = none) :
    0 < tree.missing s va D := by
  have := sub_le_missing (D := D) h
  omega

theorem exists_of_missing_eq_zero (h : tree.missing s va D = 0) :
    ∃ t, tree.tableOn s va D = some t := by
  rcases D with - | D
  · exact ⟨tree.root, rfl⟩
  · by_contra hno
    have hnone : tree.tableOn s va (D + 1) = none := Option.eq_none_iff_forall_ne_some.mpr
      (fun t ht => hno ⟨t, ht⟩)
    have := missing_pos (show D < D + 1 by omega) hnone
    omega

/-- One table less is missing. -/
theorem missing_succ (hd : d < D) (hnone : tree.tableOn s va (d + 1) = none)
    (h : ∀ k, tree.tableOn s' va (k + 1) = none ↔ tree.tableOn s va (k + 1) = none ∧ k ≠ d) :
    tree.missing s va D = tree.missing s' va D + 1 := by
  have hmem : d ∈ (Finset.range D).filter fun d => tree.tableOn s va (d + 1) = none :=
    Finset.mem_filter.mpr ⟨Finset.mem_range.mpr hd, hnone⟩
  have herase : ((Finset.range D).filter fun d => tree.tableOn s' va (d + 1) = none)
      = ((Finset.range D).filter fun d => tree.tableOn s va (d + 1) = none).erase d := by
    ext k
    simp only [Finset.mem_filter, Finset.mem_erase, h]
    tauto
  rw [missing, missing, herase, Finset.card_erase_add_one hmem]

/-! ## Growing -/

/-- From `s` to `s'` tables were added on the way of `va`, none deeper than `D`, and each of
them was available. -/
structure Grows (tree : RadixTree σ) (E : tree.env.Spec ρ) (va D : ℕ) (s s' : σ) : Prop where
  fresh : ∀ y k t, tree.tableOn s' y k = some t → tree.tableOn s y k = some t ∨
    (format.Agree k va y ∧ k ≤ D ∧ t ∈ E.avail s)
  avail : ∀ t ∈ E.avail s', t ∈ E.avail s
  count : (E.avail s').ncard + tree.missing s va D = (E.avail s).ncard + tree.missing s' va D

theorem Grows.refl (va D : ℕ) (s : σ) : tree.Grows E va D s s :=
  ⟨fun _ _ _ h => Or.inl h, fun _ h => h, rfl⟩

/-- Off the way of `va`, no table is added. -/
theorem Grows.tableOn_eq_none (h : tree.Grows E va D s s') (ha : ¬format.Agree k va y)
    (hnone : tree.tableOn s y k = none) : tree.tableOn s' y k = none := by
  by_contra hne
  obtain ⟨t, ht⟩ := Option.ne_none_iff_exists'.mp hne
  rcases h.fresh y k t ht with hold | ⟨ha', -, -⟩
  · rw [hnone] at hold
    cases hold
  · exact ha ha'

theorem Grows.trans (h : tree.Grows E va D s s') (h' : tree.Grows E va D s' s'') :
    tree.Grows E va D s s'' := by
  refine ⟨fun y k t ht => ?_, fun t ht => h.avail t (h'.avail t ht), ?_⟩
  · rcases h'.fresh y k t ht with hold | ⟨ha, hk, hav⟩
    · exact h.fresh y k t hold
    · exact Or.inr ⟨ha, hk, h.avail t hav⟩
  · have h1 := h.count
    have h2 := h'.count
    omega

/-- Where nothing was available, no table was added. -/
theorem Grows.of_empty (h : tree.Grows E va D s s') (hempty : E.avail s = ∅)
    (ht : tree.tableOn s' y k = some t) : tree.tableOn s y k = some t := by
  rcases h.fresh y k t ht with hold | ⟨-, -, hav⟩
  · exact hold
  · rw [hempty] at hav
    exact hav.elim

section Walks

variable (hE : E.FailsWhenEmpty) (hfin : E.FiniteAvail)
include hE hfin

theorem grow_grows (H : tree.Shape E s) (ht : tree.tableOn s va d = some t) (hd : d ≤ 2)
    (hD : d < D) :
    ((tree.grow ⟨t, index (4 - d) va⟩ (tree.env.read s t (index (4 - d) va)) (4 - d)).run s).Sat
      (fun _ s' => tree.Grows E va D s s')
      (fun er s' => s' = s ∧ er = .outOfMemory ∧ E.avail s = ∅ ∧
        tree.tableOn s va (d + 1) = none) := by
  have hslot := slotOn_of_tableOn ht
  refine ((grow_cases H t (index (4 - d) va) d).and (grow_fails hE H.good _ _ d)).mono
    (fun _ s' h => ?_) (fun er s' h => ⟨h.1, h.2.1, h.2.2.1, tableOn_succ_none hslot h.2.2.2⟩)
  rcases h.1 with ⟨rfl, -⟩ | ⟨hchild, c, s₁, T, rfl⟩
  · exact Grows.refl va D s'
  have hnone : tree.tableOn s va (d + 1) = none := tableOn_succ_none hslot hchild
  have hcases : ∀ y k t',
      tree.tableOn (tree.env.write t (index (4 - d) va) (tableEntry c) s₁) y k = some t' →
      tree.tableOn s y k = some t' ∨ (t' = c ∧ k = d + 1 ∧ format.Agree (d + 1) va y) :=
    fun _ _ _ => T.link_cases H ht hd
  have hx := H.extends_link ht hd hslot T
  have hlinked : tree.tableOn (tree.env.write t (index (4 - d) va) (tableEntry c) s₁) va (d + 1)
      = some c := tableOn_link_child (T.shape H) ((T.tableOn_eq H va d).trans ht) hd (T.newTable H)
    (E.read_write _ _ _ _) (Agree.refl _ _)
  refine ⟨fun y k t' ht' => ?_, fun t' ht' => ?_, ?_⟩
  · rcases hcases y k t' ht' with h | ⟨rfl, rfl, ha⟩
    · exact Or.inl h
    · exact Or.inr ⟨ha, hD, T.mem⟩
  · rw [E.avail_write, T.avail] at ht'
    exact ht'.1
  · have hmissing : tree.missing s va D
        = tree.missing (tree.env.write t (index (4 - d) va) (tableEntry c) s₁) va D + 1 :=
      missing_succ hD hnone (fun k => by
        constructor
        · intro h
          refine ⟨?_, ?_⟩
          · by_contra hne
            obtain ⟨t', ht'⟩ := Option.ne_none_iff_exists'.mp hne
            rw [hx.tables va (k + 1) t' ht'] at h
            cases h
          · rintro rfl
            rw [hlinked] at h
            cases h
        · rintro ⟨h, hne⟩
          by_contra hsome
          obtain ⟨t', ht'⟩ := Option.ne_none_iff_exists'.mp hsome
          rcases hcases va (k + 1) t' ht' with hold | ⟨-, hk, -⟩
          · rw [h] at hold
            cases hold
          · exact hne (by omega))
    rw [hmissing, E.avail_write, T.avail,
      ← Set.ncard_sdiff_singleton_add_one T.mem (hfin s H.good)]
    omega

/-- **A walk takes the tables that are missing**, and fails when they are not all available;
then none is left. -/
theorem walk_grows (H : tree.Shape E s) (va : ℕ) (hd : d ≤ 3) :
    ((tree.walk va (4 - d) true).run s).Sat
      (fun _ s' => tree.Grows E va d s s' ∧ tree.missing s' va d = 0)
      (fun er s' => er = .outOfMemory ∧ tree.Grows E va d s s' ∧ E.avail s' = ∅ ∧
        0 < tree.missing s' va d) := by
  refine walk_true_rule va (I := fun _ _ s' => tree.Grows E va d s s') hd
    (fun ht h => ⟨h, missing_eq_zero ht⟩) (fun {k t path s₁} hk H₁ ht h => ?_) H
    (Grows.refl va d s)
  refine (grow_grows hE hfin H₁ ht (by omega) hk).mono (fun _ _ h₂ _ => h.trans h₂)
    (fun er s₂ h₂ => ?_)
  obtain ⟨rfl, her, hempty, hnone⟩ := h₂
  exact ⟨her, h, hempty, missing_pos hk hnone⟩

/-- `map_leaf`, with the tables it takes. -/
theorem mapLeaf_grows (H : tree.Shape E s) (va pa : ℕ) (size : PageSize) (p : PageProt) :
    ((tree.mapLeaf va pa size p).run s).Sat
      (fun _ s' => valid va = true ∧ va % size.bytesIn = 0 ∧ pa % size.bytesIn = 0 ∧
        ∃ s₁, (tree.Grows E va (depthOf size) s s₁ ∧ tree.missing s₁ va (depthOf size) = 0) ∧
          tree.Extends E va s s₁ ∧
          ((s' = s₁ ∧ tree.Maps s₁ va (depthOf size) (leafEntry tree.feat pa size p)) ∨
          ((∀ y k e', format.Agree (depthOf size + 1) va y → ¬tree.Maps s₁ y k e') ∧
            tree.Puts E va (depthOf size) (leafEntry tree.feat pa size p) s₁ s')))
      (fun er s' =>
        (s' = s ∧ ¬(valid va = true ∧ va % size.bytesIn = 0 ∧ pa % size.bytesIn = 0)) ∨
        ((er = .outOfMemory ∧ tree.Grows E va (depthOf size) s s' ∧ E.avail s' = ∅ ∧
          0 < tree.missing s' va (depthOf size)) ∧ tree.Extends E va s s') ∨
        (er = .conflict ∧
          (tree.Grows E va (depthOf size) s s' ∧ tree.missing s' va (depthOf size) = 0) ∧
          tree.Extends E va s s' ∧ ∃ e, tree.slotOn s' va (depthOf size) = some e ∧
            present e = true ∧ e ≠ leafEntry tree.feat pa size p)) := by
  have hwalk := walk_grows hE hfin H va (depthOf_le size)
  rw [← levelOf_eq] at hwalk
  exact mapLeaf_rule H hwalk pa p

/-- `walk_to_leaf` adds tables only above a leaf that maps the address. -/
theorem walkToLeaf_grows (H : tree.Shape E s) (va : ℕ) (hd : d ≤ 3) :
    ((tree.walkToLeaf va (4 - d)).run s).Sat
      (fun _ s' => s' = s ∨ (tree.Grows E va d s s' ∧ ∃ k e, tree.Maps s va k e))
      (fun _ s' => s' = s ∨ (tree.Grows E va d s s' ∧ ∃ k e, tree.Maps s va k e)) := by
  -- the checks at the end only read
  have hlast : ∀ {path : WalkPath} {s₁ : σ} {Q : σ → Prop}, Q s₁ →
      ((do
        let entry ← tree.load (path.slots (4 - d))
        if !present entry then fail .notMapped
        else if !leaf entry (4 - d) then fail .conflict
        else pure path : Comp Fault MmError σ WalkPath).run s₁).Sat
        (fun _ s' => Q s') (fun _ s' => Q s') := by
    intro path s₁ Q hQ
    rw [load, run_gets_bind]
    split_ifs
    · exact hQ
    · exact hQ
    · exact hQ
  rw [walkToLeaf, sat_bind]
  refine (walk_false_sat (by omega) (by omega)).mono (fun path s₀ h₀ => ?_)
    (fun _ s₀ h₀ => Or.inl h₀.1)
  obtain ⟨rfl, d', -, -, hreach, hcase⟩ := h₀
  dsimp only
  by_cases habove : path.reachedLevel > 4 - d
  · have hm : ∃ k e, tree.Maps s₀ va k e := by
      rcases hcase with h | ⟨-, e, hm⟩
      · omega
      · exact ⟨d', e, hm⟩
    rw [if_pos habove, sat_bind]
    exact (walk_grows hE hfin H _ hd).mono
      (fun path₁ s₁ h₁ => hlast (Q := fun s' => s' = s₀ ∨ (tree.Grows E va d s₀ s' ∧
        ∃ k e, tree.Maps s₀ va k e)) (Or.inr ⟨h₁.1, hm⟩))
      (fun _ s₁ h₁ => Or.inr ⟨h₁.2.1, hm⟩)
  · rw [if_neg habove, run_pure_bind]
    exact hlast (Q := fun s' => s' = s₀ ∨ (tree.Grows E va d s₀ s' ∧
      ∃ k e, tree.Maps s₀ va k e)) (Or.inl rfl)

/-- `split_at` too. -/
theorem splitAt_grows (H : tree.Shape E s) (b : ℕ) (hd : d ≤ 3) :
    ((tree.splitAt b (4 - d)).run s).Sat
      (fun _ s' => s' = s ∨ (tree.Grows E b d s s' ∧ ∃ k e, tree.Maps s b k e))
      (fun _ s' => s' = s ∨ (tree.Grows E b d s s' ∧ ∃ k e, tree.Maps s b k e)) := by
  rw [splitAt, sat_bind, sat_attempt]
  refine (walk_false_sat (by omega) (by omega)).mono (fun path s₀ h₀ => ?_)
    (fun _ s₀ h₀ => Or.inl h₀.1)
  obtain ⟨rfl, d', -, -, hreach, hcase⟩ := h₀
  simp only [hreach]
  split_ifs with hcond
  · have hm : ∃ k e, tree.Maps s₀ b k e := by
      rw [Bool.and_eq_true, decide_eq_true_eq] at hcond
      rcases hcase with h | ⟨-, e, hm⟩
      · omega
      · exact ⟨d', e, hm⟩
    rw [sat_bind]
    exact (walk_grows hE hfin H _ hd).mono (fun _ s₁ h₁ => Or.inr ⟨h₁.1, hm⟩)
      (fun _ s₁ h₁ => Or.inr ⟨h₁.2.1, hm⟩)
  · exact Or.inl rfl

end Walks

/-! ## Shrinking -/

/-- From `s` to `s'` tables were taken off the way of `va`. -/
structure Cut (tree : RadixTree σ) (va : ℕ) (s s' : σ) : Prop where
  sub : ∀ y k t, tree.tableOn s' y k = some t → tree.tableOn s y k = some t
  lost : ∀ y k t, tree.tableOn s y k = some t → tree.tableOn s' y k = some t ∨ format.Agree k va y

theorem Cut.refl (va : ℕ) (s : σ) : tree.Cut va s s := ⟨fun _ _ _ h => h, fun _ _ _ h => Or.inl h⟩

theorem Cut.trans (h : tree.Cut va s s') (h' : tree.Cut va s' s'') : tree.Cut va s s'' := by
  refine ⟨fun y k t ht => h.sub y k t (h'.sub y k t ht), fun y k t ht => ?_⟩
  rcases h.lost y k t ht with ht' | ha
  · exact h'.lost y k t ht'
  · exact Or.inr ha

/-- Taking out an empty table. -/
theorem cut_of_empty (hc : tree.tableOn s va (d + 1) = some c)
    (hempty : ∀ i < 512, tree.env.read s c i = 0#64)
    (htab : ∀ y k, tree.tableOn s' y k
      = if format.Agree (d + 1) va y ∧ d < k then none else tree.tableOn s y k) :
    tree.Cut va s s' := by
  refine ⟨fun y k t ht => ?_, fun y k t ht => ?_⟩
  · rw [htab] at ht
    split_ifs at ht
    exact ht
  · by_cases h : format.Agree (d + 1) va y ∧ d < k
    · obtain ⟨ha, hk⟩ := h
      obtain ⟨rfl, -⟩ := tableOn_empty hc hempty ha hk ht
      exact Or.inr ha
    · rw [htab, if_neg h]
      exact Or.inl ht

theorem pruneFrom_cut (d : ℕ) (s : σ) (hd : d ≤ 3) (H : tree.Shape E s)
    (hpath : tree.OnPath s va path (d + 1)) :
    ((tree.pruneFrom path (4 - d) d).run s).Sat (fun _ s' => tree.Cut va s s')
      (fun _ _ => False) :=
  pruneFrom_rule (I := fun _ s' => tree.Cut va s s') (fun _ h => h) (fun _ _ _ _ h => h)
    (fun hc hempty hone h => h.trans (cut_of_empty hc hempty hone.tables)) d s hd H hpath
    (Cut.refl va s)

/-- **Removing a leaf takes tables off its way only.** -/
theorem removeLeaf_cut (H : tree.Shape E s) (va : ℕ) :
    ((tree.removeLeaf va).run s).Sat (fun _ s' => tree.Cut va s s') (fun _ s' => s' = s) := by
  refine (removeLeaf_rule (W := fun _ s₁ s' => tree.Cut va s₁ s') H va
    (fun d e s₁ path hm hputs hpath => ?_)).mono (fun m s' h => ?_) (fun _ _ h => h.1)
  · rw [prune_of_depth hm.depth_le]
    exact pruneFrom_cut d _ hm.depth_le hputs.shape hpath
  · obtain ⟨-, d, e, s₁, -, -, hputs, h₁⟩ := h
    refine ⟨fun y k t ht => ?_, fun y k t ht => ?_⟩
    · rw [← hputs.tables]
      exact h₁.sub y k t ht
    · rw [← hputs.tables] at ht
      exact h₁.lost y k t ht

end RadixTree

end DoomOs
