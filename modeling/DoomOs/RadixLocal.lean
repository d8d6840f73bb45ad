/-
# Range operations stay below their root entries

Seen from the root, a range operation only touches the entries of the root that its
addresses fall under.  `Kept` is the rule that all such facts are instances of: what
growing the tree, writing a leaf and removing a leaf below a set of root entries keep,
the range operations on addresses below these entries keep, whether they succeed or
fail.

* `Local` collects what holds across any sequence of calls: the shape, the tables
  elsewhere, and that no pinned table becomes available.
* `Untouched` says that tables and leaves elsewhere are the same, so that addresses
  there translate as before.
-/
import DoomOs.RadixUnmap

namespace DoomOs

open Comp Paging RadixFormat

namespace RadixTree

variable {σ ρ : Type} {tree : RadixTree σ} {E : tree.env.Spec ρ} {s s' s'' : σ}
  {P : ℕ → Prop} {I : σ → Prop} {x va d k length offset : ℕ} {e : Entry} {m : Mapping}
  {size : PageSize} {p : PageProt}

/-! ## What the parts of `unmap_range` keep, it keeps -/

theorem unmapFrom_keeps (hend : va + length ≤ 2 ^ 64) (hlen : length < 2 ^ 64)
    (hremove : ∀ x s, va ≤ x → x < va + length → tree.Shape E s → I s →
      ((tree.removeLeaf x).run s).Sat (fun _ s' => I s') (fun _ s' => I s')) :
    ∀ (n offset : ℕ) (s : σ), I s → tree.Removed E (fun r _ => r) va length s' offset s →
      length < offset + 4096 * n →
      ((tree.unmapFrom va length ignoreRemoved n offset).run s).Sat
        (fun _ s'' => I s'') (fun _ s'' => I s'') := by
  intro n
  induction n with
  | zero =>
    intro offset s _ h hfuel
    have := h.le
    omega
  | succ n ih =>
    intro offset s hI h hfuel
    rw [unmapFrom]
    by_cases hlt : offset < length
    swap
    · rw [if_neg hlt]
      exact hI
    rw [if_pos hlt, u64_of_lt (by omega), sat_bind]
    refine ((removeLeaf_sat h.shape (va + offset)).and
      (hremove (va + offset) s (by omega) (by omega) h.shape hI)).mono (fun m s₁ h₁ => ?_)
      (fun _ _ h₁ => h₁.2)
    obtain ⟨⟨hcur, d, e, hrem⟩, hI₁⟩ := h₁
    have hstep := h.step hlt hcur hrem hrem.shape.good rfl rfl rfl
    have hbig : 4096 ≤ m.size.bytesIn := by
      rw [m.size.bytesIn_eq]
      have := m.size.framesIn_pos
      omega
    have hle := hstep.le
    rw [ignoreRemoved, run_pure_bind, u64_of_lt (by omega)]
    exact ih _ s₁ hI₁ hstep (by omega)

theorem unmapPrepare_keeps (h : I s) (va length : ℕ) (size : PageSize)
    (hsplit : ∀ b s, b = va ∨ b = u64 (va + length) → I s →
      ((tree.splitAt b (levelOf (tree.leafSize size))).run s).Sat (fun _ s' => I s')
        (fun _ s' => I s')) :
    ((tree.unmapPrepare va length size).run s).Sat (fun _ s' => I s') (fun _ s' => I s') := by
  rw [unmapPrepare]
  dsimp only
  rw [sat_bind]
  refine (validate_sat va (tree.leafSize size) 0 s).mono (fun target s₀ h₀ => ?_)
    (fun _ s₀ h₀ => by rw [h₀.1]; exact h)
  obtain ⟨rfl, rfl, -⟩ := h₀
  split_ifs
  · exact h
  all_goals
    rw [sat_bind]
    refine (hsplit va s₀ (Or.inl rfl) h).mono (fun _ s₁ h₁ => ?_) (fun _ _ h => h)
  · exact hsplit _ s₁ (Or.inr rfl) h₁
  · exact h₁

theorem unmapRange_keeps (H : tree.Shape E s) (h : I s) (hlen : length < 2 ^ 64) (va : ℕ)
    (size : PageSize)
    (hsplit : ∀ b s, b = va ∨ b = u64 (va + length) → I s →
      ((tree.splitAt b (levelOf (tree.leafSize size))).run s).Sat (fun _ s' => I s')
        (fun _ s' => I s'))
    (hremove : ∀ x s, va ≤ x → x < va + length → tree.Shape E s → I s →
      ((tree.removeLeaf x).run s).Sat (fun _ s' => I s') (fun _ s' => I s')) :
    ((tree.unmapRange va length size ignoreRemoved).run s).Sat (fun _ s' => I s')
      (fun _ s' => I s') := by
  have hfuel : length < 0 + 4096 * (length / 4096 + 1) := by
    rw [Nat.zero_add]
    exact Nat.lt_mul_div_succ length (by norm_num)
  rw [unmapRange, sat_bind]
  refine ((unmapPrepare_sat H hlen va size).and (unmapPrepare_keeps h va length size hsplit)).mono
    (fun _ s₁ h₁ => ?_) (fun _ _ h => h.2)
  obtain ⟨h₁, hI⟩ := h₁
  exact unmapFrom_keeps h₁.end_le h₁.length_lt hremove _ 0 s₁ hI
    ⟨h₁.shape, by omega, fun x _ => by rw [if_neg (by omega)], ⟨[], rfl, rfl⟩, h₁.start_boundary,
      h₁.end_boundary⟩ hfuel

/-! ## What every change below some root entries keeps -/

/-- `I` holds of trees of the right shape only, and every change of the tree below the
root entries in `P` keeps it. -/
structure Kept (tree : RadixTree σ) (E : tree.env.Spec ρ) (P : ℕ → Prop) (I : σ → Prop) :
    Prop where
  shape : ∀ s, I s → tree.Shape E s
  extend : ∀ va s s', P (index 4 va) → I s → tree.Extends E va s s' → I s'
  put : ∀ va d e s s', P (index 4 va) → I s → tree.Puts E va d e s s' → I s'
  remove : ∀ va m d e s s', P (index 4 va) → I s → tree.Removes E va m s s' d e → I s'

namespace Kept

variable (K : tree.Kept E P I)
include K

theorem mapRange_sat (h : I s) (hend : va + length ≤ 2 ^ 64)
    (hP : ∀ x, va ≤ x → x < va + length → P (index 4 x)) (pa : ℕ) (size : PageSize)
    (p : PageProt) :
    ((tree.mapRange va pa length size p).run s).Sat (fun _ s' => I s') (fun _ s' => I s') := by
  rw [mapRange]
  refine (sat_forEachLeaf (I := fun _ s' => I s') h (fun _ _ => h) (fun i s₀ hi h₀ => ?_)).mono
    (fun _ _ h => h.2) (fun _ _ h => h)
  have hpos : 0 < (tree.leafSize size).bytesIn := Nat.two_pow_pos _
  rw [Nat.add_mul, Nat.one_mul] at hi
  rw [u64_of_lt (show va + i * (tree.leafSize size).bytesIn < 2 ^ 64 by omega)]
  have hPi := hP (va + i * (tree.leafSize size).bytesIn) (by omega) (by omega)
  refine (mapLeaf_sat (K.shape s₀ h₀) _ _ _ p).mono (fun _ s₁ h₁ => ?_) (fun _ s₁ h₁ => ?_)
  · obtain ⟨-, -, -, s₂, hx, ⟨rfl, -⟩ | ⟨-, hput⟩⟩ := h₁
    · exact K.extend _ _ _ hPi h₀ hx
    · exact K.put _ _ _ _ _ hPi (K.extend _ _ _ hPi h₀ hx) hput
  · exact K.extend _ _ _ hPi h₀ h₁

theorem protectRange_sat (h : I s) (hend : va + length ≤ 2 ^ 64)
    (hP : ∀ x, va ≤ x → x < va + length → P (index 4 x)) (size : PageSize) (p : PageProt) :
    ((tree.protectRange va length size p).run s).Sat (fun _ s' => I s') (fun _ s' => I s') := by
  rw [protectRange]
  refine (sat_forEachLeaf (I := fun _ s' => I s') h (fun _ _ => h) (fun i s₀ hi h₀ => ?_)).mono
    (fun _ _ h => h.2) (fun _ _ h => h)
  have hpos : 0 < (tree.leafSize size).bytesIn := Nat.two_pow_pos _
  rw [Nat.add_mul, Nat.one_mul] at hi
  rw [u64_of_lt (by omega)]
  have hPi := hP (va + i * (tree.leafSize size).bytesIn) (by omega) (by omega)
  refine (protectLeaf_sat (K.shape s₀ h₀) _ _ p).mono (fun _ s₁ h₁ => ?_) (fun _ s₁ h₁ => ?_)
  · obtain ⟨-, -, s₂, e, hx, -, hput⟩ := h₁
    exact K.put _ _ _ _ _ hPi (K.extend _ _ _ hPi h₀ hx) hput
  · exact K.extend _ _ _ hPi h₀ h₁.1

theorem splitAt_sat (h : I s) (size : PageSize) (hP : P (index 4 va)) :
    ((tree.splitAt va (levelOf size)).run s).Sat (fun _ s' => I s') (fun _ s' => I s') := by
  rw [levelOf_eq]
  exact (RadixTree.splitAt_sat (K.shape s h) va (depthOf_le size)).mono
    (fun _ _ h₁ => K.extend _ _ _ hP h h₁.1) (fun _ _ h₁ => K.extend _ _ _ hP h h₁)

theorem unmapRange_sat (h : I s) (hend : va + length < 2 ^ 64)
    (hP : ∀ x, va ≤ x → x ≤ va + length → P (index 4 x)) (size : PageSize) :
    ((tree.unmapRange va length size ignoreRemoved).run s).Sat (fun _ s' => I s')
      (fun _ s' => I s') := by
  refine unmapRange_keeps (K.shape s h) h (by omega) va size (fun b s₀ hb h₀ => ?_)
    (fun x s₀ hle hlt H₀ h₀ => ?_)
  · rw [u64_of_lt hend] at hb
    rcases hb with rfl | rfl
    · exact K.splitAt_sat h₀ (tree.leafSize size) (hP b le_rfl (by omega))
    · exact K.splitAt_sat h₀ (tree.leafSize size) (hP (va + length) (by omega) le_rfl)
  · refine (removeLeaf_sat H₀ x).mono (fun m s₁ h₁ => ?_) (fun _ s₁ h₁ => by rw [h₁.1]; exact h₀)
    obtain ⟨-, d, e, hrem⟩ := h₁
    exact K.remove _ _ _ _ _ _ (hP x hle hlt.le) h₀ hrem

end Kept

/-- What the environment has handed out or still has stays the same. -/
theorem kept_owned (P : ℕ → Prop) (s : σ) :
    tree.Kept E P (fun s' => tree.Shape E s' ∧ tree.owned E s' = tree.owned E s) where
  shape _ h := h.1
  extend _ _ _ _ h hx := ⟨hx.shape, hx.owned.trans h.2⟩
  put _ _ _ _ _ _ h hput := ⟨hput.shape, hput.owned.trans h.2⟩
  remove _ _ _ _ _ _ _ h hrem := ⟨hrem.shape, hrem.owned.trans h.2⟩

/-! ## Local changes -/

/-- From `s` to `s'` only the tables below the root entries in `P` changed. -/
structure Local (tree : RadixTree σ) (E : tree.env.Spec ρ) (P : ℕ → Prop) (s s' : σ) : Prop where
  shape : tree.Shape E s'
  frame : ∀ y, ¬P (index 4 y) → ∀ k, tree.tableOn s' y k = tree.tableOn s y k
  avail : ∀ t ∈ E.avail s', t ∈ E.pinned → t ∈ E.avail s

theorem Local.refl (H : tree.Shape E s) : tree.Local E P s s :=
  ⟨H, fun _ _ _ => rfl, fun _ h _ => h⟩

theorem Local.trans (h : tree.Local E P s s') (h' : tree.Local E P s' s'') :
    tree.Local E P s s'' :=
  ⟨h'.shape, fun y hy k => (h'.frame y hy k).trans (h.frame y hy k),
    fun t ht hp => h.avail t (h'.avail t ht hp) hp⟩

theorem Extends.local (h : tree.Extends E va s s') (hP : P (index 4 va)) :
    tree.Local E P s s' :=
  ⟨h.shape, fun y hy k => h.frame y (fun heq => hy (heq ▸ hP)) k, h.avail⟩

theorem Puts.local (h : tree.Puts E va d e s s') : tree.Local E P s s' :=
  ⟨h.shape, fun y _ k => h.tables y k, fun _ ht _ => h.avail ▸ ht⟩

theorem Removes.local (h : tree.Removes E va m s s' d e) (hP : P (index 4 va)) :
    tree.Local E P s s' :=
  ⟨h.shape, fun y hy k => h.frame y (fun heq => hy (heq ▸ hP)) k, h.avail⟩

theorem Local.kept (s : σ) : tree.Kept E P (fun s' => tree.Local E P s s') where
  shape _ h := h.shape
  extend _ _ _ hP h hx := h.trans (hx.local hP)
  put _ _ _ _ _ _ h hput := h.trans hput.local
  remove _ _ _ _ _ _ hP h hrem := h.trans (hrem.local hP)

/-! ## What is elsewhere -/

/-- Outside the root entries in `P`, the tables and the leaves of `s'` are those of `s`. -/
structure Untouched (tree : RadixTree σ) (P : ℕ → Prop) (s s' : σ) : Prop where
  tables : ∀ y, ¬P (index 4 y) → ∀ k, tree.tableOn s' y k = tree.tableOn s y k
  maps : ∀ y, ¬P (index 4 y) → ∀ k e, tree.Maps s' y k e ↔ tree.Maps s y k e

namespace Untouched

theorem refl (s : σ) : tree.Untouched P s s := ⟨fun _ _ _ => rfl, fun _ _ _ _ => Iff.rfl⟩

theorem trans (h : tree.Untouched P s s') (h' : tree.Untouched P s' s'') :
    tree.Untouched P s s'' :=
  ⟨fun y hy k => (h'.tables y hy k).trans (h.tables y hy k),
    fun y hy k e => (h'.maps y hy k e).trans (h.maps y hy k e)⟩

theorem mono {Q : ℕ → Prop} (h : tree.Untouched P s s') (hPQ : ∀ i, P i → Q i) :
    tree.Untouched Q s s' :=
  ⟨fun y hy => h.tables y (fun hP => hy (hPQ _ hP)),
    fun y hy => h.maps y (fun hP => hy (hPQ _ hP))⟩

/-- Addresses elsewhere translate as before. -/
theorem translation (h : tree.Untouched P s s') (H : tree.Shape E s) (H' : tree.Shape E s')
    (hx : valid x = true) (hP : ¬P (index 4 x)) :
    tree.translation s' x = tree.translation s x :=
  translation_congr_maps H H' hx (h.maps x hP)

end Untouched

/-- Growing the tree leaves the leaves below other root entries whole. -/
theorem Extends.untouched (h : tree.Extends E va s s') (hP : P (index 4 va)) :
    tree.Untouched P s s' := by
  have hframe : ∀ y, ¬P (index 4 y) → ∀ k, tree.tableOn s' y k = tree.tableOn s y k :=
    fun y hy => h.frame y (fun heq => hy (heq ▸ hP))
  -- a finer leaf would need a table that was not there
  have hsame : ∀ y, ¬P (index 4 y) → ∀ k e k' e', tree.Maps s y k e → tree.Maps s' y k' e' →
      Piece y k e k' e' → k' = k ∧ e' = e := by
    intro y hy k e k' e' hm hm' hp
    obtain ⟨t, ht, -⟩ := tableOn_of_slotOn hm'.1
    rw [hframe y hy] at ht
    have heq : k' = k := le_antisymm (by
      by_contra hlt
      rw [hm.tableOn_below (not_le.mp hlt)] at ht
      cases ht) hp.le
    exact ⟨heq, hp.same heq⟩
  refine ⟨hframe, fun y hy k e => ⟨fun hm => ?_, fun hm => ?_⟩⟩
  · obtain ⟨k', e', hm', hp⟩ := h.piece hm
    obtain ⟨rfl, rfl⟩ := hsame y hy k' e' k e hm' hm hp
    exact hm'
  · obtain ⟨k', e', hm', hp⟩ := h.finer y k e hm
    obtain ⟨rfl, rfl⟩ := hsame y hy k e k' e' hm hm' hp
    exact hm'

theorem Puts.untouched (h : tree.Puts E va d e s s') (hP : P (index 4 va)) :
    tree.Untouched P s s' := by
  refine ⟨fun y _ k => h.tables y k, fun y hy k e' => ?_⟩
  have hne : index 4 y ≠ index 4 va := fun heq => hy (heq ▸ hP)
  rw [h.maps, if_neg (not_agree_of_index hne)]

theorem Removes.untouched (h : tree.Removes E va m s s' d e) (hP : P (index 4 va)) :
    tree.Untouched P s s' := by
  have hne : ∀ y, ¬P (index 4 y) → index 4 y ≠ index 4 va := fun y hy heq => hy (heq ▸ hP)
  refine ⟨fun y hy k => h.frame y (hne y hy) k, fun y hy k e' => ?_⟩
  rw [h.maps]
  exact and_iff_left (not_agree_of_index (hne y hy))

/-- What is kept, together with what is elsewhere. -/
theorem Kept.untouched (K : tree.Kept E P I) (s : σ) :
    tree.Kept E P (fun s' => I s' ∧ tree.Untouched P s s') where
  shape _ h := K.shape _ h.1
  extend _ _ _ hP h hx := ⟨K.extend _ _ _ hP h.1 hx, h.2.trans (hx.untouched hP)⟩
  put _ _ _ _ _ hP h hput := ⟨K.put _ _ _ _ _ hP h.1 hput, h.2.trans (hput.untouched hP)⟩
  remove _ _ _ _ _ _ hP h hrem :=
    ⟨K.remove _ _ _ _ _ _ hP h.1 hrem, h.2.trans (hrem.untouched hP)⟩

end RadixTree

end DoomOs
