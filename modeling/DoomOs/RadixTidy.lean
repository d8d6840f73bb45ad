/-
# Trees without empty tables

A table is of use when some leaf is below it, and the tree is `Tidy` when all its tables
are.  A walk that gets as far as writing its leaf keeps the tree tidy, so do splitting a
leaf and removing one, and so do the range operations made of them.  The one exception is
a walk for `map_leaf` that runs out of tables: those it has linked already stay, with
nothing below them.

`map_range` over addresses that are not mapped then fails only where such a table is in
the way of a large page (`mapRange_conflict`).
-/
import DoomOs.RadixGrowth
import DoomOs.RadixLocal

namespace DoomOs

open Comp Paging RadixFormat

namespace RadixTree

variable {σ ρ : Type} {tree : RadixTree σ} {E : tree.env.Spec ρ} {s s' s'' : σ}
  {P : ℕ → Prop} {x y va pa d k t c i D length : ℕ} {e e' : Entry} {size : PageSize}
  {p : PageProt} {path : WalkPath}

/-! ## Tables of use -/

/-- Some leaf is below the table that `y` meets at depth `k`. -/
def Used (tree : RadixTree σ) (s : σ) (y k : ℕ) : Prop :=
  ∃ x j e, format.Agree k y x ∧ tree.Maps s x j e

/-- All tables below the root entries in `P` are of use. -/
def Tidy (tree : RadixTree σ) (P : ℕ → Prop) (s : σ) : Prop :=
  ∀ y k t, P (index 4 y) → tree.tableOn s y (k + 1) = some t → tree.Used s y (k + 1)

theorem Used.mono (h : tree.Used s y k) (ha : format.Agree c x y) (hk : c ≤ k) :
    tree.Used s x c := by
  obtain ⟨z, j, e, hz, hm⟩ := h
  exact ⟨z, j, e, ha.trans (hz.mono hk), hm⟩

theorem used_of_maps (hm : tree.Maps s y d e) (k : ℕ) : tree.Used s y k :=
  ⟨y, d, e, Agree.refl _ _, hm⟩

theorem Used.extends (h : tree.Used s y k) (hx : tree.Extends E va s s') : tree.Used s' y k := by
  obtain ⟨z, j, e, hz, hm⟩ := h
  obtain ⟨j', e', hm', -⟩ := hx.finer z j e hm
  exact ⟨z, j', e', hz, hm'⟩

theorem Used.puts (h : tree.Used s y k) (hput : tree.Puts E va d e s s') (hp : present e = true) :
    tree.Used s' y k := by
  obtain ⟨z, j, e', hz, hm⟩ := h
  by_cases ha : format.Agree (d + 1) va z
  · exact ⟨z, d, e, hz, (hput.maps z d e).mpr (by rw [if_pos ha]; exact ⟨rfl, rfl, hp⟩)⟩
  · exact ⟨z, j, e', hz, (hput.maps z j e').mpr (by rw [if_neg ha]; exact hm)⟩

/-- Changes below other root entries. -/
theorem Tidy.untouched {Q : ℕ → Prop} (h : tree.Tidy P s) (hu : tree.Untouched Q s s')
    (hPQ : ∀ i, P i → ¬Q i) : tree.Tidy P s' := by
  intro y k t hP ht
  rw [hu.tables y (hPQ _ hP)] at ht
  obtain ⟨x, j, e, ha, hm⟩ := h y k t hP ht
  have h4 : index 4 y = index 4 x := ha 0 (by omega)
  exact ⟨x, j, e, ha, (hu.maps x (hPQ _ (h4 ▸ hP)) j e).mpr hm⟩

/-- An empty root is tidy. -/
theorem tidy_empty (hzero : ∀ i < 512, tree.env.read s tree.root i = 0#64) : tree.Tidy P s := by
  intro y k t _ ht
  have hslot : tree.slotOn s y 0 = some 0#64 := by
    rw [slotOn_of_tableOn (t := tree.root) rfl, hzero _ (index_lt _ _)]
  have hnone : tree.tableOn s y 1 = none := tableOn_succ_none hslot (child_zero 0)
  rw [tableOn, tableOn_none_below hnone (by omega)] at ht
  cases ht

/-! ## Growing -/

/-- Tables added on the way of an address are of use when a leaf is below the last. -/
theorem Tidy.grows (h : tree.Tidy P s) (hx : tree.Extends E va s s') (hg : tree.Grows E va D s s')
    (hu : tree.Used s' va D) : tree.Tidy P s' := by
  intro y k t hP ht
  rcases hg.fresh y (k + 1) t ht with hold | ⟨ha, hk, -⟩
  · exact (h y k t hP hold).extends hx
  · exact hu.mono ha.symm hk

theorem Tidy.puts (h : tree.Tidy P s) (hput : tree.Puts E va d e s s') (hp : present e = true) :
    tree.Tidy P s' := by
  intro y k t hP ht
  rw [hput.tables] at ht
  exact (h y k t hP ht).puts hput hp

/-- Tables added on the way to a leaf that is then written. -/
theorem Tidy.grows_puts (h : tree.Tidy P s) (hx : tree.Extends E va s s')
    (hg : tree.Grows E va D s s') (hput : tree.Puts E va d e s' s'') (hp : present e = true) :
    tree.Tidy P s'' := by
  have hm : tree.Maps s'' va d e :=
    (hput.maps va _ _).mpr (by rw [if_pos (Agree.refl _ _)]; exact ⟨rfl, rfl, hp⟩)
  intro y k t hP ht
  rw [hput.tables] at ht
  rcases hg.fresh y (k + 1) t ht with hold | ⟨ha, -, -⟩
  · exact ((h y k t hP hold).extends hx).puts hput hp
  · exact (used_of_maps hm (k + 1)).mono ha.symm le_rfl

/-- Where the address is mapped already, a walk splits a leaf. -/
theorem Tidy.split (h : tree.Tidy P s) (hx : tree.Extends E va s s')
    (hg : s' = s ∨ (tree.Grows E va D s s' ∧ ∃ k e, tree.Maps s va k e)) : tree.Tidy P s' := by
  rcases hg with rfl | ⟨hg, k, e, hm⟩
  · exact h
  · exact h.grows hx hg ((used_of_maps hm D).extends hx)

section Leaves

variable (hE : E.FailsWhenEmpty) (hfin : E.FiniteAvail)
include hE hfin

/-- **`map_leaf` keeps the tree tidy**, unless it runs out of tables after it has linked one. -/
theorem mapLeaf_tidy (H : tree.Shape E s) (h : tree.Tidy P s) (va pa : ℕ) (size : PageSize)
    (p : PageProt) :
    ((tree.mapLeaf va pa size p).run s).Sat (fun _ s' => tree.Tidy P s')
      (fun er s' => er ≠ .outOfMemory ∨ E.avail s = ∅ → tree.Tidy P s') := by
  refine (mapLeaf_grows hE hfin H va pa size p).mono (fun _ s' h' => ?_) (fun er s' h' hor => ?_)
  · obtain ⟨-, -, -, s₁, ⟨hg, -⟩, hx, ⟨rfl, hm⟩ | ⟨-, hput⟩⟩ := h'
    · exact h.grows hx hg (used_of_maps hm _)
    · exact h.grows_puts hx hg hput (present_leafEntry _ _ _ _)
  · rcases h' with ⟨rfl, -⟩ | ⟨⟨her, hg, -, -⟩, hx⟩ | ⟨-, ⟨hg, -⟩, hx, e, hs, hp, -⟩
    · exact h
    · -- nothing was available, so nothing has been linked
      intro y k t hP ht
      have hempty := hor.resolve_left (fun hne => hne her)
      exact (h y k t hP (hg.of_empty hempty ht)).extends hx
    · by_cases hl : leaf e (4 - depthOf size) = true
      · exact h.grows hx hg (used_of_maps ⟨hs, hp, hl⟩ _)
      · -- the slot leads to a table, which was there before
        obtain ⟨t₀, ht₀, rfl⟩ := tableOn_of_slotOn hs
        have hchild := tableOn_child ht₀ hp (Bool.eq_false_of_not_eq_true hl)
        intro y k t hP ht
        rcases hg.fresh y (k + 1) t ht with hold | ⟨ha, hk, -⟩
        · exact (h y k t hP hold).extends hx
        · have hva : P (index 4 va) := by
            have h4 : index 4 va = index 4 y := ha 0 (by omega)
            rw [h4]
            exact hP
          have hold := (hg.fresh va _ _ hchild).resolve_right (fun hbad => by omega)
          have hu := (h va _ _ hva hold).extends hx
          exact hu.mono ha.symm (by omega)

theorem protectLeaf_tidy (H : tree.Shape E s) (h : tree.Tidy P s) (va : ℕ) (size : PageSize)
    (p : PageProt) :
    ((tree.protectLeaf va size p).run s).Sat (fun _ s' => tree.Tidy P s')
      (fun _ s' => tree.Tidy P s') := by
  have hwalk := walkToLeaf_grows hE hfin H va (depthOf_le size)
  rw [← levelOf_eq] at hwalk
  refine (protectLeaf_rule H hwalk p).mono (fun _ s' h' => ?_) (fun _ s' h' => ?_)
  · obtain ⟨-, -, s₁, e, hg, hx, -, hput⟩ := h'
    exact (h.split hx hg).puts hput (present_leafEntry _ _ _ _)
  · rcases h' with ⟨rfl, -⟩ | ⟨hg, hx, -⟩
    · exact h
    · exact h.split hx hg

theorem splitAt_tidy (H : tree.Shape E s) (h : tree.Tidy P s) (b : ℕ) (size : PageSize) :
    ((tree.splitAt b (levelOf size)).run s).Sat (fun _ s' => tree.Tidy P s')
      (fun _ s' => tree.Tidy P s') := by
  rw [levelOf_eq]
  exact ((splitAt_sat H b (depthOf_le size)).and (splitAt_grows hE hfin H b (depthOf_le size))).mono
    (fun _ _ h' => h.split h'.1.1 h'.2) (fun _ _ h' => h.split h'.1 h'.2)

end Leaves

/-! ## Shrinking -/

/-- All tables are of use but those on the way of `va` down to depth `d`. -/
def TidyBut (tree : RadixTree σ) (P : ℕ → Prop) (va d : ℕ) (s : σ) : Prop :=
  ∀ y k t, P (index 4 y) → tree.tableOn s y (k + 1) = some t →
    tree.Used s y (k + 1) ∨ (k + 1 ≤ d ∧ format.Agree (k + 1) va y)

/-- Each index is a digit of an address. -/
theorem exists_agree_index (va : ℕ) (hd : d ≤ 3) (hi : i < 512) :
    ∃ y, format.Agree d va y ∧ index (4 - d) y = i := by
  refine ⟨va / (512 * span d) * (512 * span d) + i * span d, ?_, ?_⟩
  · rcases d with - | d
    · exact fun k hk => absurd hk (by omega)
    · rw [agree_iff (by omega), span_succ (show d ≤ 2 by omega)]
      have hcases : d = 0 ∨ d = 1 ∨ d = 2 := by omega
      rcases hcases with rfl | rfl | rfl <;> simp only [span] <;> omega
  · rw [index_eq]
    have hcases : d = 0 ∨ d = 1 ∨ d = 2 ∨ d = 3 := by omega
    rcases hcases with rfl | rfl | rfl | rfl <;> simp only [span] <;> omega

/-- A table that is not empty is of use, when the tables below it are. -/
theorem used_of_not_empty (H : tree.Shape E s) (h : tree.TidyBut P va d s)
    (hva : P (index 4 va)) (hd : 0 < d) (hd3 : d ≤ 3) (ht : tree.tableOn s va d = some t)
    (hi : i < 512) (hne : tree.env.read s t i ≠ 0#64) : tree.Used s va d := by
  obtain ⟨y, ha, rfl⟩ := exists_agree_index va hd3 hi
  have hty : tree.tableOn s y d = some t := (tableOn_congr ha).symm.trans ht
  have hs := slotOn_of_tableOn hty
  have hp : present (tree.env.read s t (index (4 - d) y)) = true := by
    by_contra hnp
    exact hne (H.zero y d _ hs (Bool.eq_false_of_not_eq_true hnp))
  by_cases hl : leaf (tree.env.read s t (index (4 - d) y)) (4 - d) = true
  · exact ⟨y, d, _, ha, hs, hp, hl⟩
  · have hchild := tableOn_child hty hp (Bool.eq_false_of_not_eq_true hl)
    have h4 : index 4 va = index 4 y := ha 0 hd
    rcases h y d _ (h4 ▸ hva) hchild with hu | ⟨hle, -⟩
    · exact hu.mono ha (by omega)
    · omega

theorem pruneFrom_tidy (d : ℕ) (s : σ) (hd : d ≤ 3) (H : tree.Shape E s)
    (hpath : tree.OnPath s va path (d + 1)) (h : tree.TidyBut P va d s) :
    ((tree.pruneFrom path (4 - d) d).run s).Sat (fun _ s' => tree.Tidy P s')
      (fun _ _ => False) := by
  refine pruneFrom_rule (I := fun d s => tree.TidyBut P va d s) ?_ ?_ ?_ d s hd H hpath h
  · intro s h y k t hP ht
    exact (h y k t hP ht).resolve_right (fun hbad => by omega)
  · -- a table that is not empty keeps those above it
    intro d c s hd H hc hempty h y k t hP hy
    push Not at hempty
    obtain ⟨i, hi, hne⟩ := hempty
    rcases h y k t hP hy with hu | ⟨hle, ha⟩
    · exact hu
    · have h4 : index 4 va = index 4 y := ha 0 (by omega)
      exact (used_of_not_empty H h (h4 ▸ hP) (by omega) hd hc hi hne).mono ha.symm hle
  · intro d c s s₁ hc hempty hone h y k t hP hy
    have hcut := cut_of_empty hc hempty hone.tables
    rcases h y k t hP (hcut.sub y (k + 1) t hy) with ⟨x, j, e, ha, hm⟩ | ⟨hle, ha⟩
    · exact Or.inl ⟨x, j, e, ha, (hone.prunes.maps x j e).mpr hm⟩
    · refine Or.inr ⟨?_, ha⟩
      by_contra hk
      obtain rfl : k = d := by omega
      rw [hone.tables, if_pos ⟨ha, by omega⟩] at hy
      cases hy

/-- **`remove_leaf` keeps the tree tidy.** -/
theorem removeLeaf_tidy (H : tree.Shape E s) (h : tree.Tidy P s) (va : ℕ) :
    ((tree.removeLeaf va).run s).Sat (fun _ s' => tree.Tidy P s') (fun _ s' => tree.Tidy P s') := by
  refine (removeLeaf_rule (W := fun _ _ s' => tree.Tidy P s') H va
    (fun d e s₁ path hm hputs hpath => ?_)).mono (fun m s' h' => ?_)
    (fun _ s' h' => by rw [h'.1]; exact h)
  · rw [prune_of_depth hm.depth_le]
    refine pruneFrom_tidy d _ hm.depth_le hputs.shape hpath (fun y k t hP ht => ?_)
    -- what is below the slot that was cleared is on the way of the address
    rw [hputs.tables] at ht
    obtain ⟨x, j, e', ha, hm'⟩ := h y k t hP ht
    by_cases hag : format.Agree (d + 1) va x
    · obtain ⟨rfl, -⟩ := hm'.unique (hm.congr hag)
      have hle := hm'.le_of_tableOn ((tableOn_congr ha).symm.trans ht)
      exact Or.inr ⟨hle, (hag.mono (by omega)).trans ha.symm⟩
    · exact Or.inl ⟨x, j, e', ha, (hputs.maps x j e').mpr (by rw [if_neg hag]; exact hm')⟩
  · obtain ⟨-, _, _, _, -, -, -, h'⟩ := h'
    exact h'

/-! ## Ranges -/

section Ranges

variable (hE : E.FailsWhenEmpty) (hfin : E.FiniteAvail)
include hE hfin

theorem mapRange_tidy (H : tree.Shape E s) (h : tree.Tidy P s) (va pa length : ℕ)
    (size : PageSize) (p : PageProt) :
    ((tree.mapRange va pa length size p).run s).Sat (fun _ s' => tree.Tidy P s')
      (fun er s' => er ≠ .outOfMemory → tree.Tidy P s') := by
  rw [mapRange]
  refine (sat_forEachLeaf (I := fun _ s' => tree.Shape E s' ∧ tree.Tidy P s') ⟨H, h⟩
    (fun _ _ _ => h) (fun i s₀ _ h₀ => ?_)).mono (fun _ _ h => h.2.2) (fun _ _ h => h)
  refine ((mapLeaf_sat h₀.1 _ _ _ p).and (mapLeaf_tidy hE hfin h₀.1 h₀.2 _ _ _ p)).mono
    (fun _ s₁ h₁ => ?_) (fun er s₁ h₁ hne => h₁.2 (Or.inl hne))
  obtain ⟨⟨-, -, -, s₂, hx, ⟨rfl, -⟩ | ⟨-, hput⟩⟩, hT⟩ := h₁
  · exact ⟨hx.shape, hT⟩
  · exact ⟨hput.shape, hT⟩

theorem protectRange_tidy (H : tree.Shape E s) (h : tree.Tidy P s) (va length : ℕ)
    (size : PageSize) (p : PageProt) :
    ((tree.protectRange va length size p).run s).Sat (fun _ s' => tree.Tidy P s')
      (fun _ s' => tree.Tidy P s') := by
  rw [protectRange]
  refine (sat_forEachLeaf (I := fun _ s' => tree.Shape E s' ∧ tree.Tidy P s') ⟨H, h⟩
    (fun _ _ => h) (fun i s₀ _ h₀ => ?_)).mono (fun _ _ h => h.2.2) (fun _ _ h => h)
  refine ((protectLeaf_sat h₀.1 _ _ p).and (protectLeaf_tidy hE hfin h₀.1 h₀.2 _ _ p)).mono
    (fun _ s₁ h₁ => ?_) (fun _ _ h₁ => h₁.2)
  obtain ⟨⟨-, -, s₂, e, -, -, hput⟩, hT⟩ := h₁
  exact ⟨hput.shape, hT⟩

theorem unmapRange_tidy (H : tree.Shape E s) (h : tree.Tidy P s) (hlen : length < 2 ^ 64) (va : ℕ)
    (size : PageSize) :
    ((tree.unmapRange va length size ignoreRemoved).run s).Sat (fun _ s' => tree.Tidy P s')
      (fun _ s' => tree.Tidy P s') := by
  refine (unmapRange_keeps (I := fun s' => tree.Shape E s' ∧ tree.Tidy P s') H ⟨H, h⟩ hlen va size
    (fun b s₀ _ h₀ => ?_) (fun x s₀ _ _ _ h₀ => ?_)).mono (fun _ _ h => h.2) (fun _ _ h => h.2)
  · have hsplit := splitAt_sat h₀.1 b (depthOf_le (tree.leafSize size))
    rw [← levelOf_eq] at hsplit
    exact (hsplit.and (splitAt_tidy hE hfin h₀.1 h₀.2 b (tree.leafSize size))).mono
      (fun _ _ h₁ => ⟨h₁.1.1.shape, h₁.2⟩) (fun _ _ h₁ => ⟨h₁.1.shape, h₁.2⟩)
  · refine ((removeLeaf_sat h₀.1 x).and (removeLeaf_tidy h₀.1 h₀.2 x)).mono (fun _ s₁ h₁ => ?_)
      (fun _ s₁ h₁ => ?_)
    · obtain ⟨⟨-, d, e, hrem⟩, hT⟩ := h₁
      exact ⟨hrem.shape, hT⟩
    · obtain ⟨⟨rfl, -⟩, hT⟩ := h₁
      exact ⟨h₀.1, hT⟩

end Ranges

/-! ## Tables in the way -/

/-- A range of whole leaves, all of it canonical. -/
structure WholeLeaves (va pa length : ℕ) (size : PageSize) : Prop where
  pos : 0 < length
  length_aligned : length % size.bytesIn = 0
  va_aligned : va % size.bytesIn = 0
  pa_aligned : pa % size.bytesIn = 0
  end_le : va + length ≤ 2 ^ 64
  canonical : ∀ x, va ≤ x → x < va + length → valid x = true

/-- No table is linked in a slot that a leaf of the range goes to. -/
def SlotsClear (tree : RadixTree σ) (s : σ) (va length : ℕ) (size : PageSize) : Prop :=
  ∀ i, i * size.bytesIn < length → tree.tableOn s (va + i * size.bytesIn) (depthOf size + 1) = none

/-- A leaf that starts inside a range of whole leaves ends inside it. -/
theorem mul_add_le {S : ℕ} (hlen : length % S = 0) (hi : i * S < length) : i * S + S ≤ length := by
  obtain ⟨q, rfl⟩ := Nat.dvd_of_mod_eq_zero hlen
  rw [Nat.mul_comm] at hi
  have hlt : i < q := Nat.lt_of_mul_lt_mul_left hi
  calc i * S + S = S * (i + 1) := by ring
    _ ≤ S * q := Nat.mul_le_mul_left S hlt

theorem eq_of_mul_between {S j : ℕ} (hpos : 0 < S) (hle : i * S ≤ j * S) (hlt : j * S < i * S + S) :
    j = i := by
  have h1 : i ≤ j := Nat.le_of_mul_le_mul_right hle hpos
  have h2 : j < i + 1 := by
    refine Nat.lt_of_mul_lt_mul_right (a := S) ?_
    rw [Nat.add_mul, Nat.one_mul]
    exact hlt
  omega

/-- Every key below a leaf has the digits of an address of the leaf. -/
theorem exists_mem_leaf (hd : d ≤ 3) (hal : va % span d = 0)
    (ha : format.Agree (d + 1) va y) :
    ∃ x, va ≤ x ∧ x < va + span d ∧ format.Agree 4 y x := by
  refine ⟨va + y % span d, by omega, ?_, ?_⟩
  · have := Nat.mod_lt y (span_lt d).1
    omega
  · rw [agree_iff hd] at ha
    rw [agree_iff (le_refl 3)]
    interval_cases d <;> simp only [span] at hal ha ⊢ <;> omega

/-- In a tidy tree no table is in the way of addresses that are not mapped. -/
theorem Tidy.slotsClear (h : tree.Tidy (fun _ => True) s) (H : tree.Shape E s)
    (hr : WholeLeaves va pa length size)
    (hfree : ∀ x, va ≤ x → x < va + length → tree.translation s x = none) :
    tree.SlotsClear s va length size := by
  intro i hi
  by_contra hne
  obtain ⟨t, ht⟩ := Option.ne_none_iff_exists'.mp hne
  obtain ⟨y, j, e, ha, hm⟩ := h _ _ t trivial ht
  have hfit := mul_add_le hr.length_aligned hi
  have hal : (va + i * size.bytesIn) % span (depthOf size) = 0 := by
    rw [span_depthOf, Nat.add_mul_mod_self_right]
    exact hr.va_aligned
  obtain ⟨x, hle, hlt, hag⟩ := exists_mem_leaf (depthOf_le size) hal ha
  rw [span_depthOf] at hlt
  have hx := hr.canonical x (by omega) (by omega)
  have hmx := hm.congr (hag.mono (by have := hm.depth_le; omega))
  have hnone := hfree x (by omega) (by omega)
  rw [translation_of_maps H hx hmx] at hnone
  cases hnone

/-- How far `map_range` has come, on addresses that were not mapped. -/
structure Clears (tree : RadixTree σ) (E : tree.env.Spec ρ) (va length : ℕ) (size : PageSize)
    (s : σ) (m : ℕ) (s' : σ) : Prop where
  shape : tree.Shape E s'
  tables : ∀ y k t, tree.tableOn s y k = some t → tree.tableOn s' y k = some t
  fresh : ∀ y t, tree.tableOn s' y (depthOf size + 1) = some t →
    tree.tableOn s y (depthOf size + 1) = some t
  ahead : ∀ x, va + m ≤ x → x < va + length → valid x = true → tree.translation s' x = none
  clear : tree.SlotsClear s va m size

/-- The next leaf. -/
theorem Clears.step {s₁ : σ} (h : tree.Clears E va length size s (i * size.bytesIn) s')
    (hal : (va + i * size.bytesIn) % size.bytesIn = 0) (hv : valid (va + i * size.bytesIn) = true)
    (hg : tree.Grows E (va + i * size.bytesIn) (depthOf size) s' s₁)
    (hx : tree.Extends E (va + i * size.bytesIn) s' s₁)
    (hcase : (s'' = s₁ ∧ tree.Maps s₁ (va + i * size.bytesIn) (depthOf size) e) ∨
      ((∀ y k e', format.Agree (depthOf size + 1) (va + i * size.bytesIn) y →
        ¬tree.Maps s₁ y k e') ∧ tree.Puts E (va + i * size.bytesIn) (depthOf size) e s₁ s''))
    (hp : present e = true) :
    tree.Clears E va length size s (i * size.bytesIn + size.bytesIn) s'' := by
  have htab : ∀ y k, tree.tableOn s'' y k = tree.tableOn s₁ y k := by
    rcases hcase with ⟨rfl, -⟩ | ⟨-, hput⟩
    · exact fun _ _ => rfl
    · exact hput.tables
  have hm : tree.Maps s'' (va + i * size.bytesIn) (depthOf size) e := by
    rcases hcase with ⟨rfl, hm⟩ | ⟨-, hput⟩
    · exact hm
    · exact (hput.maps _ _ _).mpr (by rw [if_pos (Agree.refl _ _)]; exact ⟨rfl, rfl, hp⟩)
  have htables : ∀ y k t, tree.tableOn s y k = some t → tree.tableOn s'' y k = some t := by
    intro y k t ht
    rw [htab]
    exact hx.tables y k t (h.tables y k t ht)
  refine ⟨?_, htables, fun y t ht => ?_, fun x hle hlt hxv => ?_, fun j hj => ?_⟩
  · rcases hcase with ⟨rfl, -⟩ | ⟨-, hput⟩
    · exact hx.shape
    · exact hput.shape
  · rw [htab] at ht
    exact h.fresh y t ((hg.fresh y _ t ht).resolve_right (fun hbad => by omega))
  · have hold : tree.translation s₁ x = none := by
      rw [hx.translation h.shape hxv]
      exact h.ahead x (by omega) hlt hxv
    rcases hcase with ⟨rfl, -⟩ | ⟨-, hput⟩
    · exact hold
    · -- the address is behind the leaf
      have hout : ¬format.Agree (depthOf size + 1) (va + i * size.bytesIn) x := by
        have hspan : (va + i * size.bytesIn) % span (depthOf size) = 0 := by
          rw [span_depthOf]
          exact hal
        rw [agree_iff_mem (depthOf_le size) hv hxv hspan, span_depthOf]
        omega
      rw [hput.translation hx.shape hxv hp, if_neg hout]
      exact hold
  · by_cases hlow : j * size.bytesIn < i * size.bytesIn
    · exact h.clear j hlow
    · obtain rfl : j = i := eq_of_mul_between (Nat.two_pow_pos _) (not_lt.mp hlow) hj
      by_contra hne
      obtain ⟨t, ht⟩ := Option.ne_none_iff_exists'.mp hne
      have hbelow := htables _ _ t ht
      rw [hm.tableOn_below (by omega)] at hbelow
      cases hbelow

/-- **Why mapping addresses that are not mapped fails**: there are too few tables, or a table
is in the way of a leaf. -/
theorem mapRange_conflict (hE : E.FailsWhenEmpty) (hfin : E.FiniteAvail) (H : tree.Shape E s)
    (hr : WholeLeaves va pa length (tree.leafSize size))
    (hfree : ∀ x, va ≤ x → x < va + length → tree.translation s x = none) (p : PageProt) :
    ((tree.mapRange va pa length size p).run s).Sat
      (fun _ _ => tree.SlotsClear s va length (tree.leafSize size))
      (fun er _ => er = .outOfMemory ∨
        (er = .conflict ∧ ¬tree.SlotsClear s va length (tree.leafSize size))) := by
  rw [mapRange]
  refine (sat_forEachLeaf
    (I := fun m s' => tree.Clears E va length (tree.leafSize size) s m s')
    ⟨H, fun _ _ _ h => h, fun _ _ h => h, fun x hle hlt _ => hfree x (by omega) hlt,
      fun j hj => absurd hj (by omega)⟩ (fun hbad => ?_) (fun j s₀ hj h₀ => ?_)).mono
    (fun _ _ h => h.2.clear) (fun _ _ h => h)
  · have hpos := hr.pos
    exact absurd hr.length_aligned (hbad.resolve_left (by omega))
  generalize tree.leafSize size = lsize at *
  have hpos : 0 < lsize.bytesIn := Nat.two_pow_pos _
  have hend := hr.end_le
  rw [Nat.add_mul, Nat.one_mul] at hj ⊢
  rw [u64_of_lt (by omega)]
  have hv := hr.canonical (va + j * lsize.bytesIn) (by omega) (by omega)
  have hal : (va + j * lsize.bytesIn) % lsize.bytesIn = 0 := by
    rw [Nat.add_mul_mod_self_right]
    exact hr.va_aligned
  refine (mapLeaf_grows hE hfin h₀.shape _ _ lsize p).mono (fun _ s₁ h₁ => ?_) (fun er s₁ h₁ => ?_)
  · obtain ⟨-, -, -, s₂, ⟨hg, -⟩, hx, hcase⟩ := h₁
    exact h₀.step hal hv hg hx hcase (present_leafEntry _ _ _ _)
  · rcases h₁ with ⟨-, hbad⟩ | ⟨⟨her, -⟩, -⟩ | ⟨rfl, ⟨hg, -⟩, hx, e, hs, hp, -⟩
    · refine absurd ⟨hv, hal, ?_⟩ hbad
      rw [u64_mod_bytesIn, Nat.add_mul_mod_self_right]
      exact hr.pa_aligned
    · exact Or.inl her
    · refine Or.inr ⟨rfl, fun hclear => ?_⟩
      by_cases hl : leaf e (4 - depthOf lsize) = true
      · -- a leaf would have been a translation
        have hnone := h₀.ahead _ le_rfl (by omega) hv
        rw [← hx.translation h₀.shape hv, translation_of_maps hx.shape hv ⟨hs, hp, hl⟩] at hnone
        cases hnone
      · obtain ⟨t₀, ht₀, rfl⟩ := tableOn_of_slotOn hs
        have hchild := tableOn_child ht₀ hp (Bool.eq_false_of_not_eq_true hl)
        have hold := (hg.fresh _ _ _ hchild).resolve_right (fun hbad => by omega)
        have hnone := hclear j (by omega)
        rw [h₀.fresh _ _ hold] at hnone
        cases hnone

/-- Mapping one leaf where nothing is mapped succeeds in a tidy tree, with three tables to
spare. -/
theorem Tidy.mapRange_leaf (hE : E.FailsWhenEmpty) (hfin : E.FiniteAvail) (H : tree.Shape E s)
    (h : tree.Tidy (fun _ => True) s) (hspare : E.Spare 3 s)
    (hr : WholeLeaves va pa (tree.leafSize size).bytesIn (tree.leafSize size))
    (hfree : ∀ x, va ≤ x → x < va + (tree.leafSize size).bytesIn → tree.translation s x = none)
    (p : PageProt) :
    ((tree.mapRange va pa (tree.leafSize size).bytesIn size p).run s).Sat
      (fun _ s' => tree.Tidy (fun _ => True) s' ∧ ∀ n, E.Spare (n + 3) s → E.Spare n s')
      (fun _ _ => False) := by
  have hend := hr.end_le
  have hlt : va < 2 ^ 64 := lt_of_lt_of_le (Nat.lt_add_of_pos_right hr.pos) hend
  have hva : valid (u64 va) = true := by
    rw [u64_of_lt hlt]
    exact hr.canonical va le_rfl (Nat.lt_add_of_pos_right hr.pos)
  have hleaf := mapLeaf_supplied hE H hspare hva ((u64_mod_bytesIn va _).trans hr.va_aligned)
    ((u64_mod_bytesIn pa _).trans hr.pa_aligned) p
  rw [← mapRange_single] at hleaf
  -- neither of the two reasons to fail applies
  refine (((mapRange_conflict hE hfin H hr hfree p).and hleaf).and
    (mapRange_tidy hE hfin H h va pa _ size p)).mono (fun _ _ h' => ⟨h'.2, h'.1.2⟩)
    (fun er s' h' => ?_)
  obtain ⟨⟨rfl | ⟨-, hbad⟩, hconflict⟩, -⟩ := h'
  · cases hconflict
  · exact hbad (h.slotsClear H hr hfree)

end RadixTree

end DoomOs
