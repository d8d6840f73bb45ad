/-
# Operations on one leaf

What `map_leaf`, `protect_leaf`, `split_at` and `remove_leaf` do to the tree, each
as one statement about its outcome: the walk extends the tree, and then at most one
slot, which led to no table, gets another entry (`Puts`).
-/
import DoomOs.RadixWalk

namespace DoomOs

open Comp Paging RadixFormat

namespace RadixTree

variable {σ ρ : Type} {tree : RadixTree σ} {E : tree.env.Spec ρ} {s s' s'' : σ}
  {x y va pa d k t c target level : ℕ} {e e' : Entry} {path : WalkPath} {size : PageSize}
  {p : PageProt}

/-! ## Sizes and depths -/

/-- The depth of the leaves of a size. -/
def depthOf : PageSize → ℕ
  | .size4K => 3
  | .size2M => 2
  | .size1G => 1

theorem levelOf_eq (size : PageSize) : levelOf size = 4 - depthOf size := by
  cases size <;> rfl

theorem depthOf_pos (size : PageSize) : 1 ≤ depthOf size := by
  cases size <;> decide

theorem depthOf_le (size : PageSize) : depthOf size ≤ 3 := by
  cases size <;> decide

theorem span_depthOf (size : PageSize) : span (depthOf size) = size.bytesIn := by
  cases size <;> rfl

theorem levelOf_pos (size : PageSize) : 1 ≤ levelOf size := by
  cases size <;> decide

theorem levelOf_le (size : PageSize) : levelOf size ≤ 4 := by
  cases size <;> decide

theorem bytesIn_depth (h1 : 1 ≤ d) (h3 : d ≤ 3) : (sizeAt (4 - d)).bytesIn = span d :=
  (span_eq h1 h3).symm

theorem and_bytesIn_sub_one (v : ℕ) (size : PageSize) :
    v &&& (size.bytesIn - 1) = v % size.bytesIn := Nat.and_two_pow_sub_one_eq_mod v size.shiftOf

/-- A wrap does not change the alignment. -/
theorem u64_mod_bytesIn (n : ℕ) (size : PageSize) : u64 n % size.bytesIn = n % size.bytesIn := by
  refine Nat.mod_mod_of_dvd n (Nat.pow_dvd_pow 2 ?_)
  cases size <;> decide

/-- `validate` accepts canonical addresses that are aligned to the size. -/
theorem validate_sat (va : ℕ) (size : PageSize) (pa : ℕ) (s : σ) :
    ((validate va size pa).run s).Sat
      (fun target s' => s' = s ∧ target = levelOf size ∧ valid va = true ∧
        va % size.bytesIn = 0 ∧ pa % size.bytesIn = 0)
      (fun _ s' => s' = s ∧
        ¬(valid va = true ∧ va % size.bytesIn = 0 ∧ pa % size.bytesIn = 0)) := by
  have hiff : ¬(!valid va || (va ||| pa) &&& (size.bytesIn - 1) != 0) = true ↔
      valid va = true ∧ va % size.bytesIn = 0 ∧ pa % size.bytesIn = 0 := by
    rw [Bool.or_eq_true, not_or, bne_iff_ne, not_not, Bool.not_eq_true', Bool.not_eq_false,
      and_bytesIn_sub_one, PageSize.bytesIn, Nat.or_mod_two_pow, Nat.or_eq_zero_iff]
  rw [validate]
  split_ifs with h
  · exact ⟨rfl, fun hok => hiff.mpr hok h⟩
  · exact ⟨rfl, rfl, hiff.mp h⟩

/-! ## One slot -/

/-- The slot that `va` meets at depth `d` now holds `e`; it led to no table before and
leads to none now. -/
structure Puts (tree : RadixTree σ) (E : tree.env.Spec ρ) (va d : ℕ) (e : Entry) (s s' : σ) :
    Prop where
  shape : tree.Shape E s'
  tables : ∀ y k, tree.tableOn s' y k = tree.tableOn s y k
  maps : ∀ y k e', tree.Maps s' y k e' ↔
    if format.Agree (d + 1) va y then k = d ∧ e' = e ∧ present e = true else tree.Maps s y k e'
  owned : tree.owned E s' = tree.owned E s
  avail : E.avail s' = E.avail s
  rest : E.rest s' = E.rest s

theorem Shape.puts (H : tree.Shape E s) (ht : tree.tableOn s va d = some t)
    (hs : format.child d (tree.env.read s t (index (4 - d) va)) = none)
    (he : e = 0#64 ∨ (present e = true ∧ leaf e (4 - d) = true ∧ 1 ≤ d ∧ address e % span d = 0)) :
    tree.Puts E va d e s (tree.env.write t (index (4 - d) va) e s) := by
  have hr := E.read_write t (index (4 - d) va) e s
  have hc : format.child d e = none := by
    rcases he with rfl | ⟨-, hl, -⟩
    · exact child_zero d
    · exact child_eq_none.mpr (fun _ => hl)
  have htab : ∀ y k, tree.tableOn (tree.env.write t (index (4 - d) va) e s) y k
      = tree.tableOn s y k := by
    intro y k
    rw [tableOn_put H.separate ht hr hc]
    split_ifs with h
    · -- below the slot there was nothing either
      have hy : tree.slotOn s y d = some (tree.env.read s t (index (4 - d) va)) :=
        (slotOn_congr h.1).symm.trans (slotOn_of_tableOn ht)
      exact (tableOn_none_below (tableOn_succ_none hy hs) h.2).symm
    · rfl
  refine ⟨H.put ht he, htab, fun y k e' => maps_put_iff H.separate ht hr hc, ?_,
    E.avail_write _ _ _ _, E.rest_write _ _ _ _⟩
  simp only [RadixTree.owned, E.avail_write, RadixTree.tables, htab]

/-! ## Mapping -/

/-- What a successful `map_leaf` leaves: the entry was there already, or the address was
not mapped and the entry has been written. -/
def MapsLeaf (tree : RadixTree σ) (E : tree.env.Spec ρ) (va d : ℕ) (e : Entry) (s s' : σ) : Prop :=
  ∃ s₁, tree.Extends E va s s₁ ∧ ((s' = s₁ ∧ tree.Maps s₁ va d e) ∨
    ((∀ y k e', format.Agree (d + 1) va y → ¬tree.Maps s₁ y k e') ∧ tree.Puts E va d e s₁ s'))

/-- The tail of `map_leaf`, once the walk is done. -/
theorem mapLeaf_rule {W : σ → Prop} {F : MmError → σ → Prop} (H : tree.Shape E s)
    (hwalk : ((tree.walk va (levelOf size) true).run s).Sat (fun _ s₁ => W s₁) F) (pa : ℕ)
    (p : PageProt) :
    ((tree.mapLeaf va pa size p).run s).Sat
      (fun _ s' => valid va = true ∧ va % size.bytesIn = 0 ∧ pa % size.bytesIn = 0 ∧
        ∃ s₁, W s₁ ∧ tree.Extends E va s s₁ ∧
          ((s' = s₁ ∧ tree.Maps s₁ va (depthOf size) (leafEntry tree.feat pa size p)) ∨
          ((∀ y k e', format.Agree (depthOf size + 1) va y → ¬tree.Maps s₁ y k e') ∧
            tree.Puts E va (depthOf size) (leafEntry tree.feat pa size p) s₁ s')))
      (fun er s' =>
        (s' = s ∧ ¬(valid va = true ∧ va % size.bytesIn = 0 ∧ pa % size.bytesIn = 0)) ∨
        (F er s' ∧ tree.Extends E va s s') ∨
        (er = .conflict ∧ W s' ∧ tree.Extends E va s s' ∧ ∃ e,
          tree.slotOn s' va (depthOf size) = some e ∧ present e = true ∧
            e ≠ leafEntry tree.feat pa size p)) := by
  rw [mapLeaf, sat_bind]
  refine (validate_sat va size pa s).mono (fun target s₀ h₀ => ?_) (fun _ s₀ h₀ => Or.inl h₀)
  obtain ⟨rfl, rfl, hva, hal, hpal⟩ := h₀
  rw [sat_bind]
  refine ((walk_true_sat H _ (levelOf_pos size) (levelOf_le size)).and hwalk).mono
    (fun path s₁ h₁ => ?_) (fun _ _ h => Or.inr (Or.inl ⟨h.2, h.1⟩))
  obtain ⟨⟨hx, hpath⟩, hW⟩ := h₁
  rw [levelOf_eq, show 4 - (4 - depthOf size) = depthOf size by
    have := depthOf_le size; omega] at hpath
  obtain ⟨ht, hslot⟩ := hpath (depthOf size) (by omega)
  have hs := hpath.slotOn (Nat.lt_succ_self _)
  rw [← levelOf_eq] at ht hslot hs
  rw [load, run_gets_bind]
  -- the entry asked for is an aligned leaf
  have hspan := span_depthOf size
  have haligned : address (leafEntry tree.feat pa size p) % span (depthOf size) = 0 := by
    rw [address_leafEntry, hspan]
    cases size <;> simp only [PageSize.bytesIn_size4K, PageSize.bytesIn_size2M,
      PageSize.bytesIn_size1G] at hpal ⊢ <;> omega
  have hleaf := leaf_leafEntry tree.feat pa size p
  by_cases hp : present (tree.env.read s₁ (path.slots (levelOf size)).table
      (path.slots (levelOf size)).index) = true
  · by_cases heq : tree.env.read s₁ (path.slots (levelOf size)).table
        (path.slots (levelOf size)).index = leafEntry tree.feat pa size p
    · rw [if_neg (by simp [heq]), if_neg (by simp [hp])]
      refine ⟨hva, hal, hpal, s₁, hW, hx, Or.inl ⟨rfl, ?_⟩⟩
      rw [heq] at hs
      exact ⟨hs, present_leafEntry _ _ _ _, (levelOf_eq size) ▸ hleaf⟩
    · rw [if_pos (by simp [hp, heq])]
      exact Or.inr (Or.inr ⟨rfl, hW, hx, _, hs, hp, heq⟩)
  · have hpf := Bool.eq_false_of_not_eq_true hp
    rw [if_neg (by simp [hpf]), if_pos (by simp [hpf]), replace, run_modify, Outcome.sat_ok, hslot]
    refine ⟨hva, hal, hpal, s₁, hW, hx, Or.inr ⟨fun y k e' ha => ?_, ?_⟩⟩
    · exact not_maps_of_not_present ((slotOn_congr ha).symm.trans hs) hpf k e'
    · rw [hslot] at hpf
      rw [levelOf_eq] at hpf hleaf ht ⊢
      exact hx.shape.puts ht (child_eq_none.mpr (fun h => absurd h (by simp [hpf])))
        (Or.inr ⟨present_leafEntry _ _ _ _, hleaf, depthOf_pos size, haligned⟩)

theorem mapLeaf_sat (H : tree.Shape E s) (va pa : ℕ) (size : PageSize) (p : PageProt) :
    ((tree.mapLeaf va pa size p).run s).Sat
      (fun _ s' => valid va = true ∧ va % size.bytesIn = 0 ∧ pa % size.bytesIn = 0 ∧
        tree.MapsLeaf E va (depthOf size) (leafEntry tree.feat pa size p) s s')
      (fun _ s' => tree.Extends E va s s') := by
  have hwalk := (walk_true_sat H va (levelOf_pos size) (levelOf_le size)).mono
    (fun _ _ _ => trivial) (fun _ _ _ => trivial)
  refine (mapLeaf_rule H hwalk pa p).mono (fun _ s' h => ?_) (fun _ s' h => ?_)
  · obtain ⟨hva, hal, hpal, s₁, -, hx, hcase⟩ := h
    exact ⟨hva, hal, hpal, s₁, hx, hcase⟩
  · rcases h with ⟨rfl, -⟩ | ⟨-, hx⟩ | ⟨-, -, hx, -⟩
    · exact Extends.refl H va
    · exact hx
    · exact hx

/-! ## Protecting -/

/-- The walk ends at a leaf at depth `d`; if there was one from the start it does not
fail. -/
theorem walkToLeaf_sat (H : tree.Shape E s) (va : ℕ) (hd : d ≤ 3) :
    ((tree.walkToLeaf va (4 - d)).run s).Sat
      (fun path s' => tree.Extends E va s s' ∧ tree.OnPath s' va path (d + 1) ∧
        ∃ e, tree.Maps s' va d e)
      (fun _ s' => tree.Extends E va s s' ∧ ∀ e, ¬tree.Maps s va d e) := by
  -- the checks at the end, for a path to the target
  have hlast : ∀ {path s₁}, tree.Extends E va s s₁ → tree.OnPath s₁ va path (d + 1) →
      (∀ e, tree.Maps s va d e → tree.Maps s₁ va d e) →
      ((do
        let entry ← tree.load (path.slots (4 - d))
        if !present entry then fail .notMapped
        else if !leaf entry (4 - d) then fail .conflict
        else pure path : Comp Fault MmError σ WalkPath).run s₁).Sat
        (fun path s' => tree.Extends E va s s' ∧ tree.OnPath s' va path (d + 1) ∧
          ∃ e, tree.Maps s' va d e)
        (fun _ s' => tree.Extends E va s s' ∧ ∀ e, ¬tree.Maps s va d e) := by
    intro path s₁ hx hpath hkeep
    rw [load, run_gets_bind]
    have hs := hpath.slotOn (Nat.lt_succ_self d)
    by_cases hp : present (tree.env.read s₁ (path.slots (4 - d)).table
        (path.slots (4 - d)).index) = true
    · rw [if_neg (by simp [hp])]
      by_cases hl : leaf (tree.env.read s₁ (path.slots (4 - d)).table
          (path.slots (4 - d)).index) (4 - d) = true
      · rw [if_neg (by simp [hl])]
        exact ⟨hx, hpath, _, hs, hp, hl⟩
      · rw [if_pos (by simp [hl])]
        refine ⟨hx, fun e hm => hl ?_⟩
        rw [Option.some.inj (hs.symm.trans (hkeep e hm).1)]
        exact hm.2.2
    · rw [if_pos (by simp [hp])]
      refine ⟨hx, fun e hm => hp ?_⟩
      rw [Option.some.inj (hs.symm.trans (hkeep e hm).1)]
      exact hm.2.1
  rw [walkToLeaf, sat_bind]
  refine (walk_false_sat (by omega) (by omega)).mono (fun path s₀ h₀ => ?_) (fun _ s₀ h₀ => ?_)
  swap
  · rw [h₀.1]
    exact ⟨Extends.refl H va, h₀.2 d⟩
  obtain ⟨rfl, d', hd', hpath, hreach, hcase⟩ := h₀
  dsimp only
  by_cases habove : path.reachedLevel > 4 - d
  · -- a leaf above the target, so none at the target
    have hno : ∀ e, ¬tree.Maps s₀ va d e := by
      intro e hm
      rcases hcase with h | ⟨-, e', hm'⟩
      · omega
      · obtain ⟨rfl, -⟩ := hm.unique hm'
        omega
    rw [if_pos habove, sat_bind]
    refine (walk_true_sat H _ (by omega) (by omega)).mono (fun path₁ s₁ h₁ => ?_)
      (fun _ _ h => ⟨h, hno⟩)
    rw [show 4 - (4 - d) = d by omega] at h₁
    exact hlast h₁.1 h₁.2 (fun e hm => absurd hm (hno e))
  · rw [if_neg habove, run_pure_bind]
    obtain rfl : d' = d := by
      rcases hcase with h | ⟨h, -⟩
      · omega
      · omega
    exact hlast (Extends.refl H va) hpath (fun _ hm => hm)

/-- Where there is a leaf at the target, walking to it changes nothing. -/
theorem walkToLeaf_still (hd : d ≤ 3) (hm : tree.Maps s va d e) :
    ((tree.walkToLeaf va (4 - d)).run s).Sat (fun _ s' => s' = s) (fun _ _ => False) := by
  rw [walkToLeaf, sat_bind]
  refine (walk_false_sat (by omega) (by omega)).mono (fun path s₀ h₀ => ?_)
    (fun _ _ h₀ => h₀.2 d e hm)
  obtain ⟨rfl, d', hd', hpath, hreach, hcase⟩ := h₀
  -- the walk ends at the leaf, and there is no other
  obtain rfl : d' = d := by
    rcases hcase with h | ⟨-, e', hm'⟩
    · omega
    · exact (hm'.unique hm).1
  have he : tree.env.read s₀ (path.slots (4 - d')).table (path.slots (4 - d')).index = e :=
    Option.some.inj ((hpath.slotOn (Nat.lt_succ_self d')).symm.trans hm.1)
  dsimp only
  rw [if_neg (by omega), run_pure_bind, load, run_gets_bind, he, hm.2.1, hm.2.2]
  exact rfl

/-- The tail of `protect_leaf`, once the leaf is found: it writes to the table of the leaf. -/
theorem protectLeaf_writes {W F : σ → Prop} (H : tree.Shape E s)
    (hwalk : ((tree.walkToLeaf va (levelOf size)).run s).Sat (fun _ s₁ => W s₁) (fun _ s' => F s'))
    (p : PageProt) :
    ((tree.protectLeaf va size p).run s).Sat
      (fun _ s' => valid va = true ∧ va % size.bytesIn = 0 ∧
        ∃ s₁ e t, W s₁ ∧ tree.Extends E va s s₁ ∧ tree.Maps s₁ va (depthOf size) e ∧
          tree.tableOn s₁ va (depthOf size) = some t ∧
          s' = tree.env.write t (index (4 - depthOf size) va)
            (leafEntry tree.feat (address e) size p) s₁)
      (fun _ s' => (s' = s ∧ ¬(valid va = true ∧ va % size.bytesIn = 0)) ∨
        (F s' ∧ tree.Extends E va s s' ∧ ∀ e, ¬tree.Maps s va (depthOf size) e)) := by
  have hd := depthOf_le size
  rw [protectLeaf, sat_bind]
  refine (validate_sat va size 0 s).mono (fun target s₀ h₀ => ?_) (fun _ s₀ h₀ => ?_)
  swap
  · exact Or.inl ⟨h₀.1, fun h => h₀.2 ⟨h.1, h.2, Nat.zero_mod _⟩⟩
  obtain ⟨rfl, rfl, hva, hal, -⟩ := h₀
  rw [levelOf_eq] at hwalk ⊢
  rw [sat_bind]
  refine ((walkToLeaf_sat H va hd).and hwalk).mono (fun path s₁ h₁ => ?_)
    (fun _ _ h => Or.inr ⟨h.2, h.1⟩)
  obtain ⟨⟨hx, hpath, e, hm⟩, hW⟩ := h₁
  obtain ⟨ht, hslot⟩ := hpath (depthOf size) (by omega)
  have hs := hpath.slotOn (Nat.lt_succ_self (depthOf size))
  have he : tree.env.read s₁ (path.slots (4 - depthOf size)).table
      (path.slots (4 - depthOf size)).index = e := Option.some.inj (hs.symm.trans hm.1)
  rw [load, run_gets_bind, he, replace, run_modify, hslot]
  exact ⟨hva, hal, s₁, e, _, hW, hx, hm, ht, rfl⟩

theorem protectLeaf_rule {W F : σ → Prop} (H : tree.Shape E s)
    (hwalk : ((tree.walkToLeaf va (levelOf size)).run s).Sat (fun _ s₁ => W s₁) (fun _ s' => F s'))
    (p : PageProt) :
    ((tree.protectLeaf va size p).run s).Sat
      (fun _ s' => valid va = true ∧ va % size.bytesIn = 0 ∧
        ∃ s₁ e, W s₁ ∧ tree.Extends E va s s₁ ∧ tree.Maps s₁ va (depthOf size) e ∧
          tree.Puts E va (depthOf size) (leafEntry tree.feat (address e) size p) s₁ s')
      (fun _ s' => (s' = s ∧ ¬(valid va = true ∧ va % size.bytesIn = 0)) ∨
        (F s' ∧ tree.Extends E va s s' ∧ ∀ e, ¬tree.Maps s va (depthOf size) e)) := by
  refine (protectLeaf_writes H hwalk p).mono (fun _ s' h => ?_) (fun _ _ h => h)
  obtain ⟨hva, hal, s₁, e, t, hW, hx, hm, ht, rfl⟩ := h
  have he : tree.env.read s₁ t (index (4 - depthOf size) va) = e :=
    Option.some.inj ((slotOn_of_tableOn ht).symm.trans hm.1)
  obtain ⟨h1, haligned⟩ := hx.shape.leaf_aligned va _ e hm
  refine ⟨hva, hal, s₁, e, hW, hx, hm,
    hx.shape.puts ht ?_ (Or.inr ⟨present_leafEntry _ _ _ _, ?_, h1, ?_⟩)⟩
  · rw [he]
    exact hm.child_none
  · rw [← levelOf_eq]
    exact leaf_leafEntry _ _ _ _
  · rw [address_leafEntry, mod_two_pow_52 (address_mod e) (address_lt e)]
    exact haligned

/-- **Protecting a leaf that is there** changes one word of its table. -/
theorem protectLeaf_still (H : tree.Shape E s) (hva : valid va = true)
    (hal : va % size.bytesIn = 0) (hm : tree.Maps s va (depthOf size) e) (p : PageProt) :
    ((tree.protectLeaf va size p).run s).Sat
      (fun _ s' => ∃ t, tree.tableOn s va (depthOf size) = some t ∧
        s' = tree.env.write t (index (4 - depthOf size) va)
          (leafEntry tree.feat (address e) size p) s)
      (fun _ _ => False) := by
  have hwalk := walkToLeaf_still (depthOf_le size) hm
  rw [← levelOf_eq] at hwalk
  refine (protectLeaf_writes H hwalk p).mono (fun _ s' h => ?_) (fun _ s' h => ?_)
  · obtain ⟨-, -, s₁, e', t, rfl, -, hm', ht, hs'⟩ := h
    rw [(hm.unique hm').2]
    exact ⟨t, ht, hs'⟩
  · rcases h with ⟨-, hbad⟩ | ⟨h, -⟩
    · exact hbad ⟨hva, hal⟩
    · exact h

theorem protectLeaf_sat (H : tree.Shape E s) (va : ℕ) (size : PageSize) (p : PageProt) :
    ((tree.protectLeaf va size p).run s).Sat
      (fun _ s' => valid va = true ∧ va % size.bytesIn = 0 ∧
        ∃ s₁ e, tree.Extends E va s s₁ ∧ tree.Maps s₁ va (depthOf size) e ∧
          tree.Puts E va (depthOf size) (leafEntry tree.feat (address e) size p) s₁ s')
      (fun _ s' => tree.Extends E va s s' ∧ (valid va = true → va % size.bytesIn = 0 →
        ∀ e, ¬tree.Maps s va (depthOf size) e)) := by
  have hwalk := (walkToLeaf_sat H va (depthOf_le size)).mono (fun _ _ _ => trivial)
    (fun _ _ _ => trivial)
  rw [← levelOf_eq] at hwalk
  refine (protectLeaf_rule H hwalk p).mono (fun _ s' h => ?_) (fun _ s' h => ?_)
  · obtain ⟨hva, hal, s₁, e, -, h⟩ := h
    exact ⟨hva, hal, s₁, e, h⟩
  · rcases h with ⟨rfl, hbad⟩ | ⟨-, hx, hno⟩
    · exact ⟨Extends.refl H va, fun hva hal => absurd ⟨hva, hal⟩ hbad⟩
    · exact ⟨hx, fun _ _ => hno⟩

/-! ## Splitting -/

/-- No leaf above depth `d` reaches across the address `b`. -/
def SplitAt (tree : RadixTree σ) (s : σ) (b d : ℕ) : Prop :=
  ∀ k e, tree.Maps s b k e → d ≤ k ∨ b % span k = 0

theorem splitAt_sat (H : tree.Shape E s) (b : ℕ) (hd : d ≤ 3) :
    ((tree.splitAt b (4 - d)).run s).Sat
      (fun _ s' => tree.Extends E b s s' ∧ tree.SplitAt s' b d)
      (fun _ s' => tree.Extends E b s s') := by
  rw [splitAt, sat_bind, sat_attempt]
  refine (walk_false_sat (by omega) (by omega)).mono (fun path s₀ h₀ => ?_) (fun _ s₀ h₀ => ?_)
  swap
  · obtain ⟨rfl, hno⟩ := h₀
    exact ⟨Extends.refl H b, fun k e hm => absurd hm (hno k e)⟩
  obtain ⟨rfl, d', hd', hpath, hreach, hcase⟩ := h₀
  simp only [hreach]
  by_cases hcond : (decide (4 - d' > 4 - d) && (b &&& ((sizeAt (4 - d')).bytesIn - 1)) != 0) = true
  · rw [if_pos hcond, sat_bind]
    refine (walk_true_sat H _ (by omega) (by omega)).mono (fun path₁ s₁ h₁ => ?_) (fun _ _ h => h)
    rw [show 4 - (4 - d) = d by omega] at h₁
    exact ⟨h₁.1, fun k e hm => Or.inl (hm.le_of_tableOn (h₁.2 d (by omega)).1)⟩
  · rw [if_neg hcond]
    refine ⟨Extends.refl H b, fun k e hm => ?_⟩
    rcases hcase with heq | ⟨hlt, e₀, hm₀⟩
    · obtain rfl : d' = d := by omega
      exact Or.inl (hm.le_of_tableOn (hpath d' (by omega)).1)
    · -- a leaf above the target that starts at the boundary
      obtain ⟨rfl, rfl⟩ := hm.unique hm₀
      obtain ⟨h1, -⟩ := H.leaf_aligned b k e hm
      right
      rw [and_bytesIn_sub_one, bytesIn_depth h1 hd'] at hcond
      simp only [decide_eq_true hlt, Bool.true_and, bne_iff_ne, not_not] at hcond
      exact hcond

/-- Where no leaf reaches across, there is nothing to split. -/
theorem splitAt_still (H : tree.Shape E s) {b : ℕ} (hd : d ≤ 3) (h : tree.SplitAt s b d) :
    ((tree.splitAt b (4 - d)).run s).Sat (fun _ s' => s' = s) (fun _ _ => False) := by
  rw [splitAt, sat_bind, sat_attempt]
  refine (walk_false_sat (by omega) (by omega)).mono (fun path s₀ h₀ => ?_) (fun _ s₀ h₀ => h₀.1)
  obtain ⟨rfl, d', hd', -, hreach, hcase⟩ := h₀
  simp only [hreach]
  have hcond :
      ¬(decide (4 - d' > 4 - d) && (b &&& ((sizeAt (4 - d')).bytesIn - 1)) != 0) = true := by
    rw [Bool.and_eq_true, decide_eq_true_eq, bne_iff_ne]
    rintro ⟨habove, hne⟩
    rcases hcase with heq | ⟨-, e, hm⟩
    · omega
    · have h1 := (H.leaf_aligned b d' e hm).1
      rw [and_bytesIn_sub_one, bytesIn_depth h1 hd'] at hne
      rcases h d' e hm with hle | hmod
      · omega
      · exact hne hmod
  rw [if_neg hcond]
  rfl

/-! ## Removing -/

/-- The leaf that maps `va` is gone, its mapping is `m`, and nothing else changed. -/
structure Removes (tree : RadixTree σ) (E : tree.env.Spec ρ) (va : ℕ) (m : Mapping) (s s' : σ)
    (d : ℕ) (e : Entry) : Prop where
  was : tree.Maps s va d e
  mapping : m = ⟨address e, 0, sizeAt (4 - d), prot e⟩
  shape : tree.Shape E s'
  maps : ∀ y k e', tree.Maps s' y k e' ↔ tree.Maps s y k e' ∧ ¬format.Agree (d + 1) va y
  frame : ∀ y, index 4 y ≠ index 4 va → ∀ k, tree.tableOn s' y k = tree.tableOn s y k
  owned : tree.owned E s' = tree.owned E s
  avail : ∀ t ∈ E.avail s', t ∈ E.pinned → t ∈ E.avail s
  rest : E.rest s' = E.rest s

/-- `remove_leaf` clears the slot of the leaf and prunes the way to it. -/
theorem removeLeaf_rule {W : ℕ → σ → σ → Prop} (H : tree.Shape E s) (va : ℕ)
    (hprune : ∀ d e s₁ path, tree.Maps s va d e → tree.Puts E va d 0#64 s s₁ →
      tree.OnPath s₁ va path (d + 1) →
      ((tree.prune path (4 - d)).run s₁).Sat (fun _ s' => W d s₁ s') (fun _ _ => False)) :
    ((tree.removeLeaf va).run s).Sat
      (fun m s' => valid va = true ∧ ∃ d e s₁, tree.Maps s va d e ∧
        m = ⟨address e, 0, sizeAt (4 - d), prot e⟩ ∧ tree.Puts E va d 0#64 s s₁ ∧ W d s₁ s')
      (fun _ s' => s' = s ∧ (valid va = true → ∀ k e, ¬tree.Maps s va k e)) := by
  rw [removeLeaf]
  by_cases hva : valid va = true
  swap
  · rw [if_pos (by simp [hva])]
    exact ⟨rfl, fun h => absurd h hva⟩
  rw [if_neg (by simp [hva]), sat_bind]
  refine (walk_false_sat le_rfl (by omega)).mono (fun path s₀ h₀ => ?_) (fun _ s₀ h₀ => ?_)
  swap
  · exact ⟨h₀.1, fun _ => h₀.2⟩
  obtain ⟨rfl, d, hd, hpath, hreach, hcase⟩ := h₀
  dsimp only
  rw [load, run_gets_bind, hreach]
  obtain ⟨ht, hslot⟩ := hpath d (by omega)
  have hs := hpath.slotOn (Nat.lt_succ_self d)
  by_cases hp : present (tree.env.read s₀ (path.slots (4 - d)).table
      (path.slots (4 - d)).index) = true
  swap
  · rw [if_pos (by simp [hp])]
    exact ⟨rfl, fun _ => not_maps_of_not_present hs (Bool.eq_false_of_not_eq_true hp)⟩
  rw [if_neg (by simp [hp])]
  have hm : tree.Maps s₀ va d (tree.env.read s₀ (path.slots (4 - d)).table
      (path.slots (4 - d)).index) := by
    refine ⟨hs, hp, ?_⟩
    rcases hcase with h1 | ⟨-, e, hm⟩
    · rw [h1]
      rfl
    · rw [Option.some.inj (hs.symm.trans hm.1)]
      exact hm.2.2
  -- first the slot is cleared, then the empty tables above it go
  have hputs := H.puts (e := 0#64) ht (by
    have hc := hm.child_none
    rw [hslot] at hc
    exact hc) (Or.inl rfl)
  rw [replace, run_modify_bind, hslot, sat_bind]
  rw [hslot] at hm
  have hpath₁ : tree.OnPath (tree.env.write (path.tables (4 - d)) (index (4 - d) va) 0#64 s₀) va
      path (d + 1) := fun k hk => ⟨(hputs.tables va k).trans (hpath k hk).1, (hpath k hk).2⟩
  refine (hprune d _ _ path hm hputs hpath₁).mono (fun _ s₁ h₁ => ?_) (fun _ _ h => h.elim)
  exact ⟨hva, d, _, _, hm, rfl, hputs, h₁⟩

theorem removeLeaf_sat (H : tree.Shape E s) (va : ℕ) :
    ((tree.removeLeaf va).run s).Sat
      (fun m s' => valid va = true ∧ ∃ d e, tree.Removes E va m s s' d e)
      (fun _ s' => s' = s ∧ (valid va = true → ∀ k e, ¬tree.Maps s va k e)) := by
  refine (removeLeaf_rule (W := fun _ s₁ s' => tree.Prunes E va s₁ s') H va
    (fun d e s₁ path hm hputs hpath => prune_sat hputs.shape hm.depth_le hpath)).mono
    (fun m s' h => ?_) (fun _ _ h => h)
  obtain ⟨hva, d, e, s₁, hm, rfl, hputs, h₁⟩ := h
  refine ⟨hva, d, e, hm, rfl, h₁.shape, fun y k e' => ?_, fun y hy k => ?_,
    h₁.owned.trans hputs.owned, fun t ht hp => hputs.avail ▸ h₁.avail t ht hp,
    h₁.rest.trans hputs.rest⟩
  · rw [h₁.maps, hputs.maps]
    have h0 : present 0#64 = false := by decide
    split_ifs with ha <;> simp [ha, h0]
  · rw [h₁.frame y hy, hputs.tables]

end RadixTree

end DoomOs
