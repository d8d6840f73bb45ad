/-
# Marks of the processor

The processor writes to the page tables as well: it sets a bit in every entry that it
uses, and another in a leaf that it writes through.  The source does not name these bits
and nothing in it clears them.

* `unmarked` is an entry without them.  Entries that are the same so far are present,
  lead to the same table and map the same page with the same protection.
* `Marks` is one such write, and `Marked` what it leaves: the same tables, and the same
  leaves except for marks.
-/
import DoomOs.RadixRanges

namespace DoomOs

open Comp Paging RadixFormat

namespace Paging

/-! ## Entries -/

/-- Set by the processor in an entry that it uses. -/
def accessedBit : Entry := 1#64 <<< 5

/-- Set by the processor in a leaf that it writes through. -/
def dirtyBit : Entry := 1#64 <<< 6

/-- The entry without its marks. -/
def unmarked (entry : Entry) : Entry := entry &&& ~~~(accessedBit ||| dirtyBit)

variable {e e' : Entry} {k level d : ℕ}

theorem getLsbD_marks (hk : k < 64) :
    accessedBit.getLsbD k = (k == 5) ∧ dirtyBit.getLsbD k = (k == 6) := by
  have hall : ∀ k : Fin 64,
      accessedBit.getLsbD k = (k.1 == 5) ∧ dirtyBit.getLsbD k = (k.1 == 6) := by
    decide
  exact hall ⟨k, hk⟩

theorem getLsbD_unmarked (e : Entry) (hk : k < 64) :
    (unmarked e).getLsbD k = (e.getLsbD k && (k != 5 && k != 6)) := by
  obtain ⟨h5, h6⟩ := getLsbD_marks hk
  rw [unmarked, BitVec.getLsbD_and, BitVec.getLsbD_not, BitVec.getLsbD_or, h5, h6,
    decide_eq_true hk, Bool.true_and, Bool.not_or]
  rfl

/-- Entries that differ in marks only agree on all other bits. -/
theorem getLsbD_of_unmarked (h : unmarked e = unmarked e') (h5 : k ≠ 5) (h6 : k ≠ 6) :
    e.getLsbD k = e'.getLsbD k := by
  by_cases hk : k < 64
  · have hbit := congrArg (fun b => b.getLsbD k) h
    rw [getLsbD_unmarked e hk, getLsbD_unmarked e' hk, bne_iff_ne.mpr h5, bne_iff_ne.mpr h6,
      Bool.and_true, Bool.and_true, Bool.and_true] at hbit
    exact hbit
  · rw [BitVec.getLsbD_of_ge _ _ (by omega), BitVec.getLsbD_of_ge _ _ (by omega)]

/-- A mark on an entry goes away with its marks. -/
theorem unmarked_or {mark : Entry} (hmark : mark = accessedBit ∨ mark = dirtyBit) (e : Entry) :
    unmarked (e ||| mark) = unmarked e := by
  apply BitVec.eq_of_getLsbD_eq
  intro k hk
  obtain ⟨h5, h6⟩ := getLsbD_marks hk
  rw [getLsbD_unmarked _ hk, getLsbD_unmarked _ hk, BitVec.getLsbD_or]
  rcases hmark with rfl | rfl
  · rw [h5]
    by_cases h : k = 5
    · subst h
      simp
    · rw [beq_false_of_ne h, Bool.or_false]
  · rw [h6]
    by_cases h : k = 6
    · subst h
      simp
    · rw [beq_false_of_ne h, Bool.or_false]

/-- An entry without marks is what is left of it. -/
theorem unmarked_eq_self (h5 : e.getLsbD 5 = false) (h6 : e.getLsbD 6 = false) :
    unmarked e = e := by
  apply BitVec.eq_of_getLsbD_eq
  intro k hk
  rw [getLsbD_unmarked e hk]
  by_cases hk5 : k = 5
  · subst hk5
    rw [h5]
    rfl
  · by_cases hk6 : k = 6
    · subst hk6
      rw [h6]
      rfl
    · rw [bne_iff_ne.mpr hk5, bne_iff_ne.mpr hk6, Bool.and_true, Bool.and_true]

/-- The kernel writes leaves without marks. -/
theorem marks_leafEntry (feat : Features) (phys : ℕ) (size : PageSize) (p : PageProt) :
    (leafEntry feat phys size p).getLsbD 5 = false ∧
      (leafEntry feat phys size p).getLsbD 6 = false := by
  rw [leafEntry_eq, getLsbD_or_address phys (by decide), getLsbD_or_address phys (by decide),
    getLsbD_leafFlags feat size p (by decide), getLsbD_leafFlags feat size p (by decide)]
  simp

section Congr

variable (h : unmarked e = unmarked e')
include h

theorem present_congr : present e = present e' := by
  rw [present_eq, present_eq]
  exact getLsbD_of_unmarked h (by decide) (by decide)

theorem leaf_congr (level : ℕ) : leaf e level = leaf e' level := by
  rw [leaf_eq, leaf_eq, getLsbD_of_unmarked h (by decide) (by decide)]

theorem address_congr : address e = address e' := by
  apply Nat.eq_of_testBit_eq
  intro k
  rw [testBit_address, testBit_address]
  by_cases hk : 12 ≤ k ∧ k < 52
  · rw [getLsbD_of_unmarked h (by omega) (by omega)]
  · rw [decide_eq_false hk, Bool.false_and, Bool.false_and]

theorem prot_congr : prot e = prot e' := by
  rw [prot_eq, prot_eq]
  rw [getLsbD_of_unmarked h (k := 1) (by decide) (by decide),
    getLsbD_of_unmarked h (k := 63) (by decide) (by decide),
    getLsbD_of_unmarked h (k := 2) (by decide) (by decide),
    getLsbD_of_unmarked h (k := 8) (by decide) (by decide),
    getLsbD_of_unmarked h (k := 4) (by decide) (by decide)]

theorem child_congr (d : ℕ) : format.child d e = format.child d e' := by
  unfold format
  dsimp only
  rw [present_congr h, leaf_congr h, address_congr h]

end Congr

end Paging

namespace RadixTree

variable {σ ρ : Type} {tree : RadixTree σ} {E : tree.env.Spec ρ} {s s' : σ}
  {x y d k t : ℕ} {e e' : Entry}

/-! ## Marking an entry of the tree -/

/-- A write of the processor: it marks a present entry as accessed, or a leaf as dirty. -/
inductive Marks (tree : RadixTree σ) (s : σ) : σ → Prop
  | accessed (x d t : ℕ) : tree.tableOn s x d = some t →
      present (tree.env.read s t (index (4 - d) x)) = true →
      Marks tree s (tree.env.write t (index (4 - d) x)
        (tree.env.read s t (index (4 - d) x) ||| accessedBit) s)
  | dirty (x d t : ℕ) : tree.tableOn s x d = some t →
      present (tree.env.read s t (index (4 - d) x)) = true →
      leaf (tree.env.read s t (index (4 - d) x)) (4 - d) = true →
      Marks tree s (tree.env.write t (index (4 - d) x)
        (tree.env.read s t (index (4 - d) x) ||| dirtyBit) s)

/-- The tree of `s'` is that of `s`, except for marks. -/
structure Marked (tree : RadixTree σ) (E : tree.env.Spec ρ) (s s' : σ) : Prop where
  shape : tree.Shape E s'
  tables : ∀ y k, tree.tableOn s' y k = tree.tableOn s y k
  was : ∀ y k e', tree.Maps s' y k e' → ∃ e, tree.Maps s y k e ∧ unmarked e' = unmarked e
  stays : ∀ y k e, tree.Maps s y k e → ∃ e', tree.Maps s' y k e' ∧ unmarked e' = unmarked e
  avail : E.avail s' = E.avail s

theorem Shape.marked (H : tree.Shape E s) (ht : tree.tableOn s x d = some t)
    (hp : present (tree.env.read s t (index (4 - d) x)) = true)
    (he : unmarked e = unmarked (tree.env.read s t (index (4 - d) x))) :
    tree.Marked E s (tree.env.write t (index (4 - d) x) e s) := by
  have hr := E.read_write t (index (4 - d) x) e s
  have hc := child_congr he d
  have htab : ∀ y k, tree.tableOn (tree.env.write t (index (4 - d) x) e s) y k
      = tree.tableOn s y k := by
    intro y k
    rw [tableOn, hr]
    exact tableOn_store_same H.separate ht hc y k
  have hslot : ∀ y k, tree.slotOn (tree.env.write t (index (4 - d) x) e s) y k
      = if k = d ∧ format.Agree (d + 1) x y then some e else tree.slotOn s y k := by
    intro y k
    rw [slotOn, hr]
    exact slotOn_store_same H.separate ht hc y k
  -- an entry of the new tree is one of the old tree, except for marks
  have hwas : ∀ y k e', tree.slotOn (tree.env.write t (index (4 - d) x) e s) y k = some e' →
      ∃ e₀, tree.slotOn s y k = some e₀ ∧ unmarked e' = unmarked e₀ := by
    intro y k e' hs
    rw [hslot] at hs
    split_ifs at hs with h
    · obtain ⟨rfl, ha⟩ := h
      obtain rfl := Option.some.inj hs
      exact ⟨_, (slotOn_congr ha).symm.trans (slotOn_of_tableOn ht), he⟩
    · exact ⟨e', hs, rfl⟩
  have hmaps : ∀ y k e', tree.Maps (tree.env.write t (index (4 - d) x) e s) y k e' →
      ∃ e₀, tree.Maps s y k e₀ ∧ unmarked e' = unmarked e₀ := by
    rintro y k e' ⟨hs, hp', hl'⟩
    obtain ⟨e₀, hs₀, heq⟩ := hwas y k e' hs
    exact ⟨e₀, ⟨hs₀, (present_congr heq).symm.trans hp', (leaf_congr heq _).symm.trans hl'⟩, heq⟩
  refine ⟨⟨E.good_write _ _ _ _ H.good, ?_, ?_, ?_, ?_, ?_⟩, htab, hmaps, ?_, E.avail_write _ _ _ _⟩
  · intro y z k k' c hy hz
    exact H.separate y z k k' c ((htab y k).symm.trans hy) ((htab z k').symm.trans hz)
  · intro y k c hy
    rw [E.avail_write]
    exact H.not_avail y k c ((htab y k).symm.trans hy)
  · intro y k c hy
    exact H.managed y k c ((htab y (k + 1)).symm.trans hy)
  · intro y k e' hs hpf
    rw [hslot] at hs
    split_ifs at hs with h
    · -- the marked entry is present
      obtain rfl := Option.some.inj hs
      rw [present_congr he, hp] at hpf
      cases hpf
    · exact H.zero y k e' hs hpf
  · intro y k e' hm
    obtain ⟨e₀, hm₀, heq⟩ := hmaps y k e' hm
    rw [address_congr heq]
    exact H.leaf_aligned y k e₀ hm₀
  · rintro y k e₀ ⟨hs₀, hp₀, hl₀⟩
    by_cases h : k = d ∧ format.Agree (d + 1) x y
    · obtain ⟨rfl, ha⟩ := h
      have hold := (slotOn_congr ha).symm.trans (slotOn_of_tableOn ht)
      obtain rfl := Option.some.inj (hs₀.symm.trans hold)
      refine ⟨e, ⟨?_, (present_congr he).trans hp₀, (leaf_congr he _).trans hl₀⟩, he⟩
      rw [hslot, if_pos ⟨rfl, ha⟩]
    · refine ⟨e₀, ⟨?_, hp₀, hl₀⟩, rfl⟩
      rw [hslot, if_neg h]
      exact hs₀

theorem Marks.marked (h : tree.Marks s s') (H : tree.Shape E s) : tree.Marked E s s' := by
  cases h with
  | accessed x d t ht hp => exact H.marked ht hp (unmarked_or (Or.inl rfl) _)
  | dirty x d t ht hp _ => exact H.marked ht hp (unmarked_or (Or.inr rfl) _)

/-- The processor may mark the leaf that it uses for an address. -/
theorem Maps.exists_accessed (hm : tree.Maps s x d e) (H : tree.Shape E s) :
    ∃ s', tree.Marks s s' ∧ tree.Maps s' x d (e ||| accessedBit) := by
  obtain ⟨t, ht, rfl⟩ := tableOn_of_slotOn hm.1
  have heq := unmarked_or (Or.inl rfl) (tree.env.read s t (index (4 - d) x))
  refine ⟨_, .accessed x d t ht hm.2.1, ?_, (present_congr heq).trans hm.2.1,
    (leaf_congr heq _).trans hm.2.2⟩
  rw [slotOn, E.read_write]
  exact slotOn_store_self H.separate ht _ (Agree.refl _ _)

theorem Marked.owned (h : tree.Marked E s s') : tree.owned E s' = tree.owned E s := by
  simp only [RadixTree.owned, h.avail, RadixTree.tables, h.tables]

/-- Marks do not change what addresses translate to. -/
theorem Marked.translation (h : tree.Marked E s s') (H : tree.Shape E s) (hx : valid x = true) :
    tree.translation s' x = tree.translation s x := by
  by_cases hm : ∃ k e, tree.Maps s x k e
  · obtain ⟨k, e, hm⟩ := hm
    obtain ⟨e', hm', heq⟩ := h.stays x k e hm
    rw [translation_of_maps H hx hm, translation_of_maps h.shape hx hm', address_congr heq,
      prot_congr heq]
  · have hno : ∀ k e, ¬tree.Maps s x k e := fun k e hm' => hm ⟨k, e, hm'⟩
    rw [translation_of_not_maps H hx hno, translation_of_not_maps h.shape hx (fun k e' hm' => ?_)]
    obtain ⟨e, hm₀, -⟩ := h.was x k e' hm'
    exact hno k e hm₀

end RadixTree

end DoomOs
