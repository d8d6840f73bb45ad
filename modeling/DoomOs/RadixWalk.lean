/-
# Walking the page tables

`walk` without allocation only reads, and its path is the way of the address.  With
allocation it changes the tree, but only in one manner, `Extends`: tables are added,
leaves are cut into pieces that map what they mapped, and each table added was
available before.  That holds also where it runs out of tables half way.

`prune` is the reverse: it takes empty tables off the way of an address and gives
them back (`Prunes`).
-/
import DoomOs.RadixShape

namespace DoomOs

open Comp Paging RadixFormat

namespace RadixTree

variable {σ ρ : Type} {tree : RadixTree σ} {E : tree.env.Spec ρ} {s s' s'' : σ}
  {x y va d k t c target level : ℕ} {e e' : Entry} {path : WalkPath}

/-! ## How the tree grows -/

/-- The leaf `e'` at depth `k'` maps `y` to where the leaf `e` at depth `k` does, with
the same protection, and is the same leaf or a part of it. -/
structure Piece (y k : ℕ) (e : Entry) (k' : ℕ) (e' : Entry) : Prop where
  le : k ≤ k'
  same : k' = k → e' = e
  physical : address e' + y % span k' = address e + y % span k
  prot : prot e' = prot e

theorem Piece.refl (y k : ℕ) (e : Entry) : Piece y k e k e := ⟨le_rfl, fun _ => rfl, rfl, rfl⟩

theorem Piece.trans {k k' k'' : ℕ} {e e' e'' : Entry} (h : Piece y k e k' e')
    (h' : Piece y k' e' k'' e'') : Piece y k e k'' e'' := by
  refine ⟨h.le.trans h'.le, fun heq => ?_, h'.physical.trans h.physical, h'.prot.trans h.prot⟩
  have hle := h.le
  have hle' := h'.le
  rw [h'.same (by omega), h.same (by omega)]

/-- The tree of `s'` is that of `s` with tables added on the way of `va` and leaves
cut into pieces. -/
structure Extends (tree : RadixTree σ) (E : tree.env.Spec ρ) (va : ℕ) (s s' : σ) : Prop where
  shape : tree.Shape E s'
  tables : ∀ y k t, tree.tableOn s y k = some t → tree.tableOn s' y k = some t
  frame : ∀ y, index 4 y ≠ index 4 va → ∀ k, tree.tableOn s' y k = tree.tableOn s y k
  finer : ∀ y k e, tree.Maps s y k e → ∃ k' e', tree.Maps s' y k' e' ∧ Piece y k e k' e'
  covered : ∀ y k e, tree.Maps s' y k e → ∃ k' e', tree.Maps s y k' e'
  owned : tree.owned E s' = tree.owned E s
  avail : ∀ t ∈ E.avail s', t ∈ E.pinned → t ∈ E.avail s
  rest : E.rest s' = E.rest s

theorem Extends.refl (H : tree.Shape E s) (va : ℕ) : tree.Extends E va s s :=
  ⟨H, fun _ _ _ h => h, fun _ _ _ => rfl, fun y k e h => ⟨k, e, h, Piece.refl y k e⟩,
    fun _ k e h => ⟨k, e, h⟩, rfl, fun _ h _ => h, rfl⟩

theorem Extends.trans (h : tree.Extends E va s s') (h' : tree.Extends E va s' s'') :
    tree.Extends E va s s'' where
  shape := h'.shape
  tables y k t ht := h'.tables y k t (h.tables y k t ht)
  frame y hy k := (h'.frame y hy k).trans (h.frame y hy k)
  finer y k e hm := by
    obtain ⟨k', e', hm', hp⟩ := h.finer y k e hm
    obtain ⟨k'', e'', hm'', hp'⟩ := h'.finer y k' e' hm'
    exact ⟨k'', e'', hm'', hp.trans hp'⟩
  covered y k e hm := by
    obtain ⟨k', e', hm'⟩ := h'.covered y k e hm
    exact h.covered y k' e' hm'
  owned := h'.owned.trans h.owned
  avail t ht hp := h.avail t (h'.avail t ht hp) hp
  rest := h'.rest.trans h.rest

/-- A leaf of the larger tree is a piece of a leaf of the smaller one. -/
theorem Extends.piece (h : tree.Extends E va s s') (hm : tree.Maps s' y k e) :
    ∃ k' e', tree.Maps s y k' e' ∧ Piece y k' e' k e := by
  obtain ⟨k', e', hm'⟩ := h.covered y k e hm
  obtain ⟨k'', e'', hm'', hp⟩ := h.finer y k' e' hm'
  obtain ⟨rfl, rfl⟩ := hm.unique hm''
  exact ⟨k', e', hm', hp⟩

/-- Where there are 4 KiB leaves only, growing the tree changes no leaf. -/
theorem Extends.maps_iff (h : tree.Extends E va s s') (hdepth : ∀ k e, tree.Maps s y k e → k = 3) :
    tree.Maps s' y k e ↔ tree.Maps s y k e := by
  constructor
  · intro hm
    obtain ⟨k', e', hm', hp⟩ := h.piece hm
    have hk' := hdepth k' e' hm'
    have hle := hp.le
    have hk := hm.depth_le
    obtain rfl : k = k' := by omega
    rw [hp.same rfl]
    exact hm'
  · intro hm
    obtain ⟨k', e', hm', hp⟩ := h.finer y k e hm
    have hk := hdepth k e hm
    have hle := hp.le
    have hk' := hm'.depth_le
    obtain rfl : k' = k := by omega
    rw [← hp.same rfl]
    exact hm'

/-- Addresses below different entries of the root part at once. -/
theorem not_agree_of_index (h : index 4 y ≠ index 4 va) : ¬format.Agree (d + 1) va y :=
  fun ha => h (ha 0 (by omega)).symm

/-- The table `c` has been taken from the available ones, and filled with what can take the
place of the entry `e` at depth `d`. -/
structure Taken (tree : RadixTree σ) (E : tree.env.Spec ρ) (d c : ℕ) (e : Entry) (s s₁ : σ) :
    Prop where
  mem : c ∈ E.avail s
  managed : c ∈ E.managed
  aligned : c % 4096 = 0
  lt : c < 2 ^ 52
  good : E.good s₁
  avail : E.avail s₁ = E.avail s \ {c}
  rest : E.rest s₁ = E.rest s
  read : ∀ t' ≠ c, ∀ i, tree.env.read s₁ t' i = tree.env.read s t' i
  content : (present e = false ∧ ∀ i < 512, tree.env.read s₁ c i = 0#64) ∨
    (present e = true ∧ leaf e (4 - d) = true ∧
      ∀ i < 512, tree.env.read s₁ c i = splitEntry e (4 - d) i)

namespace Taken

variable {s₁ : σ} (T : tree.Taken E d c e s s₁) (H : tree.Shape E s)
include T H

/-- The table is not in the tree, so the tree is the same. -/
theorem inside : ∀ y k t', tree.tableOn s y k = some t' →
    ∀ i, tree.env.read s₁ t' i = tree.env.read s t' i := by
  intro y k t' hy
  refine T.read t' ?_
  rintro rfl
  exact H.not_avail y k t' hy T.mem

theorem tableOn_eq (y k : ℕ) : tree.tableOn s₁ y k = tree.tableOn s y k :=
  tableOn_of_read_eq (T.inside H) y k

theorem slotOn_eq (y k : ℕ) : tree.slotOn s₁ y k = tree.slotOn s y k :=
  slotOn_of_read_eq (T.inside H) y k

theorem shape : tree.Shape E s₁ := by
  refine H.of_read_eq (T.inside H) T.good ?_
  intro y k t' hy hm
  rw [T.avail] at hm
  exact H.not_avail y k t' hy hm.1

theorem newTable : tree.NewTable E s₁ d c e := by
  refine ⟨T.managed, ?_, T.aligned, T.lt, fun y k hy => ?_, T.content⟩
  · rw [T.avail]
    exact fun h => h.2 rfl
  · rw [T.tableOn_eq H] at hy
    exact H.not_avail y k c hy T.mem

/-- The tables once it has been linked. -/
theorem link_cases (ht : tree.tableOn s va d = some t) (hd : d ≤ 2) {c' : ℕ}
    (hy : tree.tableOn (tree.env.write t (index (4 - d) va) (tableEntry c) s₁) y k = some c') :
    tree.tableOn s y k = some c' ∨ (c' = c ∧ k = d + 1 ∧ format.Agree (d + 1) va y) := by
  rw [← T.tableOn_eq H]
  exact tableOn_link_cases (T.shape H) ((T.tableOn_eq H va d).trans ht) hd (T.newTable H)
    (E.read_write _ _ _ _) hy

end Taken

/-- Linking a table that was available just before extends the tree. -/
theorem Shape.extends_link (H : tree.Shape E s) (ht : tree.tableOn s va d = some t) (hd : d ≤ 2)
    (hs : tree.slotOn s va d = some e) {s₁ : σ} (T : tree.Taken E d c e s s₁) :
    tree.Extends E va s (tree.env.write t (index (4 - d) va) (tableEntry c) s₁) := by
  have hin := T.inside H
  have htab := T.tableOn_eq H
  have H₁ := T.shape H
  have N := T.newTable H
  have hav := T.avail
  have hcontent := T.content
  have ht₁ := (htab va d).trans ht
  have hs₁ := (T.slotOn_eq H va d).trans hs
  have hr := E.read_write t (index (4 - d) va) (tableEntry c) s₁
  have hsome := fun y k t' (hy : tree.tableOn s y k = some t') =>
    tableOn_link_of_some H₁ ht₁ N hr hs₁ ((htab y k).trans hy)
  refine ⟨H₁.link ht₁ hd hs₁ N, hsome, ?_, ?_, ?_, ?_, fun t' ht' _ => ?_, ?_⟩
  · intro y hy k
    rw [tableOn_put_of_not_agree H₁.separate ht₁ hr (not_agree_of_index hy), htab]
  · intro y k e₀ hm
    by_cases ha : format.Agree (d + 1) va y
    · -- the leaf that was cut
      have hva : tree.slotOn s y d = some e := (slotOn_congr ha).symm.trans hs
      rcases hcontent with ⟨hp, -⟩ | ⟨hp, hl, hsp⟩
      · have hle := hm.le_of_tableOn
          ((tableOn_congr (ha.mono (by omega : d ≤ d + 1))).symm.trans ht)
        rcases hle.eq_or_lt with rfl | hlt
        · have heq := Option.some.inj (hva.symm.trans hm.1)
          rw [heq, hm.2.1] at hp
          cases hp
        · obtain ⟨t', ht', -⟩ := tableOn_of_slotOn hm.1
          have hchild : format.child d e = none :=
            child_eq_none.mpr (fun h => absurd h (by simp [hp]))
          have hnone := tableOn_none_below (tableOn_succ_none hva hchild) (show d + 1 ≤ k by omega)
          rw [tableOn, hnone] at ht'
          cases ht'
      · obtain ⟨rfl, rfl⟩ := hm.unique (⟨hva, hp, hl⟩ : tree.Maps s y d e)
        obtain ⟨-, hal₀⟩ := H.leaf_aligned y k e₀ hm
        refine ⟨k + 1, splitEntry e₀ (4 - k) (index (4 - (k + 1)) y), ?_, ?_⟩
        · rw [maps_link_iff H₁ ht₁ hd N hr, if_pos ha, present_splitEntry]
          exact ⟨rfl, (hsp _ (index_lt _ _)).symm, hp⟩
        · exact ⟨by omega, fun h => absurd h (by omega), address_piece_offset hd hal₀,
            prot_splitEntry _ _ _⟩
    · refine ⟨k, e₀, ?_, Piece.refl y k e₀⟩
      rw [maps_link_iff H₁ ht₁ hd N hr, if_neg ha, maps_of_read_eq hin]
      exact hm
  · intro y k e₀ hm
    rw [maps_link_iff H₁ ht₁ hd N hr] at hm
    split_ifs at hm with ha
    · obtain ⟨rfl, rfl, hp⟩ := hm
      rcases hcontent with ⟨-, hz⟩ | ⟨hpe, hl, -⟩
      · rw [hz _ (index_lt _ _), present_eq] at hp
        simp at hp
      · exact ⟨d, e, (slotOn_congr ha).symm.trans hs, hpe, hl⟩
    · exact ⟨k, e₀, (maps_of_read_eq hin).mp hm⟩
  · -- the new table was available, and is a table now
    have hc : tree.tableOn (tree.env.write t (index (4 - d) va) (tableEntry c) s₁) va (d + 1)
        = some c := tableOn_link_child H₁ ht₁ hd N hr (Agree.refl _ _)
    ext t'
    simp only [owned, E.avail_write, hav, Set.mem_sdiff, Set.mem_union, Set.mem_singleton_iff,
      RadixTree.tables, Set.mem_ofPred_eq]
    refine and_congr_left (fun _ => ?_)
    constructor
    · rintro (⟨h, -⟩ | ⟨y, k, hy⟩)
      · exact Or.inl h
      · rcases T.link_cases H ht hd hy with h | ⟨rfl, -, -⟩
        · exact Or.inr ⟨y, k, h⟩
        · exact Or.inl T.mem
    · rintro (h | ⟨y, k, hy⟩)
      · by_cases heq : t' = c
        · subst heq
          exact Or.inr ⟨va, d, hc⟩
        · exact Or.inl ⟨h, heq⟩
      · exact Or.inr ⟨y, k, hsome y (k + 1) t' hy⟩
  · rw [E.avail_write, hav] at ht'
    exact ht'.1
  · rw [E.rest_write, T.rest]

/-! ## Paths -/

/-- The path holds the way of `va` down to depth `d`, exclusively. -/
def OnPath (tree : RadixTree σ) (s : σ) (va : ℕ) (path : WalkPath) (d : ℕ) : Prop :=
  ∀ k < d, tree.tableOn s va k = some (path.tables (4 - k)) ∧
    path.slots (4 - k) = ⟨path.tables (4 - k), index (4 - k) va⟩

theorem OnPath.visit (h : tree.OnPath s va path d) (ht : tree.tableOn s va d = some t) :
    tree.OnPath s va (path.visit (4 - d) t va) (d + 1) := by
  have hd := depth_le ht
  intro k hk
  rcases Nat.lt_succ_iff_lt_or_eq.mp hk with hlt | rfl
  · have hne : 4 - k ≠ 4 - d := by omega
    simp only [WalkPath.visit, Function.update_of_ne hne]
    exact h k hlt
  · simp only [WalkPath.visit, Function.update_self]
    exact ⟨ht, trivial⟩

theorem OnPath.extends (h : tree.OnPath s va path d) (hx : tree.Extends E y s s') :
    tree.OnPath s' va path d :=
  fun k hk => ⟨hx.tables _ _ _ (h k hk).1, (h k hk).2⟩

/-- Reading through a slot of the path is reading on the way. -/
theorem OnPath.slotOn (h : tree.OnPath s va path d) (hk : k < d) :
    tree.slotOn s va k
      = some (tree.env.read s (path.slots (4 - k)).table (path.slots (4 - k)).index) := by
  obtain ⟨ht, hslot⟩ := h k hk
  rw [slotOn_of_tableOn ht, hslot]

/-! ## Reading -/

/-- What a walk that may not allocate returns: the path to the target, or to a leaf
above it. -/
def Reached (tree : RadixTree σ) (s : σ) (va target : ℕ) (path : WalkPath) : Prop :=
  ∃ d ≤ 3, tree.OnPath s va path (d + 1) ∧ path.reachedLevel = 4 - d ∧
    (4 - d = target ∨ (target < 4 - d ∧ ∃ e, tree.Maps s va d e))

/-- No leaf maps an address whose way ends at an entry that is not present. -/
theorem not_maps_of_not_present (hs : tree.slotOn s x d = some e) (hp : present e = false) :
    ∀ k e', ¬tree.Maps s x k e' := by
  intro k e' hm
  obtain ⟨t, ht, -⟩ := tableOn_of_slotOn hs
  rcases (hm.le_of_tableOn ht).eq_or_lt with rfl | hlt
  · have heq := Option.some.inj (hs.symm.trans hm.1)
    rw [heq, hm.2.1] at hp
    cases hp
  · have hc : format.child d e = none := child_eq_none.mpr (fun h => absurd h (by simp [hp]))
    obtain ⟨t', ht', -⟩ := tableOn_of_slotOn hm.1
    have hnone := tableOn_none_below (tableOn_succ_none hs hc) (show d + 1 ≤ k by omega)
    rw [tableOn, hnone] at ht'
    cases ht'

/-- A root without entries has the shape of a tree. -/
theorem Shape.empty (hgood : E.good s) (hroot : tree.root ∉ E.avail s)
    (hzero : ∀ i < 512, tree.env.read s tree.root i = 0#64) : tree.Shape E s := by
  have hslot : ∀ x, tree.slotOn s x 0 = some 0#64 := by
    intro x
    rw [slotOn_of_tableOn (t := tree.root) rfl, hzero _ (index_lt _ _)]
  have hone : ∀ x k, 0 < k → tree.tableOn s x k = none := fun x k hk =>
    tableOn_none_below (tableOn_succ_none (hslot x) (child_zero 0)) hk
  have htab : ∀ x k t, tree.tableOn s x k = some t → k = 0 ∧ t = tree.root := by
    intro x k t hx
    rcases Nat.eq_zero_or_pos k with rfl | hk
    · exact ⟨rfl, (Option.some.inj hx).symm⟩
    · rw [hone x k hk] at hx
      cases hx
  refine ⟨hgood, ?_, ?_, ?_, ?_, ?_⟩
  · intro x y k k' t hx hy
    obtain ⟨rfl, -⟩ := htab x k t hx
    obtain ⟨rfl, -⟩ := htab y k' t hy
    exact ⟨rfl, fun j hj => absurd hj (by omega)⟩
  · intro x k t hx
    rw [(htab x k t hx).2]
    exact hroot
  · intro x k t hx
    have := (htab x (k + 1) t hx).1
    omega
  · intro x k e hs hp
    obtain ⟨t, ht, -⟩ := tableOn_of_slotOn hs
    obtain ⟨rfl, -⟩ := htab x k t ht
    exact Option.some.inj (hs.symm.trans (hslot x))
  · intro x k e hm
    refine absurd hm (not_maps_of_not_present (hslot x) ?_ k e)
    decide

theorem tableOn_child (ht : tree.tableOn s va d = some t)
    (hp : present (tree.env.read s t (index (4 - d) va)) = true)
    (hl : leaf (tree.env.read s t (index (4 - d) va)) (4 - d) = false) :
    tree.tableOn s va (d + 1) = some (address (tree.env.read s t (index (4 - d) va))) :=
  tableOn_succ_iff.mpr ⟨t, ht, child_eq_some.mpr ⟨hp, hl, rfl⟩⟩

theorem walkFrom_false_sat (htarget : 1 ≤ target) : ∀ (level d t : ℕ) (path : WalkPath),
    level + d = 4 → target ≤ level → tree.tableOn s va d = some t → tree.OnPath s va path d →
    ((tree.walkFrom va target false level t path).run s).Sat
      (fun p s' => s' = s ∧ tree.Reached s va target p)
      (fun _ s' => s' = s ∧ ∀ k e, ¬tree.Maps s va k e) := by
  intro level
  induction level with
  | zero =>
    intro d t path hlev htl
    omega
  | succ level ih =>
    intro d t path hlev htl ht hpath
    have hl4 : level + 1 = 4 - d := by omega
    have hvisit := hpath.visit ht
    rw [walkFrom]
    by_cases htar : level + 1 = target
    · rw [if_pos htar]
      refine ⟨rfl, d, by omega, ?_, ?_, Or.inl (hl4.symm.trans htar)⟩
      · rw [hl4]
        exact hvisit
      · exact hl4
    · rw [if_neg htar, hl4]
      simp only [load, run_gets_bind, Bool.not_false, Bool.and_true]
      have hslot := slotOn_of_tableOn ht
      by_cases hp : present (tree.env.read s t (index (4 - d) va)) = true
      · simp only [hp, Bool.not_true, Bool.false_eq_true, if_false, Bool.true_and]
        by_cases hl : leaf (tree.env.read s t (index (4 - d) va)) (4 - d) = true
        · rw [if_pos hl]
          exact ⟨rfl, d, by omega, hvisit, rfl, Or.inr ⟨by omega, _, hslot, hp, hl⟩⟩
        · rw [if_neg hl]
          have hlf := Bool.eq_false_of_not_eq_true hl
          simp only [grow, hp, hlf, Bool.not_true, Bool.false_eq_true, if_false, run_pure_bind,
            run_gets_bind]
          exact ih (d + 1) _ _ (by omega) (by omega) (tableOn_child ht hp hlf) hvisit
      · have hpf := Bool.eq_false_of_not_eq_true hp
        simp only [hpf, Bool.not_false, if_true, run_fail, Outcome.sat_err, true_and]
        exact not_maps_of_not_present hslot hpf

/-- **Walking without allocation** only reads, and ends at the target or at the leaf
that maps the address. -/
theorem walk_false_sat (h1 : 1 ≤ target) (h4 : target ≤ 4) :
    ((tree.walk va target false).run s).Sat
      (fun p s' => s' = s ∧ tree.Reached s va target p)
      (fun _ s' => s' = s ∧ ∀ k e, ¬tree.Maps s va k e) :=
  walkFrom_false_sat h1 4 0 tree.root {} rfl h4 rfl (fun k hk => absurd hk (by omega))

/-! ## Growing -/

/-- Filling the new table with the pieces of a leaf. -/
theorem split_sat (s : σ) (child : ℕ) (entry : Entry) (level : ℕ) :
    ((tree.split child entry level).run s).Sat
      (fun _ s' => (E.good s → E.good s') ∧ E.avail s' = E.avail s ∧ E.rest s' = E.rest s ∧
        ∀ t i, tree.env.read s' t i
          = if t = child ∧ i < 512 then splitEntry entry level i else tree.env.read s t i)
      (fun _ _ => False) := by
  let I : ℕ → σ → Prop := fun n s' => (E.good s → E.good s') ∧ E.avail s' = E.avail s ∧
    E.rest s' = E.rest s ∧ ∀ t i, tree.env.read s' t i
      = if t = child ∧ i < n then splitEntry entry level i else tree.env.read s t i
  refine sat_forRange (I := I) (fun i s' hi hI => ?_) ⟨fun h => h, rfl, rfl, fun t i => ?_⟩
  · obtain ⟨hg, hav, hrest, hread⟩ := hI
    refine ⟨fun h => E.good_write _ _ _ _ (hg h), (E.avail_write _ _ _ _).trans hav,
      (E.rest_write _ _ _ _).trans hrest, fun t j => ?_⟩
    rw [E.read_write, store, hread]
    by_cases ht : t = child
    · rcases lt_trichotomy j i with hlt | rfl | hgt
      · rw [if_neg (by omega), if_pos ⟨ht, hlt⟩, if_pos ⟨ht, by omega⟩]
      · rw [if_pos ⟨ht, rfl⟩, if_pos ⟨ht, by omega⟩]
      · rw [if_neg (by omega), if_neg (by omega), if_neg (by omega)]
    · rw [if_neg (fun h => ht h.1), if_neg (fun h => ht h.1), if_neg (fun h => ht h.1)]
  · rw [if_neg (by omega)]

/-- **What growing does**: nothing where the entry leads to a table, and otherwise it links a
table taken from the available ones. -/
theorem grow_cases (H : tree.Shape E s) (t i d : ℕ) :
    ((tree.grow ⟨t, i⟩ (tree.env.read s t i) (4 - d)).run s).Sat
      (fun _ s' =>
        (s' = s ∧ present (tree.env.read s t i) = true ∧
          leaf (tree.env.read s t i) (4 - d) = false) ∨
        (format.child d (tree.env.read s t i) = none ∧ ∃ c s₁,
          tree.Taken E d c (tree.env.read s t i) s s₁ ∧ s' = tree.env.write t i (tableEntry c) s₁))
      (fun _ s' => s' = s) := by
  rw [grow]
  by_cases hp : present (tree.env.read s t i) = true
  · rw [if_neg (by simp [hp])]
    by_cases hl : leaf (tree.env.read s t i) (4 - d) = true
    · rw [if_pos hl, sat_bind]
      refine (E.alloc s H.good).mono (fun c s₁ ha => ?_) (fun _ _ h => h)
      rw [sat_bind]
      refine (split_sat (E := E) s₁ c _ (4 - d)).mono (fun _ s₂ hs₂ => ?_) (fun _ _ h => h.elim)
      obtain ⟨hg, hav, hrest, hread⟩ := hs₂
      refine Or.inr ⟨child_eq_none.mpr (fun _ => hl), c, s₂, ⟨ha.mem, ha.managed, ha.aligned, ha.lt,
        hg ha.good, hav.trans ha.avail, hrest.trans ha.rest, fun t' hne j => ?_,
        Or.inr ⟨hp, hl, fun j hj => ?_⟩⟩, rfl⟩
      · rw [hread, if_neg (fun h => hne h.1), ha.read t' hne]
      · rw [hread, if_pos ⟨rfl, hj⟩]
    · rw [if_neg hl]
      exact Or.inl ⟨rfl, hp, Bool.eq_false_of_not_eq_true hl⟩
  · have hpf := Bool.eq_false_of_not_eq_true hp
    rw [if_pos (by simp [hpf]), sat_bind]
    refine (E.alloc s H.good).mono (fun c s₁ ha => ?_) (fun _ _ h => h)
    exact Or.inr ⟨child_eq_none.mpr (fun h => absurd h hp), c, s₁, ⟨ha.mem, ha.managed, ha.aligned,
      ha.lt, ha.good, ha.avail, ha.rest, ha.read, Or.inl ⟨hpf, ha.zero⟩⟩, rfl⟩

theorem grow_sat (H : tree.Shape E s) (ht : tree.tableOn s va d = some t) (hd : d ≤ 2) :
    ((tree.grow ⟨t, index (4 - d) va⟩ (tree.env.read s t (index (4 - d) va)) (4 - d)).run s).Sat
      (fun _ s' => tree.Extends E va s s' ∧ tree.tableOn s' va (d + 1)
        = some (address (tree.env.read s' t (index (4 - d) va))))
      (fun _ s' => s' = s) := by
  refine (grow_cases H t (index (4 - d) va) d).mono (fun _ s' h => ?_) (fun _ _ h => h)
  rcases h with ⟨rfl, hp, hl⟩ | ⟨-, c, s₁, T, rfl⟩
  · exact ⟨Extends.refl H va, tableOn_child ht hp hl⟩
  · have hx := H.extends_link ht hd (slotOn_of_tableOn ht) T
    have hread : tree.env.read (tree.env.write t (index (4 - d) va) (tableEntry c) s₁) t
        (index (4 - d) va) = tableEntry c := by rw [E.read_write, store_self]
    refine ⟨hx, tableOn_child (hx.tables va d t ht) ?_ ?_⟩
    · rw [hread]
      exact present_tableEntry c
    · rw [hread]
      exact leaf_tableEntry c (by omega)

/-- **The rule for walking with allocation.**  What holds at depth `d` is carried downwards by
each table that is met or linked, down to the table at depth `D`. -/
theorem walk_true_rule (va : ℕ) {D : ℕ} {I : ℕ → WalkPath → σ → Prop}
    {Q : WalkPath → σ → Prop} {R : MmError → σ → Prop} (hD : D ≤ 3)
    (hlast : ∀ {t path s}, tree.tableOn s va D = some t → I D path s →
      Q (path.visit (4 - D) t va) s)
    (hgrow : ∀ {d t path s}, d < D → tree.Shape E s → tree.tableOn s va d = some t → I d path s →
      ((tree.grow ⟨t, index (4 - d) va⟩ (tree.env.read s t (index (4 - d) va)) (4 - d)).run s).Sat
        (fun _ s' => tree.Extends E va s s' → I (d + 1) (path.visit (4 - d) t va) s') R)
    (H : tree.Shape E s) (hstart : I 0 {} s) : ((tree.walk va (4 - D) true).run s).Sat Q R := by
  suffices hfrom : ∀ (level d t : ℕ) (path : WalkPath) (s : σ), level + d = 4 → d ≤ D →
      tree.Shape E s → tree.tableOn s va d = some t → I d path s →
      ((tree.walkFrom va (4 - D) true level t path).run s).Sat Q R from
    hfrom 4 0 tree.root {} s rfl (Nat.zero_le D) H rfl hstart
  intro level
  induction level with
  | zero =>
    intro d t path s hlev hle
    omega
  | succ level ih =>
    intro d t path s hlev hle H ht h
    have hl4 : level + 1 = 4 - d := by omega
    rw [walkFrom, hl4]
    by_cases hlt : d < D
    · rw [if_neg (by omega)]
      simp only [load, run_gets_bind, Bool.not_true, Bool.and_false, Bool.false_eq_true, if_false]
      rw [sat_bind]
      refine ((grow_sat H ht (by omega)).and (hgrow hlt H ht h)).mono (fun _ s₁ h₁ => ?_)
        (fun _ _ h₁ => h₁.2)
      obtain ⟨⟨hx, hchild⟩, hnext⟩ := h₁
      rw [run_gets_bind]
      exact ih (d + 1) _ _ s₁ (by omega) (by omega) hx.shape hchild (hnext hx)
    · obtain rfl : d = D := by omega
      rw [if_pos rfl]
      exact hlast ht h

/-- **Walking with allocation** extends the tree, also when it fails, and a path comes
with the way to the target. -/
theorem walk_true_sat (H : tree.Shape E s) (va : ℕ) (h1 : 1 ≤ target) (h4 : target ≤ 4) :
    ((tree.walk va target true).run s).Sat
      (fun p s' => tree.Extends E va s s' ∧ tree.OnPath s' va p (4 - target + 1))
      (fun _ s' => tree.Extends E va s s') := by
  have hwalk := walk_true_rule va (D := 4 - target)
    (I := fun d p s' => tree.Extends E va s s' ∧ tree.OnPath s' va p d)
    (Q := fun p s' => tree.Extends E va s s' ∧ tree.OnPath s' va p (4 - target + 1))
    (R := fun _ s' => tree.Extends E va s s') (by omega) (fun ht h => ⟨h.1, h.2.visit ht⟩)
    (fun {d t path s₁} hd H₁ ht h => (grow_sat H₁ ht (by omega)).mono
      (fun _ _ _ hx => ⟨h.1.trans hx, (h.2.visit ht).extends hx⟩)
      (fun _ s₂ h₂ => by rw [h₂]; exact h.1))
    H ⟨Extends.refl H va, fun k hk => absurd hk (Nat.not_lt_zero k)⟩
  rwa [show 4 - (4 - target) = target by omega] at hwalk

/-! ## Pruning -/

/-- The tree of `s'` is that of `s` without some empty tables on the way of `va`. -/
structure Prunes (tree : RadixTree σ) (E : tree.env.Spec ρ) (va : ℕ) (s s' : σ) : Prop where
  shape : tree.Shape E s'
  maps : ∀ y k e, tree.Maps s' y k e ↔ tree.Maps s y k e
  frame : ∀ y, index 4 y ≠ index 4 va → ∀ k, tree.tableOn s' y k = tree.tableOn s y k
  owned : tree.owned E s' = tree.owned E s
  avail : ∀ t ∈ E.avail s', t ∈ E.pinned → t ∈ E.avail s
  rest : E.rest s' = E.rest s

theorem Prunes.refl (H : tree.Shape E s) (va : ℕ) : tree.Prunes E va s s :=
  ⟨H, fun _ _ _ => Iff.rfl, fun _ _ _ => rfl, rfl, fun _ h _ => h, rfl⟩

theorem Prunes.trans (h : tree.Prunes E va s s') (h' : tree.Prunes E va s' s'') :
    tree.Prunes E va s s'' :=
  ⟨h'.shape, fun y k e => (h'.maps y k e).trans (h.maps y k e),
    fun y hy k => (h'.frame y hy k).trans (h.frame y hy k), h'.owned.trans h.owned,
    fun t ht hp => h.avail t (h'.avail t ht hp) hp, h'.rest.trans h.rest⟩

/-- All addresses below an empty table meet a zero in it. -/
theorem slotOn_empty (hc : tree.tableOn s va (d + 1) = some c)
    (hempty : ∀ i < 512, tree.env.read s c i = 0#64) (ha : format.Agree (d + 1) va y) :
    tree.slotOn s y (d + 1) = some 0#64 := by
  have hcy : tree.tableOn s y (d + 1) = some c := (tableOn_congr ha).symm.trans hc
  rw [slotOn_of_tableOn hcy, hempty _ (index_lt _ _)]

/-- They meet no other table from there on. -/
theorem tableOn_empty (hc : tree.tableOn s va (d + 1) = some c)
    (hempty : ∀ i < 512, tree.env.read s c i = 0#64) (ha : format.Agree (d + 1) va y)
    (hk : d < k) (hy : tree.tableOn s y k = some t) : k = d + 1 ∧ t = c := by
  have hnone : tree.tableOn s y (d + 2) = none :=
    tableOn_succ_none (slotOn_empty hc hempty ha) (child_zero (d + 1))
  obtain rfl : k = d + 1 := by
    by_contra hne
    rw [tableOn, tableOn_none_below hnone (by omega)] at hy
    cases hy
  exact ⟨rfl, Option.some.inj (hy.symm.trans ((tableOn_congr ha).symm.trans hc))⟩

/-- One table less, the empty one that the way of `va` met at depth `d + 1`. -/
structure PrunesOne (tree : RadixTree σ) (E : tree.env.Spec ρ) (va d : ℕ) (s s' : σ) : Prop where
  prunes : tree.Prunes E va s s'
  tables : ∀ y k, tree.tableOn s' y k
    = if format.Agree (d + 1) va y ∧ d < k then none else tree.tableOn s y k
  avail : ∀ t ∈ E.avail s, t ∈ E.avail s'

/-- Taking one empty table out of the tree and giving it back. -/
theorem Shape.prunes_one (H : tree.Shape E s) (ht : tree.tableOn s va d = some t)
    (hc : tree.tableOn s va (d + 1) = some c) (hempty : ∀ i < 512, tree.env.read s c i = 0#64) :
    ((tree.env.freeTable c).run (tree.env.write t (index (4 - d) va) 0#64 s)).Sat
      (fun _ s' => tree.PrunesOne E va d s s') (fun _ _ => False) := by
  have hr := E.read_write t (index (4 - d) va) 0#64 s
  have hz := child_zero d
  have H₁ := H.put ht (e := 0#64) (Or.inl rfl)
  have hcavail : c ∉ E.avail (tree.env.write t (index (4 - d) va) 0#64 s) := by
    rw [E.avail_write]
    exact H.not_avail va (d + 1) c hc
  refine (E.free _ c H₁.good (H.managed va d c hc) hcavail).mono (fun _ s' hs' => ?_)
    (fun _ _ h => h)
  obtain ⟨hgood, hav, hread, hrest⟩ := hs'
  have hin : ∀ y k t', tree.tableOn (tree.env.write t (index (4 - d) va) 0#64 s) y k = some t' →
      ∀ i, tree.env.read s' t' i
        = tree.env.read (tree.env.write t (index (4 - d) va) 0#64 s) t' i := by
    intro y k t' _ i
    rw [hread]
  -- the table itself is met no more
  have hgone : ∀ y k, tree.tableOn (tree.env.write t (index (4 - d) va) 0#64 s) y k ≠ some c := by
    intro y k hy
    obtain ⟨rfl, ha⟩ := H.separate _ _ _ _ _ hc (tableOn_put_sub H.separate ht hr hz hy)
    rw [tableOn_put H.separate ht hr hz, if_pos ⟨ha, by omega⟩] at hy
    cases hy
  have htab : ∀ y k, tree.tableOn s' y k
      = if format.Agree (d + 1) va y ∧ d < k then none else tree.tableOn s y k := fun y k => by
    rw [tableOn_of_read_eq hin, tableOn_put H.separate ht hr hz]
  have havail : ∀ t' ∈ E.avail s, t' ∈ E.avail s' := by
    intro t' ht'
    rw [hav, E.avail_write]
    exact Or.inl ht'
  refine ⟨⟨?_, ?_, ?_, ?_, fun t' ht' hp => ?_, ?_⟩, htab, havail⟩
  · refine H₁.of_read_eq hin hgood (fun y k t' hy hm => ?_)
    rw [hav] at hm
    rcases hm with hm | ⟨rfl, -⟩
    · exact H₁.not_avail y k t' hy hm
    · exact hgone y k hy
  · intro y k e
    rw [maps_of_read_eq hin, maps_put_iff H.separate ht hr hz]
    split_ifs with ha
    · have hno := not_maps_of_not_present (slotOn_empty hc hempty ha) (by rw [present_eq]; simp) k e
      rw [present_eq]
      simp [hno]
    · exact Iff.rfl
  · intro y hy k
    rw [htab, if_neg (fun h => not_agree_of_index hy h.1)]
  · -- what the tree loses, the environment gets back
    ext t'
    simp only [RadixTree.owned, Set.mem_sdiff, Set.mem_union, hav, E.avail_write,
      RadixTree.tables, Set.mem_ofPred_eq]
    refine and_congr_left (fun hnp => ?_)
    constructor
    · rintro ((h | ⟨rfl, -⟩) | ⟨y, k, hy⟩)
      · exact Or.inl h
      · exact Or.inr ⟨va, d, hc⟩
      · rw [tableOn_of_read_eq hin] at hy
        exact Or.inr ⟨y, k, tableOn_put_sub H.separate ht hr hz hy⟩
    · rintro (h | ⟨y, k, hy⟩)
      · exact Or.inl (Or.inl h)
      · by_cases ha : format.Agree (d + 1) va y ∧ d < k + 1
        · obtain ⟨-, heq⟩ := tableOn_empty hc hempty ha.1 ha.2 hy
          exact Or.inl (Or.inr ⟨heq, heq ▸ hnp⟩)
        · refine Or.inr ⟨y, k, ?_⟩
          rw [htab, if_neg ha]
          exact hy
  · rw [hav, E.avail_write] at ht'
    rcases ht' with ht' | ⟨rfl, hnp⟩
    · exact ht'
    · exact absurd hp hnp
  · rw [hrest, E.rest_write]

/-- **The rule for pruning.**  What holds at depth `d` is carried upwards by each table that
is taken out, and is put to use where a table is not empty or the root is reached. -/
theorem pruneFrom_rule {I : ℕ → σ → Prop} {Q : σ → Prop} (hroot : ∀ s, I 0 s → Q s)
    (hkept : ∀ {d c s}, d ≤ 3 → tree.Shape E s → tree.tableOn s va d = some c →
      (¬ ∀ i < 512, tree.env.read s c i = 0#64) → I d s → Q s)
    (hstep : ∀ {d c s s'}, tree.tableOn s va (d + 1) = some c →
      (∀ i < 512, tree.env.read s c i = 0#64) → tree.PrunesOne E va d s s' → I (d + 1) s → I d s') :
    ∀ (d : ℕ) (s : σ), d ≤ 3 → tree.Shape E s → tree.OnPath s va path (d + 1) → I d s →
      ((tree.pruneFrom path (4 - d) d).run s).Sat (fun _ s' => Q s') (fun _ _ => False) := by
  intro d
  induction d with
  | zero =>
    intro s _ _ _ h
    exact hroot s h
  | succ d ih =>
    intro s hd H hpath h
    have hc := (hpath (d + 1) (by omega)).1
    rw [pruneFrom, run_gets_bind]
    by_cases hempty : tree.isTableEmpty (path.tables (4 - (d + 1))) s = true
    · rw [hempty, if_neg (by decide), show 4 - (d + 1) + 1 = 4 - d by omega, replace,
        run_modify_bind, sat_bind]
      rw [isTableEmpty_iff] at hempty
      obtain ⟨ht, hslot⟩ := hpath d (by omega)
      rw [hslot]
      refine (H.prunes_one ht hc hempty).mono (fun _ s₁ h₁ => ?_) (fun _ _ h => h)
      refine ih s₁ (by omega) h₁.prunes.shape (fun k hk => ?_) (hstep hc hempty h₁ h)
      rw [h₁.tables, if_neg (by omega)]
      exact hpath k (by omega)
    · rw [Bool.eq_false_of_not_eq_true hempty, if_pos (by decide)]
      rw [isTableEmpty_iff] at hempty
      exact hkept hd H hc hempty h

theorem pruneFrom_sat (d : ℕ) (s : σ) (hd : d ≤ 3) (H : tree.Shape E s)
    (hpath : tree.OnPath s va path (d + 1)) :
    ((tree.pruneFrom path (4 - d) d).run s).Sat (fun _ s' => tree.Prunes E va s s')
      (fun _ _ => False) :=
  pruneFrom_rule (I := fun _ s' => tree.Prunes E va s s') (fun _ h => h) (fun _ _ _ _ h => h)
    (fun _ _ hone h => h.trans hone.prunes) d s hd H hpath (Prunes.refl H va)

theorem prune_of_depth (hd : d ≤ 3) : tree.prune path (4 - d) = tree.pruneFrom path (4 - d) d := by
  rw [prune, show levels - (4 - d) = d by simp only [levels]; omega]

/-- **Pruning** from depth `d` up takes out empty tables only. -/
theorem prune_sat (H : tree.Shape E s) (hd : d ≤ 3) (hpath : tree.OnPath s va path (d + 1)) :
    ((tree.prune path (4 - d)).run s).Sat (fun _ s' => tree.Prunes E va s s')
      (fun _ _ => False) := by
  rw [prune_of_depth hd]
  exact pruneFrom_sat d s hd H hpath

end RadixTree

end DoomOs
