/-
# The shape of the page tables

What an environment has to provide (`PageEnv.Spec`) and what then holds of the
tables that hang from a root (`Shape`): no table is linked twice, no table is
available for allocation, an entry that is not present is zero, and a leaf is
aligned to what it covers.

`Shape` survives the two kinds of write of the walker: `Shape.put` (a leaf or zero
into a slot) and `Shape.link` (a new table into a slot that led nowhere).  With
each comes what it does to `Maps`, the relation that says which leaf maps an
address.
-/
import DoomOs.RadixTree

namespace DoomOs

open Comp Paging RadixFormat

/-! ## What an environment provides -/

/-- What `alloc_table` promises: an available table, zeroed. -/
structure PageEnv.TableAllocated {σ ρ : Type} (env : PageEnv σ) (good : σ → Prop)
    (avail : σ → Set ℕ) (managed : Set ℕ) (rest : σ → ρ) (s : σ) (t : ℕ) (s' : σ) : Prop where
  good : good s'
  mem : t ∈ avail s
  managed : t ∈ managed
  aligned : t % 4096 = 0
  lt : t < 2 ^ 52
  avail : avail s' = avail s \ {t}
  zero : ∀ i < 512, env.read s' t i = 0#64
  read : ∀ t' ≠ t, ∀ i, env.read s' t' i = env.read s t' i
  rest : rest s' = rest s

/-- The contract between the walker and its environment.  `avail` are the tables that
can be allocated, `managed` those that may be given back and `pinned` those that
`free_table` quietly keeps; `rest` is the part of the state that has nothing to do
with tables. -/
structure PageEnv.Spec {σ : Type} (env : PageEnv σ) (ρ : Type) where
  good : σ → Prop
  avail : σ → Set ℕ
  managed : Set ℕ
  pinned : Set ℕ
  rest : σ → ρ
  read_write : ∀ t i e s, env.read (env.write t i e s) = store (env.read s) t i e
  avail_write : ∀ t i e s, avail (env.write t i e s) = avail s
  good_write : ∀ t i e s, good s → good (env.write t i e s)
  rest_write : ∀ t i e s, rest (env.write t i e s) = rest s
  alloc : ∀ s, good s → (env.allocTable.run s).Sat
    (fun t s' => env.TableAllocated good avail managed rest s t s') (fun _ s' => s' = s)
  free : ∀ s t, good s → t ∈ managed → t ∉ avail s → ((env.freeTable t).run s).Sat
    (fun _ s' => good s' ∧ avail s' = {t' | t' ∈ avail s ∨ (t' = t ∧ t ∉ pinned)} ∧
      env.read s' = env.read s ∧ rest s' = rest s) (fun _ _ => False)

namespace RadixTree

variable {σ ρ : Type} (tree : RadixTree σ)

/-- The table that an address meets at depth `d`. -/
def tableOn (s : σ) (x d : ℕ) : Option ℕ := format.tableOn (tree.env.read s) tree.root x d

/-- The entry that an address meets at depth `d`. -/
def slotOn (s : σ) (x d : ℕ) : Option Entry := format.slotOn (tree.env.read s) tree.root x d

/-- The entry `e` at depth `d` is the leaf that maps `x`. -/
def Maps (s : σ) (x d : ℕ) (e : Entry) : Prop :=
  tree.slotOn s x d = some e ∧ present e = true ∧ leaf e (4 - d) = true

/-- The tables below the root. -/
def tables (s : σ) : Set ℕ := {t | ∃ x d, tree.tableOn s x (d + 1) = some t}

/-- The tables that the environment handed out and those it still has. -/
def owned (E : tree.env.Spec ρ) (s : σ) : Set ℕ := (E.avail s ∪ tree.tables s) \ E.pinned

/-- The shape of a tree of page tables. -/
structure Shape (E : tree.env.Spec ρ) (s : σ) : Prop where
  good : E.good s
  separate : format.Separate (tree.env.read s) tree.root
  not_avail : ∀ x d t, tree.tableOn s x d = some t → t ∉ E.avail s
  managed : ∀ x d t, tree.tableOn s x (d + 1) = some t → t ∈ E.managed
  zero : ∀ x d e, tree.slotOn s x d = some e → present e = false → e = 0#64
  leaf_aligned : ∀ x d e, tree.Maps s x d e → 1 ≤ d ∧ address e % span d = 0

variable {tree} {E : tree.env.Spec ρ} {s s' : σ} {x y va d k t c : ℕ} {e e' : Entry}

/-! ## Ways and leaves -/

/-- There are four levels. -/
theorem depth_le (h : tree.tableOn s x d = some t) : d ≤ 3 := by
  by_contra hd
  obtain ⟨t', ht'⟩ := tableOn_above h (show 4 ≤ d by omega)
  obtain ⟨t3, -, hc⟩ := tableOn_succ_iff.mp ht'
  rw [child_level_one] at hc
  cases hc

theorem slotOn_of_tableOn (h : tree.tableOn s x d = some t) :
    tree.slotOn s x d = some (tree.env.read s t (index (4 - d) x)) :=
  slotOn_iff.mpr ⟨t, h, rfl⟩

theorem tableOn_of_slotOn (h : tree.slotOn s x d = some e) :
    ∃ t, tree.tableOn s x d = some t ∧ tree.env.read s t (index (4 - d) x) = e :=
  slotOn_iff.mp h

theorem Maps.depth_le (h : tree.Maps s x d e) : d ≤ 3 := by
  obtain ⟨t, ht, -⟩ := tableOn_of_slotOn h.1
  exact RadixTree.depth_le ht

theorem Maps.child_none (h : tree.Maps s x d e) : format.child d e = none :=
  child_eq_none.mpr (fun _ => h.2.2)

/-- A leaf ends the way. -/
theorem Maps.tableOn_below (h : tree.Maps s x d e) (hk : d < k) : tree.tableOn s x k = none :=
  tableOn_none_below (tableOn_succ_none h.1 h.child_none) hk

/-- At most one leaf maps an address. -/
theorem Maps.unique (h : tree.Maps s x d e) (h' : tree.Maps s x k e') : d = k ∧ e = e' := by
  have hno : ∀ {d k e e'}, tree.Maps s x d e → tree.Maps s x k e' → ¬d < k := by
    intro d k e e' h h' hlt
    obtain ⟨t, ht, -⟩ := tableOn_of_slotOn h'.1
    rw [h.tableOn_below hlt] at ht
    cases ht
  have heq : d = k := le_antisymm (not_lt.mp (hno h' h)) (not_lt.mp (hno h h'))
  subst heq
  exact ⟨rfl, Option.some.inj (h.1.symm.trans h'.1)⟩

/-- A leaf maps all addresses that meet it. -/
theorem Maps.congr (h : tree.Maps s x d e) (ha : format.Agree (d + 1) x y) :
    tree.Maps s y d e :=
  ⟨(slotOn_congr ha).symm.trans h.1, h.2⟩

/-- Where a table is met at depth `d`, leaves are deeper or right there. -/
theorem Maps.le_of_tableOn (h : tree.Maps s x k e) (ht : tree.tableOn s x d = some t) : d ≤ k := by
  by_contra hlt
  rw [h.tableOn_below (not_le.mp hlt)] at ht
  cases ht

/-! ## Writing a leaf or zero -/

section Put

variable (H : format.Separate (tree.env.read s) tree.root)
  (ht : tree.tableOn s va d = some t)
  (hr : tree.env.read s' = store (tree.env.read s) t (index (4 - d) va) e)
include H ht hr

theorem tableOn_put_of_le (y : ℕ) (hk : k ≤ d) : tree.tableOn s' y k = tree.tableOn s y k := by
  rw [tableOn, hr]
  exact tableOn_store_of_le H ht e y hk

theorem tableOn_put_of_not_agree (hn : ¬format.Agree (d + 1) va y) (k : ℕ) :
    tree.tableOn s' y k = tree.tableOn s y k := by
  rw [tableOn, hr]
  exact tableOn_store_of_not_agree H ht e hn k

theorem slotOn_put_of_not_agree (hn : ¬format.Agree (d + 1) va y) (k : ℕ) :
    tree.slotOn s' y k = tree.slotOn s y k := by
  rw [slotOn, hr]
  exact slotOn_store_of_not_agree H ht e hn k

theorem slotOn_put_of_lt (y : ℕ) (hk : k < d) : tree.slotOn s' y k = tree.slotOn s y k := by
  rw [slotOn, hr]
  exact slotOn_store_of_lt H ht e y hk

theorem slotOn_put_self (ha : format.Agree (d + 1) va y) : tree.slotOn s' y d = some e := by
  rw [slotOn, hr]
  exact slotOn_store_self H ht e ha

/-- The tables after an entry that leads nowhere was written: those of before, except
below the entry. -/
theorem tableOn_put (hc : format.child d e = none) :
    tree.tableOn s' y k
      = if format.Agree (d + 1) va y ∧ d < k then none else tree.tableOn s y k := by
  split_ifs with h
  · rw [tableOn, hr]
    exact tableOn_store_below H ht hc h.1 h.2
  · by_cases ha : format.Agree (d + 1) va y
    · exact tableOn_put_of_le H ht hr y (by
        by_contra hlt
        exact h ⟨ha, by omega⟩)
    · exact tableOn_put_of_not_agree H ht hr ha k

theorem tableOn_put_sub (hc : format.child d e = none) (hy : tree.tableOn s' y k = some c) :
    tree.tableOn s y k = some c := by
  rw [tableOn_put H ht hr hc] at hy
  split_ifs at hy
  exact hy

/-- The leaves after an entry that leads nowhere was written. -/
theorem maps_put_iff (hc : format.child d e = none) : tree.Maps s' y k e' ↔
    if format.Agree (d + 1) va y then k = d ∧ e' = e ∧ present e = true
    else tree.Maps s y k e' := by
  split_ifs with ha
  · constructor
    · intro h
      have hself := slotOn_put_self H ht hr ha
      rcases lt_trichotomy k d with hlt | rfl | hgt
      · -- above the written entry there are only tables
        obtain ⟨t', ht'⟩ := tableOn_above ht (show k + 1 ≤ d by omega)
        have hy : tree.tableOn s' y (k + 1) = some t' := by
          rw [tableOn_put_of_le H ht hr y (by omega), tableOn,
            ← tableOn_congr (ha.mono (by omega : k + 1 ≤ d + 1))]
          exact ht'
        rw [h.tableOn_below (by omega)] at hy
        cases hy
      · obtain rfl : e = e' := Option.some.inj (hself.symm.trans h.1)
        exact ⟨rfl, rfl, h.2.1⟩
      · obtain ⟨t', ht', -⟩ := tableOn_of_slotOn h.1
        rw [tableOn_put H ht hr hc, if_pos ⟨ha, hgt⟩] at ht'
        cases ht'
    · rintro ⟨rfl, rfl, hp⟩
      exact ⟨slotOn_put_self H ht hr ha, hp, child_eq_none.mp hc hp⟩
  · rw [Maps, Maps, slotOn_put_of_not_agree H ht hr ha]

end Put

/-- Writing zero or an aligned leaf keeps the shape. -/
theorem Shape.put (H : tree.Shape E s) (ht : tree.tableOn s va d = some t)
    (he : e = 0#64 ∨ (present e = true ∧ leaf e (4 - d) = true ∧ 1 ≤ d ∧ address e % span d = 0)) :
    tree.Shape E (tree.env.write t (index (4 - d) va) e s) := by
  have hr := E.read_write t (index (4 - d) va) e s
  have hc : format.child d e = none := by
    rcases he with rfl | ⟨-, hl, -⟩
    · exact child_zero d
    · exact child_eq_none.mpr (fun _ => hl)
  have hsub : ∀ {y k c}, tree.tableOn (tree.env.write t (index (4 - d) va) e s) y k = some c →
      tree.tableOn s y k = some c := tableOn_put_sub H.separate ht hr hc
  refine ⟨E.good_write _ _ _ _ H.good, ?_, ?_, ?_, ?_, ?_⟩
  · rw [hr]
    exact H.separate.store_none ht hc
  · intro y k c hy
    rw [E.avail_write]
    exact H.not_avail y k c (hsub hy)
  · intro y k c hy
    exact H.managed y k c (hsub hy)
  · intro y k e' hs hp
    by_cases ha : format.Agree (d + 1) va y
    · rcases lt_trichotomy k d with hlt | rfl | hgt
      · rw [slotOn_put_of_lt H.separate ht hr y hlt] at hs
        exact H.zero y k e' hs hp
      · rw [slotOn_put_self H.separate ht hr ha, Option.some.injEq] at hs
        subst hs
        rcases he with rfl | ⟨hp', -⟩
        · rfl
        · rw [hp'] at hp
          cases hp
      · obtain ⟨t', ht', -⟩ := tableOn_of_slotOn hs
        rw [tableOn_put H.separate ht hr hc, if_pos ⟨ha, hgt⟩] at ht'
        cases ht'
    · rw [slotOn_put_of_not_agree H.separate ht hr ha] at hs
      exact H.zero y k e' hs hp
  · intro y k e' hm
    rw [maps_put_iff H.separate ht hr hc] at hm
    split_ifs at hm with ha
    · obtain ⟨rfl, rfl, hp⟩ := hm
      rcases he with rfl | ⟨-, -, h1, hal⟩
      · rw [present_eq] at hp
        simp at hp
      · exact ⟨h1, hal⟩
    · exact H.leaf_aligned y k e' hm

/-! ## Changes outside the tree -/

section Outside

variable (hr : ∀ y k c, tree.tableOn s y k = some c →
  ∀ i, tree.env.read s' c i = tree.env.read s c i)
include hr

theorem tableOn_of_read_eq (x d : ℕ) : tree.tableOn s' x d = tree.tableOn s x d :=
  tableOn_congr_mem hr x d

theorem slotOn_of_read_eq (x d : ℕ) : tree.slotOn s' x d = tree.slotOn s x d :=
  slotOn_congr_mem hr x d

theorem maps_of_read_eq : tree.Maps s' x d e ↔ tree.Maps s x d e := by
  rw [Maps, Maps, slotOn_of_read_eq hr]

theorem tables_of_read_eq : tree.tables s' = tree.tables s := by
  simp only [tables, tableOn_of_read_eq hr]

theorem Shape.of_read_eq (H : tree.Shape E s) (hgood : E.good s')
    (hav : ∀ y k c, tree.tableOn s y k = some c → c ∉ E.avail s') : tree.Shape E s' := by
  have htab := tableOn_of_read_eq hr
  refine ⟨hgood, ?_, ?_, ?_, ?_, ?_⟩
  · intro y z k k' c hy hz
    exact H.separate y z k k' c ((htab y k).symm.trans hy) ((htab z k').symm.trans hz)
  · intro y k c hy
    exact hav y k c ((htab y k).symm.trans hy)
  · intro y k c hy
    exact H.managed y k c ((htab y (k + 1)).symm.trans hy)
  · intro y k e hs hp
    exact H.zero y k e ((slotOn_of_read_eq hr y k).symm.trans hs) hp
  · intro y k e hm
    exact H.leaf_aligned y k e ((maps_of_read_eq hr).mp hm)

end Outside

/-! ## Linking a table -/

/-- The table `c`, not yet in the tree, can take the place of the entry `e` at depth
`d`: it is empty where `e` is not present, and holds the pieces of `e` where `e` is a
leaf. -/
structure NewTable (tree : RadixTree σ) (E : tree.env.Spec ρ) (s : σ) (d c : ℕ) (e : Entry) :
    Prop where
  managed : c ∈ E.managed
  not_avail : c ∉ E.avail s
  aligned : c % 4096 = 0
  lt : c < 2 ^ 52
  fresh : ∀ y k, tree.tableOn s y k ≠ some c
  content : (present e = false ∧ ∀ i < 512, tree.env.read s c i = 0#64) ∨
    (present e = true ∧ leaf e (4 - d) = true ∧
      ∀ i < 512, tree.env.read s c i = splitEntry e (4 - d) i)

theorem NewTable.flat (N : tree.NewTable E s d c e) (y : ℕ) :
    format.child (d + 1) (tree.env.read s c (format.digit (d + 1) y)) = none := by
  have hlt : format.digit (d + 1) y < 512 := index_lt _ _
  rcases N.content with ⟨-, hz⟩ | ⟨-, -, hs⟩
  · rw [hz _ hlt]
    exact child_zero _
  · rw [hs _ hlt]
    refine child_eq_none.mpr (fun _ => ?_)
    rw [show 4 - (d + 1) = 4 - d - 1 by omega]
    exact leaf_splitEntry _ _ _

section Link

variable (H : tree.Shape E s) (ht : tree.tableOn s va d = some t) (hd : d ≤ 2)
  (N : tree.NewTable E s d c e)
  (hr : tree.env.read s' = store (tree.env.read s) t (index (4 - d) va) (tableEntry c))
include H ht N hr

/-- The slot led nowhere before, so no way is lost. -/
theorem tableOn_link_of_some (hs : tree.slotOn s va d = some e) {c' : ℕ}
    (hy : tree.tableOn s y k = some c') : tree.tableOn s' y k = some c' := by
  by_cases ha : format.Agree (d + 1) va y
  · by_cases hk : k ≤ d
    · rw [tableOn_put_of_le H.separate ht hr y hk]
      exact hy
    · have hc : format.child d e = none := by
        rcases N.content with ⟨hp, -⟩ | ⟨-, hl, -⟩
        · exact child_eq_none.mpr (fun h => absurd h (by simp [hp]))
        · exact child_eq_none.mpr (fun _ => hl)
      have hyk : tree.tableOn s y (d + 1) = none := by
        rw [tableOn, ← tableOn_congr ha]
        exact tableOn_succ_none hs hc
      rw [tableOn, tableOn_none_below hyk (by omega)] at hy
      cases hy
  · rw [tableOn_put_of_not_agree H.separate ht hr ha]
    exact hy

include hd

theorem tableOn_link_child (ha : format.Agree (d + 1) va y) :
    tree.tableOn s' y (d + 1) = some c := by
  rw [tableOn, hr]
  exact (tableOn_store_child H.separate ht _ ha).trans (child_tableEntry hd N.aligned N.lt)

theorem slotOn_link_child (ha : format.Agree (d + 1) va y) :
    tree.slotOn s' y (d + 1) = some (tree.env.read s c (index (4 - (d + 1)) y)) := by
  have hne : c ≠ t := by
    rintro rfl
    exact N.fresh va d ht
  rw [slotOn, hr]
  exact slotOn_store_child H.separate ht (child_tableEntry hd N.aligned N.lt) hne ha

/-- The new ways: those of before, and one to the new table. -/
theorem tableOn_link_cases {c' : ℕ} (hy : tree.tableOn s' y k = some c') :
    tree.tableOn s y k = some c' ∨ (c' = c ∧ k = d + 1 ∧ format.Agree (d + 1) va y) := by
  have hne : c ≠ t := by
    rintro rfl
    exact N.fresh va d ht
  rw [tableOn, hr] at hy
  exact tableOn_store_link H.separate ht (child_tableEntry hd N.aligned N.lt) hne N.flat hy

/-- The leaves after a table was linked. -/
theorem maps_link_iff : tree.Maps s' y k e' ↔
    if format.Agree (d + 1) va y then
      k = d + 1 ∧ e' = tree.env.read s c (index (4 - (d + 1)) y) ∧ present e' = true
    else tree.Maps s y k e' := by
  split_ifs with ha
  · have hslot := slotOn_link_child H ht hd N hr ha
    have hflat := child_eq_none.mp (N.flat y)
    constructor
    · intro h
      have hle := h.le_of_tableOn (tableOn_link_child H ht hd N hr ha)
      rcases hle.eq_or_lt with rfl | hlt
      · exact ⟨rfl, Option.some.inj (h.1.symm.trans hslot), h.2.1⟩
      · obtain ⟨t', ht', -⟩ := tableOn_of_slotOn h.1
        have hnone := tableOn_none_below (tableOn_succ_none hslot (N.flat y))
          (show d + 2 ≤ k by omega)
        rw [tableOn, hnone] at ht'
        cases ht'
    · rintro ⟨rfl, rfl, hp⟩
      exact ⟨hslot, hp, hflat hp⟩
  · rw [Maps, Maps, slotOn_put_of_not_agree H.separate ht hr ha]

end Link

/-- Linking a table keeps the shape. -/
theorem Shape.link (H : tree.Shape E s) (ht : tree.tableOn s va d = some t) (hd : d ≤ 2)
    (hs : tree.slotOn s va d = some e) (N : tree.NewTable E s d c e) :
    tree.Shape E (tree.env.write t (index (4 - d) va) (tableEntry c) s) := by
  have hr := E.read_write t (index (4 - d) va) (tableEntry c) s
  refine ⟨E.good_write _ _ _ _ H.good, ?_, ?_, ?_, ?_, ?_⟩
  · rw [hr]
    exact H.separate.store_link ht (child_tableEntry hd N.aligned N.lt) N.flat N.fresh
  · intro y k c' hy
    rw [E.avail_write]
    rcases tableOn_link_cases H ht hd N hr hy with h | ⟨rfl, -, -⟩
    · exact H.not_avail y k c' h
    · exact N.not_avail
  · intro y k c' hy
    rcases tableOn_link_cases H ht hd N hr hy with h | ⟨rfl, -, -⟩
    · exact H.managed y k c' h
    · exact N.managed
  · intro y k e' hsl hp
    by_cases ha : format.Agree (d + 1) va y
    · rcases lt_trichotomy k (d + 1) with hlt | rfl | hgt
      · rcases Nat.lt_succ_iff_lt_or_eq.mp hlt with hlt | rfl
        · rw [slotOn_put_of_lt H.separate ht hr y hlt] at hsl
          exact H.zero y k e' hsl hp
        · rw [slotOn_put_self H.separate ht hr ha, Option.some.injEq] at hsl
          rw [← hsl, present_tableEntry] at hp
          cases hp
      · rw [slotOn_link_child H ht hd N hr ha, Option.some.injEq] at hsl
        subst hsl
        rcases N.content with ⟨-, hz⟩ | ⟨hpe, -, hsp⟩
        · exact hz _ (index_lt _ _)
        · rw [hsp _ (index_lt _ _), present_splitEntry, hpe] at hp
          cases hp
      · obtain ⟨t', ht', -⟩ := tableOn_of_slotOn hsl
        rcases tableOn_link_cases H ht hd N hr ht' with h | ⟨-, rfl, -⟩
        · obtain ⟨t'', ht''⟩ := tableOn_above (tableOn_link_of_some H ht N hr hs h)
            (show d + 2 ≤ k by omega)
          have hnone := tableOn_succ_none (slotOn_link_child H ht hd N hr ha) (N.flat y)
          rw [hnone] at ht''
          cases ht''
        · omega
    · rw [slotOn_put_of_not_agree H.separate ht hr ha] at hsl
      exact H.zero y k e' hsl hp
  · intro y k e' hm
    rw [maps_link_iff H ht hd N hr] at hm
    split_ifs at hm with ha
    · obtain ⟨rfl, rfl, hp⟩ := hm
      rcases N.content with ⟨-, hz⟩ | ⟨hpe, hle, hsp⟩
      · rw [hz _ (index_lt _ _), present_eq] at hp
        simp at hp
      · obtain ⟨h1, hal⟩ := H.leaf_aligned va d e ⟨hs, hpe, hle⟩
        refine ⟨by omega, ?_⟩
        rw [hsp _ (index_lt _ _)]
        exact address_piece_aligned hd hal (index_lt _ _)
    · exact H.leaf_aligned y k e' hm

end RadixTree

end DoomOs
