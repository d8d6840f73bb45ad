/-
# Radix trees laid out in a heap

A radix tree whose nodes are tables in a flat memory.  A key is read digit by
digit; the digit at depth `d` selects an entry of the table at depth `d`, and an
entry may lead to a table one deeper.  Nothing here fixes what an entry is beyond
the table it leads to.

* `tableOn` and `slotOn` are the table and the entry that a key meets at a depth.
* `Separate` says that no table is met on two different ways from the root.
* The `store` lemmas say what one write does to all keys: the keys that do not
  share the digits down to the written entry see nothing of it.
-/
import Mathlib

/-- How keys of type `X` select entries of type `E` in tables at addresses `A`. -/
structure RadixFormat (A I E X : Type) where
  digit : ℕ → X → I
  child : ℕ → E → Option A

namespace RadixFormat

variable {A I E X : Type} (F : RadixFormat A I E X)

/-- The table that `x` meets at depth `d`. -/
def tableOn (mem : A → I → E) (root : A) (x : X) : ℕ → Option A
  | 0 => some root
  | d + 1 => (tableOn mem root x d).bind fun t => F.child d (mem t (F.digit d x))

/-- The entry that `x` meets at depth `d`. -/
def slotOn (mem : A → I → E) (root : A) (x : X) (d : ℕ) : Option E :=
  (F.tableOn mem root x d).map fun t => mem t (F.digit d x)

/-- The first `d` digits of the two keys are the same. -/
def Agree (d : ℕ) (x y : X) : Prop := ∀ k < d, F.digit k x = F.digit k y

instance [DecidableEq I] (d : ℕ) (x y : X) : Decidable (F.Agree d x y) :=
  inferInstanceAs (Decidable (∀ k < d, F.digit k x = F.digit k y))

/-- No table is met on two different ways. -/
def Separate (mem : A → I → E) (root : A) : Prop :=
  ∀ x y d d' t, F.tableOn mem root x d = some t → F.tableOn mem root y d' = some t →
    d = d' ∧ F.Agree d x y

variable {F} {mem mem' : A → I → E} {root t c : A} {x y z : X} {d k : ℕ} {e : E}

/-! ## Agreement -/

theorem Agree.refl (d : ℕ) (x : X) : F.Agree d x x := fun _ _ => rfl

theorem Agree.symm (h : F.Agree d x y) : F.Agree d y x := fun k hk => (h k hk).symm

theorem Agree.trans (h : F.Agree d x y) (h' : F.Agree d y z) : F.Agree d x z :=
  fun k hk => (h k hk).trans (h' k hk)

theorem Agree.mono (h : F.Agree d x y) (hk : k ≤ d) : F.Agree k x y :=
  fun j hj => h j (by omega)

theorem agree_succ_iff : F.Agree (d + 1) x y ↔ F.Agree d x y ∧ F.digit d x = F.digit d y := by
  constructor
  · intro h
    exact ⟨h.mono (by omega), h d (by omega)⟩
  · rintro ⟨h, hd⟩ k hk
    rcases Nat.lt_succ_iff_lt_or_eq.mp hk with hlt | rfl
    · exact h k hlt
    · exact hd

/-! ## Ways through one memory -/

theorem tableOn_succ_iff : F.tableOn mem root x (d + 1) = some c ↔
    ∃ t, F.tableOn mem root x d = some t ∧ F.child d (mem t (F.digit d x)) = some c := by
  rw [tableOn, Option.bind_eq_some_iff]

theorem slotOn_iff : F.slotOn mem root x d = some e ↔
    ∃ t, F.tableOn mem root x d = some t ∧ mem t (F.digit d x) = e := by
  rw [slotOn, Option.map_eq_some_iff]

/-- A deeper table comes with the tables above it. -/
theorem tableOn_above (h : F.tableOn mem root x d = some t) (hk : k ≤ d) :
    ∃ t', F.tableOn mem root x k = some t' := by
  induction d generalizing t with
  | zero =>
    obtain rfl : k = 0 := by omega
    exact ⟨t, h⟩
  | succ d ih =>
    rcases Nat.le_succ_iff.mp hk with hlt | rfl
    · obtain ⟨t', ht', -⟩ := tableOn_succ_iff.mp h
      exact ih ht' hlt
    · exact ⟨t, h⟩

/-- Where the way ends, it stays ended. -/
theorem tableOn_none_below (h : F.tableOn mem root x d = none) (hk : d ≤ k) :
    F.tableOn mem root x k = none := by
  rcases hc : F.tableOn mem root x k with - | t
  · rfl
  · obtain ⟨t', ht'⟩ := tableOn_above hc hk
    rw [h] at ht'
    cases ht'

theorem tableOn_congr (h : F.Agree d x y) : F.tableOn mem root x d = F.tableOn mem root y d := by
  induction d with
  | zero => rfl
  | succ d ih =>
    obtain ⟨hd, hdig⟩ := agree_succ_iff.mp h
    rw [tableOn, tableOn, ih hd, hdig]

theorem slotOn_congr (h : F.Agree (d + 1) x y) :
    F.slotOn mem root x d = F.slotOn mem root y d := by
  obtain ⟨hd, hdig⟩ := agree_succ_iff.mp h
  rw [slotOn, slotOn, tableOn_congr hd, hdig]

/-- An entry that leads nowhere ends the way. -/
theorem tableOn_succ_none (hs : F.slotOn mem root x d = some e) (hc : F.child d e = none) :
    F.tableOn mem root x (d + 1) = none := by
  obtain ⟨t, ht, rfl⟩ := slotOn_iff.mp hs
  rw [tableOn, ht]
  exact hc

/-- Memory that agrees on the tables of the tree holds the same tree. -/
theorem tableOn_congr_mem
    (h : ∀ y k t, F.tableOn mem root y k = some t → ∀ i, mem' t i = mem t i) (x : X) (d : ℕ) :
    F.tableOn mem' root x d = F.tableOn mem root x d := by
  induction d with
  | zero => rfl
  | succ d ih =>
    rw [tableOn, tableOn, ih]
    rcases ht : F.tableOn mem root x d with - | t
    · rfl
    · exact congrArg (F.child d) (h x d t ht _)

theorem slotOn_congr_mem
    (h : ∀ y k t, F.tableOn mem root y k = some t → ∀ i, mem' t i = mem t i) (x : X) (d : ℕ) :
    F.slotOn mem' root x d = F.slotOn mem root x d := by
  rw [slotOn, slotOn, tableOn_congr_mem h]
  rcases ht : F.tableOn mem root x d with - | t
  · rfl
  · exact congrArg some (h x d t ht _)

/-! ## One write -/

/-- The entry that is written is met at depth `d`, by the keys that share `d + 1`
digits with `x`, and nowhere else. -/
theorem Separate.same_slot (H : F.Separate mem root) (ht : F.tableOn mem root x d = some t)
    {t' : A} (hy : F.tableOn mem root y k = some t')
    (h : t' = t ∧ F.digit k y = F.digit d x) : k = d ∧ F.Agree (d + 1) x y := by
  obtain ⟨rfl, hdig⟩ := h
  obtain ⟨rfl, hag⟩ := H _ _ _ _ _ ht hy
  exact ⟨rfl, agree_succ_iff.mpr ⟨hag, hdig.symm⟩⟩

section Store

variable [DecidableEq A] [DecidableEq I]

/-- Writing one entry of one table. -/
def store (mem : A → I → E) (t : A) (i : I) (e : E) : A → I → E :=
  fun t' i' => if t' = t ∧ i' = i then e else mem t' i'

@[simp] theorem store_self (mem : A → I → E) (t : A) (i : I) (e : E) : store mem t i e t i = e :=
  if_pos ⟨rfl, rfl⟩

theorem store_of_ne {t' : A} {i i' : I} (h : ¬(t' = t ∧ i' = i)) :
    store mem t i e t' i' = mem t' i' := if_neg h

theorem tableOn_store_of_le (H : F.Separate mem root) (ht : F.tableOn mem root x d = some t)
    (e : E) (y : X) (hk : k ≤ d) :
    F.tableOn (store mem t (F.digit d x) e) root y k = F.tableOn mem root y k := by
  induction k with
  | zero => rfl
  | succ k ih =>
    rw [tableOn, tableOn, ih (by omega)]
    rcases hy : F.tableOn mem root y k with - | t'
    · rfl
    · refine congrArg (F.child k) (store_of_ne (fun h => ?_))
      have := (H.same_slot ht hy h).1
      omega

theorem tableOn_store_of_not_agree (H : F.Separate mem root)
    (ht : F.tableOn mem root x d = some t) (e : E) (hn : ¬F.Agree (d + 1) x y) (k : ℕ) :
    F.tableOn (store mem t (F.digit d x) e) root y k = F.tableOn mem root y k := by
  induction k with
  | zero => rfl
  | succ k ih =>
    rw [tableOn, tableOn, ih]
    rcases hy : F.tableOn mem root y k with - | t'
    · rfl
    · exact congrArg (F.child k) (store_of_ne (fun h => hn (H.same_slot ht hy h).2))

theorem slotOn_store_of_not_agree (H : F.Separate mem root)
    (ht : F.tableOn mem root x d = some t) (e : E) (hn : ¬F.Agree (d + 1) x y) (k : ℕ) :
    F.slotOn (store mem t (F.digit d x) e) root y k = F.slotOn mem root y k := by
  rw [slotOn, slotOn, tableOn_store_of_not_agree H ht e hn]
  rcases hy : F.tableOn mem root y k with - | t'
  · rfl
  · exact congrArg some (store_of_ne (fun h => hn (H.same_slot ht hy h).2))

theorem slotOn_store_of_lt (H : F.Separate mem root) (ht : F.tableOn mem root x d = some t)
    (e : E) (y : X) (hk : k < d) :
    F.slotOn (store mem t (F.digit d x) e) root y k = F.slotOn mem root y k := by
  rw [slotOn, slotOn, tableOn_store_of_le H ht e y hk.le]
  rcases hy : F.tableOn mem root y k with - | t'
  · rfl
  · refine congrArg some (store_of_ne (fun h => ?_))
    have := (H.same_slot ht hy h).1
    omega

theorem slotOn_store_self (H : F.Separate mem root) (ht : F.tableOn mem root x d = some t)
    (e : E) (ha : F.Agree (d + 1) x y) :
    F.slotOn (store mem t (F.digit d x) e) root y d = some e := by
  obtain ⟨had, hdig⟩ := agree_succ_iff.mp ha
  rw [slotOn, tableOn_store_of_le H ht e y le_rfl, ← tableOn_congr had, ht, Option.map_some,
    ← hdig, store_self]

theorem tableOn_store_child (H : F.Separate mem root) (ht : F.tableOn mem root x d = some t)
    (e : E) (ha : F.Agree (d + 1) x y) :
    F.tableOn (store mem t (F.digit d x) e) root y (d + 1) = F.child d e := by
  obtain ⟨had, hdig⟩ := agree_succ_iff.mp ha
  rw [tableOn, tableOn_store_of_le H ht e y le_rfl, ← tableOn_congr had, ht, Option.bind_some,
    ← hdig, store_self]

/-- Below an entry that leads nowhere there is nothing. -/
theorem tableOn_store_below (H : F.Separate mem root) (ht : F.tableOn mem root x d = some t)
    (hc : F.child d e = none) (ha : F.Agree (d + 1) x y) (hk : d < k) :
    F.tableOn (store mem t (F.digit d x) e) root y k = none := by
  refine tableOn_none_below (d := d + 1) ?_ hk
  rw [tableOn_store_child H ht e ha, hc]

/-- Writing an entry that leads where the old one led changes no way. -/
theorem tableOn_store_same (H : F.Separate mem root) (ht : F.tableOn mem root x d = some t)
    (hc : F.child d e = F.child d (mem t (F.digit d x))) (y : X) (k : ℕ) :
    F.tableOn (store mem t (F.digit d x) e) root y k = F.tableOn mem root y k := by
  induction k with
  | zero => rfl
  | succ k ih =>
    rw [tableOn, tableOn, ih]
    rcases hy : F.tableOn mem root y k with - | t'
    · rfl
    · by_cases h : t' = t ∧ F.digit k y = F.digit d x
      · obtain ⟨rfl, -⟩ := H.same_slot ht hy h
        rw [Option.bind_some, Option.bind_some, h.1, h.2, store_self, hc]
      · exact congrArg (F.child k) (store_of_ne h)

/-- The entries that keys meet after such a write. -/
theorem slotOn_store_same (H : F.Separate mem root) (ht : F.tableOn mem root x d = some t)
    (hc : F.child d e = F.child d (mem t (F.digit d x))) (y : X) (k : ℕ) :
    F.slotOn (store mem t (F.digit d x) e) root y k
      = if k = d ∧ F.Agree (d + 1) x y then some e else F.slotOn mem root y k := by
  split_ifs with h
  · obtain ⟨rfl, ha⟩ := h
    exact slotOn_store_self H ht e ha
  · rw [slotOn, slotOn, tableOn_store_same H ht hc]
    rcases hy : F.tableOn mem root y k with - | t'
    · rfl
    · exact congrArg some (store_of_ne (fun h' => h (H.same_slot ht hy h')))

/-- The entries of a table just linked in are those it had. -/
theorem slotOn_store_child (H : F.Separate mem root) (ht : F.tableOn mem root x d = some t)
    (hc : F.child d e = some c) (hne : c ≠ t) (ha : F.Agree (d + 1) x y) :
    F.slotOn (store mem t (F.digit d x) e) root y (d + 1) = some (mem c (F.digit (d + 1) y)) := by
  rw [slotOn, tableOn_store_child H ht e ha, hc, Option.map_some]
  exact congrArg some (store_of_ne (fun h => hne h.1))

/-- Below a flat table just linked in there is nothing. -/
theorem tableOn_store_below_child (H : F.Separate mem root)
    (ht : F.tableOn mem root x d = some t) (hc : F.child d e = some c) (hne : c ≠ t)
    (hflat : ∀ y, F.child (d + 1) (mem c (F.digit (d + 1) y)) = none)
    (ha : F.Agree (d + 1) x y) (hk : d + 1 < k) :
    F.tableOn (store mem t (F.digit d x) e) root y k = none := by
  refine tableOn_none_below (d := d + 2) ?_ hk
  exact tableOn_succ_none (slotOn_store_child H ht hc hne ha) (hflat y)

/-- Writing an entry that leads nowhere keeps the tables separate. -/
theorem Separate.store_none (H : F.Separate mem root) (ht : F.tableOn mem root x d = some t)
    (hc : F.child d e = none) : F.Separate (store mem t (F.digit d x) e) root := by
  -- every way of the new memory is a way of the old one
  have hold : ∀ y k t', F.tableOn (store mem t (F.digit d x) e) root y k = some t' →
      F.tableOn mem root y k = some t' := by
    intro y k t' hy
    by_cases ha : F.Agree (d + 1) x y
    · by_cases hk : k ≤ d
      · rwa [tableOn_store_of_le H ht e y hk] at hy
      · rw [tableOn_store_below H ht hc ha (by omega)] at hy
        cases hy
    · rwa [tableOn_store_of_not_agree H ht e ha] at hy
  intro y z k k' t' hy hz
  exact H _ _ _ _ _ (hold _ _ _ hy) (hold _ _ _ hz)

/-- The ways of the memory after a flat table has been linked in. -/
theorem tableOn_store_link (H : F.Separate mem root) (ht : F.tableOn mem root x d = some t)
    (hc : F.child d e = some c) (hne : c ≠ t)
    (hflat : ∀ y, F.child (d + 1) (mem c (F.digit (d + 1) y)) = none) {t' : A}
    (hy : F.tableOn (store mem t (F.digit d x) e) root y k = some t') :
    F.tableOn mem root y k = some t' ∨ (t' = c ∧ k = d + 1 ∧ F.Agree (d + 1) x y) := by
  by_cases ha : F.Agree (d + 1) x y
  · rcases lt_trichotomy k (d + 1) with hlt | rfl | hgt
    · rw [tableOn_store_of_le H ht e y (by omega)] at hy
      exact Or.inl hy
    · rw [tableOn_store_child H ht e ha, hc, Option.some.injEq] at hy
      exact Or.inr ⟨hy.symm, rfl, ha⟩
    · rw [tableOn_store_below_child H ht hc hne hflat ha hgt] at hy
      cases hy
  · rw [tableOn_store_of_not_agree H ht e ha] at hy
    exact Or.inl hy

/-- Linking in a flat table that is not in the tree keeps the tables separate. -/
theorem Separate.store_link (H : F.Separate mem root) (ht : F.tableOn mem root x d = some t)
    (hc : F.child d e = some c)
    (hflat : ∀ y, F.child (d + 1) (mem c (F.digit (d + 1) y)) = none)
    (hfresh : ∀ y k, F.tableOn mem root y k ≠ some c) :
    F.Separate (store mem t (F.digit d x) e) root := by
  have hne : c ≠ t := by
    rintro rfl
    exact hfresh x d ht
  intro y z k k' t' hy hz
  rcases tableOn_store_link H ht hc hne hflat hy with hy | ⟨rfl, rfl, hay⟩
  · rcases tableOn_store_link H ht hc hne hflat hz with hz | ⟨rfl, rfl, haz⟩
    · exact H _ _ _ _ _ hy hz
    · exact absurd hy (hfresh _ _)
  · rcases tableOn_store_link H ht hc hne hflat hz with hz | ⟨-, rfl, haz⟩
    · exact absurd hz (hfresh _ _)
    · exact ⟨rfl, hay.symm.trans haz⟩

end Store

end RadixFormat
