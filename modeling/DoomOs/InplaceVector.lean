/-
# Vectors of fixed capacity

`inplace_vector` of `kernel/core/utils/inplace_vector.hpp`.  The slots behind the last
element keep what they held, and each operation moves the size by itself.  An operation
past the end of the vector panics; its `try_` variant returns an error instead.

The reference is a list that is no longer than the capacity.  `inplace_vector_refines_iff`
says which runs the vector and the list do alike: `try_pop_back` leaves the size alone.
-/
import DoomOs.Outcome

namespace DoomOs

open Comp

/-- `container_error`. -/
inductive ContainerError where
  | capacityExceeded
  | empty
  deriving DecidableEq, Repr

/-- `inplace_vector<T, N>`. -/
structure InplaceVector (T : Type) (N : ℕ) where
  items : Vector T N
  size : ℕ
  size_le : size ≤ N

/-- A list of at most `N` elements. -/
abbrev BoundedList (T : Type) (N : ℕ) : Type := { l : List T // l.length ≤ N }

namespace InplaceVector

/-- The panics of the vector. -/
inductive Panic where
  /-- `inplace_vector: emplace_back past capacity` -/
  | emplaceBackPastCapacity
  /-- `inplace_vector: push_back past capacity` -/
  | pushBackPastCapacity
  /-- `inplace_vector: pop_back on empty` -/
  | popBackOnEmpty
  deriving DecidableEq, Repr

variable {T : Type} {N : ℕ}

/-! ## The operations -/

/-- An operation.  One that returns a reference gives the index of the slot. -/
abbrev Operation (T : Type) (N : ℕ) : Type :=
  Comp Panic ContainerError (InplaceVector T N) (Option ℕ)

/-- Constructing an object in the slot behind the last element. -/
def construct (v : InplaceVector T N) (value : T) (h : v.size < N) : InplaceVector T N :=
  ⟨v.items.set v.size value h, v.size + 1, h⟩

/-- `emplace_back`, with the object that its arguments construct. -/
def emplaceBack (value : T) : Operation T N := fun v =>
  if h : v.size = N then .halt .emplaceBackPastCapacity
  else .ok (some v.size) (v.construct value (lt_of_le_of_ne v.size_le h))

/-- `push_back`. -/
def pushBack (value : T) : Operation T N := fun v =>
  if v.size = N then .halt .pushBackPastCapacity else (emplaceBack value).run v

/-- `pop_back`. -/
def popBack : Operation T N := fun v =>
  if v.size = 0 then .halt .popBackOnEmpty
  else .ok none ⟨v.items, v.size - 1, (Nat.sub_le _ _).trans v.size_le⟩

/-- `try_push_back`. -/
def tryPushBack (value : T) : Operation T N := fun v =>
  if v.size = N then .err .capacityExceeded v else (emplaceBack value).run v

/-- `try_pop_back`. -/
def tryPopBack : Operation T N := fun v =>
  if v.size = 0 then .err .empty v else .ok none v

/-- `clear`. -/
def clear : Operation T N := fun v => .ok none ⟨v.items, 0, Nat.zero_le N⟩

/-- An operation with its argument. -/
inductive Op (T : Type) where
  | emplaceBack (value : T)
  | pushBack (value : T)
  | popBack
  | tryPushBack (value : T)
  | tryPopBack
  | clear
  deriving DecidableEq

/-- One operation. -/
def exec : Op T → Operation T N
  | .emplaceBack value => emplaceBack value
  | .pushBack value => pushBack value
  | .popBack => popBack
  | .tryPushBack value => tryPushBack value
  | .tryPopBack => tryPopBack
  | .clear => clear

/-- The variant of an operation that panics. -/
def Op.panicking : Op T → Op T
  | .tryPushBack value => .pushBack value
  | .tryPopBack => .popBack
  | op => op

/-- Whether an operation is a `try_` variant. -/
def Op.IsTry (op : Op T) : Prop := op.panicking ≠ op

/-- The elements `[0, size)`. -/
def elements (v : InplaceVector T N) : BoundedList T N :=
  ⟨v.items.toList.take v.size, by
    rw [List.length_take]
    exact (Nat.min_le_left _ _).trans v.size_le⟩

/-- What is said of a `try_` variant in a state: it does what the panicking variant does
unless that one panics, it returns an error if and only if that one panics, and it leaves
the vector alone then. -/
structure VariantsAgree (op : Op T) (v : InplaceVector T N) : Prop where
  same : (∀ p, (exec op.panicking).run v ≠ .halt p) → (exec op).run v = (exec op.panicking).run v
  err_iff : op.IsTry →
    ((∃ e v', (exec op).run v = .err e v') ↔ ∃ p, (exec op.panicking).run v = .halt p)
  unchanged : ∀ e v', (exec op).run v = .err e v' → v' = v

end InplaceVector

/-! ## The reference -/

namespace BoundedList

open InplaceVector (Panic Op)

variable {T : Type} {N : ℕ}

/-- An element at the end, or what happens when there is no room for it. -/
def append (value : T) (full : Outcome Panic ContainerError (BoundedList T N) (Option ℕ))
    (l : BoundedList T N) : Outcome Panic ContainerError (BoundedList T N) (Option ℕ) :=
  if h : l.1.length = N then full
  else .ok (some l.1.length) ⟨l.1 ++ [value], by
    have hle := l.2
    rw [List.length_append, List.length_singleton]
    omega⟩

/-- The last element removed, or what happens when there is none. -/
def remove (none : Outcome Panic ContainerError (BoundedList T N) (Option ℕ))
    (l : BoundedList T N) : Outcome Panic ContainerError (BoundedList T N) (Option ℕ) :=
  if l.1 = [] then none
  else .ok .none ⟨l.1.dropLast, by
    have hle := l.2
    rw [List.length_dropLast]
    omega⟩

/-- What an operation is for. -/
def exec : Op T → Comp Panic ContainerError (BoundedList T N) (Option ℕ)
  | .emplaceBack value => append value (.halt .emplaceBackPastCapacity)
  | .pushBack value => append value (.halt .pushBackPastCapacity)
  | .popBack => remove (.halt .popBackOnEmpty)
  | .tryPushBack value => fun l => append value (.err .capacityExceeded l) l
  | .tryPopBack => fun l => remove (.err .empty l) l
  | .clear => fun _ => .ok none ⟨[], Nat.zero_le N⟩

end BoundedList

namespace InplaceVector

variable {T : Type} {N : ℕ}

/-! ## One operation -/

theorem length_elements (v : InplaceVector T N) : v.elements.1.length = v.size := by
  show (v.items.toList.take v.size).length = v.size
  rw [List.length_take, Vector.length_toList]
  exact Nat.min_eq_left v.size_le

theorem elements_eq_nil_iff (v : InplaceVector T N) : v.elements.1 = [] ↔ v.size = 0 := by
  rw [← List.length_eq_zero_iff, length_elements]

theorem elements_construct (v : InplaceVector T N) (value : T) (h : v.size < N) :
    (v.construct value h).elements.1 = v.elements.1 ++ [value] := by
  show (v.items.set v.size value h).toList.take (v.size + 1)
    = v.items.toList.take v.size ++ [value]
  rw [Vector.toList_set, List.take_add_one, List.take_set_of_le le_rfl]
  simp [h]

/-- Fewer elements in the same slots. -/
theorem elements_shrink (v : InplaceVector T N) {size : ℕ} (h : size ≤ v.size) :
    (⟨v.items, size, h.trans v.size_le⟩ : InplaceVector T N).elements.1
      = v.elements.1.take size := by
  show v.items.toList.take size = (v.items.toList.take v.size).take size
  rw [List.take_take, Nat.min_eq_left h]

theorem emplaceBack_refines (v : InplaceVector T N) (value : T) :
    ((emplaceBack value).run v).mapState elements
      = BoundedList.append value (.halt .emplaceBackPastCapacity) v.elements := by
  unfold BoundedList.append
  show Outcome.mapState elements (emplaceBack value v) = _
  unfold emplaceBack
  by_cases h : v.size = N
  · rw [dif_pos h, dif_pos ((length_elements v).trans h)]
    rfl
  · rw [dif_neg h, dif_neg (fun hl => h ((length_elements v).symm.trans hl))]
    show Outcome.ok (some v.size) (v.construct value _).elements = _
    simp only [length_elements]
    congr 1
    apply Subtype.ext
    exact elements_construct v value _

/-- `push_back` and `try_push_back` ask for room themselves and then leave it to
`emplace_back`. -/
theorem append_of_full (v : InplaceVector T N) (value : T)
    (full : Outcome Panic ContainerError (InplaceVector T N) (Option ℕ)) :
    (if v.size = N then full else (emplaceBack value).run v).mapState elements
      = BoundedList.append value (full.mapState elements) v.elements := by
  by_cases h : v.size = N
  · rw [if_pos h, BoundedList.append, dif_pos ((length_elements v).trans h)]
  · rw [if_neg h, emplaceBack_refines, BoundedList.append, BoundedList.append,
      dif_neg (fun hl => h ((length_elements v).symm.trans hl)),
      dif_neg (fun hl => h ((length_elements v).symm.trans hl))]

theorem popBack_refines (v : InplaceVector T N) :
    (popBack.run v).mapState elements
      = BoundedList.remove (.halt .popBackOnEmpty) v.elements := by
  show Outcome.mapState elements (popBack v) = _
  unfold popBack BoundedList.remove
  by_cases h : v.size = 0
  · rw [if_pos h, if_pos ((elements_eq_nil_iff v).mpr h)]
    rfl
  · rw [if_neg h, if_neg (fun hnil => h ((elements_eq_nil_iff v).mp hnil))]
    show Outcome.ok none (elements ⟨v.items, v.size - 1, _⟩) = _
    congr 1
    apply Subtype.ext
    show _ = v.elements.1.dropLast
    rw [elements_shrink v (Nat.sub_le _ _), List.dropLast_eq_take, length_elements]

/-- An operation does what it is for, unless it is `try_pop_back` on a vector that is not
empty. -/
theorem exec_refines {op : Op T} {v : InplaceVector T N}
    (h : op = .tryPopBack → v.elements.1 = []) :
    ((exec op).run v).mapState elements = (BoundedList.exec op).run v.elements := by
  cases op with
  | emplaceBack value => exact emplaceBack_refines v value
  | pushBack value => exact append_of_full v value (.halt .pushBackPastCapacity)
  | popBack => exact popBack_refines v
  | tryPushBack value => exact append_of_full v value (.err .capacityExceeded v)
  | tryPopBack =>
    have hnil := h rfl
    have hzero := (elements_eq_nil_iff v).mp hnil
    show Outcome.mapState elements (tryPopBack v) = BoundedList.remove _ v.elements
    rw [tryPopBack, if_pos hzero, BoundedList.remove, if_pos hnil]
    rfl
  | clear => rfl

/-- `try_pop_back` on a vector that is not empty keeps the element that should go. -/
theorem not_tryPopBack_refines {v : InplaceVector T N} (h : v.elements.1 ≠ []) :
    ((exec .tryPopBack).run v).mapState elements
      ≠ (BoundedList.exec .tryPopBack).run v.elements := by
  have hzero : v.size ≠ 0 := fun hzero => h ((elements_eq_nil_iff v).mpr hzero)
  show Outcome.mapState elements (tryPopBack v) ≠ BoundedList.remove _ v.elements
  rw [tryPopBack, if_neg hzero, BoundedList.remove, if_neg h]
  intro heq
  have hlist : v.elements.1 = v.elements.1.dropLast :=
    congrArg Subtype.val (Outcome.ok.inj heq).2
  have hlen := congrArg List.length hlist
  rw [List.length_dropLast, length_elements] at hlen
  omega

/-! ## The variants -/

theorem emplaceBack_ne_halt {v : InplaceVector T N} (h : v.size ≠ N) (value : T) (p : Panic) :
    (emplaceBack value).run v ≠ .halt p := by
  show emplaceBack value v ≠ .halt p
  rw [emplaceBack, dif_neg h]
  exact fun heq => by cases heq

theorem emplaceBack_ne_err (v v' : InplaceVector T N) (value : T) (e : ContainerError) :
    (emplaceBack value).run v ≠ .err e v' := by
  show emplaceBack value v ≠ .err e v'
  unfold emplaceBack
  split_ifs <;> exact fun heq => by cases heq

/-- The variants of `push_back` agree in every state. -/
theorem pushBack_variantsAgree (v : InplaceVector T N) (value : T) :
    VariantsAgree (.tryPushBack value) v := by
  have htry : (exec (.tryPushBack value)).run v
      = if v.size = N then .err .capacityExceeded v else (emplaceBack value).run v := rfl
  have hpanic : (exec (Op.panicking (.tryPushBack value))).run v
      = if v.size = N then .halt .pushBackPastCapacity else (emplaceBack value).run v := rfl
  by_cases h : v.size = N
  · rw [if_pos h] at htry hpanic
    refine ⟨fun hne => absurd hpanic (hne _), fun _ => ?_, fun e v' herr => ?_⟩
    · exact ⟨fun _ => ⟨_, hpanic⟩, fun _ => ⟨_, _, htry⟩⟩
    · rw [htry] at herr
      exact (Outcome.err.inj herr).2.symm
  · rw [if_neg h] at htry hpanic
    refine ⟨fun _ => htry.trans hpanic.symm, fun _ => ?_, fun e v' herr => ?_⟩
    · constructor
      · rintro ⟨e, v', herr⟩
        exact absurd (htry.symm.trans herr) (emplaceBack_ne_err v v' value e)
      · rintro ⟨p, hp⟩
        exact absurd (hpanic.symm.trans hp) (emplaceBack_ne_halt h value p)
    · exact absurd (htry.symm.trans herr) (emplaceBack_ne_err v v' value e)

/-- The variants of `pop_back` agree on an empty vector. -/
theorem popBack_variantsAgree {v : InplaceVector T N} (h : v.size = 0) :
    VariantsAgree .tryPopBack v := by
  have htry : (exec .tryPopBack).run v = .err .empty v := if_pos h
  have hpanic : (exec (Op.panicking .tryPopBack)).run v = .halt .popBackOnEmpty := if_pos h
  refine ⟨fun hne => absurd hpanic (hne _), fun _ => ?_, fun e v' herr => ?_⟩
  · exact ⟨fun _ => ⟨_, hpanic⟩, fun _ => ⟨_, _, htry⟩⟩
  · rw [htry] at herr
    exact (Outcome.err.inj herr).2.symm

/-- An operation that has no `try_` variant agrees with itself. -/
theorem variantsAgree_self {op : Op T} (h : op.panicking = op) {v : InplaceVector T N}
    (herr : ∀ e v', (exec op).run v ≠ .err e v') : VariantsAgree op v := by
  refine ⟨fun _ => by rw [h], fun htry => absurd h htry, fun e v' heq => ?_⟩
  exact absurd heq (herr e v')

theorem exec_variantsAgree {op : Op T} {v : InplaceVector T N}
    (h : op = .tryPopBack → v.elements.1 = []) : VariantsAgree op v := by
  cases op with
  | emplaceBack value =>
    apply variantsAgree_self rfl
    exact fun e v' => emplaceBack_ne_err v v' value e
  | pushBack value =>
    apply variantsAgree_self rfl
    intro e v'
    show (if v.size = N then .halt .pushBackPastCapacity else (emplaceBack value).run v) ≠ _
    by_cases hfull : v.size = N
    · rw [if_pos hfull]
      exact fun heq => by cases heq
    · rw [if_neg hfull]
      exact emplaceBack_ne_err v v' value e
  | popBack =>
    apply variantsAgree_self rfl
    intro e v'
    show popBack v ≠ _
    unfold popBack
    split_ifs <;> exact fun heq => by cases heq
  | tryPushBack value => exact pushBack_variantsAgree v value
  | tryPopBack => exact popBack_variantsAgree ((elements_eq_nil_iff v).mp (h rfl))
  | clear =>
    apply variantsAgree_self rfl
    exact fun e v' heq => by cases heq

/-! ## Runs -/

/-- **Which runs are those of a list.**  Under any operations the elements of the vector are
those of the list, with the same references, errors and panics, and each operation agrees
with its variant, if and only if no `try_pop_back` meets a list that is not empty. -/
theorem inplace_vector_refines_iff (ops : List (Op T)) : ∀ v : InplaceVector T N,
    ((trace exec ops v).map (Outcome.mapState elements)
        = trace BoundedList.exec ops v.elements ∧ Along exec VariantsAgree ops v) ↔
      Along BoundedList.exec (fun op l => op = .tryPopBack → l.1 = []) ops v.elements := by
  induction ops with
  | nil => exact fun v => ⟨fun _ => trivial, fun _ => ⟨rfl, trivial⟩⟩
  | cons op ops ih =>
    intro v
    rw [trace_cons_map_iff]
    constructor
    · rintro ⟨⟨hfirst, hrest⟩, -, hvariants⟩
      refine ⟨fun hop => ?_, fun l hl => ?_⟩
      · by_contra hne
        subst hop
        exact not_tryPopBack_refines hne hfirst
      · rw [← hfirst, Outcome.state?_mapState] at hl
        obtain ⟨v', hv', rfl⟩ := Option.map_eq_some_iff.mp hl
        exact (ih v').mp ⟨hrest v' hv', hvariants v' hv'⟩
    · rintro ⟨hop, halong⟩
      have hfirst := exec_refines hop
      have hnext : ∀ v', ((exec op).run v).state? = some v' →
          ((BoundedList.exec op).run v.elements).state? = some v'.elements := by
        intro v' hv'
        rw [← hfirst, Outcome.state?_mapState, hv', Option.map_some]
      refine ⟨⟨hfirst, fun v' hv' => ?_⟩, exec_variantsAgree hop, fun v' hv' => ?_⟩
      · exact ((ih v').mpr (halong _ (hnext v' hv'))).1
      · exact ((ih v').mpr (halong _ (hnext v' hv'))).2

/-- One element is pushed and popped, and is still there. -/
theorem try_pop_back_keeps_element :
    let v : InplaceVector ℕ 2 := ⟨Vector.replicate 2 0, 0, by decide⟩
    (trace exec [.pushBack 7, .tryPopBack] v).map (Outcome.mapState elements)
        = [.ok (some 0) ⟨[7], by decide⟩, .ok none ⟨[7], by decide⟩] ∧
      trace BoundedList.exec [.pushBack 7, .tryPopBack] v.elements
        = [.ok (some 0) ⟨[7], by decide⟩, .ok none ⟨[], by decide⟩] ∧
      (trace exec [.pushBack 7, .tryPopBack] v).map (Outcome.mapState elements)
        ≠ trace BoundedList.exec [.pushBack 7, .tryPopBack] v.elements := by
  decide

end InplaceVector

end DoomOs
