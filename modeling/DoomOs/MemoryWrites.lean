/-
# Code that writes memory

Little-endian fields in byte memory: `putLe` stores one, and `leAt` reads back what was stored
(`leAt_putLe`) or what was there (`leAt_putLe_of_apart`).  A packed structure is a list of fields
with their widths; `putFields` stores it, `Holds` says that memory holds it, and `Holds.field`
reads any of its fields at its offset.
-/
import DoomOs.Multiboot2Walk

namespace DoomOs

/-- Storing the low `n` bytes of `v` from address `a` on, little-endian. -/
def putLe (m : Memory) (a : ℕ) : (n v : ℕ) → Memory
  | 0, _ => m
  | n + 1, v => putLe (Function.update m a (UInt8.ofNat v)) (a + 1) n (v / 256)

theorem putLe_of_notMem (m : Memory) : ∀ (n a v x : ℕ), x < a ∨ a + n ≤ x →
    putLe m a n v x = m x := by
  intro n
  induction n generalizing m with
  | zero =>
    intro a v x _
    rfl
  | succ n ih =>
    intro a v x hx
    have hne : x ≠ a := by omega
    rw [putLe, ih _ (a + 1) _ x (by omega), Function.update_of_ne hne]

/-- **Reading back.** -/
theorem leAt_putLe (m : Memory) : ∀ n a v : ℕ, leAt (putLe m a n v) a n = v % 256 ^ n := by
  intro n
  induction n generalizing m with
  | zero =>
    intro a v
    rw [leAt, pow_zero, Nat.mod_one]
  | succ n ih =>
    intro a v
    have hbyte : putLe m a (n + 1) v a = UInt8.ofNat v := by
      rw [putLe, putLe_of_notMem _ n (a + 1) _ a (by omega), Function.update_self]
    have hlow : (UInt8.ofNat v).toNat = v % 256 := UInt8.toNat_ofNat'
    rw [leAt, hbyte, putLe, ih, hlow, pow_succ', Nat.mod_mul]

/-- A field: how many bytes, and the value. -/
abbrev Field : Type := ℕ × ℕ

/-- The bytes of a packed structure. -/
def sizeOf (fields : List Field) : ℕ := (fields.map Prod.fst).sum

/-- Storing a packed structure. -/
def putFields (m : Memory) (a : ℕ) : List Field → Memory
  | [] => m
  | (n, v) :: fields => putFields (putLe m a n v) (a + n) fields

/-- Memory holds a packed structure. -/
def Holds (m : Memory) (a : ℕ) : List Field → Prop
  | [] => True
  | (n, v) :: fields => leAt m a n = v % 256 ^ n ∧ Holds m (a + n) fields

@[simp] theorem sizeOf_nil : sizeOf [] = 0 := rfl

@[simp] theorem sizeOf_cons (f : Field) (fields : List Field) :
    sizeOf (f :: fields) = f.1 + sizeOf fields := by
  simp [sizeOf]

theorem sizeOf_append (fs gs : List Field) : sizeOf (fs ++ gs) = sizeOf fs + sizeOf gs := by
  simp [sizeOf]

theorem putFields_of_notMem (fields : List Field) : ∀ (m : Memory) (a x : ℕ),
    x < a ∨ a + sizeOf fields ≤ x → putFields m a fields x = m x := by
  induction fields with
  | nil =>
    intro m a x _
    rfl
  | cons f fields ih =>
    intro m a x hx
    rw [sizeOf_cons] at hx
    rw [putFields, ih _ _ _ (by omega), putLe_of_notMem _ _ _ _ _ (by omega)]

/-- Memory that has the same bytes holds the same structure. -/
theorem Holds.congr {m m' : Memory} : ∀ {fields : List Field} {a : ℕ}, Holds m a fields →
    (∀ x, a ≤ x → x < a + sizeOf fields → m' x = m x) → Holds m' a fields := by
  intro fields
  induction fields with
  | nil =>
    intro a _ _
    trivial
  | cons f fields ih =>
    intro a h heq
    rw [sizeOf_cons] at heq
    refine ⟨?_, ih h.2 fun x hx hx' => heq x (by omega) (by omega)⟩
    rw [← h.1]
    apply leAt_congr
    intro i hi
    exact heq (a + i) (by omega) (by omega)

/-- **A structure that was stored is there.** -/
theorem holds_putFields (fields : List Field) : ∀ (m : Memory) (a : ℕ),
    Holds (putFields m a fields) a fields := by
  induction fields with
  | nil =>
    intro m a
    trivial
  | cons f fields ih =>
    intro m a
    refine ⟨?_, ih _ _⟩
    rw [putFields, ← leAt_putLe m f.1 a f.2]
    apply leAt_congr
    intro i hi
    exact putFields_of_notMem fields _ _ _ (by omega)

theorem Holds.append {m : Memory} : ∀ {fs gs : List Field} {a : ℕ}, Holds m a (fs ++ gs) →
    Holds m (a + sizeOf fs) gs := by
  intro fs
  induction fs with
  | nil =>
    intro gs a h
    exact h
  | cons f fs ih =>
    intro gs a h
    rw [sizeOf_cons, ← Nat.add_assoc]
    exact ih h.2

theorem Holds.left {m : Memory} : ∀ {fs gs : List Field} {a : ℕ}, Holds m a (fs ++ gs) →
    Holds m a fs := by
  intro fs
  induction fs with
  | nil =>
    intro gs a _
    trivial
  | cons f fs ih =>
    intro gs a h
    exact ⟨h.1, ih h.2⟩

/-- An element of an array of structures of one size. -/
theorem Holds.getElem {α : Type} {m : Memory} {fields : α → List Field} {k : ℕ}
    (hk : ∀ x, sizeOf (fields x) = k) : ∀ {l : List α} {a : ℕ}, Holds m a (l.flatMap fields) →
      ∀ (i : ℕ) (hi : i < l.length), Holds m (a + k * i) (fields l[i]) := by
  intro l
  induction l with
  | nil =>
    intro a _ i hi
    exact absurd hi (Nat.not_lt_zero i)
  | cons x l ih =>
    intro a h i hi
    rw [List.flatMap_cons] at h
    cases i with
    | zero => exact h.left
    | succ i =>
      have htail := h.append
      rw [hk] at htail
      have := ih htail i (by simpa using hi)
      rw [Nat.add_assoc, Nat.add_comm k, ← Nat.mul_succ] at this
      exact this

theorem sizeOf_flatMap {α : Type} {fields : α → List Field} {k : ℕ}
    (hk : ∀ x, sizeOf (fields x) = k) (l : List α) :
    sizeOf (l.flatMap fields) = k * l.length := by
  induction l with
  | nil => rfl
  | cons x l ih => rw [List.flatMap_cons, sizeOf_append, ih, hk, List.length_cons, Nat.mul_succ,
      Nat.add_comm]

/-- A field of a structure that memory holds. -/
theorem Holds.field {m : Memory} {a n v : ℕ} {fs gs : List Field}
    (h : Holds m a (fs ++ (n, v) :: gs)) : leAt m (a + sizeOf fs) n = v % 256 ^ n := h.append.1

/-- Two fields side by side, read as one. -/
theorem leAt_add (m : Memory) : ∀ n k a : ℕ,
    leAt m a (n + k) = leAt m a n + 256 ^ n * leAt m (a + n) k := by
  intro n
  induction n with
  | zero =>
    intro k a
    simp [leAt]
  | succ n ih =>
    intro k a
    rw [Nat.add_right_comm, leAt, ih, leAt, pow_succ']
    rw [show a + 1 + n = a + (n + 1) from by omega]
    ring

end DoomOs
