/-
# Writing to the console

`write` and `writev` of `kernel/fs/posix/stub_impl.cpp`.  Both reach the console through
`emit_bytes`, which prints a text of its own for a null pointer.  `validate_iovecs` lets a
null pointer pass when there is nothing behind it, so `writev` can come across one.
-/
import DoomOs.Emit
import DoomOs.FilesVectors

namespace DoomOs

namespace Files

open Kprint (emitBytes nullText)

/-! ## The calls -/

/-- A byte, as the character that `const char *` makes of it. -/
def charOf (byte : UInt8) : Char := Char.ofNat byte.toNat

/-- The characters that `emit_bytes` is given, through a pointer that may be null. -/
def charsAt (m : Memory) (buffer count : ℕ) : Option (List Char) :=
  if buffer = 0 then none else some ((copyBytes m buffer count).map charOf)

/-- What a call hands back, what `console_write` receives meanwhile, and what it leaves
behind. -/
structure Emission where
  value : ℤ
  output : List Char
  world : World

/-- `write`. -/
def write (fd : ℤ) (buffer count : ℕ) (w : World) : Emission :=
  if fd ≠ 1 ∧ fd ≠ 2 then ⟨-1, [], (w.failed .ebadf).2⟩
  else ⟨toOff count, emitBytes (charsAt w.memory buffer count), w⟩

/-- The loop of `writev`, from vector `i` on. -/
def writevFrom (fd : ℤ) (vectors : ℕ) : (n i : ℕ) → (total : ℤ) → World → Emission
  | 0, _, total, w => ⟨total, [], w⟩
  | n + 1, i, total, w =>
    let v := iovecAt w.memory vectors i
    let r := write fd v.base v.len w
    if r.value < 0 then ⟨if total = 0 then -1 else total, r.output, r.world⟩
    else if r.value.toNat ≠ v.len then ⟨total + r.value, r.output, r.world⟩
    else
      let rest := writevFrom fd vectors n (i + 1) (total + r.value) r.world
      { rest with output := r.output ++ rest.output }

/-- `writev`. -/
def writev (fd : ℤ) (vectors : ℕ) (count : ℤ) (w : World) : Emission :=
  match validateIovecs w.memory vectors count with
  | some e => ⟨-1, [], (w.failed e).2⟩
  | none => writevFrom fd vectors count.toNat 0 0 w

/-! ## What reaches the console -/

variable {m : Memory} {w : World} {fd : ℤ} {vectors : ℕ} {count : ℤ}

/-- What `writev` is to write: the contents of the buffers, one after the other. -/
def contents (m : Memory) (l : List Iovec) : List Char :=
  (l.flatMap fun v => copyBytes m v.base v.len).map charOf

/-- What it writes. -/
def emitted (m : Memory) (l : List Iovec) : List Char :=
  l.flatMap fun v => emitBytes (charsAt m v.base v.len)

/-- The vectors that `validate_iovecs` lets pass: only an empty one has no buffer. -/
theorem len_eq_zero_of_validateFrom : ∀ {n i total : ℕ},
    validateFrom m vectors n i total = none →
      ∀ j ∈ List.range' i n, (iovecAt m vectors j).base = 0 → (iovecAt m vectors j).len = 0 := by
  intro n
  induction n with
  | zero =>
    intro i total _ j hj
    cases hj
  | succ n ih =>
    intro i total h j hj hbase
    rw [validateFrom] at h
    split_ifs at h with hnull hlong
    rw [List.range'_succ, List.mem_cons] at hj
    rcases hj with rfl | hj
    · by_contra hlen
      exact hnull ⟨hbase, hlen⟩
    · exact ih h j hj hbase

theorem len_eq_zero_of_validateIovecs (h : validateIovecs m vectors count = none) {v : Iovec}
    (hv : v ∈ iovecs m vectors count) (hbase : v.base = 0) : v.len = 0 := by
  obtain ⟨i, hi, rfl⟩ := List.mem_map.mp hv
  rw [validateIovecs] at h
  split_ifs at h
  rw [List.range_eq_range'] at hi
  exact len_eq_zero_of_validateFrom h i hi hbase

/-- The loop writes all vectors, as no write to the console fails or is cut short. -/
theorem writevFrom_eq (hfd : fd = 1 ∨ fd = 2) : ∀ (n i : ℕ) (total : ℤ),
    (∀ j ∈ List.range' i n, (iovecAt w.memory vectors j).len ≤ ssizeMax) →
    writevFrom fd vectors n i total w
      = ⟨total + totalLength ((List.range' i n).map (iovecAt w.memory vectors)),
          emitted w.memory ((List.range' i n).map (iovecAt w.memory vectors)), w⟩ := by
  have hconsole : ¬ (fd ≠ 1 ∧ fd ≠ 2) := by omega
  intro n
  induction n with
  | zero =>
    intro i total _
    simp only [writevFrom, totalLength, emitted, List.range'_zero, List.map_nil, List.sum_nil,
      List.flatMap_nil, Nat.cast_zero, add_zero]
  | succ n ih =>
    intro i total hlen
    rw [List.range'_succ, List.forall_mem_cons] at hlen
    have hvalue : toOff (iovecAt w.memory vectors i).len = (iovecAt w.memory vectors i).len :=
      toOff_of_lt (by have hle := hlen.1; unfold ssizeMax at hle; omega)
    rw [writevFrom, write, if_neg hconsole]
    dsimp only
    rw [hvalue, if_neg (by omega), if_neg (by rw [Int.toNat_natCast, not_not]),
      ih (i + 1) _ hlen.2, List.range'_succ]
    simp only [totalLength, emitted, List.map_cons, List.sum_cons, List.flatMap_cons,
      Nat.cast_add, Int.add_assoc]

/-- The text for a null pointer stands where a buffer is missing, and nowhere else. -/
theorem length_emitted : ∀ {l : List Iovec}, (∀ v ∈ l, v.base = 0 → v.len = 0) →
    (emitted m l).length
      = (contents m l).length + nullText.length * l.countP (fun v => v.base = 0) := by
  intro l
  induction l with
  | nil => exact fun _ => rfl
  | cons v l ih =>
    intro h
    rw [List.forall_mem_cons] at h
    have hrest := ih h.2
    have hfirst : (contents m (v :: l)).length = v.len + (contents m l).length := by
      simp [contents, copyBytes]
    have hsplit : emitted m (v :: l) = emitBytes (charsAt m v.base v.len) ++ emitted m l :=
      List.flatMap_cons
    rw [hsplit, hfirst, List.length_append, hrest]
    by_cases hbase : v.base = 0
    · rw [List.countP_cons_of_pos (by simpa using hbase), charsAt, if_pos hbase, h.1 hbase]
      show nullText.length + _ = _
      ring
    · have hwritten : (emitBytes (charsAt m v.base v.len)).length = v.len := by
        rw [charsAt, if_neg hbase]
        simp [emitBytes, Kprint.consoleWrite, copyBytes]
      rw [List.countP_cons_of_neg (by simpa using hbase), hwritten, Nat.add_assoc]

/-- Where every vector has a buffer the contents are written. -/
theorem emitted_eq_contents : ∀ {l : List Iovec}, (∀ v ∈ l, v.base ≠ 0) →
    emitted m l = contents m l := by
  intro l
  induction l with
  | nil => exact fun _ => rfl
  | cons v l ih =>
    intro h
    rw [List.forall_mem_cons] at h
    have hrest := ih h.2
    unfold emitted contents at hrest ⊢
    rw [List.flatMap_cons, List.flatMap_cons, List.map_append, hrest, charsAt, if_neg h.1]
    rfl

/-- **What `writev` writes.**  For a list of vectors that is accepted, the console receives
the contents of the buffers in their order and the call returns their length, if and only
if none of the vectors is a null pointer. -/
theorem writev_emits_iff (hfd : fd = 1 ∨ fd = 2)
    (hvalid : validateIovecs w.memory vectors count = none) :
    ((writev fd vectors count w).output = contents w.memory (iovecs w.memory vectors count) ∧
        (writev fd vectors count w).value = totalLength (iovecs w.memory vectors count)) ↔
      ∀ v ∈ iovecs w.memory vectors count, v.base ≠ 0 := by
  have hlen : ∀ j ∈ List.range' 0 count.toNat,
      (iovecAt w.memory vectors j).len ≤ ssizeMax := by
    intro j hj
    apply len_le_of_validateIovecs hvalid
    rw [iovecs, List.range_eq_range']
    exact List.mem_map_of_mem hj
  have hrun : writev fd vectors count w
      = ⟨totalLength (iovecs w.memory vectors count),
          emitted w.memory (iovecs w.memory vectors count), w⟩ := by
    rw [writev, hvalid]
    dsimp only
    rw [writevFrom_eq hfd _ _ _ hlen, Int.zero_add, iovecs, List.range_eq_range']
  rw [hrun]
  constructor
  · rintro ⟨houtput, -⟩ v hv hbase
    have hlength := length_emitted (m := w.memory)
      fun v hv => len_eq_zero_of_validateIovecs hvalid hv
    dsimp only at houtput
    rw [houtput] at hlength
    have hcount : 0 < (iovecs w.memory vectors count).countP (fun v => v.base = 0) :=
      List.countP_pos_iff.mpr ⟨v, hv, by simpa using hbase⟩
    have hsix : nullText.length = 6 := rfl
    rw [hsix] at hlength
    omega
  · intro h
    exact ⟨emitted_eq_contents h, rfl⟩

/-- The characters `ab` at 8192 and `c` at 12288. -/
def withText (vectors : List UInt8) : Memory := fun a =>
  if a = 8192 then 97 else if a = 8193 then 98 else if a = 12288 then 99
  else vectors.getD (a - 4096) 0

/-- Two bytes at 8192 and one at 12288. -/
def twoVectors : List UInt8 :=
  [0, 0x20, 0, 0, 0, 0, 0, 0, 2, 0, 0, 0, 0, 0, 0, 0] ++
    [0, 0x30, 0, 0, 0, 0, 0, 0, 1, 0, 0, 0, 0, 0, 0, 0]

theorem writev_emits_iff_small :
    (writev 1 4096 2 ⟨withText twoVectors, {}⟩).output = ['a', 'b', 'c'] ∧
      (writev 1 4096 2 ⟨withText twoVectors, {}⟩).value = 3 := by
  have hvectors : iovecs (withText twoVectors) 4096 2 = [⟨8192, 2⟩, ⟨12288, 1⟩] := by decide
  have hvalid : validateIovecs (withText twoVectors) 4096 2 = none := by decide
  have hbases : ∀ v ∈ iovecs (withText twoVectors) 4096 2, v.base ≠ 0 := by
    rw [hvectors]
    decide
  obtain ⟨houtput, hvalue⟩ :=
    (writev_emits_iff (w := ⟨withText twoVectors, {}⟩) (Or.inl rfl) hvalid).mpr hbases
  rw [hvectors] at houtput hvalue
  exact ⟨houtput, hvalue⟩

/-- One vector that is a null pointer with nothing behind it: the call returns zero, and the
console has received six characters. -/
theorem writev_prints_null :
    validateIovecs (withText (List.replicate 16 0)) 4096 1 = none ∧
      iovecs (withText (List.replicate 16 0)) 4096 1 = [⟨0, 0⟩] ∧
      contents (withText (List.replicate 16 0)) [⟨0, 0⟩] = [] ∧
      (writev 1 4096 1 ⟨withText (List.replicate 16 0), {}⟩).value = 0 ∧
      (writev 1 4096 1 ⟨withText (List.replicate 16 0), {}⟩).output
        = ['<', 'n', 'u', 'l', 'l', '>'] := by
  decide

end Files

end DoomOs
