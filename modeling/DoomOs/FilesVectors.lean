/-
# Reading into several buffers

`readv` of `kernel/fs/posix/stub_impl.cpp` reads into one buffer after the other until one
of them is not filled.  Here the buffers, the array of vectors and the files lie in one
memory, and every byte that is copied changes it: the bytes that a later read copies, and the
vectors that are looked at later, are those that are there by then.
-/
import DoomOs.FilesCursors
import DoomOs.Moves

namespace DoomOs

namespace Files

/-! ## Writing to memory -/

/-- The loop of `copy_bytes`, from byte `i` on. -/
def copyFrom (destination source : ℕ) : (i n : ℕ) → Memory → Memory
  | _, 0, m => m
  | i, n + 1, m =>
    copyFrom destination source (i + 1) n
      (Function.update m (u64 (destination + i)) (m (u64 (source + i))))

/-- `copy_bytes`, with the bytes it writes. -/
def copyInto (destination source length : ℕ) (m : Memory) : Memory :=
  copyFrom destination source 0 length m

/-- The `n` addresses from `a` on. -/
def addressesFrom (a n : ℕ) : List ℕ := (List.range n).map fun i => u64 (a + i)

/-- `m'` is `m` with these bytes at these addresses. -/
structure Written (m : Memory) (addresses : List ℕ) (bytes : List UInt8) (m' : Memory) :
    Prop where
  bytes : addresses.map m' = bytes
  frame : ∀ a, a ∉ addresses → m' a = m a

section Written

variable {m m₁ m₂ : Memory} {as as' : List ℕ} {bs bs' : List UInt8}

theorem Written.nil (m : Memory) : Written m [] [] m := ⟨rfl, fun _ _ => rfl⟩

theorem Written.append (h : Written m as bs m₁) (h' : Written m₁ as' bs' m₂)
    (hd : as.Disjoint as') : Written m (as ++ as') (bs ++ bs') m₂ := by
  refine ⟨?_, fun a ha => ?_⟩
  · have hkept : as.map m₂ = as.map m₁ :=
      List.map_congr_left fun a ha => h'.frame a (hd ha)
    rw [List.map_append, hkept, h.bytes, h'.bytes]
  · rw [List.mem_append, not_or] at ha
    rw [h'.frame a ha.2, h.frame a ha.1]

theorem copyFrom_eq_moveAll (destination source : ℕ) : ∀ (n i : ℕ) (m : Memory),
    copyFrom destination source i n m = moveAll (fun j => u64 (destination + j))
      (fun j => u64 (source + j)) (List.range' i n) m := by
  intro n
  induction n with
  | zero => exact fun i m => rfl
  | succ n ih =>
    intro i m
    rw [copyFrom, ih, List.range'_succ, moveAll]

/-- Copying to addresses that are different from one another and from those of the source. -/
theorem written_copyFrom (destination source n i : ℕ) (m : Memory)
    (hnodup : ((List.range' i n).map fun j => u64 (destination + j)).Nodup)
    (hsource : ∀ j ∈ List.range' i n, ∀ k ∈ List.range' i n,
      u64 (destination + j) ≠ u64 (source + k)) :
    Written m ((List.range' i n).map fun j => u64 (destination + j))
      ((List.range' i n).map fun j => m (u64 (source + j)))
      (copyFrom destination source i n m) := by
  rw [copyFrom_eq_moveAll]
  constructor
  · rw [List.map_map]
    apply List.map_congr_left
    exact moveAll_exact hnodup (List.pairwise_of_forall_mem_list hsource)
  · intro a ha
    apply moveAll_frame
    intro j hj heq
    exact ha (heq ▸ List.mem_map_of_mem hj)

theorem written_copyInto {destination source n : ℕ}
    (hnodup : (addressesFrom destination n).Nodup)
    (hsource : (addressesFrom destination n).Disjoint (addressesFrom source n)) :
    Written m (addressesFrom destination n) (copyBytes m source n)
      (copyInto destination source n m) := by
  unfold addressesFrom at hnodup hsource ⊢
  unfold copyBytes copyInto
  rw [List.range_eq_range'] at hnodup hsource ⊢
  refine written_copyFrom destination source n 0 m hnodup fun j hj k hk heq => ?_
  exact hsource (List.mem_map_of_mem hj) (heq ▸ List.mem_map_of_mem hk)

end Written

theorem copyBytes_eq_map (m : Memory) (a n : ℕ) : copyBytes m a n = (addressesFrom a n).map m := by
  rw [copyBytes, addressesFrom, List.map_map]
  rfl

theorem addressesFrom_add (a n n' : ℕ) :
    addressesFrom a (n + n') = addressesFrom a n ++ addressesFrom (a + n) n' := by
  unfold addressesFrom
  rw [List.range_add, List.map_append, List.map_map]
  congr 2
  funext i
  rw [Function.comp_apply, Nat.add_assoc]

theorem copyBytes_add (m : Memory) (a n n' : ℕ) :
    copyBytes m a (n + n') = copyBytes m a n ++ copyBytes m (a + n) n' := by
  simp only [copyBytes_eq_map, addressesFrom_add, List.map_append]

/-- A buffer that is not longer than half the address space meets no address twice. -/
theorem nodup_addressesFrom (a : ℕ) {n : ℕ} (h : n < 2 ^ 63) : (addressesFrom a n).Nodup := by
  refine List.Nodup.map_on (fun i hi j hj heq => ?_) List.nodup_range
  rw [List.mem_range] at hi hj
  unfold u64 at heq
  omega

/-! ## The calls -/

/-- What the calls with buffers work on. -/
structure World where
  memory : Memory
  table : Table

/-- Setting `errno` and returning -1. -/
def World.failed (w : World) (e : Errno) : ℤ × World :=
  (-1, { w with table := { w.table with errno := e.code } })

/-- `iovec`. -/
structure Iovec where
  base : ℕ
  len : ℕ
  deriving DecidableEq, Repr

/-- `vectors[i]`. -/
def iovecAt (m : Memory) (vectors i : ℕ) : Iovec :=
  ⟨leAt (fun a => m (u64 a)) (vectors + 16 * i) 8,
    leAt (fun a => m (u64 a)) (vectors + 16 * i + 8) 8⟩

/-- `SSIZE_MAX_VALUE`. -/
def ssizeMax : ℕ := 2 ^ 63 - 1

/-- `IOV_MAX`. -/
def iovMax : ℤ := 1024

/-- The loop of `validate_iovecs`, from vector `i` on. -/
def validateFrom (m : Memory) (vectors : ℕ) : (n i total : ℕ) → Option Errno
  | 0, _, _ => none
  | n + 1, i, total =>
    let v := iovecAt m vectors i
    if v.base = 0 ∧ v.len ≠ 0 then some .efault
    else if v.len > sub64 ssizeMax total then some .einval
    else validateFrom m vectors n (i + 1) (u64 (total + v.len))

/-- `validate_iovecs`: the error, if there is one. -/
def validateIovecs (m : Memory) (vectors : ℕ) (count : ℤ) : Option Errno :=
  if count < 0 ∨ count > iovMax ∨ (vectors = 0 ∧ count ≠ 0) then some .einval
  else validateFrom m vectors count.toNat 0 0

/-- `read`, with the bytes it writes to the buffer. -/
def readInto (fd : ℤ) (buffer count : ℕ) (w : World) : ℤ × World :=
  if isConsole fd then
    if fd = 0 then (0, w) else w.failed .ebadf
  else
    match fileDescriptor w.table fd with
    | none => w.failed .ebadf
    | some k =>
      let entry := w.table.descriptors k
      let remaining := sub64 entry.size entry.offset
      let length := if count < remaining then count else remaining
      (toOff length, {
        memory := copyInto buffer (entry.base + entry.offset) length w.memory
        table := w.table.set k { entry with offset := u64 (entry.offset + length) } })

/-- The loop of `readv`, from vector `i` on. -/
def readvFrom (fd : ℤ) (vectors : ℕ) : (n i : ℕ) → (total : ℤ) → World → ℤ × World
  | 0, _, total, w => (total, w)
  | n + 1, i, total, w =>
    let v := iovecAt w.memory vectors i
    let r := readInto fd v.base v.len w
    if r.1 < 0 then (if total = 0 then -1 else total, r.2)
    else if r.1.toNat ≠ (iovecAt r.2.memory vectors i).len then (total + r.1, r.2)
    else readvFrom fd vectors n (i + 1) (total + r.1) r.2

/-- `readv`. -/
def readv (fd : ℤ) (vectors : ℕ) (count : ℤ) (w : World) : ℤ × World :=
  match validateIovecs w.memory vectors count with
  | some e => w.failed e
  | none => readvFrom fd vectors count.toNat 0 0 w

/-! ## One read into memory -/

variable {m m' : Memory} {s : Table} {w : World} {fd : ℤ} {k vectors : ℕ} {count : ℤ}

theorem fileDescriptor_eq_some : fileDescriptor s fd = some k ↔
    (3 ≤ fd ∧ fd < 8) ∧ (s.descriptors k).isOpen = true ∧ fd.toNat = k := by
  unfold fileDescriptor firstFileDescriptor maxDescriptors
  constructor
  · intro h
    split_ifs at h with hbad
    obtain rfl := Option.some.inj h
    simp only [not_or, Bool.not_eq_false] at hbad
    exact ⟨by omega, hbad.2.2, rfl⟩
  · rintro ⟨hrange, hopen, rfl⟩
    rw [if_neg]
    rw [hopen]
    simp only [not_or, Bool.true_eq_false, not_false_eq_true, and_true]
    omega

/-- Another position leaves a file open. -/
theorem fileDescriptor_set (h : fileDescriptor s fd = some k) {d : Descriptor}
    (hd : d.isOpen = true) : fileDescriptor (s.set k d) fd = some k := by
  rw [fileDescriptor_eq_some] at h ⊢
  rw [Table.descriptors_set]
  exact ⟨h.1, hd, h.2.2⟩

theorem not_isConsole (h : fileDescriptor s fd = some k) : isConsole fd ≠ true := by
  obtain ⟨hrange, -, -⟩ := fileDescriptor_eq_some.mp h
  rw [isConsole, ne_eq, decide_eq_true_eq]
  omega

/-- What is known of an open descriptor: it is at a position in its file, and the file has a
size that `off_t` can hold. -/
structure Descriptor.Sound (d : Descriptor) : Prop where
  isOpen : d.isOpen = true
  offset_le : d.offset ≤ d.size
  size_lt : d.size < 2 ^ 63

/-- The descriptor after `n` more bytes. -/
def Descriptor.advance (d : Descriptor) (n : ℕ) : Descriptor := { d with offset := d.offset + n }

/-- The next byte that a read delivers. -/
def Descriptor.position (d : Descriptor) : ℕ := d.base + d.offset

/-- The number of bytes that are left. -/
def Descriptor.remaining (d : Descriptor) : ℕ := d.size - d.offset

section Descriptor

variable {d : Descriptor}

theorem Descriptor.Sound.advance (h : d.Sound) {n : ℕ} (hn : n ≤ d.remaining) :
    (d.advance n).Sound := by
  have hle := h.offset_le
  refine ⟨h.isOpen, ?_, h.size_lt⟩
  unfold Descriptor.remaining at hn
  show d.offset + n ≤ d.size
  omega

theorem Descriptor.position_advance (d : Descriptor) (n : ℕ) :
    (d.advance n).position = d.position + n := (Nat.add_assoc _ _ _).symm

theorem Descriptor.remaining_advance (d : Descriptor) (n : ℕ) :
    (d.advance n).remaining = d.remaining - n := (Nat.sub_sub _ _ _).symm

theorem Descriptor.advance_advance (d : Descriptor) (n n' : ℕ) :
    (d.advance n).advance n' = d.advance (n + n') :=
  congrArg (fun o => { d with offset := o }) (Nat.add_assoc _ _ _)

/-- Every run leaves sound descriptors. -/
theorem sound_of_run {modules : List ModuleInfo} (hb : Bounded modules) (m : Memory)
    (calls : List Call) (h : fileDescriptor (execAll m modules calls {}).2 fd = some k) :
    (((execAll m modules calls {}).2).descriptors k).Sound := by
  obtain ⟨-, hopen, -⟩ := fileDescriptor_eq_some.mp h
  have hrun : execAll m modules calls {} =
      ((Cursors.execAll m calls ({} : Cursors modules)).1,
        tableOf (Cursors.execAll m calls ({} : Cursors modules)).2) :=
    execAll_refines hb m calls {}
  rw [hrun, descriptors_tableOf] at hopen ⊢
  cases hc : (Cursors.execAll m calls ({} : Cursors modules)).2.cursor k with
  | none =>
    rw [hc] at hopen
    cases hopen
  | some c =>
    have hlen := hb c.module c.mem
    refine ⟨rfl, c.le, ?_⟩
    show c.module.range.length < 2 ^ 63
    omega

/-- The number of bytes that `read` copies, without the wraps. -/
theorem Descriptor.Sound.length (h : d.Sound) (count : ℕ) :
    (if count < sub64 d.size d.offset then count else sub64 d.size d.offset)
        = min count d.remaining ∧
      toOff (min count d.remaining) = ((min count d.remaining : ℕ) : ℤ) ∧
      u64 (d.offset + min count d.remaining) = d.offset + min count d.remaining := by
  have hsize := h.size_lt
  have hoffset := h.offset_le
  have hle : min count d.remaining ≤ d.size - d.offset := Nat.min_le_right _ _
  refine ⟨?_, toOff_of_lt (by omega), u64_of_lt (by omega)⟩
  rw [sub64_of_le (by omega) hoffset]
  unfold Descriptor.remaining
  split_ifs <;> omega

/-- What `read` does with an open file. -/
theorem read_open (m : Memory) (h : fileDescriptor s fd = some k) (hd : s.descriptors k = d)
    (hs : d.Sound) (count : ℕ) :
    read m fd count s = ({
      value := ((min count d.remaining : ℕ) : ℤ)
      bytes := copyBytes m d.position (min count d.remaining) },
      s.set k (d.advance (min count d.remaining))) := by
  obtain ⟨hlength, hvalue, hoffset⟩ := hs.length count
  rw [read, if_neg (not_isConsole h), h]
  dsimp only
  rw [hd, hlength, hvalue, hoffset]
  rfl

end Descriptor

/-! ## What `read` stores -/

/-- The addresses that a read of `n` bytes copies from. -/
def copiedFrom (s : Table) (fd : ℤ) (n : ℕ) : List ℕ :=
  match fileDescriptor s fd with
  | none => []
  | some k => addressesFrom (s.descriptors k).position n

@[simp] theorem length_copyBytes (m : Memory) (source n : ℕ) :
    (copyBytes m source n).length = n := by
  rw [copyBytes, List.length_map, List.length_range]

/-- **`read` is the same with and without a buffer**: the value and the table are those that the
table alone shows, and the bytes of the reply are stored from `buffer` on, when these addresses
are distinct and none of those they are copied from. -/
theorem readInto_eq_read (fd : ℤ) (buffer count : ℕ) (w : World) :
    (readInto fd buffer count w).1 = (read w.memory fd count w.table).1.value ∧
      (readInto fd buffer count w).2.table = (read w.memory fd count w.table).2 ∧
      ∀ n, (read w.memory fd count w.table).1.bytes.length = n → (addressesFrom buffer n).Nodup →
        (addressesFrom buffer n).Disjoint (copiedFrom w.table fd n) →
        Written w.memory (addressesFrom buffer n) (read w.memory fd count w.table).1.bytes
          (readInto fd buffer count w).2.memory := by
  have hnone : ∀ e, (w.failed e).1 = (failed w.table e).1.value ∧
      (w.failed e).2.table = (failed w.table e).2 ∧ ∀ n, (failed w.table e).1.bytes.length = n →
        (addressesFrom buffer n).Nodup →
        (addressesFrom buffer n).Disjoint (copiedFrom w.table fd n) →
        Written w.memory (addressesFrom buffer n) (failed w.table e).1.bytes
          (w.failed e).2.memory := by
    refine fun e => ⟨rfl, rfl, ?_⟩
    rintro n rfl - -
    exact Written.nil w.memory
  rw [readInto, read]
  by_cases hconsole : isConsole fd = true
  · rw [if_pos hconsole, if_pos hconsole]
    by_cases hzero : fd = 0
    · rw [if_pos hzero, if_pos hzero]
      refine ⟨rfl, rfl, ?_⟩
      rintro n rfl - -
      exact Written.nil w.memory
    · rw [if_neg hzero, if_neg hzero]
      exact hnone .ebadf
  · rw [if_neg hconsole, if_neg hconsole]
    cases hopen : fileDescriptor w.table fd with
    | none => exact hnone .ebadf
    | some k =>
      refine ⟨rfl, rfl, fun n hn hnodup hsource => ?_⟩
      rw [copiedFrom, hopen] at hsource
      rw [length_copyBytes] at hn
      subst hn
      exact written_copyInto hnodup hsource

/-! ## Buffers -/

/-- The addresses of a buffer. -/
def Iovec.addresses (v : Iovec) : List ℕ := addressesFrom v.base v.len

/-- The vectors of an array. -/
def iovecs (m : Memory) (vectors : ℕ) (count : ℤ) : List Iovec :=
  (List.range count.toNat).map (iovecAt m vectors)

/-- The addresses of all buffers, one after the other. -/
def scattered (l : List Iovec) : List ℕ := l.flatMap Iovec.addresses

/-- The length of all buffers. -/
def totalLength (l : List Iovec) : ℕ := (l.map Iovec.len).sum

@[simp] theorem length_addresses (v : Iovec) : v.addresses.length = v.len := by
  rw [Iovec.addresses, addressesFrom, List.length_map, List.length_range]

theorem length_scattered (l : List Iovec) : (scattered l).length = totalLength l := by
  rw [scattered, List.length_flatMap, totalLength]
  congr 1
  exact List.map_congr_left fun v _ => length_addresses v

theorem take_addresses (v : Iovec) {n : ℕ} (h : n ≤ v.len) :
    v.addresses.take n = addressesFrom v.base n := by
  rw [Iovec.addresses, addressesFrom, addressesFrom, ← List.map_take, List.take_range,
    Nat.min_eq_left h]

/-- The first bytes of a buffer come after all bytes of the buffers before it. -/
theorem take_scattered (pre rest : List Iovec) (v : Iovec) {n : ℕ} (h : n ≤ v.len) :
    (scattered (pre ++ v :: rest)).take (totalLength pre + n) =
      (scattered (pre ++ v :: rest)).take (totalLength pre) ++ addressesFrom v.base n := by
  have hsplit :
      scattered (pre ++ v :: rest) = scattered pre ++ (v.addresses ++ scattered rest) := by
    rw [scattered, List.flatMap_append, List.flatMap_cons]
    rfl
  rw [hsplit, ← length_scattered, List.take_length_add_append, List.take_left,
    List.take_append_of_le_length (by rw [length_addresses]; exact h), take_addresses v h]

/-- A vector whose 16 bytes stay is the same vector. -/
theorem iovecAt_congr {i : ℕ} (h : ∀ j < 16, m' (u64 (vectors + (16 * i + j)))
    = m (u64 (vectors + (16 * i + j)))) : iovecAt m' vectors i = iovecAt m vectors i := by
  refine congrArg₂ Iovec.mk (leAt_congr fun j hj => ?_) (leAt_congr fun j hj => ?_)
  · rw [Nat.add_assoc]
    exact h j (by omega)
  · rw [Nat.add_assoc, Nat.add_assoc]
    exact h (8 + j) (by omega)

/-- No vector that `validate_iovecs` lets through is longer than `SSIZE_MAX_VALUE`. -/
theorem len_le_of_validateFrom : ∀ {n i total : ℕ}, total ≤ ssizeMax →
    validateFrom m vectors n i total = none →
      ∀ j ∈ List.range' i n, (iovecAt m vectors j).len ≤ ssizeMax := by
  intro n
  induction n with
  | zero =>
    intro i total _ _ j hj
    cases hj
  | succ n ih =>
    intro i total htotal h j hj
    rw [validateFrom] at h
    rw [sub64_of_le (by unfold ssizeMax; omega) htotal] at h
    split_ifs at h with hnull hlong
    have hsum : u64 (total + (iovecAt m vectors i).len) = total + (iovecAt m vectors i).len :=
      u64_of_lt (by unfold ssizeMax at *; omega)
    rw [hsum] at h
    rw [List.range'_succ, List.mem_cons] at hj
    rcases hj with rfl | hj
    · omega
    · exact ih (by omega) h j hj

theorem len_le_of_validateIovecs (h : validateIovecs m vectors count = none) {v : Iovec}
    (hv : v ∈ iovecs m vectors count) : v.len ≤ ssizeMax := by
  obtain ⟨i, hi, rfl⟩ := List.mem_map.mp hv
  rw [validateIovecs] at h
  split_ifs at h
  rw [List.range_eq_range'] at hi
  exact len_le_of_validateFrom (Nat.zero_le _) h i hi

/-! ## The loop of `readv` -/

/-- What the buffers of a call are for `n` bytes to reach them as the file has them: pairwise
disjoint, and where those bytes go there is neither one of them nor a part of the array of
vectors. -/
structure Apart (m : Memory) (vectors : ℕ) (count : ℤ) (source : List ℕ) (n : ℕ) : Prop where
  buffers : (iovecs m vectors count).Pairwise fun v v' => v.addresses.Disjoint v'.addresses
  source : ((scattered (iovecs m vectors count)).take n).Disjoint source
  vectors : ((scattered (iovecs m vectors count)).take n).Disjoint
    (addressesFrom vectors (16 * count.toNat))

/-- What `t` more bytes have changed: the position, and the first `t` addresses of the
buffers. -/
structure Progress (m : Memory) (s : Table) (k : ℕ) (slots : List ℕ) (t : ℕ) (w : World) :
    Prop where
  table : w.table = s.set k ((s.descriptors k).advance t)
  written : Written m (slots.take t) (copyBytes m (s.descriptors k).position t) w.memory

theorem progress_zero (m : Memory) (s : Table) (k : ℕ) (slots : List ℕ) :
    Progress m s k slots 0 ⟨m, s⟩ :=
  ⟨(s.set_self k).symm, Written.nil m⟩

/-- **One read** of the loop delivers the next bytes of the file to the next addresses. -/
theorem Progress.read {v : Iovec} {pre rest : List Iovec} {t N : ℕ}
    (hw : Progress m s k (scattered (pre ++ v :: rest)) t w)
    (hopen : fileDescriptor s fd = some k) (hs : (s.descriptors k).Sound)
    (hnodup : (scattered (pre ++ v :: rest)).Nodup)
    (hsource : ((scattered (pre ++ v :: rest)).take N).Disjoint
      (addressesFrom (s.descriptors k).position N))
    (ht : totalLength pre = t) (hleft : t ≤ (s.descriptors k).remaining) {n : ℕ}
    (hn : n = min v.len ((s.descriptors k).remaining - t)) (hN : t + n ≤ N) :
    (readInto fd v.base v.len w).1 = n ∧
      Progress m s k (scattered (pre ++ v :: rest)) (t + n) (readInto fd v.base v.len w).2 := by
  have hdescriptor : w.table.descriptors k = (s.descriptors k).advance t := by
    rw [hw.table, Table.descriptors_set]
  have hopen' : fileDescriptor w.table fd = some k := by
    rw [hw.table]
    exact fileDescriptor_set hopen hs.isOpen
  obtain ⟨hvalue, htable, hstored⟩ := readInto_eq_read fd v.base v.len w
  rw [read_open w.memory hopen' hdescriptor (hs.advance hleft), Descriptor.remaining_advance, ← hn,
    Descriptor.position_advance, Descriptor.advance_advance] at hvalue htable hstored
  refine ⟨hvalue, ?_, ?_⟩
  · rw [htable, hw.table, Table.set_set]
  -- the addresses written now are new ones, and neither they nor the earlier ones lie among the
  -- bytes of the file
  have htake := take_scattered pre rest v (n := n) (by rw [hn]; exact Nat.min_le_left _ _)
  rw [ht] at htake
  have hsub : (scattered (pre ++ v :: rest)).take (t + n) ⊆
      (scattered (pre ++ v :: rest)).take N := List.take_subset_take_left _ hN
  rw [htake] at hsub
  have hfresh : ((scattered (pre ++ v :: rest)).take t ++ addressesFrom v.base n).Nodup := by
    rw [← htake]
    exact hnodup.sublist (List.take_sublist _ _)
  have hfile : addressesFrom ((s.descriptors k).position + t) n ⊆
      addressesFrom (s.descriptors k).position N := by
    obtain ⟨r, rfl⟩ : ∃ r, N = t + n + r := ⟨N - (t + n), by omega⟩
    rw [addressesFrom_add, addressesFrom_add]
    exact fun a ha => List.mem_append_left _ (List.mem_append_right _ ha)
  have hbytes : copyBytes w.memory ((s.descriptors k).position + t) n =
      copyBytes m ((s.descriptors k).position + t) n := by
    rw [copyBytes_eq_map, copyBytes_eq_map]
    exact List.map_congr_left fun a ha => hw.written.frame a fun hslot =>
      hsource (hsub (List.mem_append_left _ hslot)) (hfile ha)
  rw [htake, copyBytes_add, ← hbytes]
  refine hw.written.append (hstored n (length_copyBytes _ _ _) hfresh.of_append_right
    fun a ha hfrom => ?_) (List.disjoint_of_nodup_append hfresh)
  rw [copiedFrom, hopen'] at hfrom
  dsimp only at hfrom
  rw [hdescriptor, Descriptor.position_advance] at hfrom
  exact hsource (hsub (List.mem_append_right _ ha)) (hfile hfrom)

/-- **The loop** delivers what one read of the whole length does. -/
theorem readvFrom_progress {N : ℕ} (hopen : fileDescriptor s fd = some k)
    (hs : (s.descriptors k).Sound) (hvalid : validateIovecs m vectors count = none)
    (hN : N = min (totalLength (iovecs m vectors count)) (s.descriptors k).remaining)
    (hapart : Apart m vectors count (addressesFrom (s.descriptors k).position N) N) :
    ∀ (n i : ℕ) (pre : List Iovec) (w : World), i + n = count.toNat →
      iovecs m vectors count = pre ++ (List.range' i n).map (iovecAt m vectors) →
      totalLength pre ≤ (s.descriptors k).remaining →
      Progress m s k (scattered (iovecs m vectors count)) (totalLength pre) w →
      ∃ w', readvFrom fd vectors n i (totalLength pre) w = ((N : ℤ), w') ∧
        Progress m s k (scattered (iovecs m vectors count)) N w' := by
  have hnodup : (scattered (iovecs m vectors count)).Nodup := by
    refine List.nodup_flatMap.mpr ⟨fun v hv => nodup_addressesFrom v.base ?_, hapart.buffers⟩
    have hlen := len_le_of_validateIovecs hvalid hv
    unfold ssizeMax at hlen
    omega
  intro n
  induction n with
  | zero =>
    intro i pre w _ hpre hleft hw
    rw [List.range'_zero, List.map_nil, List.append_nil] at hpre
    have hall : N = totalLength pre := by rw [hN, hpre, Nat.min_eq_left hleft]
    rw [hall]
    exact ⟨w, rfl, hw⟩
  | succ n ih =>
    intro i pre w hi hpre hleft hw
    rw [List.range'_succ, List.map_cons] at hpre
    obtain ⟨v, hv⟩ : ∃ v, v = iovecAt m vectors i := ⟨_, rfl⟩
    obtain ⟨rest, hrest⟩ : ∃ l, l = (List.range' (i + 1) n).map (iovecAt m vectors) := ⟨_, rfl⟩
    rw [← hv, ← hrest] at hpre
    have htotal : totalLength (iovecs m vectors count) =
        totalLength pre + (v.len + totalLength rest) := by
      rw [hpre, totalLength, List.map_append, List.sum_append, List.map_cons, List.sum_cons]
      rfl
    -- the vectors are the ones of the start, as no byte of theirs is written
    have hsame : ∀ {t : ℕ} {w : World}, t ≤ N →
        Progress m s k (scattered (iovecs m vectors count)) t w →
        iovecAt w.memory vectors i = v := by
      intro t w ht hw
      rw [hv]
      refine iovecAt_congr fun j hj => hw.written.frame _ fun hslot => ?_
      refine hapart.vectors (List.take_subset_take_left _ ht hslot) ?_
      exact List.mem_map_of_mem (List.mem_range.mpr (by omega))
    obtain ⟨b, hb⟩ : ∃ b, b = min v.len ((s.descriptors k).remaining - totalLength pre) :=
      ⟨_, rfl⟩
    have hreach : totalLength pre + b ≤ N := by omega
    rw [hpre] at hw hnodup
    have hsource := hapart.source
    rw [hpre] at hsource
    obtain ⟨hvalue, hw'⟩ := hw.read hopen hs hnodup hsource rfl hleft hb hreach
    rw [← hpre] at hw hw'
    rw [readvFrom, hsame (by omega) hw, hvalue, hsame hreach hw', if_neg (by omega),
      Int.toNat_natCast, ← Nat.cast_add]
    by_cases hfull : b = v.len
    · rw [if_neg (fun h => h hfull)]
      have hpre' : totalLength (pre ++ [v]) = totalLength pre + b := by
        rw [totalLength, List.map_append, List.sum_append, hfull]
        rfl
      rw [← hpre']
      refine ih (i + 1) (pre ++ [v]) _ (by omega) ?_ ?_ ?_
      · rw [hpre, hrest, List.append_assoc]
        rfl
      · omega
      · rw [hpre']
        exact hw'
    · -- the file ended in this buffer
      rw [if_pos hfull]
      have hend : N = totalLength pre + b := by omega
      rw [hend]
      exact ⟨_, rfl, hw'⟩

/-- Standard input delivers nothing. -/
theorem readvFrom_stdin : ∀ (n i : ℕ) (w : World), readvFrom 0 vectors n i 0 w = (0, w) := by
  intro n
  induction n with
  | zero => exact fun i w => rfl
  | succ n ih =>
    intro i w
    have hread : ∀ buffer count, readInto 0 buffer count w = (0, w) := fun _ _ => rfl
    rw [readvFrom]
    simp only [hread, lt_irrefl, if_false, Int.toNat_zero, Int.add_zero]
    split_ifs
    · rfl
    · exact ih (i + 1) w

/-- **`readv` is one `read`.**  A valid array of pairwise disjoint buffers gets from `readv` what
one `read` of their total length delivers, in their order: the same value, the same table, those
bytes at the first addresses of the buffers, and every other byte of the memory as it was.  The
bytes must not be written over one that is still to be read, nor over the vectors. -/
theorem readv_eq_read {modules : List ModuleInfo} (hb : Bounded modules) (m₀ m : Memory)
    (calls : List Call) {s : Table} (hs : s = (execAll m₀ modules calls {}).2) {fd : ℤ}
    (hfd : fd = 0 ∨ fileDescriptor s fd ≠ none) {vectors : ℕ} {count : ℤ}
    (hvalid : validateIovecs m vectors count = none) {T : ℕ}
    (hT : T = totalLength (iovecs m vectors count)) {bytes : List UInt8}
    (hbytes : bytes = (read m fd T s).1.bytes)
    (hapart : Apart m vectors count (copiedFrom s fd bytes.length) bytes.length) :
    (readv fd vectors count ⟨m, s⟩).1 = (read m fd T s).1.value ∧
      (readv fd vectors count ⟨m, s⟩).2.table = (read m fd T s).2 ∧
      ((scattered (iovecs m vectors count)).take bytes.length).map
        (readv fd vectors count ⟨m, s⟩).2.memory = bytes ∧
      ∀ a, a ∉ (scattered (iovecs m vectors count)).take bytes.length →
        (readv fd vectors count ⟨m, s⟩).2.memory a = m a := by
  rw [readv, hvalid]
  dsimp only
  cases hopen : fileDescriptor s fd with
  | none =>
    obtain rfl : fd = 0 := hfd.resolve_right fun h => h hopen
    have hread : read m 0 T s = ({ value := 0 }, s) := rfl
    rw [hread] at hbytes ⊢
    rw [readvFrom_stdin, hbytes]
    exact ⟨rfl, rfl, rfl, fun _ _ => rfl⟩
  | some k =>
    have hsound : (s.descriptors k).Sound := by
      subst hs
      exact sound_of_run hb m₀ calls hopen
    rw [read_open m hopen rfl hsound] at hbytes ⊢
    dsimp only at hbytes
    obtain ⟨N, hN⟩ : ∃ N, N = min T (s.descriptors k).remaining := ⟨_, rfl⟩
    rw [← hN] at hbytes ⊢
    have hlength : bytes.length = N := by
      rw [hbytes, copyBytes, List.length_map, List.length_range]
    rw [hlength, copiedFrom, hopen] at hapart
    rw [hT] at hN
    obtain ⟨w', hrun, hw'⟩ := readvFrom_progress hopen hsound hvalid hN hapart count.toNat 0 []
      ⟨m, s⟩ (Nat.zero_add _) (by rw [iovecs, List.range_eq_range']; rfl) (Nat.zero_le _)
      (progress_zero m s k _)
    have hrun' : readvFrom fd vectors count.toNat 0 0 ⟨m, s⟩ = ((N : ℤ), w') := hrun
    rw [hrun', hlength, hbytes]
    exact ⟨rfl, hw'.table, hw'.written.bytes, hw'.written.frame⟩

/-- A file of the bytes 1 to 5, and vectors at 4096. -/
def withVectors (vectors : List UInt8) : Memory := fun a =>
  if directMapBase + 0x100000 ≤ a then UInt8.ofNat (a - (directMapBase + 0x100000) + 1)
  else vectors.getD (a - 4096) 0

/-- The table with that file open. -/
def opened : Table :=
  (execAll (withVectors []) [smallModule] [.open (some (cStr smallModule.commandLine)) 0] {}).2

/-- Two bytes at 8192, none, and nine at 12288. -/
def threeVectors : List UInt8 :=
  [0, 0x20, 0, 0, 0, 0, 0, 0, 2, 0, 0, 0, 0, 0, 0, 0] ++ List.replicate 16 0 ++
    [0, 0x30, 0, 0, 0, 0, 0, 0, 9, 0, 0, 0, 0, 0, 0, 0]

theorem readv_eq_read_small :
    (readv 3 4096 3 ⟨withVectors threeVectors, opened⟩).1 = 5 ∧
      [8192, 8193, 12288, 12289, 12290].map
        (readv 3 4096 3 ⟨withVectors threeVectors, opened⟩).2.memory = [1, 2, 3, 4, 5] := by
  have hb : Bounded [smallModule] := by
    intro mod hmod
    rw [List.mem_singleton.mp hmod]
    decide
  have hvectors : iovecs (withVectors threeVectors) 4096 3 = [⟨8192, 2⟩, ⟨0, 0⟩, ⟨12288, 9⟩] := by
    decide
  have hbytes : [1, 2, 3, 4, 5] = (read (withVectors threeVectors) 3 11 opened).1.bytes := by
    decide
  have hapart : Apart (withVectors threeVectors) 4096 3 (copiedFrom opened 3 5) 5 := by
    refine ⟨?_, ?_, ?_⟩
    all_goals
      rw [hvectors]
      unfold List.Disjoint
      decide
  have hopen : fileDescriptor opened 3 ≠ none := by decide
  have hvalid : validateIovecs (withVectors threeVectors) 4096 3 = none := by decide
  have hlength : 11 = totalLength (iovecs (withVectors threeVectors) 4096 3) := by
    rw [hvectors]
    rfl
  obtain ⟨hvalue, -, hmemory, -⟩ := readv_eq_read hb (withVectors []) (withVectors threeVectors)
    [.open (some (cStr smallModule.commandLine)) 0] rfl (Or.inr hopen) hvalid hlength hbytes hapart
  rw [hvectors] at hmemory
  exact ⟨hvalue, hmemory⟩

/-- A byte of the file's own, and one byte at 8192. -/
def overFile : List UInt8 :=
  [1, 0, 0x10, 0, 0, 0x80, 0xff, 0xff, 1, 0, 0, 0, 0, 0, 0, 0] ++
    [0, 0x20, 0, 0, 0, 0, 0, 0, 1, 0, 0, 0, 0, 0, 0, 0]

/-- The length in the second vector, and four bytes at 8192. -/
def overVectors : List UInt8 :=
  [0x18, 0x10, 0, 0, 0, 0, 0, 0, 1, 0, 0, 0, 0, 0, 0, 0] ++
    [0, 0x20, 0, 0, 0, 0, 0, 0, 4, 0, 0, 0, 0, 0, 0, 0]

/-- Disjoint buffers are not enough: a byte that one vector receives can be one that the next
is to be filled with, and it can be the length of the next. -/
theorem readv_over_its_input :
    (validateIovecs (withVectors overFile) 4096 2 = none ∧
      (iovecs (withVectors overFile) 4096 2).Pairwise
        (fun v v' => v.addresses.Disjoint v'.addresses) ∧
      (read (withVectors overFile) 3 2 opened).1.bytes = [1, 2] ∧
      scattered (iovecs (withVectors overFile) 4096 2) = [directMapBase + 0x100001, 8192] ∧
      [directMapBase + 0x100001, 8192].map
        (readv 3 4096 2 ⟨withVectors overFile, opened⟩).2.memory = [1, 1]) ∧
    validateIovecs (withVectors overVectors) 4096 2 = none ∧
      (iovecs (withVectors overVectors) 4096 2).Pairwise
        (fun v v' => v.addresses.Disjoint v'.addresses) ∧
      totalLength (iovecs (withVectors overVectors) 4096 2) = 5 ∧
      (read (withVectors overVectors) 3 5 opened).1.value = 5 ∧
      (readv 3 4096 2 ⟨withVectors overVectors, opened⟩).1 = 2 := by
  unfold List.Disjoint
  decide

end Files

end DoomOs
