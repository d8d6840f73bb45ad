/-
# The page table format of x86-64

`arch/x86_64/mmu/paging.hpp` with the index arithmetic of `radix9<4>` from
`arch/common/mmu/traits.hpp`.  Four levels of 512 entries; level 4 is the root and
level 1 holds the 4 KiB leaves.  Entries are 64-bit words, addresses are natural
numbers.

The second half says what the encodings preserve: an address, a protection (up to
what the processor supports) and the kind of an entry can be read back, and the
512 pieces of a split leaf map what the leaf did.  `format` presents the levels as
a radix tree, with depth `d` for level `4 - d`.
-/
import DoomOs.Page
import DoomOs.RadixHeap

namespace DoomOs

/-- A page table entry. -/
abbrev Entry : Type := BitVec 64

/-- What `enable_paging_features` found: `nx_enabled`, `global_pages_enabled` and
`gib_pages_supported`. -/
structure Features where
  nx : Bool
  globalPages : Bool
  gib : Bool
  deriving DecidableEq, Repr

namespace Paging

/-! ## Levels and indices -/

/-- `LEVELS`. -/
def levels : ℕ := 4

/-- `ENTRIES`. -/
def entries : ℕ := 512

/-- `index`. -/
def index (level va : ℕ) : ℕ := (va >>> (3 + 9 * level)) &&& 0x1FF

/-- `level_of`. -/
def levelOf (size : PageSize) : ℕ := (size.shiftOf - 12) / 9 + 1

/-- `size_at`.  The cast has no enumerator for level 4, where there are no leaves. -/
def sizeAt : ℕ → PageSize
  | 1 => .size4K
  | 2 => .size2M
  | _ => .size1G

/-- `valid`: the address is canonical. -/
def valid (va : ℕ) : Bool := va >>> 47 == 0 || va >>> 47 == 0x1FFFF

/-- `supports`. -/
def supports (feat : Features) (size : PageSize) : Bool := size != .size1G || feat.gib

/-! ## Entries -/

/-- `PRESENT`. -/
def presentBit : Entry := 1#64 <<< 0

/-- `WRITABLE`. -/
def writableBit : Entry := 1#64 <<< 1

/-- `USER`. -/
def userBit : Entry := 1#64 <<< 2

/-- `WRITE_THROUGH`. -/
def writeThroughBit : Entry := 1#64 <<< 3

/-- `CACHE_DISABLE`. -/
def cacheDisableBit : Entry := 1#64 <<< 4

/-- `LARGE`. -/
def largeBit : Entry := 1#64 <<< 7

/-- `GLOBAL`. -/
def globalBit : Entry := 1#64 <<< 8

/-- `NO_EXECUTE`. -/
def noExecuteBit : Entry := 1#64 <<< 63

/-- `ADDRESS_MASK`. -/
def addressMask : Entry := 0x000FFFFFFFFFF000#64

/-- `PROT_MASK`. -/
def protMask : Entry :=
  writableBit ||| userBit ||| writeThroughBit ||| cacheDisableBit ||| globalBit ||| noExecuteBit

/-- `present`. -/
def present (entry : Entry) : Bool := entry &&& presentBit != 0#64

/-- `leaf`. -/
def leaf (entry : Entry) (level : ℕ) : Bool := level == 1 || entry &&& largeBit != 0#64

/-- `address`. -/
def address (entry : Entry) : ℕ := (entry &&& addressMask).toNat

/-- `prot`. -/
def prot (entry : Entry) : PageProt where
  write := entry &&& writableBit != 0#64
  exec := entry &&& noExecuteBit == 0#64
  user := entry &&& userBit != 0#64
  global := entry &&& globalBit != 0#64
  uncached := entry &&& cacheDisableBit != 0#64

/-- `table_entry`. -/
def tableEntry (phys : ℕ) : Entry :=
  (BitVec.ofNat 64 phys &&& addressMask) ||| presentBit ||| writableBit ||| userBit

/-- `if (c) entry |= bits`. -/
def orIf (c : Bool) (bits entry : Entry) : Entry := if c then entry ||| bits else entry

/-- `leaf_entry`. -/
def leafEntry (feat : Features) (phys : ℕ) (size : PageSize) (p : PageProt) : Entry :=
  let entry := (BitVec.ofNat 64 phys &&& addressMask) ||| presentBit
  let entry := orIf (size != .size4K) largeBit entry
  let entry := orIf p.write writableBit entry
  let entry := orIf p.user userBit entry
  let entry := orIf p.uncached (cacheDisableBit ||| writeThroughBit) entry
  let entry := orIf (p.global && feat.globalPages) globalBit entry
  orIf (!p.exec && feat.nx) noExecuteBit entry

/-- The entry that `split` writes at position `i` of the new table. -/
def splitEntry (entry : Entry) (level i : ℕ) : Entry :=
  let step := (sizeAt (level - 1)).bytesIn
  let flags := (entry &&& (presentBit ||| protMask)) |||
    (if level - 1 = 1 then 0#64 else largeBit)
  (BitVec.ofNat 64 (address entry + i * step) &&& addressMask) ||| flags

/-! ## Bits of the masks -/

theorem getLsbD_addressMask (k : ℕ) : addressMask.getLsbD k = decide (12 ≤ k ∧ k < 52) := by
  have hall : ∀ k : Fin 64, addressMask.getLsbD k = decide (12 ≤ k.1 ∧ k.1 < 52) := by decide
  by_cases h : k < 64
  · exact hall ⟨k, h⟩
  · rw [BitVec.getLsbD_of_ge _ _ (by omega), eq_comm, decide_eq_false_iff_not]
    omega

/-- A mask with one bit tests that bit. -/
theorem and_shift_ne_zero (entry : Entry) {k : ℕ} (hk : k < 64) :
    (entry &&& 1#64 <<< k != 0#64) = entry.getLsbD k := by
  rw [← BitVec.twoPow_eq, Bool.eq_iff_iff, bne_iff_ne]
  constructor
  · intro h
    by_contra hb
    refine h (BitVec.eq_of_getLsbD_eq (fun j _ => ?_))
    rw [BitVec.getLsbD_and, BitVec.getLsbD_twoPow, BitVec.getLsbD_zero]
    by_cases hj : k = j
    · subst hj
      simp [Bool.eq_false_of_not_eq_true hb]
    · simp [hj]
  · intro h h0
    have hbit := congrArg (fun v => v.getLsbD k) h0
    simp only [BitVec.getLsbD_and, BitVec.getLsbD_twoPow, BitVec.getLsbD_zero, h, hk] at hbit
    simp at hbit

theorem present_eq (entry : Entry) : present entry = entry.getLsbD 0 :=
  and_shift_ne_zero entry (by decide)

theorem leaf_eq (entry : Entry) (level : ℕ) :
    leaf entry level = (level == 1 || entry.getLsbD 7) :=
  congrArg (level == 1 || ·) (and_shift_ne_zero entry (by decide))

theorem prot_eq (entry : Entry) : prot entry =
    ⟨entry.getLsbD 1, !entry.getLsbD 63, entry.getLsbD 2, entry.getLsbD 8, entry.getLsbD 4⟩ := by
  have hx : (entry &&& noExecuteBit == 0#64) = !entry.getLsbD 63 := by
    rw [← and_shift_ne_zero entry (by decide : 63 < 64), bne, Bool.not_not]
    rfl
  rw [prot, hx]
  simp only [PageProt.mk.injEq, true_and]
  exact ⟨and_shift_ne_zero entry (by decide), and_shift_ne_zero entry (by decide),
    and_shift_ne_zero entry (by decide), and_shift_ne_zero entry (by decide)⟩

@[simp] theorem getLsbD_orIf (c : Bool) (bits entry : Entry) (k : ℕ) :
    (orIf c bits entry).getLsbD k = (entry.getLsbD k || (c && bits.getLsbD k)) := by
  cases c <;> simp [orIf]

/-! ## Reading addresses back -/

theorem testBit_address (entry : Entry) (k : ℕ) :
    (address entry).testBit k = (decide (12 ≤ k ∧ k < 52) && entry.getLsbD k) := by
  rw [address, BitVec.testBit_toNat, BitVec.getLsbD_and, getLsbD_addressMask, Bool.and_comm]

/-- The address of an entry whose address bits are those of `phys`. -/
theorem address_of_bits {entry : Entry} {phys : ℕ}
    (h : ∀ k, 12 ≤ k → k < 52 → entry.getLsbD k = phys.testBit k) :
    address entry = phys % 2 ^ 52 / 4096 * 4096 := by
  refine Nat.eq_of_testBit_eq (fun k => ?_)
  rw [testBit_address, show (4096 : ℕ) = 2 ^ 12 by norm_num, Nat.testBit_mul_two_pow,
    Nat.testBit_div_two_pow, Nat.testBit_mod_two_pow]
  by_cases h12 : 12 ≤ k
  · rw [show k - 12 + 12 = k by omega]
    by_cases h52 : k < 52
    · simp [h12, h52, h k h12 h52]
    · simp [h52]
  · simp [h12]

theorem address_eq (entry : Entry) : address entry = entry.toNat % 2 ^ 52 / 4096 * 4096 :=
  address_of_bits (fun _ _ _ => (BitVec.testBit_toNat entry).symm)

theorem address_lt (entry : Entry) : address entry < 2 ^ 52 := by
  rw [address_eq]
  omega

theorem address_mod (entry : Entry) : address entry % 4096 = 0 := by
  rw [address_eq]
  omega

/-- The flags do not touch the address bits. -/
theorem getLsbD_or_flags (phys : ℕ) {flags : Entry} {k : ℕ} (h12 : 12 ≤ k) (h52 : k < 52)
    (hf : flags.getLsbD k = false) :
    ((BitVec.ofNat 64 phys &&& addressMask) ||| flags).getLsbD k = phys.testBit k := by
  rw [BitVec.getLsbD_or, hf, Bool.or_false, BitVec.getLsbD_and, getLsbD_addressMask,
    BitVec.getLsbD_ofNat]
  simp [h12, h52, show k < 64 by omega]

/-- The address does not touch the flag bits. -/
theorem getLsbD_or_address (phys : ℕ) {flags : Entry} {k : ℕ} (h : ¬(12 ≤ k ∧ k < 52)) :
    ((BitVec.ofNat 64 phys &&& addressMask) ||| flags).getLsbD k = flags.getLsbD k := by
  rw [BitVec.getLsbD_or, BitVec.getLsbD_and, getLsbD_addressMask, decide_eq_false h,
    Bool.and_false, Bool.false_or]

theorem mod_two_pow_52 {phys : ℕ} (ha : phys % 4096 = 0) (hlt : phys < 2 ^ 52) :
    phys % 2 ^ 52 / 4096 * 4096 = phys := by
  rw [Nat.mod_eq_of_lt hlt]
  omega

/-! ## The three kinds of entry -/

theorem tableEntry_eq (phys : ℕ) : tableEntry phys =
    (BitVec.ofNat 64 phys &&& addressMask) ||| (presentBit ||| writableBit ||| userBit) := by
  rw [tableEntry, BitVec.or_assoc, BitVec.or_assoc, BitVec.or_assoc]

theorem present_tableEntry (phys : ℕ) : present (tableEntry phys) = true := by
  rw [present_eq, tableEntry_eq, getLsbD_or_address phys (by decide)]
  decide

theorem leaf_tableEntry (phys : ℕ) {level : ℕ} (h : level ≠ 1) :
    leaf (tableEntry phys) level = false := by
  rw [leaf_eq, tableEntry_eq, getLsbD_or_address phys (by decide), beq_false_of_ne h]
  decide

theorem address_tableEntry {phys : ℕ} (ha : phys % 4096 = 0) (hlt : phys < 2 ^ 52) :
    address (tableEntry phys) = phys := by
  have hflags : ∀ k : Fin 64, 12 ≤ k.1 ∧ k.1 < 52 →
      (presentBit ||| writableBit ||| userBit).getLsbD k = false := by decide
  rw [tableEntry_eq, address_of_bits (fun k h12 h52 => getLsbD_or_flags phys h12 h52
    (hflags ⟨k, by omega⟩ ⟨h12, h52⟩)), mod_two_pow_52 ha hlt]

/-- The flags of `leaf_entry`. -/
def leafFlags (feat : Features) (size : PageSize) (p : PageProt) : Entry :=
  orIf (!p.exec && feat.nx) noExecuteBit <| orIf (p.global && feat.globalPages) globalBit <|
    orIf p.uncached (cacheDisableBit ||| writeThroughBit) <| orIf p.user userBit <|
    orIf p.write writableBit <| orIf (size != .size4K) largeBit presentBit

theorem leafEntry_eq (feat : Features) (phys : ℕ) (size : PageSize) (p : PageProt) :
    leafEntry feat phys size p
      = (BitVec.ofNat 64 phys &&& addressMask) ||| leafFlags feat size p := by
  have hor : ∀ (c : Bool) (b x y : Entry), orIf c b (x ||| y) = x ||| orIf c b y := by
    intro c b x y
    cases c
    · rfl
    · exact BitVec.or_assoc x y b
  simp only [leafEntry, leafFlags, hor]

/-- The flag bits, one by one. -/
theorem getLsbD_leafFlags (feat : Features) (size : PageSize) (p : PageProt) {k : ℕ}
    (hk : k < 64) : (leafFlags feat size p).getLsbD k =
      (k == 0 || (size != .size4K && k == 7) || (p.write && k == 1) || (p.user && k == 2)
        || (p.uncached && (k == 4 || k == 3)) || (p.global && feat.globalPages && k == 8)
        || (!p.exec && feat.nx && k == 63)) := by
  have hbit : ∀ k : Fin 64, presentBit.getLsbD k = (k.1 == 0) ∧ largeBit.getLsbD k = (k.1 == 7) ∧
      writableBit.getLsbD k = (k.1 == 1) ∧ userBit.getLsbD k = (k.1 == 2) ∧
      (cacheDisableBit ||| writeThroughBit).getLsbD k = (k.1 == 4 || k.1 == 3) ∧
      globalBit.getLsbD k = (k.1 == 8) ∧ noExecuteBit.getLsbD k = (k.1 == 63) := by decide
  obtain ⟨h0, h7, h1, h2, h4, h8, h63⟩ := hbit ⟨k, hk⟩
  simp only [leafFlags, getLsbD_orIf, h0, h7, h1, h2, h4, h8, h63]

theorem present_leafEntry (feat : Features) (phys : ℕ) (size : PageSize) (p : PageProt) :
    present (leafEntry feat phys size p) = true := by
  rw [present_eq, leafEntry_eq, getLsbD_or_address phys (by decide)]
  exact (getLsbD_leafFlags feat size p (by decide)).trans rfl

theorem leaf_leafEntry (feat : Features) (phys : ℕ) (size : PageSize) (p : PageProt) :
    leaf (leafEntry feat phys size p) (levelOf size) = true := by
  rw [leaf_eq, leafEntry_eq, getLsbD_or_address phys (by decide)]
  cases size with
  | size4K => rfl
  | size2M => rw [getLsbD_leafFlags feat _ p (by decide)]; simp
  | size1G => rw [getLsbD_leafFlags feat _ p (by decide)]; simp

/-- The address of a leaf entry, whatever was asked for. -/
theorem address_leafEntry (feat : Features) (phys : ℕ) (size : PageSize) (p : PageProt) :
    address (leafEntry feat phys size p) = phys % 2 ^ 52 / 4096 * 4096 := by
  rw [leafEntry_eq]
  refine address_of_bits (fun k h12 h52 => getLsbD_or_flags phys h12 h52 ?_)
  rw [getLsbD_leafFlags feat size p (by omega)]
  have hne : ∀ j, j < 12 ∨ 52 ≤ j → (k == j) = false := by
    intro j hj
    rw [beq_eq_false_iff_ne]
    omega
  simp [hne]

/-- A protection as it reads back: without no-execute pages everything is
executable, and nothing is global unless global pages are on. -/
def readBack (feat : Features) (p : PageProt) : PageProt :=
  { p with exec := p.exec || !feat.nx, global := p.global && feat.globalPages }

theorem prot_leafEntry (feat : Features) (phys : ℕ) (size : PageSize) (p : PageProt) :
    prot (leafEntry feat phys size p) = readBack feat p := by
  have hbit : ∀ k, ¬(12 ≤ k ∧ k < 52) →
      (leafEntry feat phys size p).getLsbD k = (leafFlags feat size p).getLsbD k := by
    intro k hk
    rw [leafEntry_eq, getLsbD_or_address phys hk]
  have hflag := fun k (hk : k < 64) => getLsbD_leafFlags feat size p hk
  rw [prot_eq, hbit 1 (by decide), hbit 63 (by decide), hbit 2 (by decide), hbit 8 (by decide),
    hbit 4 (by decide), hflag 1 (by decide), hflag 63 (by decide), hflag 2 (by decide),
    hflag 8 (by decide), hflag 4 (by decide)]
  simp [readBack]

/-! ## Splitting -/

/-- The flags that the pieces of a split leaf inherit. -/
theorem getLsbD_splitEntry (entry : Entry) (level i : ℕ) {k : ℕ} (hk : ¬(12 ≤ k ∧ k < 52)) :
    (splitEntry entry level i).getLsbD k =
      ((entry.getLsbD k && (presentBit ||| protMask).getLsbD k) ||
        (decide (level - 1 ≠ 1) && largeBit.getLsbD k)) := by
  rw [splitEntry, getLsbD_or_address _ hk, BitVec.getLsbD_or, BitVec.getLsbD_and]
  by_cases h : level - 1 = 1
  · simp [h]
  · simp [h]

/-- All of them but the one that marks a large page. -/
theorem getLsbD_splitEntry_of_mask (entry : Entry) (level i : ℕ) {k : ℕ}
    (hk : ¬(12 ≤ k ∧ k < 52)) (hmask : (presentBit ||| protMask).getLsbD k = true)
    (hlarge : largeBit.getLsbD k = false) :
    (splitEntry entry level i).getLsbD k = entry.getLsbD k := by
  rw [getLsbD_splitEntry entry level i hk, hmask, hlarge, Bool.and_true, Bool.and_false,
    Bool.or_false]

theorem present_splitEntry (entry : Entry) (level i : ℕ) :
    present (splitEntry entry level i) = present entry := by
  rw [present_eq, present_eq]
  exact getLsbD_splitEntry_of_mask entry level i (by decide) (by decide) (by decide)

theorem prot_splitEntry (entry : Entry) (level i : ℕ) :
    prot (splitEntry entry level i) = prot entry := by
  have hmask : ∀ k ∈ [1, 63, 2, 8, 4], (presentBit ||| protMask).getLsbD k = true ∧
      largeBit.getLsbD k = false ∧ ¬(12 ≤ k ∧ k < 52) := by decide
  have hbit : ∀ k ∈ [1, 63, 2, 8, 4], (splitEntry entry level i).getLsbD k = entry.getLsbD k := by
    intro k hk
    obtain ⟨hp, hl, hr⟩ := hmask k hk
    exact getLsbD_splitEntry_of_mask entry level i hr hp hl
  rw [prot_eq, prot_eq, hbit 1 (by decide), hbit 63 (by decide), hbit 2 (by decide),
    hbit 8 (by decide), hbit 4 (by decide)]

theorem leaf_splitEntry (entry : Entry) (level i : ℕ) :
    leaf (splitEntry entry level i) (level - 1) = true := by
  rw [leaf_eq]
  by_cases h : level - 1 = 1
  · rw [h]
    rfl
  · have hlarge : largeBit.getLsbD 7 = true := by decide
    rw [getLsbD_splitEntry entry level i (by decide), hlarge, decide_eq_true h, Bool.and_self,
      Bool.or_true, Bool.or_true]

/-- Piece `i` of a split leaf maps the `i`-th part of its frame. -/
theorem address_splitEntry {entry : Entry} {level i : ℕ} (hi : i < 512)
    (hal : address entry % (512 * (sizeAt (level - 1)).bytesIn) = 0) :
    address (splitEntry entry level i) = address entry + i * (sizeAt (level - 1)).bytesIn := by
  have hlt := address_lt entry
  have hmask : ∀ k : Fin 64, 12 ≤ k.1 ∧ k.1 < 52 →
      (presentBit ||| protMask).getLsbD k = false ∧ largeBit.getLsbD k = false := by decide
  -- the flags leave the address bits alone
  have hbits : ∀ k, 12 ≤ k → k < 52 → (splitEntry entry level i).getLsbD k
      = (address entry + i * (sizeAt (level - 1)).bytesIn).testBit k := by
    intro k h12 h52
    obtain ⟨hp, hl⟩ := hmask ⟨k, by omega⟩ ⟨h12, h52⟩
    refine getLsbD_or_flags _ h12 h52 ?_
    rw [BitVec.getLsbD_or, BitVec.getLsbD_and, hp, Bool.and_false, Bool.false_or]
    split_ifs
    · exact BitVec.getLsbD_zero
    · exact hl
  -- and the sum stays below the end of the leaf
  have hsum : ∀ step, 0 < step → 4096 ∣ step → 512 * step ∣ 2 ^ 52 →
      address entry % (512 * step) = 0 →
      (address entry + i * step) % 4096 = 0 ∧ address entry + i * step < 2 ^ 52 := by
    rintro step hpos ⟨n, rfl⟩ ⟨m, hm⟩ ha
    obtain ⟨q, hq⟩ := Nat.dvd_of_mod_eq_zero ha
    have hqm : q < m := by
      rw [hq, hm] at hlt
      exact Nat.lt_of_mul_lt_mul_left hlt
    constructor
    · rw [hq, show 512 * (4096 * n) * q + i * (4096 * n) = 4096 * (512 * n * q + i * n) by ring]
      exact Nat.mul_mod_right _ _
    · calc address entry + i * (4096 * n) < 512 * (4096 * n) * q + 512 * (4096 * n) := by
            rw [hq]
            have := Nat.mul_lt_mul_of_pos_right hi hpos
            omega
        _ = 512 * (4096 * n) * (q + 1) := by ring
        _ ≤ 512 * (4096 * n) * m := Nat.mul_le_mul_left _ hqm
        _ = 2 ^ 52 := hm.symm
  obtain ⟨hmod, hle⟩ := hsum (sizeAt (level - 1)).bytesIn (Nat.two_pow_pos _)
    (by cases sizeAt (level - 1) <;> decide) (by cases sizeAt (level - 1) <;> decide) hal
  rw [address_of_bits hbits, mod_two_pow_52 hmod hle]

/-! ## Addresses as keys -/

theorem valid_iff (va : ℕ) :
    valid va = true ↔ va < 2 ^ 47 ∨ (2 ^ 64 - 2 ^ 47 ≤ va ∧ va < 2 ^ 64) := by
  rw [valid, Nat.shiftRight_eq_div_pow, Bool.or_eq_true, beq_iff_eq, beq_iff_eq]
  omega

theorem index_eq (level va : ℕ) : index level va = va / 2 ^ (3 + 9 * level) % 512 := by
  rw [index, Nat.shiftRight_eq_div_pow, show (0x1FF : ℕ) = 2 ^ 9 - 1 by norm_num,
    Nat.and_two_pow_sub_one_eq_mod]

theorem index_lt (level va : ℕ) : index level va < 512 := by
  rw [index_eq]
  exact Nat.mod_lt _ (by norm_num)

/-- The page tables as a radix tree: level 4 is depth 0, and an entry leads to a
table when it is present and no leaf. -/
def format : RadixFormat ℕ ℕ Entry ℕ where
  digit d va := index (4 - d) va
  child d entry := if present entry && !leaf entry (4 - d) then some (address entry) else none

/-- How many bytes one entry at depth `d` covers. -/
def span (d : ℕ) : ℕ := 2 ^ (39 - 9 * d)

theorem span_eq {d : ℕ} (h1 : 1 ≤ d) (h3 : d ≤ 3) : span d = (sizeAt (4 - d)).bytesIn := by
  interval_cases d <;> decide

theorem child_eq_some {d c : ℕ} {entry : Entry} : format.child d entry = some c ↔
    present entry = true ∧ leaf entry (4 - d) = false ∧ address entry = c := by
  simp only [format]
  split_ifs with h
  · simp only [Bool.and_eq_true, Bool.not_eq_true'] at h
    simp [h.1, h.2]
  · simp only [Bool.and_eq_true, Bool.not_eq_true'] at h
    simp only [false_iff]
    rintro ⟨hp, hl, -⟩
    exact h ⟨hp, hl⟩

theorem child_eq_none {d : ℕ} {entry : Entry} : format.child d entry = none ↔
    (present entry = true → leaf entry (4 - d) = true) := by
  rw [← not_iff_not, ← ne_eq, Option.ne_none_iff_exists']
  simp only [child_eq_some]
  cases present entry <;> cases leaf entry (4 - d) <;> simp

theorem child_zero (d : ℕ) : format.child d 0#64 = none := by
  rw [child_eq_none, present_eq]
  simp

theorem child_level_one (entry : Entry) : format.child 3 entry = none := by
  rw [child_eq_none]
  intro _
  rfl

theorem child_tableEntry {d c : ℕ} (hd : d ≤ 2) (ha : c % 4096 = 0) (hlt : c < 2 ^ 52) :
    format.child d (tableEntry c) = some c := by
  rw [child_eq_some, address_tableEntry ha hlt]
  exact ⟨present_tableEntry c, leaf_tableEntry c (by omega), rfl⟩

/-- Two addresses meet the same entry at depth `d` when they agree above its span. -/
theorem agree_iff {d x y : ℕ} (hd : d ≤ 3) : format.Agree (d + 1) x y ↔
    x % 2 ^ 48 / span d = y % 2 ^ 48 / span d := by
  have hdig : ∀ k < 4, (index (4 - k) x = index (4 - k) y ↔
      x / 2 ^ (39 - 9 * k) % 512 = y / 2 ^ (39 - 9 * k) % 512) := by
    intro k hk
    rw [index_eq, index_eq, show 3 + 9 * (4 - k) = 39 - 9 * k by omega]
  have hag : format.Agree (d + 1) x y ↔ ∀ k < d + 1,
      x / 2 ^ (39 - 9 * k) % 512 = y / 2 ^ (39 - 9 * k) % 512 :=
    forall_congr' (fun k => forall_congr' (fun hk => hdig k (by omega)))
  rw [hag]
  interval_cases d
  · simp only [Nat.forall_lt_succ_right, Nat.not_lt_zero, IsEmpty.forall_iff, implies_true,
      true_and, span]
    omega
  · simp only [Nat.forall_lt_succ_right, Nat.not_lt_zero, IsEmpty.forall_iff, implies_true,
      true_and, span]
    omega
  · simp only [Nat.forall_lt_succ_right, Nat.not_lt_zero, IsEmpty.forall_iff, implies_true,
      true_and, span]
    omega
  · simp only [Nat.forall_lt_succ_right, Nat.not_lt_zero, IsEmpty.forall_iff, implies_true,
      true_and, span]
    omega

/-- For a canonical address at the start of a leaf, these are the addresses of the leaf. -/
theorem agree_iff_mem {d va x : ℕ} (hd : d ≤ 3) (hva : valid va = true) (hx : valid x = true)
    (ha : va % span d = 0) : format.Agree (d + 1) va x ↔ va ≤ x ∧ x < va + span d := by
  rw [agree_iff hd]
  rw [valid_iff] at hva hx
  interval_cases d <;> simp only [span] at ha ⊢ <;> omega

/-- A leaf does not reach past its half of the address space. -/
theorem leaf_end_le {d va : ℕ} (h1 : 1 ≤ d) (hd : d ≤ 3) (hva : valid va = true)
    (ha : va % span d = 0) :
    va + span d ≤ 2 ^ 47 ∨ (2 ^ 64 - 2 ^ 47 ≤ va ∧ va + span d ≤ 2 ^ 64) := by
  rw [valid_iff] at hva
  interval_cases d <;> simp only [span] at ha ⊢ <;> omega

/-! ## The pieces of a leaf -/

theorem span_succ {d : ℕ} (h : d ≤ 2) : span d = 512 * span (d + 1) := by
  interval_cases d <;> decide

/-- The address of a piece of an aligned leaf at depth `d`. -/
theorem address_piece {d i : ℕ} {entry : Entry} (hd : d ≤ 2)
    (hal : address entry % span d = 0) (hi : i < 512) :
    address (splitEntry entry (4 - d) i) = address entry + i * span (d + 1) := by
  have hspan : (sizeAt (4 - d - 1)).bytesIn = span (d + 1) := by
    rw [span_eq (by omega) (by omega), show 4 - (d + 1) = 4 - d - 1 by omega]
  rw [address_splitEntry hi (by rw [hspan, ← span_succ hd]; exact hal), hspan]

theorem address_piece_aligned {d i : ℕ} {entry : Entry} (hd : d ≤ 2)
    (hal : address entry % span d = 0) (hi : i < 512) :
    address (splitEntry entry (4 - d) i) % span (d + 1) = 0 := by
  rw [address_piece hd hal hi, Nat.add_mul_mod_self_right]
  rw [span_succ hd] at hal
  exact Nat.mod_eq_zero_of_dvd
    ((Dvd.intro_left 512 rfl).trans (Nat.dvd_of_mod_eq_zero hal))

/-- An address meets the piece that maps it to where the leaf did. -/
theorem address_piece_offset {d x : ℕ} {entry : Entry} (hd : d ≤ 2)
    (hal : address entry % span d = 0) :
    address (splitEntry entry (4 - d) (index (4 - (d + 1)) x)) + x % span (d + 1)
      = address entry + x % span d := by
  rw [address_piece hd hal (index_lt _ _), index_eq,
    show 3 + 9 * (4 - (d + 1)) = 39 - 9 * (d + 1) by omega]
  interval_cases d <;> simp only [span] <;> omega

end Paging

end DoomOs
