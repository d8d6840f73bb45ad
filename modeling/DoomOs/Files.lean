/-
# The read-only files

`kernel/fs/posix/stub_impl.cpp`: the boot modules as files.  A table of eight
descriptors holds, for each open file, where its bytes start, how many there are and
the position of the next read.  The descriptors 0, 1 and 2 are the console.

An `int` is an integer here, as it is only compared; the offset of `lseek` is a 64-bit
word, as the sum with the position may leave its range.
-/
import DoomOs.Mmu
import DoomOs.Multiboot2

namespace DoomOs

/-- `mmu::phy_to_vrt`. -/
def phyToVrt (phys : ℕ) : Option ℕ :=
  if phys < directMapSize then some (directMapBase + phys) else none

namespace Files

/-! ## The descriptors -/

/-- `MAX_DESCRIPTORS`. -/
def maxDescriptors : ℕ := 8

/-- `FIRST_FILE_DESCRIPTOR`. -/
def firstFileDescriptor : ℕ := 3

/-- The values of `errno` that these functions set. -/
inductive Errno where
  | enoent
  | ebadf
  | enomem
  | efault
  | einval
  | emfile
  | espipe
  deriving DecidableEq, Repr

/-- The number of an error. -/
def Errno.code : Errno → ℕ
  | .enoent => 2
  | .ebadf => 9
  | .enomem => 12
  | .efault => 14
  | .einval => 22
  | .emfile => 24
  | .espipe => 29

/-- `descriptor`. -/
structure Descriptor where
  isOpen : Bool := false
  base : ℕ := 0
  size : ℕ := 0
  offset : ℕ := 0
  deriving DecidableEq, Repr

/-- `m_descriptors` and `errno`, which is zero until a call fails. -/
structure Table where
  descriptors : ℕ → Descriptor := fun _ => {}
  errno : ℕ := 0

/-- What a call hands back: its value, the bytes copied to the caller's buffer, and the
mode and size written to the caller's `stat`. -/
structure Reply where
  value : ℤ
  bytes : List UInt8 := []
  stat : Option (ℕ × ℤ) := none
  deriving DecidableEq, Repr

/-- A C string: the characters before the terminator. -/
@[ext] structure CString where
  chars : List UInt8
  noNul : 0 ∉ chars

instance (a b : CString) : Decidable (a = b) :=
  decidable_of_iff (a.chars = b.chars) CString.ext_iff.symm

/-- `fixed_string::c_str`. -/
def cStr {N : ℕ} (s : FixedString N) : CString := ⟨s.chars, s.noNul⟩

/-- Setting `errno` and returning -1. -/
def failed (s : Table) (e : Errno) : Reply × Table := ({ value := -1 }, { s with errno := e.code })

/-- Assigning to one descriptor. -/
def Table.set (s : Table) (fd : ℕ) (d : Descriptor) : Table :=
  { s with descriptors := Function.update s.descriptors fd d }

@[simp] theorem Table.descriptors_set (s : Table) (k : ℕ) (d : Descriptor) :
    (s.set k d).descriptors k = d := Function.update_self _ _ _

theorem Table.set_set (s : Table) (k : ℕ) (d d' : Descriptor) :
    (s.set k d).set k d' = s.set k d' := by
  unfold Table.set
  rw [Function.update_idem]

theorem Table.set_self (s : Table) (k : ℕ) : s.set k (s.descriptors k) = s := by
  unfold Table.set
  rw [Function.update_eq_self]

/-- A conversion to `off_t` or `ssize_t`. -/
def toOff (n : ℕ) : ℤ := (BitVec.ofNat 64 n).toInt

/-- `is_console`. -/
def isConsole (fd : ℤ) : Bool := decide (0 ≤ fd ∧ fd ≤ 2)

/-- `file_descriptor`: the index of the entry, if `fd` names an open file. -/
def fileDescriptor (s : Table) (fd : ℤ) : Option ℕ :=
  if fd < firstFileDescriptor ∨ fd ≥ maxDescriptors ∨ (s.descriptors fd.toNat).isOpen = false then
    none
  else some fd.toNat

/-- `same_string`.  The character behind the last one is NUL. -/
def sameString : (lhs rhs : List UInt8) → Bool
  | [], rhs => 0 == rhs.headD 0
  | c :: lhs, rhs =>
    if c ≠ 0 ∧ c = rhs.headD 0 then sameString lhs rhs.tail else c == rhs.headD 0

/-- `copy_bytes`: the bytes that reach the destination. -/
def copyBytes (m : Memory) (source length : ℕ) : List UInt8 :=
  (List.range length).map fun i => m (u64 (source + i))

/-! ## The calls -/

/-- The loop of `open` over the descriptors, from `fd` on. -/
def openAt (s : Table) (base size : ℕ) : (fd n : ℕ) → Reply × Table
  | _, 0 => failed s .emfile
  | fd, n + 1 =>
    if (s.descriptors fd).isOpen then openAt s base size (fd + 1) n
    else ({ value := fd }, s.set fd ⟨true, base, size, 0⟩)

/-- The loop of `open` over the modules. -/
def openModule (s : Table) (path : CString) : List ModuleInfo → Reply × Table
  | [] => failed s .enoent
  | mod :: modules =>
    if !sameString path.chars (cStr mod.commandLine).chars then openModule s path modules
    else
      match phyToVrt mod.range.base with
      | none => failed s .enomem
      | some window =>
        openAt s window mod.range.length firstFileDescriptor (maxDescriptors - firstFileDescriptor)

/-- `open`.  A null pointer for the path is `none`. -/
def openFile (modules : List ModuleInfo) (path : Option CString) (flags : BitVec 32) (s : Table) :
    Reply × Table :=
  match path with
  | none => failed s .einval
  | some path =>
    if flags &&& 1#32 ≠ 0 ∨ flags &&& 2#32 ≠ 0 then failed s .einval
    else openModule s path modules

/-- `read`. -/
def read (m : Memory) (fd : ℤ) (count : ℕ) (s : Table) : Reply × Table :=
  if isConsole fd then
    if fd = 0 then ({ value := 0 }, s) else failed s .ebadf
  else
    match fileDescriptor s fd with
    | none => failed s .ebadf
    | some k =>
      let entry := s.descriptors k
      let remaining := sub64 entry.size entry.offset
      let length := if count < remaining then count else remaining
      ({ value := toOff length, bytes := copyBytes m (entry.base + entry.offset) length },
        s.set k { entry with offset := u64 (entry.offset + length) })

/-- `lseek`. -/
def lseek (fd : ℤ) (offset : BitVec 64) (whence : ℤ) (s : Table) : Reply × Table :=
  match fileDescriptor s fd with
  | none => failed s (if isConsole fd then .espipe else .ebadf)
  | some k =>
    let entry := s.descriptors k
    let move (target : BitVec 64) : Reply × Table :=
      if target.toInt < 0 ∨ target.toNat > entry.size then failed s .einval
      else ({ value := target.toInt }, s.set k { entry with offset := target.toNat })
    if whence = 1 then move (offset + BitVec.ofNat 64 entry.offset)
    else if whence = 2 then move (offset + BitVec.ofNat 64 entry.size)
    else if whence = 0 then move offset
    else failed s .einval

/-- `close`. -/
def close (fd : ℤ) (s : Table) : Reply × Table :=
  match fileDescriptor s fd with
  | none => failed s .ebadf
  | some k => ({ value := 0 }, s.set k {})

/-- `fstat`, for a pointer that may be null. -/
def fstat (fd : ℤ) (out : Bool) (s : Table) : Reply × Table :=
  if !out then failed s .einval
  else if isConsole fd then ({ value := 0, stat := some (0o020000, 0) }, s)
  else
    match fileDescriptor s fd with
    | none => failed s .ebadf
    | some k => ({ value := 0, stat := some (0o100000, toOff (s.descriptors k).size) }, s)

/-- A call with its arguments. -/
inductive Call where
  | open (path : Option CString) (flags : BitVec 32)
  | read (fd : ℤ) (count : ℕ)
  | lseek (fd : ℤ) (offset : BitVec 64) (whence : ℤ)
  | close (fd : ℤ)
  | fstat (fd : ℤ) (out : Bool)

/-- One call. -/
def exec (m : Memory) (modules : List ModuleInfo) : Call → Table → Reply × Table
  | .open path flags => openFile modules path flags
  | .read fd count => read m fd count
  | .lseek fd offset whence => lseek fd offset whence
  | .close fd => close fd
  | .fstat fd out => fstat fd out

/-- A sequence of calls, with the replies in their order. -/
def execAll (m : Memory) (modules : List ModuleInfo) : List Call → Table → List Reply × Table
  | [], s => ([], s)
  | call :: calls, s =>
    let r := exec m modules call s
    let rest := execAll m modules calls r.2
    (r.1 :: rest.1, rest.2)

end Files

end DoomOs
