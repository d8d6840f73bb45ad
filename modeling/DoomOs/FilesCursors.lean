/-
# Files as independent cursors

What the file layer is for: an open descriptor is a cursor, a boot module with a
position between 0 and its size, and the cursors know nothing of each other.  The
operations on cursors below use exact integers and the module's own bytes, and a cursor
past its module cannot be built.

`execAll_refines` connects the table of descriptors with the cursors: from the empty
table, every sequence of calls gets the replies that the cursors give, and afterwards
each descriptor is the image of its cursor.
-/
import DoomOs.Files
import DoomOs.Multiboot2Order

namespace DoomOs

namespace Files

/-! ## Cursors -/

variable {modules : List ModuleInfo}

/-- A boot module that is read from, and how far it has been read. -/
structure Cursor (modules : List ModuleInfo) where
  module : ModuleInfo
  mem : module ∈ modules
  pos : ℕ
  le : pos ≤ module.range.length

/-- The bytes of a module, from an offset on, as seen through the direct map. -/
def moduleBytes (m : Memory) (mod : ModuleInfo) (first length : ℕ) : List UInt8 :=
  (List.range length).map fun i => m (directMapBase + mod.range.base + (first + i))

namespace Cursor

variable (c : Cursor modules)

/-- How many bytes a read of `count` bytes delivers. -/
def readLength (count : ℕ) : ℕ := min count (c.module.range.length - c.pos)

/-- The cursor after a read. -/
def advance (count : ℕ) : Cursor modules where
  module := c.module
  mem := c.mem
  pos := c.pos + c.readLength count
  le := by
    have hle := c.le
    unfold readLength
    omega

/-- The cursor at another position. -/
def moveTo (pos : ℕ) (h : pos ≤ c.module.range.length) : Cursor modules :=
  ⟨c.module, c.mem, pos, h⟩

/-- What `lseek` adds its offset to. -/
def seekBase (whence : ℤ) : Option ℕ :=
  if whence = 0 then some 0
  else if whence = 1 then some c.pos
  else if whence = 2 then some c.module.range.length
  else none

end Cursor

/-- The cursors by their number, and `errno`. -/
structure Cursors (modules : List ModuleInfo) where
  cursor : ℕ → Option (Cursor modules) := fun _ => none
  errno : ℕ := 0

namespace Cursors

variable (a : Cursors modules)

/-- Changing one cursor. -/
def set (fd : ℕ) (c : Option (Cursor modules)) : Cursors modules :=
  { a with cursor := Function.update a.cursor fd c }

/-- A call that fails. -/
def failed (e : Errno) : Reply × Cursors modules := ({ value := -1 }, { a with errno := e.code })

/-- The cursor a descriptor number stands for. -/
def lookup (fd : ℤ) : Option (Cursor modules) :=
  if 3 ≤ fd ∧ fd < 8 then a.cursor fd.toNat else none

/-- The lowest number that is not in use. -/
def lowestUnused : Option ℕ := [3, 4, 5, 6, 7].find? fun fd => (a.cursor fd).isNone

/-- The first module with this command line. -/
def findModule (modules : List ModuleInfo) (path : CString) : Option ModuleInfo :=
  modules.find? fun mod => mod.commandLine.chars = path.chars

theorem mem_of_findModule {path : CString} {mod : ModuleInfo}
    (h : findModule modules path = some mod) : mod ∈ modules :=
  List.mem_of_find?_eq_some h

/-- A new cursor at the start of a module, under the lowest number that is not in use. -/
def openAs (mod : ModuleInfo) (hmem : mod ∈ modules) : Reply × Cursors modules :=
  match a.lowestUnused with
  | none => a.failed .emfile
  | some fd => ({ value := fd }, a.set fd (some ⟨mod, hmem, 0, Nat.zero_le _⟩))

/-- Opening a path for reading. -/
def openPath (path : CString) : Reply × Cursors modules :=
  match h : findModule modules path with
  | none => a.failed .enoent
  | some mod => a.openAs mod (mem_of_findModule h)

theorem openPath_of_none {path : CString} (h : findModule modules path = none) :
    a.openPath path = a.failed .enoent := by
  unfold openPath
  split
  · rfl
  · next mod h' =>
    rw [h] at h'
    cases h'

theorem openPath_of_some {path : CString} {mod : ModuleInfo}
    (h : findModule modules path = some mod) :
    a.openPath path = a.openAs mod (mem_of_findModule h) := by
  unfold openPath
  split
  · next h' =>
    rw [h] at h'
    cases h'
  · next mod' h' =>
    rw [h] at h'
    cases h'
    rfl

/-- Moving to a sum of integers, if it lies in the file. -/
def seekTo (fd : ℤ) (c : Cursor modules) (target : ℤ) : Reply × Cursors modules :=
  if h : 0 ≤ target ∧ target ≤ c.module.range.length then
    ({ value := target }, a.set fd.toNat (some (c.moveTo target.toNat (by omega))))
  else a.failed .einval

/-- One call on the cursors. -/
def exec (m : Memory) : Call → Reply × Cursors modules
  | .open none _ => a.failed .einval
  | .open (some path) flags =>
    if flags &&& 1#32 ≠ 0 ∨ flags &&& 2#32 ≠ 0 then a.failed .einval else a.openPath path
  | .read fd count =>
    if fd = 0 then ({ value := 0 }, a)
    else
      match a.lookup fd with
      | none => a.failed .ebadf
      | some c =>
        ({ value := c.readLength count,
           bytes := moduleBytes m c.module c.pos (c.readLength count) },
          a.set fd.toNat (some (c.advance count)))
  | .lseek fd offset whence =>
    match a.lookup fd with
    | none => a.failed (if isConsole fd then .espipe else .ebadf)
    | some c =>
      match c.seekBase whence with
      | none => a.failed .einval
      | some base => a.seekTo fd c (offset.toInt + base)
  | .close fd =>
    match a.lookup fd with
    | none => a.failed .ebadf
    | some _ => ({ value := 0 }, a.set fd.toNat none)
  | .fstat fd out =>
    if !out then a.failed .einval
    else if isConsole fd then ({ value := 0, stat := some (0o020000, 0) }, a)
    else
      match a.lookup fd with
      | none => a.failed .ebadf
      | some c => ({ value := 0, stat := some (0o100000, c.module.range.length) }, a)

/-- A sequence of calls on the cursors. -/
def execAll (m : Memory) : List Call → Cursors modules → List Reply × Cursors modules
  | [], a => ([], a)
  | call :: calls, a =>
    let r := a.exec m call
    let rest := execAll m calls r.2
    (r.1 :: rest.1, rest.2)

end Cursors

/-! ## The table is the image of the cursors -/

/-- The descriptor of a cursor. -/
def descriptorOf : Option (Cursor modules) → Descriptor
  | none => {}
  | some c => ⟨true, directMapBase + c.module.range.base, c.module.range.length, c.pos⟩

/-- The table that belongs to cursors. -/
def tableOf (a : Cursors modules) : Table := ⟨fun fd => descriptorOf (a.cursor fd), a.errno⟩

/-- What the boot protocol promises of the modules: their bounds are 32-bit numbers. -/
def Bounded (modules : List ModuleInfo) : Prop :=
  ∀ mod ∈ modules, mod.range.base + mod.range.length < 2 ^ 32

theorem leOf_lt (c : List UInt8) : ∀ n o : ℕ, Multiboot2.leOf c o n < 256 ^ n := by
  intro n
  induction n with
  | zero => intro o; exact Nat.one_pos
  | succ n ih =>
    intro o
    have hbyte := (Multiboot2.byteOf c o).toNat_lt
    have hrest := ih (o + 1)
    rw [Multiboot2.leOf, Nat.pow_succ]
    omega

/-- `parse` keeps this promise. -/
theorem bounded_of_parse {m : Memory} {h : ℕ} {out : BootInfo}
    (hwf : Multiboot2.wellFormed m h = some true)
    (hrun : (Multiboot2.parse m h).run .reset = .ok () out) : Bounded out.modules := by
  obtain ⟨-, rfl, -⟩ := (Multiboot2.parse_ok_iff hwf out).mp hrun
  rw [Multiboot2.modules_applyAll]
  -- every step of the fold appends at most one module, whose end is a 32-bit number
  have hfold : ∀ (l : List (List UInt8)) (modules : List ModuleInfo), Bounded modules →
      Bounded (l.foldl (fun modules c => modules ++ Multiboot2.modulesOf c) modules) := by
    intro l
    induction l with
    | nil => exact fun _ hm => hm
    | cons c l ih =>
      intro modules hm
      refine ih _ fun mod hmod => ?_
      rcases List.mem_append.mp hmod with hmod | hmod
      · exact hm mod hmod
      · have hend := leOf_lt c 4 12
        rw [Multiboot2.modulesOf] at hmod
        split_ifs at hmod with hempty
        · cases hmod
        · rw [List.mem_singleton.mp hmod]
          dsimp only
          omega
  exact hfold _ _ fun _ hmod => (by cases hmod)

@[simp] theorem descriptors_tableOf (a : Cursors modules) (fd : ℕ) :
    (tableOf a).descriptors fd = descriptorOf (a.cursor fd) := rfl

theorem set_tableOf (a : Cursors modules) (fd : ℕ) (c : Option (Cursor modules)) :
    (tableOf a).set fd (descriptorOf c) = tableOf (a.set fd c) := by
  unfold tableOf Table.set Cursors.set
  congr 1
  funext k
  dsimp only
  by_cases hk : k = fd
  · rw [hk, Function.update_self, Function.update_self]
  · rw [Function.update_of_ne hk, Function.update_of_ne hk]

theorem toOff_of_lt {n : ℕ} (h : n < 2 ^ 63) : toOff n = n := by
  rw [toOff, BitVec.toInt_ofNat', Int.bmod_eq_of_le]
  all_goals omega

/-- A descriptor number names an open file exactly when it stands for a cursor. -/
theorem fileDescriptor_tableOf (a : Cursors modules) (fd : ℤ) :
    fileDescriptor (tableOf a) fd = (a.lookup fd).map fun _ => fd.toNat := by
  unfold fileDescriptor Cursors.lookup firstFileDescriptor maxDescriptors
  rw [descriptors_tableOf]
  by_cases hrange : 3 ≤ fd ∧ fd < 8
  · rw [if_pos hrange]
    cases a.cursor fd.toNat with
    | none => exact if_pos (Or.inr (Or.inr rfl))
    | some c =>
      have hopen : (descriptorOf (some c)).isOpen = true := rfl
      rw [if_neg (by rw [hopen]; simp only [Bool.true_eq_false, or_false]; omega)]
      rfl
  · rw [if_neg hrange, if_pos (by omega)]
    rfl

theorem Cursors.lookup_eq_some {a : Cursors modules} {fd : ℤ} {c : Cursor modules}
    (h : a.lookup fd = some c) : a.cursor fd.toNat = some c ∧ 3 ≤ fd ∧ fd < 8 := by
  unfold lookup at h
  split_ifs at h with hrange
  exact ⟨h, hrange⟩

/-! ## Each call -/

/-- Two NUL-terminated strings are compared as a whole. -/
theorem sameString_iff : ∀ {lhs rhs : List UInt8}, 0 ∉ lhs → 0 ∉ rhs →
    (sameString lhs rhs = true ↔ lhs = rhs) := by
  intro lhs
  induction lhs with
  | nil =>
    intro rhs _ hr
    cases rhs with
    | nil => simp [sameString]
    | cons d rhs =>
      have hd : (0 : UInt8) ≠ d := fun h => hr (h ▸ List.mem_cons_self)
      simp [sameString, hd]
  | cons c lhs ih =>
    intro rhs hl hr
    have hc : c ≠ 0 := fun h => hl (h ▸ List.mem_cons_self)
    cases rhs with
    | nil => simp [sameString, hc]
    | cons d rhs =>
      have hrec := ih (fun h => hl (List.mem_cons_of_mem c h)) fun h =>
        hr (List.mem_cons_of_mem d h)
      by_cases hcd : c = d
      · simp [sameString, hcd, hrec, hcd ▸ hc]
      · simp [sameString, hcd]

theorem openAt_tableOf (a : Cursors modules) {mod : ModuleInfo} (hmem : mod ∈ modules) :
    openAt (tableOf a) (directMapBase + mod.range.base) mod.range.length 3 5 =
      ((a.openAs mod hmem).1, tableOf (a.openAs mod hmem).2) := by
  have hset : ∀ fd, (tableOf a).set fd ⟨true, directMapBase + mod.range.base, mod.range.length, 0⟩
      = tableOf (a.set fd (some ⟨mod, hmem, 0, Nat.zero_le _⟩)) := fun fd =>
    set_tableOf a fd (some ⟨mod, hmem, 0, Nat.zero_le _⟩)
  have hopen : ∀ fd, ((tableOf a).descriptors fd).isOpen = !(a.cursor fd).isNone := by
    intro fd
    rw [descriptors_tableOf]
    cases a.cursor fd <;> rfl
  have hsearch : ∀ n first : ℕ,
      openAt (tableOf a) (directMapBase + mod.range.base) mod.range.length first n =
        match (List.range' first n).find? fun fd => (a.cursor fd).isNone with
        | none => ((a.failed .emfile).1, tableOf (a.failed .emfile).2)
        | some fd =>
          ({ value := fd }, tableOf (a.set fd (some ⟨mod, hmem, 0, Nat.zero_le _⟩))) := by
    intro n
    induction n with
    | zero => exact fun first => rfl
    | succ n ih =>
      intro first
      rw [openAt, hopen, List.range'_succ]
      cases hnone : (a.cursor first).isNone with
      | true =>
        rw [List.find?_cons_of_pos (by rw [hnone]), if_neg (by decide), hset]
      | false =>
        rw [List.find?_cons_of_neg (by rw [hnone]; decide), if_pos (by decide), ih]
  rw [hsearch 5 3, Cursors.openAs, Cursors.lowestUnused,
    show List.range' 3 5 = [3, 4, 5, 6, 7] from rfl]
  cases [3, 4, 5, 6, 7].find? fun fd => (a.cursor fd).isNone <;> rfl

/-- `open` finds the first module whose command line is the path. -/
theorem openModule_eq (s : Table) (path : CString) : ∀ l : List ModuleInfo, Bounded l →
    openModule s path l =
      match Cursors.findModule l path with
      | none => Files.failed s .enoent
      | some mod => openAt s (directMapBase + mod.range.base) mod.range.length 3 5 := by
  intro l
  induction l with
  | nil => exact fun _ => rfl
  | cons mod l ih =>
    intro hb
    have hsame := sameString_iff path.noNul mod.commandLine.noNul
    rw [openModule, cStr]
    by_cases hpath : mod.commandLine.chars = path.chars
    · have hbase := hb mod List.mem_cons_self
      have hwindow : phyToVrt mod.range.base = some (directMapBase + mod.range.base) := by
        rw [phyToVrt, if_pos (by unfold directMapSize; omega)]
      have hfind : Cursors.findModule (mod :: l) path = some mod :=
        List.find?_cons_of_pos (by simp [hpath])
      rw [hsame.mpr hpath.symm, hfind, hwindow]
      rfl
    · have hne : sameString path.chars mod.commandLine.chars = false :=
        Bool.eq_false_iff.mpr fun h => hpath (hsame.mp h).symm
      have hfind : Cursors.findModule (mod :: l) path = Cursors.findModule l path :=
        List.find?_cons_of_neg (by simp [hpath])
      rw [hne, hfind]
      exact ih fun mod' hmod' => hb mod' (List.mem_cons_of_mem mod hmod')

theorem openFile_tableOf (hb : Bounded modules) (m : Memory) (a : Cursors modules)
    (path : Option CString) (flags : BitVec 32) :
    openFile modules path flags (tableOf a) =
      ((a.exec m (.open path flags)).1, tableOf (a.exec m (.open path flags)).2) := by
  cases path with
  | none => rfl
  | some path =>
    simp only [openFile, Cursors.exec]
    split_ifs with hflags
    · rfl
    · rw [openModule_eq _ _ _ hb]
      cases hfind : Cursors.findModule modules path with
      | none => rw [a.openPath_of_none hfind]; rfl
      | some mod =>
        rw [a.openPath_of_some hfind]
        exact openAt_tableOf a (Cursors.mem_of_findModule hfind)

/-- `read` copies the module's own bytes: the remaining length does not underflow and
the addresses do not wrap. -/
theorem read_tableOf (hb : Bounded modules) (m : Memory) (a : Cursors modules) (fd : ℤ)
    (count : ℕ) :
    Files.read m fd count (tableOf a) =
      ((a.exec m (.read fd count)).1, tableOf (a.exec m (.read fd count)).2) := by
  have hconsole : isConsole fd = true → fd ≠ 0 → a.lookup fd = none := by
    intro h h0
    have hfd : 0 ≤ fd ∧ fd ≤ 2 := of_decide_eq_true h
    rw [Cursors.lookup, if_neg (by omega)]
  simp only [Files.read, Cursors.exec]
  by_cases h0 : fd = 0
  · rw [if_pos h0, if_pos (by rw [h0]; rfl), if_pos h0]
  · rw [if_neg h0, if_neg h0, fileDescriptor_tableOf]
    cases hlookup : a.lookup fd with
    | none =>
      simp only [Option.map_none]
      split_ifs <;> rfl
    | some c =>
      obtain ⟨hc, hlo, hhi⟩ := Cursors.lookup_eq_some hlookup
      have hlen := hb c.module c.mem
      have hpos := c.le
      have hnot : isConsole fd ≠ true := by
        intro h
        rw [hconsole h h0] at hlookup
        cases hlookup
      rw [if_neg hnot]
      simp only [Option.map_some, descriptors_tableOf, hc, descriptorOf]
      rw [sub64_of_le (by omega) hpos]
      have hmin : (if count < c.module.range.length - c.pos then count
          else c.module.range.length - c.pos) = c.readLength count := by
        unfold Cursor.readLength
        split_ifs <;> omega
      have hle : c.readLength count ≤ c.module.range.length - c.pos := Nat.min_le_right _ _
      have hbytes : copyBytes m (directMapBase + c.module.range.base + c.pos) (c.readLength count)
          = moduleBytes m c.module c.pos (c.readLength count) := by
        unfold copyBytes moduleBytes
        apply List.map_congr_left
        intro i hi
        have hi := List.mem_range.mp hi
        rw [u64_of_lt (by unfold directMapBase; omega), Nat.add_assoc]
      rw [hmin, hbytes, toOff_of_lt (by omega), u64_of_lt (by omega)]
      exact congrArg (Prod.mk _) (set_tableOf a fd.toNat (some (c.advance count)))

/-- The 64-bit sum of `lseek` passes its check exactly when the exact sum lies in the
file, and then the two are equal. -/
theorem seek_target (offset : BitVec 64) {base size : ℕ} (hbase : base ≤ size)
    (hsize : size < 2 ^ 63) :
    ((offset + BitVec.ofNat 64 base).toInt < 0 ∨ (offset + BitVec.ofNat 64 base).toNat > size ↔
        ¬ (0 ≤ offset.toInt + base ∧ offset.toInt + base ≤ size)) ∧
      (0 ≤ offset.toInt + base ∧ offset.toInt + base ≤ size →
        (offset + BitVec.ofNat 64 base).toInt = offset.toInt + base ∧
        (offset + BitVec.ofNat 64 base).toNat = (offset.toInt + base).toNat) := by
  have hlt := offset.isLt
  have hsum : (offset + BitVec.ofNat 64 base).toNat = (offset.toNat + base) % 2 ^ 64 := by
    rw [BitVec.toNat_add, BitVec.toNat_ofNat, Nat.mod_eq_of_lt (by omega : base < 2 ^ 64)]
  rw [BitVec.toInt_eq_toNat_cond, BitVec.toInt_eq_toNat_cond, hsum]
  push_cast
  -- whether the offset is negative, and whether the sum wraps
  split_ifs <;> omega

theorem lseek_tableOf (hb : Bounded modules) (m : Memory) (a : Cursors modules) (fd : ℤ)
    (offset : BitVec 64) (whence : ℤ) :
    Files.lseek fd offset whence (tableOf a) =
      ((a.exec m (.lseek fd offset whence)).1,
        tableOf (a.exec m (.lseek fd offset whence)).2) := by
  simp only [Files.lseek, Cursors.exec, fileDescriptor_tableOf]
  cases hlookup : a.lookup fd with
  | none => rfl
  | some c =>
    obtain ⟨hc, -, -⟩ := Cursors.lookup_eq_some hlookup
    have hlen := hb c.module c.mem
    simp only [Option.map_some, descriptors_tableOf, hc, descriptorOf]
    -- the three bases share the check of the target
    have hmove : ∀ base ≤ c.module.range.length,
        (if (offset + BitVec.ofNat 64 base).toInt < 0 ∨
            (offset + BitVec.ofNat 64 base).toNat > c.module.range.length
          then Files.failed (tableOf a) .einval
          else ({ value := (offset + BitVec.ofNat 64 base).toInt },
            (tableOf a).set fd.toNat
              ⟨true, directMapBase + c.module.range.base, c.module.range.length,
                (offset + BitVec.ofNat 64 base).toNat⟩)) =
        ((a.seekTo fd c (offset.toInt + base)).1,
          tableOf (a.seekTo fd c (offset.toInt + base)).2) := by
      intro base hbase
      obtain ⟨hiff, heq⟩ := seek_target offset hbase (by omega : c.module.range.length < 2 ^ 63)
      unfold Cursors.seekTo
      by_cases hin : 0 ≤ offset.toInt + base ∧ offset.toInt + base ≤ c.module.range.length
      · obtain ⟨hint, hnat⟩ := heq hin
        rw [if_neg (fun h => hiff.mp h hin), dif_pos hin, hint, hnat]
        exact congrArg (Prod.mk _)
          (set_tableOf a fd.toNat (some (c.moveTo (offset.toInt + base).toNat (by omega))))
      · rw [if_pos (hiff.mpr hin), dif_neg hin]
        rfl
    by_cases hcur : whence = 1
    · have hbase : c.seekBase whence = some c.pos := by
        rw [Cursor.seekBase, if_neg (by omega), if_pos hcur]
      rw [if_pos hcur, hbase]
      exact hmove c.pos c.le
    · rw [if_neg hcur]
      by_cases hend : whence = 2
      · have hbase : c.seekBase whence = some c.module.range.length := by
          rw [Cursor.seekBase, if_neg (by omega), if_neg hcur, if_pos hend]
        rw [if_pos hend, hbase]
        exact hmove c.module.range.length le_rfl
      · rw [if_neg hend]
        by_cases hset : whence = 0
        · have hbase : c.seekBase whence = some 0 := by
            rw [Cursor.seekBase, if_pos hset]
          have hzero := hmove 0 (Nat.zero_le _)
          rw [BitVec.add_zero] at hzero
          rw [if_pos hset, hbase]
          exact hzero
        · have hbase : c.seekBase whence = none := by
            rw [Cursor.seekBase, if_neg hset, if_neg hcur, if_neg hend]
          rw [if_neg hset, hbase]
          rfl

theorem close_tableOf (m : Memory) (a : Cursors modules) (fd : ℤ) :
    Files.close fd (tableOf a) =
      ((a.exec m (.close fd)).1, tableOf (a.exec m (.close fd)).2) := by
  simp only [Files.close, Cursors.exec, fileDescriptor_tableOf]
  cases a.lookup fd with
  | none => rfl
  | some c => exact congrArg (Prod.mk _) (set_tableOf a fd.toNat none)

theorem fstat_tableOf (hb : Bounded modules) (m : Memory) (a : Cursors modules) (fd : ℤ)
    (out : Bool) :
    Files.fstat fd out (tableOf a) =
      ((a.exec m (.fstat fd out)).1, tableOf (a.exec m (.fstat fd out)).2) := by
  simp only [Files.fstat, Cursors.exec, fileDescriptor_tableOf]
  split_ifs
  · rfl
  · rfl
  · cases hlookup : a.lookup fd with
    | none => rfl
    | some c =>
      obtain ⟨hc, -, -⟩ := Cursors.lookup_eq_some hlookup
      have hlen := hb c.module c.mem
      simp only [Option.map_some, descriptors_tableOf, hc, descriptorOf]
      rw [toOff_of_lt (by omega)]

/-! ## Runs -/

/-- **One call** on the table is the same call on the cursors. -/
theorem exec_refines (hb : Bounded modules) (m : Memory) (a : Cursors modules) (call : Call) :
    exec m modules call (tableOf a) = ((a.exec m call).1, tableOf (a.exec m call).2) := by
  cases call with
  | «open» path flags => exact openFile_tableOf hb m a path flags
  | read fd count => exact read_tableOf hb m a fd count
  | lseek fd offset whence => exact lseek_tableOf hb m a fd offset whence
  | close fd => exact close_tableOf m a fd
  | fstat fd out => exact fstat_tableOf hb m a fd out

/-- **Every run** on the table is a run on the cursors, with the same replies. -/
theorem execAll_refines (hb : Bounded modules) (m : Memory) :
    ∀ (calls : List Call) (a : Cursors modules),
      execAll m modules calls (tableOf a) =
        ((Cursors.execAll m calls a).1, tableOf (Cursors.execAll m calls a).2) := by
  intro calls
  induction calls with
  | nil => exact fun a => rfl
  | cons call calls ih =>
    intro a
    simp only [execAll, Cursors.execAll]
    rw [exec_refines hb, ih]

/-- The descriptor number a call names. -/
def Call.fd? : Call → Option ℤ
  | .open _ _ => none
  | .read fd _ | .lseek fd _ _ | .close fd | .fstat fd _ => some fd

/-- What a call can do to the cursors: nothing, or it changes the one that it names, or
one that was not in use. -/
theorem Cursors.exec_cases (m : Memory) (a : Cursors modules) (call : Call) :
    (a.exec m call).2.cursor = a.cursor ∨
      ∃ (k : ℕ) (c : Option (Cursor modules)), 3 ≤ k ∧ k < 8 ∧
        (a.exec m call).2.cursor = Function.update a.cursor k c ∧
        (call.fd? = some (k : ℤ) ∨ a.cursor k = none) := by
  have hnamed : ∀ {fd : ℤ} {c : Cursor modules}, a.lookup fd = some c →
      3 ≤ fd.toNat ∧ fd.toNat < 8 ∧ (fd.toNat : ℤ) = fd := by
    intro fd c hlookup
    obtain ⟨-, hlo, hhi⟩ := lookup_eq_some hlookup
    omega
  cases call with
  | «open» path flags =>
    cases path with
    | none => exact Or.inl rfl
    | some path =>
      simp only [exec]
      split_ifs
      · exact Or.inl rfl
      · cases hfind : findModule modules path with
        | none => rw [a.openPath_of_none hfind]; exact Or.inl rfl
        | some mod =>
          rw [a.openPath_of_some hfind, openAs]
          cases hfree : a.lowestUnused with
          | none => exact Or.inl rfl
          | some k =>
            have hmem : k ∈ [3, 4, 5, 6, 7] := List.mem_of_find?_eq_some hfree
            have hnone := List.find?_some hfree
            simp only [List.mem_cons, List.not_mem_nil, or_false] at hmem
            exact Or.inr ⟨k, _, by omega, by omega, rfl,
              Or.inr (Option.isNone_iff_eq_none.mp hnone)⟩
  | read fd count =>
    simp only [exec]
    split_ifs
    · exact Or.inl rfl
    · cases hlookup : a.lookup fd with
      | none => exact Or.inl rfl
      | some c =>
        obtain ⟨hlo, hhi, hfd⟩ := hnamed hlookup
        exact Or.inr ⟨fd.toNat, _, hlo, hhi, rfl, Or.inl (congrArg some hfd.symm)⟩
  | lseek fd offset whence =>
    simp only [exec]
    cases hlookup : a.lookup fd with
    | none => exact Or.inl rfl
    | some c =>
      obtain ⟨hlo, hhi, hfd⟩ := hnamed hlookup
      dsimp only
      cases c.seekBase whence with
      | none => exact Or.inl rfl
      | some base =>
        dsimp only
        unfold seekTo
        split_ifs
        · exact Or.inr ⟨fd.toNat, _, hlo, hhi, rfl, Or.inl (congrArg some hfd.symm)⟩
        · exact Or.inl rfl
  | close fd =>
    simp only [exec]
    cases hlookup : a.lookup fd with
    | none => exact Or.inl rfl
    | some c =>
      obtain ⟨hlo, hhi, hfd⟩ := hnamed hlookup
      exact Or.inr ⟨fd.toNat, _, hlo, hhi, rfl, Or.inl (congrArg some hfd.symm)⟩
  | fstat fd out =>
    simp only [exec]
    split_ifs
    · exact Or.inl rfl
    · exact Or.inl rfl
    · cases a.lookup fd <;> exact Or.inl rfl

/-- Only the numbers from 3 to 7 are ever in use. -/
theorem Cursors.execAll_range (m : Memory) : ∀ (calls : List Call) (a : Cursors modules),
    (∀ k, a.cursor k ≠ none → 3 ≤ k ∧ k < 8) →
      ∀ k, (execAll m calls a).2.cursor k ≠ none → 3 ≤ k ∧ k < 8 := by
  intro calls
  induction calls with
  | nil => exact fun a ha => ha
  | cons call calls ih =>
    intro a ha
    refine ih (a.exec m call).2 fun k hk => ?_
    rcases a.exec_cases m call with hsame | ⟨k', c, hlo, hhi, hset, -⟩
    · rw [hsame] at hk
      exact ha k hk
    · by_cases hkk : k = k'
      · rw [hkk]
        exact ⟨hlo, hhi⟩
      · rw [hset, Function.update_of_ne hkk] at hk
        exact ha k hk

/-- **The file layer refines independent cursors.**  From the empty table, every sequence
of calls gets the replies that cursors over the boot modules give (`Cursors.exec`: the
lowest unused number for the first module of that name, the bytes from the position on as
far as there are any, and a new position exactly where the integer sum lies in the file).
Afterwards every open descriptor is a module with a position inside it, so the remaining
length does not underflow, and a call leaves every open descriptor alone that it does not
name. -/
theorem files_refine_cursors (m : Memory) {modules : List ModuleInfo} (hb : Bounded modules)
    (calls : List Call) :
    execAll m modules calls {} =
        ((Cursors.execAll m calls ({} : Cursors modules)).1,
          tableOf (Cursors.execAll m calls ({} : Cursors modules)).2) ∧
      ∀ s, s = (execAll m modules calls {}).2 → ∀ k, (s.descriptors k).isOpen = true →
        (3 ≤ k ∧ k < 8) ∧
        (∃ mod ∈ modules, (s.descriptors k).base = directMapBase + mod.range.base ∧
          (s.descriptors k).size = mod.range.length) ∧
        (s.descriptors k).offset ≤ (s.descriptors k).size ∧
        sub64 (s.descriptors k).size (s.descriptors k).offset
          = (s.descriptors k).size - (s.descriptors k).offset ∧
        ∀ call : Call, call.fd? ≠ some (k : ℤ) →
          (exec m modules call s).2.descriptors k = s.descriptors k := by
  have hrun : execAll m modules calls {} =
      ((Cursors.execAll m calls ({} : Cursors modules)).1,
        tableOf (Cursors.execAll m calls ({} : Cursors modules)).2) :=
    execAll_refines hb m calls {}
  refine ⟨hrun, fun s hs k hopen => ?_⟩
  rw [hrun] at hs
  dsimp only at hs
  obtain ⟨a, ha⟩ : ∃ a, a = (Cursors.execAll m calls ({} : Cursors modules)).2 := ⟨_, rfl⟩
  rw [← ha] at hs
  subst hs
  rw [descriptors_tableOf] at hopen ⊢
  cases hc : a.cursor k with
  | none =>
    rw [hc] at hopen
    cases hopen
  | some c =>
    have hlen := hb c.module c.mem
    have hle := c.le
    refine ⟨?_, ⟨c.module, c.mem, rfl, rfl⟩, hle, sub64_of_le ?_ hle, fun call hcall => ?_⟩
    · apply Cursors.execAll_range m calls ({} : Cursors modules) (fun _ h => absurd rfl h) k
      rw [← ha, hc]
      exact Option.some_ne_none c
    · show c.module.range.length < 2 ^ 64
      omega
    · rw [exec_refines hb, descriptors_tableOf, ← hc]
      rcases a.exec_cases m call with hsame | ⟨k', c', -, -, hset, hk'⟩
      · rw [hsame]
      · -- the cursor that changes is another one: `k` is neither named nor unused
        have hne : k ≠ k' := by
          rintro rfl
          rcases hk' with hnamed | hunused
          · exact hcall hnamed
          · rw [hunused] at hc
            cases hc
        rw [hset, Function.update_of_ne hne]

/-- A module of five bytes with the command line `w`. -/
def smallModule : ModuleInfo where
  range := ⟨0x100000, 5⟩
  commandLine := ⟨[119], by decide, by decide⟩

theorem files_refine_cursors_small :
    (execAll (fun a => UInt8.ofNat a) [smallModule]
      [.open (some ⟨[119], by decide⟩) 0, .read 3 2, .lseek 3 (-1) 1, .read 3 9, .lseek 3 1 2,
        .close 3, .read 3 1] {}).1 =
      [⟨3, [], none⟩, ⟨2, [0, 1], none⟩, ⟨1, [], none⟩, ⟨4, [1, 2, 3, 4], none⟩, ⟨-1, [], none⟩,
        ⟨0, [], none⟩, ⟨-1, [], none⟩] := by
  have hb : Bounded [smallModule] := by
    intro mod hmod
    rw [List.mem_singleton.mp hmod]
    decide
  rw [(files_refine_cursors _ hb _).1]
  decide

end Files

end DoomOs
