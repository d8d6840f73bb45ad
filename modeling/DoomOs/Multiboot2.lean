/-
# The Multiboot2 boot information

`kernel/boot/multiboot2`.  The boot loader leaves a header of eight bytes and behind
it tags, each with its type and size, padded to eight bytes, up to an END tag.

* `wellFormed` walks the tags with every bound checked (`iterator.hpp`);
* `tagsFrom` is the iteration `tags`, which checks nothing;
* `parse` translates the tags into the boot information (`adapter.cpp`).

Memory is a function from addresses to bytes.  Where `parse` reads a byte of a tag it
says which tag it is working on, and a read outside that tag is a fault, as is a
division by zero.  A container that is full ends in a panic; this is not a fault of
the translation but a way for it to end, next to the error it may return.
-/
import DoomOs.Outcome
import DoomOs.BootInfo

namespace DoomOs

/-- Physical memory, byte by byte. -/
abbrev Memory : Type := ℕ → UInt8

/-- The `n` bytes from address `a` on, as a little-endian number. -/
def leAt (m : Memory) (a : ℕ) : ℕ → ℕ
  | 0 => 0
  | n + 1 => (m a).toNat + 256 * leAt m (a + 1) n

namespace Multiboot2

open Comp

/-! ## Tags -/

/-- `BOOTLOADER_MAGIC`. -/
def bootloaderMagic : ℕ := 0x36D76289

/-- `TAG_ALIGNMENT`. -/
def tagAlignment : ℕ := 8

/-- The values of `tag_type` that the kernel looks at. -/
inductive TagType where
  | endTag
  | commandLine
  | bootloaderName
  | moduleTag
  | memoryMap
  | framebuffer
  | acpiOld
  | acpiNew
  | other (type : ℕ)
  deriving DecidableEq, Repr

/-- The number in the header as a `tag_type`. -/
def TagType.of (type : ℕ) : TagType :=
  if type = 0 then .endTag
  else if type = 1 then .commandLine
  else if type = 2 then .bootloaderName
  else if type = 3 then .moduleTag
  else if type = 6 then .memoryMap
  else if type = 8 then .framebuffer
  else if type = 14 then .acpiOld
  else if type = 15 then .acpiNew
  else .other type

/-- `tag_header`, with the address it stands at. -/
structure Tag where
  address : ℕ
  type : TagType
  size : ℕ
  deriving DecidableEq, Repr

/-- The tag at an address. -/
def tagAt (m : Memory) (a : ℕ) : Tag := ⟨a, .of (leAt m a 4), leAt m (a + 4) 4⟩

/-- `header.total_size`. -/
def totalSize (m : Memory) (h : ℕ) : ℕ := leAt m h 4

/-! ## The two walks -/

/-- The loop of `well_formed`, from offset `o` on: the offsets of the tag headers it
reads, and its verdict.  `none` if the bound on the number of iterations is reached. -/
def scan (m : Memory) (h total : ℕ) : (fuel o : ℕ) → Option (List ℕ × Bool)
  | 0, _ => none
  | fuel + 1, o =>
    if total - o < 8 then some ([], false)
    else
      let tag := tagAt m (h + o)
      let remaining := total - o
      if tag.size < 8 ∨ tag.size > remaining then some ([o], false)
      else if tag.type = .endTag then some ([o], tag.size == 8)
      else
        let step := alignUp tag.size tagAlignment
        if step > remaining then some ([o], false)
        else (scan m h total fuel (o + step)).map fun r => (o :: r.1, r.2)

/-- `well_formed` at the header with address `h`. -/
def wellFormed (m : Memory) (h : ℕ) : Option Bool :=
  let total := totalSize m h
  if total < 8 then some false
  else if total > 2 ^ 64 - 1 - h then some false
  else (scan m h total (total / 8 + 1) 8).map fun r => r.2

/-- `tag_iterator::operator++`. -/
def nextTag (m : Memory) (a : ℕ) : ℕ := u64 (a + alignUp (tagAt m a).size tagAlignment)

/-- The iteration over `tags`, from the tag at address `a` on: the tags it visits and
the address at which it stops.  `none` if the bound on its length is reached. -/
def tagsFrom (m : Memory) : (fuel a : ℕ) → Option (List Tag × ℕ)
  | 0, _ => none
  | fuel + 1, a =>
    if (tagAt m a).type = .endTag then some ([], a)
    else (tagsFrom m fuel (nextTag m a)).map fun r => (tagAt m a :: r.1, r.2)

/-- `tags`, for at most `fuel` tags. -/
def tags (m : Memory) (h fuel : ℕ) : Option (List Tag × ℕ) := tagsFrom m fuel (u64 (h + 8))

/-! ## Reading a tag -/

/-- What the translation must never do. -/
inductive BootFault where
  /-- A read at this address, which is outside the tag. -/
  | outside (address : ℕ)
  | divideByZero
  /-- No END tag within the bound on the number of tags. -/
  | endless
  deriving DecidableEq, Repr

/-- How the translation may end early. -/
inductive BootEnd where
  /-- `init_error::INVALID_BOOT_DATA`. -/
  | invalidBootData
  /-- The panic of `emplace_back` on a full container. -/
  | pastCapacity
  deriving DecidableEq, Repr

/-- Code that fills in the boot information. -/
abbrev Boot : Type → Type := Comp BootFault BootEnd BootInfo

variable (m : Memory) (t : Tag)

/-- Reading one byte while working on tag `t`. -/
def readByte (a : ℕ) : Boot UInt8 :=
  if t.address ≤ a ∧ a < t.address + t.size then pure (m a) else stop (.outside a)

/-- Reading a little-endian field of `n` bytes. -/
def readLe (a : ℕ) : (n : ℕ) → Boot ℕ
  | 0 => pure 0
  | n + 1 => do
    let low ← readByte m t a
    let high ← readLe (a + 1) n
    pure (low.toNat + 256 * high)

/-- `a / b`. -/
def divide (a b : ℕ) : Boot ℕ := if b = 0 then stop .divideByZero else pure (a / b)

/-- `inplace_vector::emplace_back` on one of the containers. -/
def emplaceBack {α : Type} (capacity : ℕ) (get : BootInfo → List α)
    (put : List α → BootInfo → BootInfo) (value : α) : Boot Unit := do
  let items ← gets get
  if items.length = capacity then fail .pastCapacity else modify (put (items ++ [value]))

/-- `detail::payload` behind a structure of `n` bytes: the first byte and the length. -/
def payload (n : ℕ) : ℕ × ℕ := if t.size ≤ n then (0, 0) else (t.address + n, t.size - n)

/-- The loop of `detail::bounded_string`. -/
def boundedLength (data : ℕ) : (remaining length : ℕ) → Boot ℕ
  | 0, length => pure length
  | n + 1, length => do
    let c ← readByte m t (data + length)
    if c = 0 then pure length else boundedLength data n (length + 1)

/-- The loop of `fixed_string::append`, from character `i` of the text on. -/
def append {N : ℕ} (text : ℕ) : (remaining i : ℕ) → FixedString N → Boot (FixedString N)
  | 0, _, s => pure s
  | n + 1, i, s =>
    if hroom : s.chars.length < N then do
      let c ← readByte m t (text + i)
      if hc : c = 0 then pure s else append text n (i + 1) (s.push c hroom hc)
    else pure s

/-- `fixed_string::assign` from the text behind a structure of `n` bytes. -/
def assignText (N n : ℕ) : Boot (FixedString N) := do
  let bytes := payload t n
  let length ← boundedLength m t bytes.1 bytes.2 0
  append m t bytes.1 length 0 (.empty N)

/-! ## The translators -/

/-- `translate_command_line`. -/
def translateCommandLine : Boot Bool := do
  let text ← assignText m t maxBootString 8
  modify fun out => { out with commandLine := text }
  pure true

/-- `translate_bootloader_name`. -/
def translateBootloaderName : Boot Bool := do
  let text ← assignText m t maxBootString 8
  modify fun out => { out with bootloaderName := text }
  pure true

/-- `translate_memory_type`. -/
def translateMemoryType (type : ℕ) : MemoryKind :=
  if type = 1 then .usable
  else if type = 3 then .acpiReclaimable
  else if type = 4 then .acpiNvs
  else if type = 5 then .defective
  else .reserved

/-- One iteration of `translate_memory_map`, for the entry at address `entry`. -/
def translateEntry (entry : ℕ) : Boot Unit := do
  let base ← readLe m t entry 8
  let length ← readLe m t (entry + 8) 8
  let type ← readLe m t (entry + 16) 4
  emplaceBack maxBootMemoryRegions BootInfo.memoryMap
    (fun items out => { out with memoryMap := items })
    ⟨base, length, translateMemoryType type⟩

/-- `translate_memory_map`, with `entries`. -/
def translateMemoryMap : Boot Bool := do
  let entrySize ← readLe m t (t.address + 8) 4
  if entrySize < 24 then pure false
  else
    let count ← divide (sub64 t.size 16) entrySize
    forRange count fun i => translateEntry m t (t.address + 16 + i * entrySize)
    pure true

/-- `translate_module`.  The command line is written through the reference to the new
entry. -/
def translateModule : Boot Bool := do
  let modStart ← readLe m t (t.address + 8) 4
  let modEnd ← readLe m t (t.address + 12) 4
  if modEnd ≤ modStart then pure true
  else
    emplaceBack maxBootModules BootInfo.modules (fun items out => { out with modules := items })
      { range := ⟨modStart, modEnd - modStart⟩ }
    let text ← assignText m t maxBootModuleCommandLine 16
    modify fun out => { out with
      modules := out.modules.dropLast ++
        out.modules.getLast?.toList.map fun entry => { entry with commandLine := text } }
    pure true

/-- `framebuffer_tag::rgb`: the address of the fields, if they are there. -/
def rgb : Boot (Option ℕ) := do
  let type ← readByte m t (t.address + 29)
  let bytes := payload t 32
  if type ≠ 1 ∨ bytes.2 < 6 then pure none else pure (some bytes.1)

/-- `framebuffer_tag::palette`: the address of the first colour and their number. -/
def palette : Boot (ℕ × ℕ) := do
  let bytes := payload t 32
  let type ← readByte m t (t.address + 29)
  if type ≠ 0 ∨ bytes.2 < 2 then pure (0, 0)
  else
    let count ← readLe m t bytes.1 2
    let fits := (bytes.2 - 2) / 3
    pure (bytes.1 + 2, if count < fits then count else fits)

/-- Reading a `pixel_channel`. -/
def readChannel (a : ℕ) : Boot PixelChannel := do
  let position ← readLe m t a 1
  let size ← readLe m t (a + 1) 1
  pure ⟨position, size⟩

/-- One iteration over the colours of the palette. -/
def translateColor (a : ℕ) : Boot Unit := do
  let red ← readLe m t a 1
  let green ← readLe m t (a + 1) 1
  let blue ← readLe m t (a + 2) 1
  emplaceBack maxBootPaletteColors (fun out => out.framebuffer.palette)
    (fun items out => { out with framebuffer := { out.framebuffer with palette := items } })
    ⟨red, green, blue⟩

/-- The end of `translate_framebuffer`. -/
def translateGeometry : Boot Bool := do
  let address ← readLe m t (t.address + 8) 8
  let pitch ← readLe m t (t.address + 16) 4
  let width ← readLe m t (t.address + 20) 4
  let height ← readLe m t (t.address + 24) 4
  let bitsPerPixel ← readLe m t (t.address + 28) 1
  modify fun out => { out with
    framebuffer := { out.framebuffer with
      present := true, range := ⟨address, u64 (pitch * height)⟩, pitch, width, height,
      bitsPerPixel } }
  pure true

/-- `translate_framebuffer`. -/
def translateFramebuffer : Boot Bool := do
  modify fun out => { out with framebuffer := {} }
  let type ← readByte m t (t.address + 29)
  if type = 1 then
    match ← rgb m t with
    | none => pure false
    | some a =>
      let red ← readChannel m t a
      let green ← readChannel m t (a + 2)
      let blue ← readChannel m t (a + 4)
      modify fun out => { out with
        framebuffer := { out.framebuffer with kind := .rgb, red, green, blue } }
      translateGeometry m t
  else if type = 0 then
    let colors ← palette m t
    if colors.2 > maxBootPaletteColors then pure false
    else
      modify fun out => { out with framebuffer := { out.framebuffer with kind := .indexed } }
      forRange colors.2 fun i => translateColor m t (colors.1 + 3 * i)
      translateGeometry m t
  else if type = 2 then
    modify fun out => { out with framebuffer := { out.framebuffer with kind := .text } }
    translateGeometry m t
  else pure true

/-- `translate_acpi<Revision>`. -/
def translateAcpi (revision : ℕ) : Boot Bool := do
  let acpi ← gets BootInfo.acpi
  if acpi.present ∧ acpi.revision ≥ revision then pure true
  else
    modify fun out => { out with acpi := ⟨true, ⟨t.address + 8, sub64 t.size 8⟩, revision⟩ }
    pure true

/-- `translate_as`, for a structure of `n` bytes. -/
def translateAs (n : ℕ) (translate : Boot Bool) : Boot Bool :=
  if t.size < n then pure false else translate

/-- `translate_tag`. -/
def translateTag : Boot Bool :=
  match t.type with
  | .commandLine => translateAs t 8 (translateCommandLine m t)
  | .bootloaderName => translateAs t 8 (translateBootloaderName m t)
  | .moduleTag => translateAs t 16 (translateModule m t)
  | .memoryMap => translateAs t 16 (translateMemoryMap m t)
  | .framebuffer => translateAs t 32 (translateFramebuffer m t)
  | .acpiOld => translateAs t 28 (translateAcpi t 1)
  | .acpiNew => translateAs t 28 (translateAcpi t 2)
  | .endTag | .other _ => pure true

/-- One iteration of the loop in `parse`. -/
def translateOrFail : Boot Unit := do
  if !(← translateTag m t) then fail .invalidBootData

/-- The loop of `parse`, from the tag at address `a` on. -/
def parseFrom : (fuel a : ℕ) → Boot Unit
  | 0, _ => stop .endless
  | fuel + 1, a =>
    if (tagAt m a).type = .endTag then pure ()
    else do
      translateOrFail m (tagAt m a)
      parseFrom fuel (nextTag m a)

/-- `adapter::parse` for the information at address `h`. -/
def parse (h : ℕ) : Boot Unit := do
  emplaceBack maxBootReservedRanges BootInfo.reserved
    (fun items out => { out with reserved := items })
    ⟨h, totalSize m h⟩
  parseFrom m (totalSize m h / 8 + 1) (u64 (h + 8))

/-- `adapter::well_formed` for what `set_handoff` was given. -/
def handoffWellFormed (magic address : ℕ) : Option Bool :=
  if magic ≠ bootloaderMagic then some false
  else if address = 0 then some false
  else wellFormed m address

end Multiboot2

end DoomOs
