/-
# What one boot tag says

The translators of `adapter.cpp` read memory through checked reads.  Here the meaning of
a tag is a function of its bytes alone: its text, its regions, its module, its
framebuffer.  `translateTag_sat` connects the two: on a tag that the walk has found, the
translator reads nothing outside the tag, never divides by zero, and changes the boot
information as the bytes of the tag say, or rejects them.
-/
import DoomOs.Multiboot2Walk

namespace DoomOs

namespace Multiboot2

open Comp

/-! ## The bytes of a tag -/

/-- The bytes of a tag, header included. -/
def contents (m : Memory) (t : Tag) : List UInt8 :=
  (List.range t.size).map fun o => m (t.address + o)

/-- The byte at offset `o`. -/
def byteOf (c : List UInt8) (o : ℕ) : UInt8 := c.getD o 0

/-- The little-endian field of `n` bytes at offset `o`. -/
def leOf (c : List UInt8) (o : ℕ) : ℕ → ℕ
  | 0 => 0
  | n + 1 => (byteOf c o).toNat + 256 * leOf c (o + 1) n

variable {m : Memory} {t : Tag} {out : BootInfo}

@[simp] theorem length_contents (m : Memory) (t : Tag) : (contents m t).length = t.size := by
  simp [contents]

theorem byteOf_contents {o : ℕ} (ho : o < t.size) :
    byteOf (contents m t) o = m (t.address + o) := by
  simp [byteOf, contents, List.getD, ho]

theorem readByte_run {a : ℕ} (o : ℕ) (ha : a = t.address + o) (ho : o < t.size) :
    (readByte m t a).run out = .ok (byteOf (contents m t) o) out := by
  subst ha
  rw [readByte, if_pos (by omega), byteOf_contents ho]
  rfl

theorem readLe_run : ∀ (n : ℕ) {a : ℕ} (o : ℕ), a = t.address + o → o + n ≤ t.size →
    (readLe m t a n).run out = .ok (leOf (contents m t) o n) out := by
  intro n
  induction n with
  | zero =>
    intro a o _ _
    rfl
  | succ n ih =>
    intro a o ha ho
    rw [readLe, run_bind_ok (readByte_run o ha (by omega)),
      run_bind_ok (ih (o + 1) (by omega) (by omega))]
    rfl

theorem emplaceBack_run {α : Type} (capacity : ℕ) (get : BootInfo → List α)
    (put : List α → BootInfo → BootInfo) (value : α) :
    (emplaceBack capacity get put value).run out =
      if (get out).length = capacity then .err .pastCapacity out
      else .ok () (put (get out ++ [value]) out) := by
  rw [emplaceBack, run_gets_bind]
  split_ifs <;> rfl

/-! ## Texts -/

/-- A text as it is stored: up to the first NUL, cut off at the capacity. -/
def textOf (N : ℕ) (text : List UInt8) : FixedString N where
  chars := (text.takeWhile (· ≠ 0)).take N
  fits := List.length_take_le _ _
  noNul := fun h => by
    have hw := List.mem_takeWhile_imp (List.mem_of_mem_take h)
    simp at hw

/-- The bytes from an offset inside the tag on start with the one at the offset. -/
theorem drop_contents {o : ℕ} (ho : o < t.size) :
    (contents m t).drop o = byteOf (contents m t) o :: (contents m t).drop (o + 1) := by
  have hlt : o < (contents m t).length := by
    rw [length_contents]
    exact ho
  rw [List.drop_eq_getElem_cons hlt, byteOf, List.getD, List.getElem?_eq_getElem hlt,
    Option.getD_some]

/-- `bounded_string` finds the first NUL or the end of the tag. -/
theorem boundedLength_run {data n : ℕ} (hdata : data = t.address + n) :
    ∀ remaining length : ℕ, n + length + remaining = t.size →
      (boundedLength m t data remaining length).run out =
        .ok (length + (((contents m t).drop (n + length)).takeWhile (· ≠ 0)).length) out := by
  intro remaining
  induction remaining with
  | zero =>
    intro length hlen
    have hnil : (contents m t).drop (n + length) = [] :=
      List.drop_eq_nil_of_le (by rw [length_contents]; omega)
    rw [boundedLength, hnil]
    rfl
  | succ remaining ih =>
    intro length hlen
    rw [boundedLength, run_bind_ok (readByte_run (n + length) (by omega) (by omega)),
      drop_contents (by omega : n + length < t.size)]
    by_cases hc : byteOf (contents m t) (n + length) = 0
    · rw [if_pos hc, List.takeWhile_cons_of_neg (by simp [hc])]
      rfl
    · rw [if_neg hc, List.takeWhile_cons_of_pos (by simp [hc]), List.length_cons,
        ih (length + 1) (by omega), Nat.add_assoc n length 1]
      congr 1
      omega

/-- `append` copies the text up to the first NUL, as far as there is room. -/
theorem append_run {N text n : ℕ} (htext : text = t.address + n) :
    ∀ (remaining i : ℕ) (s : FixedString N), n + i + remaining ≤ t.size →
      ∃ s', (append m t text remaining i s).run out = .ok s' out ∧
        s'.chars = s.chars ++ ((((contents m t).drop (n + i)).take remaining).takeWhile
          (· ≠ 0)).take (N - s.chars.length) := by
  intro remaining
  induction remaining with
  | zero =>
    intro i s _
    exact ⟨s, rfl, by simp⟩
  | succ remaining ih =>
    intro i s hlen
    rw [append]
    by_cases hroom : s.chars.length < N
    · rw [dif_pos hroom, run_bind_ok (readByte_run (n + i) (by omega) (by omega)),
        drop_contents (by omega : n + i < t.size), List.take_succ_cons]
      by_cases hc : byteOf (contents m t) (n + i) = 0
      · rw [dif_pos hc, List.takeWhile_cons_of_neg (by simp [hc])]
        exact ⟨s, rfl, by simp⟩
      · rw [dif_neg hc, List.takeWhile_cons_of_pos (by simp [hc])]
        obtain ⟨s', hrun, hchars⟩ := ih (i + 1) (s.push _ hroom hc) (by omega)
        refine ⟨s', hrun, ?_⟩
        obtain ⟨k, hk⟩ : ∃ k, N - s.chars.length = k + 1 := ⟨N - s.chars.length - 1, by omega⟩
        have hk' : N - (s.push _ hroom hc).chars.length = k := by
          rw [FixedString.push, List.length_append, List.length_singleton]
          omega
        rw [hchars, hk, hk', List.take_succ_cons, FixedString.push, List.append_assoc,
          List.singleton_append, Nat.add_assoc]
    · rw [dif_neg hroom, Nat.sub_eq_zero_of_le (by omega)]
      exact ⟨s, rfl, by simp⟩

/-- The text behind a structure of `n` bytes. -/
theorem assignText_run (N n : ℕ) :
    (assignText m t N n).run out = .ok (textOf N ((contents m t).drop n)) out := by
  simp only [assignText, payload]
  by_cases hsize : t.size ≤ n
  · have hnil : (contents m t).drop n = [] :=
      List.drop_eq_nil_of_le (by rw [length_contents]; exact hsize)
    have hempty : textOf N [] = .empty N := by
      apply FixedString.ext
      simp [textOf, FixedString.empty]
    rw [if_pos hsize, hnil, hempty]
    rfl
  · have hlen : (boundedLength m t (t.address + n) (t.size - n) 0).run out =
        .ok (((contents m t).drop n).takeWhile (· ≠ 0)).length out := by
      rw [boundedLength_run rfl _ _ (by omega), Nat.zero_add, Nat.add_zero]
    have hle : (((contents m t).drop n).takeWhile (· ≠ 0)).length ≤ t.size - n := by
      refine (List.takeWhile_prefix _).length_le.trans ?_
      rw [List.length_drop, length_contents]
    rw [if_neg hsize, run_bind_ok hlen]
    obtain ⟨s', hrun, hchars⟩ : ∃ s', (append m t (t.address + n)
        (((contents m t).drop n).takeWhile (· ≠ 0)).length 0 (.empty N)).run out = .ok s' out ∧ _ :=
      append_run rfl _ 0 (.empty N) (by omega)
    rw [hrun]
    congr 1
    apply FixedString.ext
    rw [hchars, Nat.add_zero, ← List.prefix_iff_eq_take.mp (List.takeWhile_prefix _),
      List.takeWhile_idem]
    simp [textOf, FixedString.empty]

/-! ## The meaning of a tag -/

/-- The memory-map entry at offset `o`. -/
def regionOf (c : List UInt8) (o : ℕ) : MemoryRegion :=
  ⟨leOf c o 8, leOf c (o + 8) 8, translateMemoryType (leOf c (o + 16) 4)⟩

/-- The regions of a memory-map tag: as many entries of the declared size as fit. -/
def regionsOf (c : List UInt8) : List MemoryRegion :=
  (List.range ((c.length - 16) / leOf c 8 4)).map fun i => regionOf c (16 + i * leOf c 8 4)

/-- The module of a module tag, if it is not empty. -/
def modulesOf (c : List UInt8) : List ModuleInfo :=
  if leOf c 12 4 ≤ leOf c 8 4 then []
  else [{ range := ⟨leOf c 8 4, leOf c 12 4 - leOf c 8 4⟩,
          commandLine := textOf maxBootModuleCommandLine (c.drop 16) }]

/-- The colours of a framebuffer tag: as many as it declares and as fit. -/
def colorsOf (c : List UInt8) : List PaletteColor :=
  (List.range (if c.length - 32 < 2 then 0 else min (leOf c 32 2) ((c.length - 32 - 2) / 3))).map
    fun i => ⟨leOf c (34 + 3 * i) 1, leOf c (34 + 3 * i + 1) 1, leOf c (34 + 3 * i + 2) 1⟩

/-- Two bytes as a `pixel_channel`. -/
def channelOf (c : List UInt8) (o : ℕ) : PixelChannel := ⟨leOf c o 1, leOf c (o + 1) 1⟩

/-- The fields that every kind of framebuffer has. -/
def withGeometry (c : List UInt8) (fb : FramebufferInfo) : FramebufferInfo :=
  { fb with
    present := true
    range := ⟨leOf c 8 8, u64 (leOf c 16 4 * leOf c 24 4)⟩
    pitch := leOf c 16 4
    width := leOf c 20 4
    height := leOf c 24 4
    bitsPerPixel := leOf c 28 1 }

/-- The framebuffer of a framebuffer tag; `none` if the tag is rejected. -/
def framebufferOf (c : List UInt8) : Option FramebufferInfo :=
  if byteOf c 29 = 1 then
    if c.length - 32 < 6 then none
    else some (withGeometry c
      { kind := .rgb, red := channelOf c 32, green := channelOf c 34, blue := channelOf c 36 })
  else if byteOf c 29 = 0 then
    if (colorsOf c).length > maxBootPaletteColors then none
    else some (withGeometry c { kind := .indexed, palette := colorsOf c })
  else if byteOf c 29 = 2 then some (withGeometry c { kind := .text })
  else some {}

/-- The root pointer after an ACPI tag of the given revision: a newer one replaces an
older one. -/
def acpiAfter (revision address : ℕ) (c : List UInt8) (acpi : AcpiInfo) : AcpiInfo :=
  if acpi.present ∧ acpi.revision ≥ revision then acpi
  else ⟨true, ⟨address + 8, c.length - 8⟩, revision⟩

/-- The size of the structure that a tag of this type must hold. -/
def minSize : TagType → ℕ
  | .commandLine | .bootloaderName => 8
  | .moduleTag | .memoryMap => 16
  | .framebuffer => 32
  | .acpiOld | .acpiNew => 28
  | .endTag | .other _ => 0

/-- The tag is not rejected. -/
structure Accepted (type : TagType) (c : List UInt8) : Prop where
  size : minSize type ≤ c.length
  entries : type = .memoryMap → 24 ≤ leOf c 8 4
  framebuffer : type = .framebuffer → (framebufferOf c).isSome

/-- The boot information after a tag, if it is accepted. -/
def applyTag (type : TagType) (address : ℕ) (c : List UInt8) (out : BootInfo) : BootInfo :=
  match type with
  | .commandLine => { out with commandLine := textOf maxBootString (c.drop 8) }
  | .bootloaderName => { out with bootloaderName := textOf maxBootString (c.drop 8) }
  | .moduleTag => { out with modules := out.modules ++ modulesOf c }
  | .memoryMap => { out with memoryMap := out.memoryMap ++ regionsOf c }
  | .framebuffer => { out with framebuffer := (framebufferOf c).getD {} }
  | .acpiOld => { out with acpi := acpiAfter 1 address c out.acpi }
  | .acpiNew => { out with acpi := acpiAfter 2 address c out.acpi }
  | .endTag | .other _ => out

/-- The containers are within their capacity. -/
structure WithinCapacity (out : BootInfo) : Prop where
  regions : out.memoryMap.length ≤ maxBootMemoryRegions
  modules : out.modules.length ≤ maxBootModules

/-! ## The translators meet it -/

/-- What is known after a tag: it was accepted and the containers have room for it, or
it was rejected, or a container is full.  Where it is not accepted the root pointer stays. -/
def AfterTag (t : Tag) (c : List UInt8) (out : BootInfo) (accepted : Bool) (out' : BootInfo) :
    Prop :=
  if accepted then Accepted t.type c ∧ out' = applyTag t.type t.address c out ∧
    WithinCapacity out'
  else ¬ Accepted t.type c ∧ out'.acpi = out.acpi

/-- What is known when a container is full. -/
def AfterPanic (t : Tag) (c : List UInt8) (out : BootInfo) (e : BootEnd) (out' : BootInfo) :
    Prop :=
  e = .pastCapacity ∧ ¬ WithinCapacity (applyTag t.type t.address c out) ∧ out'.acpi = out.acpi

/-- An entry that fits is read inside the tag. -/
theorem translateEntry_run {entry : ℕ} (o : ℕ) (ha : entry = t.address + o)
    (ho : o + 24 ≤ t.size) :
    (translateEntry m t entry).run out =
      if out.memoryMap.length = maxBootMemoryRegions then .err .pastCapacity out
      else .ok () { out with memoryMap := out.memoryMap ++ [regionOf (contents m t) o] } := by
  rw [translateEntry, run_bind_ok (readLe_run 8 o ha (by omega)),
    run_bind_ok (readLe_run 8 (o + 8) (by omega) (by omega)),
    run_bind_ok (readLe_run 4 (o + 16) (by omega) (by omega)), emplaceBack_run]
  rfl

/-- An entry counted by the division ends inside the tag. -/
theorem entry_le {size e i : ℕ} (he : 24 ≤ e) (hsize : 16 ≤ size) (hi : i < (size - 16) / e) :
    16 + i * e + 24 ≤ size := by
  have hmul : (i + 1) * e ≤ (size - 16) / e * e := Nat.mul_le_mul_right e hi
  have hdiv := Nat.div_mul_le_self (size - 16) e
  rw [Nat.succ_mul] at hmul
  omega

/-- The loop over the entries appends the regions one by one. -/
theorem translateEntries_sat (hfit : WithinCapacity out) (hsize : 16 ≤ t.size)
    (he : 24 ≤ leOf (contents m t) 8 4) :
    ((forRange ((t.size - 16) / leOf (contents m t) 8 4) fun i =>
      translateEntry m t (t.address + 16 + i * leOf (contents m t) 8 4)).run out).Sat
      (fun _ out' => out' = { out with memoryMap := out.memoryMap ++ regionsOf (contents m t) } ∧
        out'.memoryMap.length ≤ maxBootMemoryRegions)
      (fun e out' => e = .pastCapacity ∧ out'.acpi = out.acpi ∧
        maxBootMemoryRegions < (out.memoryMap ++ regionsOf (contents m t)).length) := by
  obtain ⟨region, hregion⟩ : ∃ region : ℕ → MemoryRegion, region =
    fun i => regionOf (contents m t) (16 + i * leOf (contents m t) 8 4) := ⟨_, rfl⟩
  rw [regionsOf, length_contents, ← hregion]
  -- after `i` iterations the first `i` regions are there
  refine sat_forRange
    (I := fun i out' => out' =
        { out with memoryMap := out.memoryMap ++ (List.range i).map region } ∧
      out'.memoryMap.length ≤ maxBootMemoryRegions) ?_ ⟨by simp, hfit.regions⟩
  rintro i out' hi ⟨rfl, hle⟩
  rw [translateEntry_run (16 + i * leOf (contents m t) 8 4) (by omega) (entry_le he hsize hi)]
  split_ifs with hfull
  · refine ⟨rfl, rfl, ?_⟩
    simp only [List.length_append, List.length_map, List.length_range] at hfull ⊢
    omega
  · refine ⟨?_, ?_⟩
    · simp only [List.range_succ, List.map_append, List.map_singleton, List.append_assoc,
        hregion]
    · simp only [List.length_append, List.length_map, List.length_range, List.length_singleton]
        at hfull hle ⊢
      omega

theorem translateMemoryMap_sat (hfit : WithinCapacity out) (htype : t.type = .memoryMap)
    (hsize : 16 ≤ t.size) (hlt : t.size < 2 ^ 64) :
    ((translateMemoryMap m t).run out).Sat (AfterTag t (contents m t) out)
      (AfterPanic t (contents m t) out) := by
  rw [translateMemoryMap, run_bind_ok (readLe_run 4 8 rfl (by omega))]
  by_cases he : leOf (contents m t) 8 4 < 24
  · rw [if_pos he, run_pure, Outcome.sat_ok, AfterTag, if_neg Bool.false_ne_true]
    exact ⟨fun h => absurd (h.entries htype) (by omega), rfl⟩
  · -- the division is by the declared size, which is not zero here
    have hdiv : (divide (sub64 t.size 16) (leOf (contents m t) 8 4)).run out
        = .ok ((t.size - 16) / leOf (contents m t) 8 4) out := by
      rw [divide, if_neg (by omega), sub64_of_le hlt hsize]
      rfl
    rw [if_neg he, run_bind_ok hdiv, sat_bind]
    refine (translateEntries_sat hfit hsize (by omega)).mono ?_ ?_
    · rintro - out' ⟨rfl, hle⟩
      rw [run_pure, Outcome.sat_ok, AfterTag, if_pos rfl, htype, applyTag]
      refine ⟨⟨?_, fun _ => by omega, fun h => by cases h⟩, rfl, hle, hfit.modules⟩
      rw [length_contents]
      exact hsize
    · rintro e out' ⟨rfl, hacpi, hgt⟩
      refine ⟨rfl, fun h => ?_, hacpi⟩
      rw [htype, applyTag] at h
      exact absurd h.regions (by simpa using hgt)

/-- A module tag appends its module. -/
theorem translateModule_sat (hfit : WithinCapacity out) (htype : t.type = .moduleTag)
    (hsize : 16 ≤ t.size) :
    ((translateModule m t).run out).Sat (AfterTag t (contents m t) out)
      (AfterPanic t (contents m t) out) := by
  have hacc : Accepted .moduleTag (contents m t) :=
    ⟨by rw [length_contents]; exact hsize, fun h => (by cases h), fun h => (by cases h)⟩
  rw [translateModule, run_bind_ok (readLe_run 4 8 rfl (by omega)),
    run_bind_ok (readLe_run 4 12 rfl (by omega))]
  by_cases hempty : leOf (contents m t) 12 4 ≤ leOf (contents m t) 8 4
  · rw [if_pos hempty, run_pure, Outcome.sat_ok, AfterTag, if_pos rfl, htype, applyTag, modulesOf,
      if_pos hempty, List.append_nil]
    exact ⟨hacc, rfl, hfit⟩
  · rw [if_neg hempty]
    by_cases hfull : out.modules.length = maxBootModules
    · rw [run_bind_err (by rw [emplaceBack_run, if_pos hfull]), Outcome.sat_err]
      refine ⟨rfl, fun h => ?_, rfl⟩
      rw [htype, applyTag, modulesOf, if_neg hempty] at h
      have hle := h.modules
      rw [List.length_append, List.length_singleton] at hle
      omega
    · rw [run_bind_ok (by rw [emplaceBack_run, if_neg hfull]), run_bind_ok (assignText_run _ _),
        run_modify_bind, run_pure, Outcome.sat_ok, AfterTag, if_pos rfl, htype, applyTag, modulesOf,
        if_neg hempty]
      refine ⟨hacc, ?_, hfit.regions, ?_⟩
      · simp
      · have hle := hfit.modules
        simp only [List.dropLast_concat, List.getLast?_append, List.getLast?_singleton,
          Option.some_or, Option.toList_some, List.map_cons, List.map_nil, List.length_append,
          List.length_singleton]
        omega

/-- A string tag replaces its string. -/
theorem translateCommandLine_sat (hfit : WithinCapacity out) (htype : t.type = .commandLine)
    (hsize : 8 ≤ t.size) :
    ((translateCommandLine m t).run out).Sat (AfterTag t (contents m t) out)
      (AfterPanic t (contents m t) out) := by
  rw [translateCommandLine, run_bind_ok (assignText_run _ _), run_modify_bind, run_pure,
    Outcome.sat_ok, AfterTag, if_pos rfl, htype]
  refine ⟨⟨?_, fun h => (by cases h), fun h => (by cases h)⟩, rfl, hfit.regions, hfit.modules⟩
  rw [length_contents]
  exact hsize

theorem translateBootloaderName_sat (hfit : WithinCapacity out) (htype : t.type = .bootloaderName)
    (hsize : 8 ≤ t.size) :
    ((translateBootloaderName m t).run out).Sat (AfterTag t (contents m t) out)
      (AfterPanic t (contents m t) out) := by
  rw [translateBootloaderName, run_bind_ok (assignText_run _ _), run_modify_bind, run_pure,
    Outcome.sat_ok, AfterTag, if_pos rfl, htype]
  refine ⟨⟨?_, fun h => (by cases h), fun h => (by cases h)⟩, rfl, hfit.regions, hfit.modules⟩
  rw [length_contents]
  exact hsize

/-- The ACPI tags, for the revision that belongs to their type. -/
theorem translateAcpi_sat {revision : ℕ} (hfit : WithinCapacity out)
    (hmin : minSize t.type = 28) (hsize : 28 ≤ t.size) (hlt : t.size < 2 ^ 64)
    (happly : applyTag t.type t.address (contents m t) out
      = { out with acpi := acpiAfter revision t.address (contents m t) out.acpi }) :
    ((translateAcpi t revision).run out).Sat (AfterTag t (contents m t) out)
      (AfterPanic t (contents m t) out) := by
  have hacc : Accepted t.type (contents m t) := by
    refine ⟨by rw [hmin, length_contents]; exact hsize, fun h => ?_, fun h => ?_⟩
    · rw [h] at hmin
      cases hmin
    · rw [h] at hmin
      cases hmin
  rw [translateAcpi, run_gets_bind]
  by_cases hnewer : out.acpi.present ∧ out.acpi.revision ≥ revision
  · rw [if_pos hnewer, run_pure, Outcome.sat_ok, AfterTag, if_pos rfl, happly, acpiAfter,
      if_pos hnewer]
    exact ⟨hacc, rfl, hfit⟩
  · rw [if_neg hnewer, run_modify_bind, run_pure, Outcome.sat_ok, AfterTag, if_pos rfl, happly,
      acpiAfter, if_neg hnewer, length_contents, sub64_of_le hlt (by omega)]
    exact ⟨hacc, rfl, hfit.regions, hfit.modules⟩

/-! ## Framebuffers -/

theorem payload_snd (n : ℕ) : (payload t n).2 = t.size - n := by
  rw [payload]
  split_ifs with h
  · exact (Nat.sub_eq_zero_of_le h).symm
  · rfl

theorem payload_fst {n : ℕ} (h : n < t.size) : (payload t n).1 = t.address + n := by
  rw [payload, if_neg (by omega)]

theorem translateGeometry_run (hsize : 32 ≤ t.size) :
    (translateGeometry m t).run out =
      .ok true { out with framebuffer := withGeometry (contents m t) out.framebuffer } := by
  rw [translateGeometry, run_bind_ok (readLe_run 8 8 rfl (by omega)),
    run_bind_ok (readLe_run 4 16 rfl (by omega)), run_bind_ok (readLe_run 4 20 rfl (by omega)),
    run_bind_ok (readLe_run 4 24 rfl (by omega)), run_bind_ok (readLe_run 1 28 rfl (by omega)),
    run_modify_bind]
  rfl

theorem readChannel_run {a : ℕ} (o : ℕ) (ha : a = t.address + o) (ho : o + 2 ≤ t.size) :
    (readChannel m t a).run out = .ok (channelOf (contents m t) o) out := by
  rw [readChannel, run_bind_ok (readLe_run 1 o ha (by omega)),
    run_bind_ok (readLe_run 1 (o + 1) (by omega) (by omega))]
  rfl

/-- The channels are there if the tag is long enough for them. -/
theorem rgb_run (hsize : 32 ≤ t.size) (htype : byteOf (contents m t) 29 = 1) :
    (rgb m t).run out = .ok (if t.size - 32 < 6 then none else some (t.address + 32)) out := by
  simp only [rgb, payload_snd]
  rw [run_bind_ok (readByte_run 29 rfl (by omega)), htype]
  by_cases hshort : t.size - 32 < 6
  · rw [if_pos (Or.inr hshort), if_pos hshort, run_pure]
  · rw [if_neg (by simp [hshort]), if_neg hshort, payload_fst (by omega), run_pure]

/-- The colour at offset `o`. -/
def colorOf (c : List UInt8) (o : ℕ) : PaletteColor :=
  ⟨leOf c o 1, leOf c (o + 1) 1, leOf c (o + 2) 1⟩

theorem colorsOf_eq (c : List UInt8) :
    colorsOf c = (List.range (colorsOf c).length).map fun i => colorOf c (34 + 3 * i) := by
  conv_lhs => rw [colorsOf]
  simp [colorsOf, colorOf]

/-- The palette found is the one that is declared, as far as it fits. -/
theorem palette_run (hsize : 32 ≤ t.size) (htype : byteOf (contents m t) 29 = 0) :
    ∃ a, (palette m t).run out = .ok (a, (colorsOf (contents m t)).length) out ∧
      (0 < (colorsOf (contents m t)).length → a = t.address + 34 ∧
        34 + 3 * (colorsOf (contents m t)).length ≤ t.size) := by
  simp only [palette, payload_snd]
  rw [run_bind_ok (readByte_run 29 rfl (by omega)), htype]
  by_cases hshort : t.size - 32 < 2
  · refine ⟨0, ?_, ?_⟩
    · rw [if_pos (Or.inr hshort), colorsOf, length_contents, if_pos hshort]
      rfl
    · intro hpos
      rw [colorsOf, length_contents, if_pos hshort] at hpos
      exact absurd hpos (Nat.lt_irrefl 0)
  · have hmin : (if leOf (contents m t) 32 2 < (t.size - 32 - 2) / 3 then leOf (contents m t) 32 2
        else (t.size - 32 - 2) / 3) = min (leOf (contents m t) 32 2) ((t.size - 32 - 2) / 3) := by
      split_ifs <;> omega
    rw [if_neg (by simp [hshort]), payload_fst (by omega),
      run_bind_ok (readLe_run 2 32 rfl (by omega)), hmin]
    refine ⟨t.address + 32 + 2, ?_, fun _ => ⟨by omega, ?_⟩⟩
    · rw [colorsOf, length_contents, if_neg hshort, List.length_map, List.length_range]
      rfl
    · rw [colorsOf, length_contents, if_neg hshort, List.length_map, List.length_range]
      omega

/-- The loop over the colours fills the palette of the new record. -/
theorem translateColors_sat {a : ℕ} (hempty : out.framebuffer.palette = [])
    (hcount : (colorsOf (contents m t)).length ≤ maxBootPaletteColors)
    (ha : 0 < (colorsOf (contents m t)).length → a = t.address + 34 ∧
      34 + 3 * (colorsOf (contents m t)).length ≤ t.size) :
    ((forRange (colorsOf (contents m t)).length fun i =>
      translateColor m t (a + 3 * i)).run out).Sat
      (fun _ out' => out' = { out with
        framebuffer := { out.framebuffer with palette := colorsOf (contents m t) } })
      (fun _ _ => False) := by
  rw [colorsOf_eq, List.length_map, List.length_range]
  refine sat_forRange (I := fun i out' => out' = { out with
      framebuffer := { out.framebuffer with
        palette := (List.range i).map fun i => colorOf (contents m t) (34 + 3 * i) } }) ?_ ?_
  · rintro i out' hi rfl
    obtain ⟨rfl, hend⟩ := ha (by omega)
    rw [translateColor, run_bind_ok (readLe_run 1 (34 + 3 * i) (by omega) (by omega)),
      run_bind_ok (readLe_run 1 (34 + 3 * i + 1) (by omega) (by omega)),
      run_bind_ok (readLe_run 1 (34 + 3 * i + 2) (by omega) (by omega)), emplaceBack_run]
    simp only [List.length_map, List.length_range]
    rw [if_neg (by omega), Outcome.sat_ok, List.range_succ, List.map_append, List.map_singleton]
    rfl
  · simp [← hempty]

theorem Accepted.of_framebuffer {c : List UInt8} (hsize : 32 ≤ c.length)
    (h : (framebufferOf c).isSome) : Accepted .framebuffer c :=
  ⟨hsize, fun h => (by cases h), fun _ => h⟩

/-- A framebuffer tag replaces the record. -/
theorem translateFramebuffer_sat (hfit : WithinCapacity out) (htype : t.type = .framebuffer)
    (hsize : 32 ≤ t.size) :
    ((translateFramebuffer m t).run out).Sat (AfterTag t (contents m t) out)
      (AfterPanic t (contents m t) out) := by
  have hok : ∀ {fb : FramebufferInfo}, framebufferOf (contents m t) = some fb →
      AfterTag t (contents m t) out true { out with framebuffer := fb } := by
    intro fb hfb
    rw [AfterTag, if_pos rfl, htype, applyTag, hfb]
    exact ⟨.of_framebuffer (by rw [length_contents]; exact hsize) (by rw [hfb]; rfl), rfl,
      hfit.regions, hfit.modules⟩
  have hno : framebufferOf (contents m t) = none →
      AfterTag t (contents m t) out false { out with framebuffer := {} } := by
    intro hfb
    rw [AfterTag, if_neg Bool.false_ne_true, htype]
    refine ⟨fun h => ?_, rfl⟩
    have hsome := h.framebuffer rfl
    rw [hfb] at hsome
    cases hsome
  rw [translateFramebuffer, run_modify_bind, run_bind_ok (readByte_run 29 rfl (by omega))]
  by_cases hrgb : byteOf (contents m t) 29 = 1
  · rw [if_pos hrgb, run_bind_ok (rgb_run hsize hrgb)]
    by_cases hshort : t.size - 32 < 6
    · rw [if_pos hshort, run_pure, Outcome.sat_ok]
      apply hno
      rw [framebufferOf, if_pos hrgb, length_contents, if_pos hshort]
    · rw [if_neg hshort]
      dsimp only
      rw [run_bind_ok (readChannel_run 32 rfl (by omega)),
        run_bind_ok (readChannel_run 34 rfl (by omega)),
        run_bind_ok (readChannel_run 36 rfl (by omega)), run_modify_bind,
        translateGeometry_run hsize, Outcome.sat_ok]
      apply hok
      rw [framebufferOf, if_pos hrgb, length_contents, if_neg hshort]
  · rw [if_neg hrgb]
    by_cases hindexed : byteOf (contents m t) 29 = 0
    · obtain ⟨a, hpalette, ha⟩ : ∃ a, (palette m t).run { out with framebuffer := {} } = _ ∧ _ :=
        palette_run hsize hindexed
      rw [if_pos hindexed, run_bind_ok hpalette]
      by_cases hmany : (colorsOf (contents m t)).length > maxBootPaletteColors
      · rw [if_pos hmany, run_pure, Outcome.sat_ok]
        apply hno
        rw [framebufferOf, if_neg hrgb, if_pos hindexed, if_pos hmany]
      · rw [if_neg hmany, run_modify_bind, sat_bind]
        refine (translateColors_sat rfl (Nat.le_of_not_lt hmany) ha).mono ?_
          (fun _ _ h => h.elim)
        rintro - out' rfl
        rw [translateGeometry_run hsize, Outcome.sat_ok]
        apply hok
        rw [framebufferOf, if_neg hrgb, if_pos hindexed, if_neg hmany]
    · rw [if_neg hindexed]
      by_cases htext : byteOf (contents m t) 29 = 2
      · rw [if_pos htext, run_modify_bind, translateGeometry_run hsize, Outcome.sat_ok]
        apply hok
        rw [framebufferOf, if_neg hrgb, if_neg hindexed, if_pos htext]
      · rw [if_neg htext, run_pure, Outcome.sat_ok]
        apply hok
        rw [framebufferOf, if_neg hrgb, if_neg hindexed, if_neg htext]

/-! ## Any tag -/

theorem translateAs_sat {n : ℕ} {translate : Boot Bool} (hmin : minSize t.type = n)
    (h : n ≤ t.size → (translate.run out).Sat (AfterTag t (contents m t) out)
      (AfterPanic t (contents m t) out)) :
    ((translateAs t n translate).run out).Sat (AfterTag t (contents m t) out)
      (AfterPanic t (contents m t) out) := by
  rw [translateAs]
  split_ifs with hshort
  · rw [run_pure, Outcome.sat_ok, AfterTag, if_neg Bool.false_ne_true]
    refine ⟨fun hacc => ?_, rfl⟩
    have hsize := hacc.size
    rw [hmin, length_contents] at hsize
    omega
  · exact h (by omega)

/-- **One tag.**  The translator of a tag reads inside the tag only, divides by no zero,
and leaves what the bytes of the tag say. -/
theorem translateTag_sat (hfit : WithinCapacity out) (hlt : t.size < 2 ^ 64) :
    ((translateTag m t).run out).Sat (AfterTag t (contents m t) out)
      (AfterPanic t (contents m t) out) := by
  unfold translateTag
  cases htype : t.type with
  | commandLine =>
    exact translateAs_sat (by rw [htype]; rfl) (translateCommandLine_sat hfit htype)
  | bootloaderName =>
    exact translateAs_sat (by rw [htype]; rfl) (translateBootloaderName_sat hfit htype)
  | moduleTag => exact translateAs_sat (by rw [htype]; rfl) (translateModule_sat hfit htype)
  | memoryMap =>
    exact translateAs_sat (by rw [htype]; rfl) fun h => translateMemoryMap_sat hfit htype h hlt
  | framebuffer =>
    exact translateAs_sat (by rw [htype]; rfl) (translateFramebuffer_sat hfit htype)
  | acpiOld =>
    refine translateAs_sat (by rw [htype]; rfl) fun h => ?_
    exact translateAcpi_sat hfit (by rw [htype]; rfl) h hlt (by rw [htype]; rfl)
  | acpiNew =>
    refine translateAs_sat (by rw [htype]; rfl) fun h => ?_
    exact translateAcpi_sat hfit (by rw [htype]; rfl) h hlt (by rw [htype]; rfl)
  | endTag =>
    rw [run_pure, Outcome.sat_ok, AfterTag, if_pos rfl, htype]
    exact ⟨⟨Nat.zero_le _, fun h => (by cases h), fun h => (by cases h)⟩, rfl, hfit⟩
  | other type =>
    rw [run_pure, Outcome.sat_ok, AfterTag, if_pos rfl, htype]
    exact ⟨⟨Nat.zero_le _, fun h => (by cases h), fun h => (by cases h)⟩, rfl, hfit⟩

end Multiboot2

end DoomOs
