/-
# The interrupt controllers

`kernel/acpi/madt.cpp`.  The MADT is a header of 44 bytes and behind it entries of
different types, each with its own type and length.  `parse_madt` goes through them and
collects the processors, the I/O APICs and the interrupt overrides in three arrays.

The part of an array that is in use is a list here.  `storeEntry` is the assignment to
the next element, and faults outside the array; that it never does is part of the result.
-/
import DoomOs.Acpi

namespace DoomOs

namespace Madt

open Comp Reading

/-! ## What is collected -/

/-- `processor_info`. -/
structure ProcessorInfo where
  apicId : ℕ
  acpiId : ℕ
  enabled : Bool
  onlineCapable : Bool
  deriving DecidableEq, Repr

/-- `ioapic_record`. -/
structure IoapicRecord where
  id : ℕ
  address : ℕ
  gsiBase : ℕ
  deriving DecidableEq, Repr

/-- `iso_record`. -/
structure IsoRecord where
  bus : ℕ
  source : ℕ
  gsi : ℕ
  flags : ℕ
  deriving DecidableEq, Repr

/-- `MAX_CPUS`. -/
def maxCpus : ℕ := 64

/-- `MAX_IOAPICS`. -/
def maxIoapics : ℕ := 8

/-- `MAX_ISOS`. -/
def maxIsos : ℕ := 32

/-- `madt_info`. -/
structure MadtInfo where
  lapicAddress : ℕ := 0xFEE00000
  flags : ℕ := 0
  cpus : List ProcessorInfo := []
  ioapics : List IoapicRecord := []
  isos : List IsoRecord := []
  deriving DecidableEq, Repr

/-- `m_cached_madt_info` and `m_madt_parsed`. -/
structure MadtState where
  cachedMadtInfo : MadtInfo := {}
  madtParsed : Bool := false
  deriving DecidableEq, Repr

/-- What parsing must never do. -/
inductive MadtFault where
  /-- An assignment behind the end of an array. -/
  | pastEnd
  /-- No end within the bound on the number of entries. -/
  | endless
  deriving DecidableEq, Repr

/-- Code of this module. -/
abbrev Parser : Type → Type := Reading MadtFault MadtState

/-! ## The parser -/

variable (m : Memory)

/-- `sizeof(wire::madt_header)`. -/
def madtHeaderSize : ℕ := 44

/-- `items[count++] = value`, in an array with `capacity` elements. -/
def storeEntry {α : Type} (capacity : ℕ) (items : List α) (value : α) : Parser (List α) :=
  if items.length < capacity then pure (items ++ [value]) else stop .pastEnd

/-- The case `TYPE_LAPIC`. -/
def parseLapic (cursor length : ℕ) (info : MadtInfo) : Parser MadtInfo :=
  if length ≥ 8 ∧ info.cpus.length < maxCpus then do
    let apicId ← loadLe m (cursor + 3) 1
    let acpiId ← loadLe m (cursor + 2) 1
    let flags ← loadLe m (cursor + 4) 4
    let cpus ← storeEntry maxCpus info.cpus
      ⟨apicId, acpiId, decide (flags &&& 1 ≠ 0), decide (flags &&& 2 ≠ 0)⟩
    pure { info with cpus }
  else pure info

/-- The case `TYPE_IOAPIC`. -/
def parseIoapic (cursor length : ℕ) (info : MadtInfo) : Parser MadtInfo :=
  if length ≥ 12 ∧ info.ioapics.length < maxIoapics then do
    let id ← loadLe m (cursor + 2) 1
    let address ← loadLe m (cursor + 4) 4
    let gsiBase ← loadLe m (cursor + 8) 4
    let ioapics ← storeEntry maxIoapics info.ioapics ⟨id, address, gsiBase⟩
    pure { info with ioapics }
  else pure info

/-- The case `TYPE_INTERRUPT_OVERRIDE`. -/
def parseIso (cursor length : ℕ) (info : MadtInfo) : Parser MadtInfo :=
  if length ≥ 10 ∧ info.isos.length < maxIsos then do
    let bus ← loadLe m (cursor + 2) 1
    let source ← loadLe m (cursor + 3) 1
    let gsi ← loadLe m (cursor + 4) 4
    let flags ← loadLe m (cursor + 8) 2
    let isos ← storeEntry maxIsos info.isos ⟨bus, source, gsi, flags⟩
    pure { info with isos }
  else pure info

/-- The case `TYPE_LAPIC_ADDRESS_OVERRIDE`. -/
def parseAddressOverride (cursor length : ℕ) (info : MadtInfo) : Parser MadtInfo :=
  if length ≥ 12 then do
    let lapicAddress ← loadLe m (cursor + 4) 8
    pure { info with lapicAddress }
  else pure info

/-- The case `TYPE_X2APIC`. -/
def parseX2apic (cursor length : ℕ) (info : MadtInfo) : Parser MadtInfo :=
  if length ≥ 16 ∧ info.cpus.length < maxCpus then do
    let apicId ← loadLe m (cursor + 4) 4
    let acpiId ← loadLe m (cursor + 12) 4
    let flags ← loadLe m (cursor + 8) 4
    let cpus ← storeEntry maxCpus info.cpus
      ⟨apicId, acpiId, decide (flags &&& 1 ≠ 0), decide (flags &&& 2 ≠ 0)⟩
    pure { info with cpus }
  else pure info

/-- The `switch` over the type of an entry. -/
def parseEntry (cursor length : ℕ) (info : MadtInfo) : Parser MadtInfo := do
  let type ← loadLe m cursor 1
  if type = 0 then parseLapic m cursor length info
  else if type = 1 then parseIoapic m cursor length info
  else if type = 2 then parseIso m cursor length info
  else if type = 5 then parseAddressOverride m cursor length info
  else if type = 9 then parseX2apic m cursor length info
  else pure info

/-- The loop of `parse_madt`. -/
def parseEntries (entryEnd : ℕ) : (fuel cursor : ℕ) → MadtInfo → Parser MadtInfo
  | 0, _, _ => stop .endless
  | fuel + 1, cursor, info =>
    if cursor + 2 ≤ entryEnd then do
      let length ← loadLe m (cursor + 1) 1
      if length < 2 then pure info
      else if cursor + length > entryEnd then pure info
      else
        let info ← parseEntry m cursor length info
        parseEntries entryEnd fuel (cursor + length) info
    else pure info

/-- `parse_madt`; `none` is the invalid view. -/
def parseMadt (view : Option ℕ) : Parser MadtInfo :=
  match view with
  | none => pure {}
  | some madt => do
    let length ← loadLe m (madt + 4) 4
    if length < madtHeaderSize then pure {}
    else
      let lapicAddress ← loadLe m (madt + 36) 4
      let flags ← loadLe m (madt + 40) 4
      let info ← parseEntries m (madt + length) (length + 1) (madt + madtHeaderSize)
        { lapicAddress, flags }
      modify fun s => s.withState ⟨info, true⟩
      pure info

/-! ## What an entry says -/

variable {m}

/-- The type of the entry at an address. -/
def entryType (m : Memory) (c : ℕ) : ℕ := leAt m c 1

/-- The length of the entry at an address. -/
def entryLength (m : Memory) (c : ℕ) : ℕ := leAt m (c + 1) 1

/-- The processor of a LAPIC entry. -/
def lapicAt (m : Memory) (c : ℕ) : ProcessorInfo :=
  ⟨leAt m (c + 3) 1, leAt m (c + 2) 1, decide (leAt m (c + 4) 4 &&& 1 ≠ 0),
    decide (leAt m (c + 4) 4 &&& 2 ≠ 0)⟩

/-- The processor of an x2APIC entry. -/
def x2apicAt (m : Memory) (c : ℕ) : ProcessorInfo :=
  ⟨leAt m (c + 4) 4, leAt m (c + 12) 4, decide (leAt m (c + 8) 4 &&& 1 ≠ 0),
    decide (leAt m (c + 8) 4 &&& 2 ≠ 0)⟩

/-- The record of an I/O APIC entry. -/
def ioapicAt (m : Memory) (c : ℕ) : IoapicRecord :=
  ⟨leAt m (c + 2) 1, leAt m (c + 4) 4, leAt m (c + 8) 4⟩

/-- The record of an interrupt override. -/
def isoAt (m : Memory) (c : ℕ) : IsoRecord :=
  ⟨leAt m (c + 2) 1, leAt m (c + 3) 1, leAt m (c + 4) 4, leAt m (c + 8) 2⟩

/-- The processor of an entry, if it is of one of the two types and long enough. -/
def cpuOf (m : Memory) (c : ℕ) : Option ProcessorInfo :=
  if entryType m c = 0 ∧ 8 ≤ entryLength m c then some (lapicAt m c)
  else if entryType m c = 9 ∧ 16 ≤ entryLength m c then some (x2apicAt m c)
  else none

/-- The I/O APIC of an entry, likewise. -/
def ioapicOf (m : Memory) (c : ℕ) : Option IoapicRecord :=
  if entryType m c = 1 ∧ 12 ≤ entryLength m c then some (ioapicAt m c) else none

/-- The interrupt override of an entry. -/
def isoOf (m : Memory) (c : ℕ) : Option IsoRecord :=
  if entryType m c = 2 ∧ 10 ≤ entryLength m c then some (isoAt m c) else none

/-- The address of an address override. -/
def addressOf (m : Memory) (c : ℕ) : Option ℕ :=
  if entryType m c = 5 ∧ 12 ≤ entryLength m c then some (leAt m (c + 4) 8) else none

/-- Appending where there is room. -/
def appendWithin {α : Type} (capacity : ℕ) (items : List α) : Option α → List α
  | none => items
  | some a => if items.length < capacity then items ++ [a] else items

/-- The information after an entry. -/
def applyEntry (m : Memory) (info : MadtInfo) (c : ℕ) : MadtInfo where
  lapicAddress := (addressOf m c).getD info.lapicAddress
  flags := info.flags
  cpus := appendWithin maxCpus info.cpus (cpuOf m c)
  ioapics := appendWithin maxIoapics info.ioapics (ioapicOf m c)
  isos := appendWithin maxIsos info.isos (isoOf m c)

/-! ## One entry -/

theorem reads_storeEntry {α : Type} {capacity : ℕ} {items : List α}
    (hroom : items.length < capacity) (value : α) :
    Reads (storeEntry capacity items value) (items ++ [value]) [] := by
  rw [storeEntry, if_pos hroom]
  exact reads_pure _

/-- Working on the entry at `c`, the parser leaves `info'` and reads bytes of the entry only. -/
def ParsesTo (x : Parser MadtInfo) (info' : MadtInfo) (c length : ℕ) : Prop :=
  ∃ l, Reads x info' l ∧ ∀ a ∈ l, c ≤ a ∧ a < c + length

theorem parsesTo_pure (info : MadtInfo) (c length : ℕ) :
    ParsesTo (pure info) info c length :=
  ⟨[], reads_pure info, fun _ ha => absurd ha List.not_mem_nil⟩

variable {c : ℕ} {info : MadtInfo}

theorem applyEntry_cpu (h : entryType m c = 0 ∨ entryType m c = 9) :
    applyEntry m info c = { info with cpus := appendWithin maxCpus info.cpus (cpuOf m c) } := by
  rcases h with h | h <;> simp [applyEntry, addressOf, ioapicOf, isoOf, h, appendWithin]

theorem applyEntry_ioapic (h : entryType m c = 1) : applyEntry m info c
    = { info with ioapics := appendWithin maxIoapics info.ioapics (ioapicOf m c) } := by
  simp [applyEntry, addressOf, cpuOf, isoOf, h, appendWithin]

theorem applyEntry_iso (h : entryType m c = 2) : applyEntry m info c
    = { info with isos := appendWithin maxIsos info.isos (isoOf m c) } := by
  simp [applyEntry, addressOf, cpuOf, ioapicOf, h, appendWithin]

theorem applyEntry_address (h : entryType m c = 5) : applyEntry m info c
    = { info with lapicAddress := (addressOf m c).getD info.lapicAddress } := by
  simp [applyEntry, cpuOf, ioapicOf, isoOf, h, appendWithin]

/-- The cases that fill an array: a long enough entry is stored where there is room. -/
theorem parsesTo_store {α : Type} {capacity minimum length : ℕ} {items : List α}
    {entry : Option α} {body : Parser MadtInfo} (put : List α → MadtInfo) (value : α)
    (hput : put items = info) (hentry : entry = if minimum ≤ length then some value else none)
    (hbody : minimum ≤ length → items.length < capacity →
      ParsesTo body (put (items ++ [value])) c length) :
    ParsesTo (if length ≥ minimum ∧ items.length < capacity then body else pure info)
      (put (appendWithin capacity items entry)) c length := by
  by_cases hlong : minimum ≤ length
  · rw [hentry, if_pos hlong, appendWithin]
    by_cases hroom : items.length < capacity
    · rw [if_pos ⟨hlong, hroom⟩, if_pos hroom]
      exact hbody hlong hroom
    · rw [if_neg (fun h => hroom h.2), if_neg hroom, hput]
      exact parsesTo_pure info c length
  · rw [if_neg (fun h => hlong h.1), hentry, if_neg hlong, appendWithin, hput]
    exact parsesTo_pure info c length

theorem parseLapic_parses (htype : entryType m c = 0) :
    ParsesTo (parseLapic m c (entryLength m c) info) (applyEntry m info c) c (entryLength m c) := by
  rw [applyEntry_cpu (Or.inl htype)]
  apply parsesTo_store (fun cpus => { info with cpus }) (lapicAt m c) rfl (by simp [cpuOf, htype])
  intro hlong hroom
  refine ⟨_, (reads_loadLe 1 _).bind ((reads_loadLe 1 _).bind ((reads_loadLe 4 _).bind
    ((reads_storeEntry hroom _).bind_pure fun cpus => { info with cpus }))), ?_⟩
  simp only [List.forall_mem_append, field_inside, List.append_nil]
  omega

theorem parseX2apic_parses (htype : entryType m c = 9) :
    ParsesTo (parseX2apic m c (entryLength m c) info) (applyEntry m info c) c
      (entryLength m c) := by
  rw [applyEntry_cpu (Or.inr htype)]
  apply parsesTo_store (fun cpus => { info with cpus }) (x2apicAt m c) rfl
    (by simp [cpuOf, htype])
  intro hlong hroom
  refine ⟨_, (reads_loadLe 4 _).bind ((reads_loadLe 4 _).bind ((reads_loadLe 4 _).bind
    ((reads_storeEntry hroom _).bind_pure fun cpus => { info with cpus }))), ?_⟩
  simp only [List.forall_mem_append, field_inside, List.append_nil]
  omega

theorem parseIoapic_parses (htype : entryType m c = 1) :
    ParsesTo (parseIoapic m c (entryLength m c) info) (applyEntry m info c) c
      (entryLength m c) := by
  rw [applyEntry_ioapic htype]
  apply parsesTo_store (fun ioapics => { info with ioapics }) (ioapicAt m c) rfl
    (by simp [ioapicOf, htype])
  intro hlong hroom
  refine ⟨_, (reads_loadLe 1 _).bind ((reads_loadLe 4 _).bind ((reads_loadLe 4 _).bind
    ((reads_storeEntry hroom _).bind_pure fun ioapics => { info with ioapics }))), ?_⟩
  simp only [List.forall_mem_append, field_inside, List.append_nil]
  omega

theorem parseIso_parses (htype : entryType m c = 2) :
    ParsesTo (parseIso m c (entryLength m c) info) (applyEntry m info c) c (entryLength m c) := by
  rw [applyEntry_iso htype]
  apply parsesTo_store (fun isos => { info with isos }) (isoAt m c) rfl (by simp [isoOf, htype])
  intro hlong hroom
  refine ⟨_, (reads_loadLe 1 _).bind ((reads_loadLe 1 _).bind ((reads_loadLe 4 _).bind
    ((reads_loadLe 2 _).bind ((reads_storeEntry hroom _).bind_pure fun isos =>
      { info with isos })))), ?_⟩
  simp only [List.forall_mem_append, field_inside, List.append_nil]
  omega

theorem parseAddressOverride_parses (htype : entryType m c = 5) :
    ParsesTo (parseAddressOverride m c (entryLength m c) info) (applyEntry m info c) c
      (entryLength m c) := by
  rw [applyEntry_address htype, parseAddressOverride, addressOf]
  by_cases hlong : 12 ≤ entryLength m c
  · rw [if_pos hlong, if_pos ⟨htype, hlong⟩]
    refine ⟨_, (reads_loadLe 8 _).bind_pure fun lapicAddress => { info with lapicAddress }, ?_⟩
    rw [field_inside]
    omega
  · rw [if_neg hlong, if_neg (fun h => hlong h.2)]
    exact parsesTo_pure info c _

/-- **One entry** changes the information as its bytes say, and no byte outside it is read. -/
theorem parseEntry_parses (hlength : 2 ≤ entryLength m c) :
    ParsesTo (parseEntry m c (entryLength m c) info) (applyEntry m info c) c
      (entryLength m c) := by
  -- the type stands in the entry; the rest is the case for it
  have htype : ∀ {x : ℕ → Parser MadtInfo},
      ParsesTo (x (entryType m c)) (applyEntry m info c) c (entryLength m c) →
      ParsesTo (loadLe m c 1 >>= x) (applyEntry m info c) c (entryLength m c) := by
    rintro x ⟨l, hreads, hinside⟩
    refine ⟨_, (reads_loadLe 1 c).bind hreads, ?_⟩
    have hfield := (field_inside c 0 1 (entryLength m c)).mpr (Or.inr (by omega))
    exact List.forall_mem_append.mpr ⟨hfield, hinside⟩
  apply htype
  by_cases h0 : entryType m c = 0
  · rw [if_pos h0]
    exact parseLapic_parses h0
  rw [if_neg h0]
  by_cases h1 : entryType m c = 1
  · rw [if_pos h1]
    exact parseIoapic_parses h1
  rw [if_neg h1]
  by_cases h2 : entryType m c = 2
  · rw [if_pos h2]
    exact parseIso_parses h2
  rw [if_neg h2]
  by_cases h5 : entryType m c = 5
  · rw [if_pos h5]
    exact parseAddressOverride_parses h5
  rw [if_neg h5]
  by_cases h9 : entryType m c = 9
  · rw [if_pos h9]
    exact parseX2apic_parses h9
  rw [if_neg h9]
  have hsame : applyEntry m info c = info := by
    simp [applyEntry, addressOf, cpuOf, ioapicOf, isoOf, h0, h1, h2, h5, h9, appendWithin]
  rw [hsame]
  exact parsesTo_pure info c _

/-! ## The list of entries -/

/-- The entries at these addresses follow each other from `c` on, each with a length of
two bytes at least and with its end within the table. -/
inductive Entries (m : Memory) (entryEnd : ℕ) : (c : ℕ) → List ℕ → Prop
  | nil (c : ℕ) : Entries m entryEnd c []
  | cons {c : ℕ} {l : List ℕ} : 2 ≤ entryLength m c → c + entryLength m c ≤ entryEnd →
      Entries m entryEnd (c + entryLength m c) l → Entries m entryEnd c (c :: l)

/-- The loop stops where no entry fits, which is the end of the longest list. -/
theorem stops {entryEnd c : ℕ} {x : Parser MadtInfo} {info : MadtInfo} {read : List ℕ}
    (hnot : ¬ (2 ≤ entryLength m c ∧ c + entryLength m c ≤ entryEnd))
    (hreads : Reads x info read) (hinside : ∀ a ∈ read, c ≤ a ∧ a < entryEnd) :
    ∃ l, Entries m entryEnd c l ∧ (∀ l', Entries m entryEnd c l' → l' <+: l) ∧
      ∃ read, Reads x (l.foldl (applyEntry m) info) read ∧ ∀ a ∈ read, c ≤ a ∧ a < entryEnd := by
  refine ⟨[], .nil c, fun l' H => ?_, read, hreads, hinside⟩
  cases H with
  | nil => exact List.prefix_refl []
  | cons hmin hend _ => exact absurd ⟨hmin, hend⟩ hnot

/-- **The loop over the entries** goes through the longest such list, and the bound on
its iterations is never reached. -/
theorem parseEntries_parses (m : Memory) (entryEnd : ℕ) : ∀ (fuel c : ℕ) (info : MadtInfo),
    c ≤ entryEnd → entryEnd < c + 2 * fuel → ∃ l, Entries m entryEnd c l ∧
      (∀ l', Entries m entryEnd c l' → l' <+: l) ∧
      ∃ read, Reads (parseEntries m entryEnd fuel c info) (l.foldl (applyEntry m) info) read ∧
        ∀ a ∈ read, c ≤ a ∧ a < entryEnd := by
  intro fuel
  induction fuel with
  | zero =>
    intro c info hle hfuel
    omega
  | succ fuel ih =>
    intro c info hle hfuel
    rw [parseEntries]
    by_cases hheader : c + 2 ≤ entryEnd
    · rw [if_pos hheader]
      have hload : ∀ {x : ℕ → Parser MadtInfo} {info' : MadtInfo} {read : List ℕ},
          Reads (x (entryLength m c)) info' read → (∀ a ∈ read, c ≤ a ∧ a < entryEnd) →
          ∃ read', Reads (loadLe m (c + 1) 1 >>= x) info' read' ∧
            ∀ a ∈ read', c ≤ a ∧ a < entryEnd := by
        intro x info' read hreads hinside
        refine ⟨_, (reads_loadLe 1 (c + 1)).bind hreads, ?_⟩
        refine List.forall_mem_append.mpr ⟨fun a ha => ?_, hinside⟩
        have h := List.mem_range'_1.mp ha
        omega
      by_cases hfits : 2 ≤ entryLength m c ∧ c + entryLength m c ≤ entryEnd
      · obtain ⟨hmin, hend⟩ := hfits
        obtain ⟨read, hentry, hinside⟩ : ParsesTo (parseEntry m c (entryLength m c) info)
            (applyEntry m info c) c (entryLength m c) := parseEntry_parses hmin
        obtain ⟨l, H, hlongest, read', hrest, hinside'⟩ :=
          ih (c + entryLength m c) (applyEntry m info c) hend (by omega)
        refine ⟨c :: l, .cons hmin hend H, fun l' H' => ?_, ?_⟩
        · cases H' with
          | nil => exact List.nil_prefix
          | cons _ _ H' => exact List.cons_prefix_cons.mpr ⟨rfl, hlongest _ H'⟩
        · refine hload (?_ : Reads _ _ (read ++ read')) ?_
          · rw [if_neg (by omega), if_neg (by omega)]
            exact hentry.bind hrest
          · refine List.forall_mem_append.mpr ⟨fun a ha => ?_, fun a ha => ?_⟩
            · have h := hinside a ha
              omega
            · have h := hinside' a ha
              omega
      · -- too short, or not within the table
        have hstop : Reads (if entryLength m c < 2 then pure info
            else if c + entryLength m c > entryEnd then pure info
            else parseEntry m c (entryLength m c) info >>=
              parseEntries m entryEnd fuel (c + entryLength m c)) info [] := by
          by_cases hshort : entryLength m c < 2
          · rw [if_pos hshort]
            exact reads_pure info
          · rw [if_neg hshort, if_pos (by omega)]
            exact reads_pure info
        obtain ⟨read', hreads, hinside⟩ := hload (x := fun length =>
          if length < 2 then pure info
          else if c + length > entryEnd then pure info
          else parseEntry m c length info >>= parseEntries m entryEnd fuel (c + length))
          hstop (fun a ha => absurd ha List.not_mem_nil)
        exact stops hfits hreads hinside
    · rw [if_neg hheader]
      exact stops (fun h => by omega) (reads_pure info)
        (fun a ha => absurd ha List.not_mem_nil)

/-! ## The arrays -/

/-- Appending one by one where there is room keeps the first ones. -/
theorem foldl_appendWithin {σ ι α : Type} {f : σ → ι → σ} {items : σ → List α}
    {entry : ι → Option α} {capacity : ℕ}
    (hf : ∀ s x, items (f s x) = appendWithin capacity (items s) (entry x)) :
    ∀ (l : List ι) (s : σ), (items s).length ≤ capacity →
      items (l.foldl f s) = (items s ++ l.filterMap entry).take capacity := by
  intro l
  induction l with
  | nil =>
    intro s hle
    rw [List.filterMap_nil, List.append_nil, List.take_of_length_le hle]
    rfl
  | cons x l ih =>
    intro s hle
    rw [List.foldl_cons]
    cases hx : entry x with
    | none =>
      have hsame : items (f s x) = items s := by
        rw [hf, hx]
        rfl
      rw [ih _ (by rw [hsame]; exact hle), hsame, List.filterMap_cons_none hx]
    | some a =>
      rw [List.filterMap_cons_some hx]
      by_cases hroom : (items s).length < capacity
      · have hmore : items (f s x) = items s ++ [a] := by
          rw [hf, hx, appendWithin, if_pos hroom]
        rw [ih _ (by rw [hmore, List.length_append]; exact hroom), hmore, List.append_assoc,
          List.singleton_append]
      · have hfull : items (f s x) = items s := by
          rw [hf, hx, appendWithin, if_neg hroom]
        have hlen : (items s).length = capacity := by omega
        rw [ih _ (by rw [hfull]; exact hle), hfull, ← hlen, List.take_left, List.take_left]

theorem foldl_lapicAddress (m : Memory) : ∀ (l : List ℕ) (info : MadtInfo),
    (l.foldl (applyEntry m) info).lapicAddress
      = (l.filterMap (addressOf m)).getLast?.getD info.lapicAddress := by
  intro l
  induction l with
  | nil => exact fun info => rfl
  | cons c l ih =>
    intro info
    rw [List.foldl_cons, ih]
    cases hc : addressOf m c with
    | none =>
      rw [List.filterMap_cons_none hc]
      simp [applyEntry, hc]
    | some a =>
      rw [List.filterMap_cons_some hc, List.getLast?_cons]
      simp [applyEntry, hc]

theorem foldl_flags (m : Memory) : ∀ (l : List ℕ) (info : MadtInfo),
    (l.foldl (applyEntry m) info).flags = info.flags := by
  intro l
  induction l with
  | nil => exact fun info => rfl
  | cons c l ih => exact fun info => ih (applyEntry m info c)

/-- What a list of entries decodes to. -/
def decodeEntries (m : Memory) (lapicAddress flags : ℕ) (l : List ℕ) : MadtInfo where
  lapicAddress := (l.filterMap (addressOf m)).getLast?.getD lapicAddress
  flags := flags
  cpus := (l.filterMap (cpuOf m)).take maxCpus
  ioapics := (l.filterMap (ioapicOf m)).take maxIoapics
  isos := (l.filterMap (isoOf m)).take maxIsos

theorem foldl_applyEntry (m : Memory) (lapicAddress flags : ℕ) (l : List ℕ) :
    l.foldl (applyEntry m) { lapicAddress, flags } = decodeEntries m lapicAddress flags l := by
  have hcpus := foldl_appendWithin (f := applyEntry m) (fun s x => rfl : ∀ s x,
    MadtInfo.cpus (applyEntry m s x) = appendWithin maxCpus s.cpus (cpuOf m x)) l
    { lapicAddress, flags } (Nat.zero_le _)
  have hioapics := foldl_appendWithin (f := applyEntry m) (fun s x => rfl : ∀ s x,
    MadtInfo.ioapics (applyEntry m s x) = appendWithin maxIoapics s.ioapics (ioapicOf m x)) l
    { lapicAddress, flags } (Nat.zero_le _)
  have hisos := foldl_appendWithin (f := applyEntry m) (fun s x => rfl : ∀ s x,
    MadtInfo.isos (applyEntry m s x) = appendWithin maxIsos s.isos (isoOf m x)) l
    { lapicAddress, flags } (Nat.zero_le _)
  have haddress := foldl_lapicAddress m l { lapicAddress, flags }
  have hflags := foldl_flags m l { lapicAddress, flags }
  rcases hinfo : l.foldl (applyEntry m) { lapicAddress, flags } with ⟨a, f, cpus, ioapics, isos⟩
  rw [hinfo] at hcpus hioapics hisos haddress hflags
  dsimp only at hcpus hioapics hisos haddress hflags
  rw [hcpus, hioapics, hisos, haddress, hflags]
  rfl

/-- The entry is of one of the five types and long enough for it. -/
def Decoded (m : Memory) (c : ℕ) : Prop :=
  entryType m c = 0 ∧ 8 ≤ entryLength m c ∨ entryType m c = 9 ∧ 16 ≤ entryLength m c ∨
    entryType m c = 1 ∧ 12 ≤ entryLength m c ∨ entryType m c = 2 ∧ 10 ≤ entryLength m c ∨
    entryType m c = 5 ∧ 12 ≤ entryLength m c

instance (c : ℕ) : Decidable (Decoded m c) := by
  unfold Decoded
  infer_instance

theorem filterMap_decoded {α : Type} {entry : ℕ → Option α}
    (hentry : ∀ c, ¬ Decoded m c → entry c = none) (l : List ℕ) :
    (l.filter fun c => decide (Decoded m c)).filterMap entry = l.filterMap entry := by
  rw [List.filterMap_filter]
  congr 1
  funext c
  by_cases hc : Decoded m c
  · rw [if_pos (decide_eq_true hc)]
  · rw [if_neg (by simpa using hc), hentry c hc]

/-- Every other entry changes nothing, wherever it stands. -/
theorem decodeEntries_decoded (m : Memory) (lapicAddress flags : ℕ) (l : List ℕ) :
    decodeEntries m lapicAddress flags (l.filter fun c => decide (Decoded m c))
      = decodeEntries m lapicAddress flags l := by
  have haddress : ∀ c, ¬ Decoded m c → addressOf m c = none := by
    intro c hc
    rw [addressOf, if_neg (fun h => hc (by unfold Decoded; tauto))]
  have hcpu : ∀ c, ¬ Decoded m c → cpuOf m c = none := by
    intro c hc
    rw [cpuOf, if_neg (fun h => hc (Or.inl h)), if_neg (fun h => hc (Or.inr (Or.inl h)))]
  have hioapic : ∀ c, ¬ Decoded m c → ioapicOf m c = none := by
    intro c hc
    rw [ioapicOf, if_neg (fun h => hc (by unfold Decoded; tauto))]
  have hiso : ∀ c, ¬ Decoded m c → isoOf m c = none := by
    intro c hc
    rw [isoOf, if_neg (fun h => hc (by unfold Decoded; tauto))]
  rw [decodeEntries, decodeEntries, filterMap_decoded haddress, filterMap_decoded hcpu,
    filterMap_decoded hioapic, filterMap_decoded hiso]

/-! ## The whole table -/

/-- **`parse_madt` is a fold over the entries.**  For every content of a table it ends
without an assignment behind the end of an array, and the bytes it reads lie below the
length that the header announces, except that the length itself is read first.  A table
shorter than its header leaves everything as it was.  For any other the result is that
of decoding the longest list of entries which follow each other from the end of the
header, each with a length of two at least and its end within the table; it is kept, and
the entries of other types and those that are too short for their type might as well not
be there. -/
theorem parse_madt_folds (m : Memory) (madt : ℕ) (s : Seen MadtState) :
    ∃ info s', (parseMadt m (some madt)).run s = .ok info s' ∧
      (∃ read, s'.reads = s.reads ++ read ∧ ∀ a ∈ read,
        (madt ≤ a ∧ a < madt + leAt m (madt + 4) 4) ∨ (madt + 4 ≤ a ∧ a < madt + 8)) ∧
      (leAt m (madt + 4) 4 < madtHeaderSize → info = {} ∧ s'.state = s.state) ∧
      (madtHeaderSize ≤ leAt m (madt + 4) 4 → s'.state = ⟨info, true⟩ ∧
        info.cpus.length ≤ maxCpus ∧ info.ioapics.length ≤ maxIoapics ∧
        info.isos.length ≤ maxIsos ∧
        ∃ l, Entries m (madt + leAt m (madt + 4) 4) (madt + madtHeaderSize) l ∧
          (∀ l', Entries m (madt + leAt m (madt + 4) 4) (madt + madtHeaderSize) l' → l' <+: l) ∧
          info = decodeEntries m (leAt m (madt + 36) 4) (leAt m (madt + 40) 4) l ∧
          info = decodeEntries m (leAt m (madt + 36) 4) (leAt m (madt + 40) 4)
            (l.filter fun c => decide (Decoded m c))) := by
  obtain ⟨length, hlength⟩ : ∃ length, length = leAt m (madt + 4) 4 := ⟨_, rfl⟩
  have hload := reads_loadLe (m := m) (φ := MadtFault) (σ := MadtState) 4 (madt + 4)
  have hfirst : ∀ a ∈ List.range' (madt + 4) 4, madt + 4 ≤ a ∧ a < madt + 8 := by
    intro a ha
    have h := List.mem_range'_1.mp ha
    omega
  rw [← hlength] at hload ⊢
  by_cases hshort : length < madtHeaderSize
  · refine ⟨{}, s.after (List.range' (madt + 4) 4), ?_, ⟨_, rfl, fun a ha => Or.inr (hfirst a ha)⟩,
      fun _ => ⟨rfl, rfl⟩, fun h => absurd hshort (Nat.not_lt_of_le h)⟩
    rw [parseMadt, run_bind_ok (hload s), if_pos hshort, run_pure]
  · have hlong : madtHeaderSize ≤ length := Nat.le_of_not_lt hshort
    obtain ⟨l, H, hlongest, read, hreads, hinside⟩ := parseEntries_parses m (madt + length)
      (length + 1) (madt + madtHeaderSize)
      { lapicAddress := leAt m (madt + 36) 4, flags := leAt m (madt + 40) 4 } (by omega)
      (by omega)
    rw [foldl_applyEntry] at hreads
    have hlapic := reads_loadLe (m := m) (φ := MadtFault) (σ := MadtState) 4 (madt + 36)
    have hflags := reads_loadLe (m := m) (φ := MadtFault) (σ := MadtState) 4 (madt + 40)
    have hrun : (parseMadt m (some madt)).run s
        = .ok (decodeEntries m (leAt m (madt + 36) 4) (leAt m (madt + 40) 4) l)
          ((s.after (List.range' (madt + 4) 4 ++ List.range' (madt + 36) 4 ++
            List.range' (madt + 40) 4 ++ read)).withState
              ⟨decodeEntries m (leAt m (madt + 36) 4) (leAt m (madt + 40) 4) l, true⟩) := by
      rw [parseMadt, run_bind_ok (hload s), if_neg hshort, run_bind_ok (hlapic _),
        run_bind_ok (hflags _), run_bind_ok (hreads _), run_modify_bind, run_pure, after_after,
        after_after, after_after, ← List.append_assoc, ← List.append_assoc]
    refine ⟨_, _, hrun, ⟨_, rfl, ?_⟩, fun h => absurd h hshort, fun _ => ⟨rfl, ?_, ?_, ?_,
      l, H, hlongest, rfl, (decodeEntries_decoded m _ _ l).symm⟩⟩
    · unfold madtHeaderSize at hlong hinside
      simp only [List.forall_mem_append]
      refine ⟨⟨⟨fun a ha => Or.inr (hfirst a ha), fun a ha => ?_⟩, fun a ha => ?_⟩, fun a ha => ?_⟩
      · have h := List.mem_range'_1.mp ha
        omega
      · have h := List.mem_range'_1.mp ha
        omega
      · have h := hinside a ha
        omega
    · exact List.length_take_le _ _
    · exact List.length_take_le _ _
    · exact List.length_take_le _ _

/-- The length field lies behind the end of a table that is shorter than it. -/
theorem parse_madt_reads_length :
    ¬ ∀ (m : Memory) (madt : ℕ) (s : Seen MadtState) (info : MadtInfo) (s' : Seen MadtState),
      (parseMadt m (some madt)).run s = .ok info s' →
      ∃ read, s'.reads = s.reads ++ read ∧ ∀ a ∈ read, a < madt + leAt m (madt + 4) 4 := by
  intro hall
  obtain ⟨read, hreads, hbelow⟩ := hall (fun _ => 0) 4096 ⟨{}, []⟩ _ _ rfl
  have hmem : 4100 ∈ read := by
    rw [List.nil_append] at hreads
    rw [← hreads]
    decide
  exact absurd (hbelow 4100 hmem) (by decide)

end Madt

end DoomOs
