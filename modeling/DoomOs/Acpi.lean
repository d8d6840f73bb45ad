/-
# ACPI tables

`kernel/acpi/acpi.cpp`.  The root pointer that the boot loader hands over is checked and
names a root table; the root table lists the physical addresses of the others, four
bytes each in an RSDT and eight in an XSDT, and `find_table` looks for the first one
with a given signature.

A physical address is read through the direct map, so memory is indexed by virtual
addresses here.  The reads are recorded: nobody has checked how long the root pointer
structure is before `init` looks at it.
-/
import DoomOs.Files
import DoomOs.InitGraph
import DoomOs.MemoryReads
import DoomOs.Multiboot2Order

namespace DoomOs

namespace Acpi

open Comp Reading

/-- `m_rsdp_phys` and the other variables of the module. -/
structure AcpiState where
  rsdpPhys : ℕ := 0
  sdtRootPhys : ℕ := 0
  isXsdt : Bool := false
  initialized : Bool := false
  deriving DecidableEq, Repr

/-- Code of this module, which never faults. -/
abbrev Firmware : Type → Type := Reading Empty AcpiState

variable (m : Memory)

/-! ## The root pointer -/

/-- `validate_checksum`. -/
def validateChecksum {φ σ : Type} (pointer : Option ℕ) (length : ℕ) : Reading φ σ Bool :=
  match pointer with
  | none => pure false
  | some a =>
    if length = 0 then pure false
    else do
      let sum ← sumBytes m length a 0
      pure (sum == 0)

/-- `"RSD PTR "`. -/
def rsdpSignature : List UInt8 := [0x52, 0x53, 0x44, 0x20, 0x50, 0x54, 0x52, 0x20]

/-- The last assignments of `init`. -/
def setRoot (root : ℕ) (isXsdt : Bool) : Firmware Unit :=
  modify fun s => s.withState
    { s.state with sdtRootPhys := root, isXsdt, initialized := decide (root ≠ 0) }

/-- `rsdp->revision >= 2 && rsdp->xsdt_address != 0`. -/
def namesXsdt (rsdp : ℕ) : Firmware Bool := do
  let revision ← loadLe m (rsdp + 15) 1
  if revision < 2 then pure false
  else
    let xsdtAddress ← loadLe m (rsdp + 24) 8
    pure (decide (xsdtAddress ≠ 0))

/-- `init` behind the two checks of the first twenty bytes. -/
def initRoot (rsdp : ℕ) : Firmware Unit := do
  if ← namesXsdt m rsdp then
    let length ← loadLe m (rsdp + 20) 4
    if !(← validateChecksum m (some rsdp) length) then pure ()
    else
      let xsdtAddress ← loadLe m (rsdp + 24) 8
      setRoot xsdtAddress true
  else
    let rsdtAddress ← loadLe m (rsdp + 16) 4
    setRoot rsdtAddress false

/-- `init`. -/
def init (rsdpAddress : ℕ) : Firmware Unit := do
  modify fun s => s.withState ⟨rsdpAddress, 0, false, false⟩
  if rsdpAddress = 0 then pure ()
  else
    match phyToVrt rsdpAddress with
    | none => pure ()
    | some rsdp => do
      if !(← compareBytes m rsdp rsdpSignature) then pure ()
      else if !(← validateChecksum m (some rsdp) 20) then pure ()
      else initRoot m rsdp

/-- `component::init_acpi`, with the boot information it finds. -/
def initAcpi (bootInfo : BootInfo) : Firmware (Except InitGraph.InitError Unit) := do
  if bootInfo.acpi.present = false ∨ bootInfo.acpi.rsdp.base = 0 then
    pure (.error .invalidBootData)
  else
    init m bootInfo.acpi.rsdp.base
    let s ← gets Seen.state
    if !s.initialized then pure (.error .invalidBootData) else pure (.ok ())

/-! ## The tables -/

/-- `sizeof(wire::sdt_header)`. -/
def sdtHeaderSize : ℕ := 36

/-- One of the two loops of `find_table`, over the entries of `width` bytes each behind
the header of the root table; `none` is the invalid view. -/
def findEntry (signature : List UInt8) (entries width : ℕ) : (remaining i : ℕ) → Firmware (Option ℕ)
  | 0, _ => pure none
  | n + 1, i => do
    let tablePhys ← loadLe m (entries + i * width) width
    if tablePhys = 0 then findEntry signature entries width n (i + 1)
    else
      match phyToVrt tablePhys with
      | none => findEntry signature entries width n (i + 1)
      | some header => do
        if !(← compareBytes m header signature) then findEntry signature entries width n (i + 1)
        else
          let length ← loadLe m (header + 4) 4
          if ← validateChecksum m (some header) length then pure (some header)
          else findEntry signature entries width n (i + 1)

/-- `find_table`. -/
def findTable (signature : List UInt8) : Firmware (Option ℕ) := do
  let s ← gets Seen.state
  if !s.initialized then pure none
  else
    match phyToVrt s.sdtRootPhys with
    | none => pure none
    | some root => do
      let length ← loadLe m (root + 4) 4
      if !(← validateChecksum m (some root) length) then pure none
      else if length < sdtHeaderSize then pure none
      else
        let width := if s.isXsdt then 8 else 4
        findEntry m signature (root + sdtHeaderSize) width ((length - sdtHeaderSize) / width) 0

/-! ## Checksums -/

variable {m} {φ σ : Type}

/-- The bytes of a table of this length sum up to zero. -/
def Checks (m : Memory) (a length : ℕ) : Prop := length ≠ 0 ∧ byteSum m a length % 256 = 0

instance (a length : ℕ) : Decidable (Checks m a length) :=
  inferInstanceAs (Decidable (length ≠ 0 ∧ byteSum m a length % 256 = 0))

/-- A checksum reads all of the bytes it is about. -/
theorem reads_validateChecksum (a length : ℕ) :
    Reads (validateChecksum m (some a) length : Reading φ σ Bool)
      (decide (Checks m a length)) (List.range' a length) := by
  rw [validateChecksum]
  by_cases hzero : length = 0
  · subst hzero
    rw [if_pos rfl, decide_eq_false (fun h => h.1 rfl)]
    exact reads_pure false
  · rw [if_neg hzero]
    obtain ⟨total, hreads, htotal⟩ :
        ∃ total : UInt8, Reads (sumBytes m length a 0 : Reading φ σ UInt8) total _ ∧ _ :=
      reads_sumBytes length a 0
    have hsum : (total == 0) = decide (Checks m a length) := by
      rw [Bool.eq_iff_iff, beq_iff_eq, decide_eq_true_eq, ← UInt8.toNat_inj, htotal]
      simp [Checks, hzero]
    rw [← hsum]
    exact hreads.bind_pure fun total => total == 0

/-! ## What `init` reads -/

/-- The first twenty bytes are those of a root pointer. -/
def IsRsdp (m : Memory) (a : ℕ) : Prop :=
  bytesFrom m a 8 = rsdpSignature ∧ byteSum m a 20 % 256 = 0

/-- Where `init` looks behind the first twenty bytes, it finds there what the address
range has: the fields of the second revision, and as many bytes as these announce. -/
def StaysInside (m : Memory) (range : AddressRange) : Prop :=
  let a := directMapBase + range.base
  directMapSize ≤ range.base ∨ ¬ IsRsdp m a ∨ (m (a + 15)).toNat < 2 ∨
    32 ≤ range.length ∧ (leAt m (a + 24) 8 = 0 ∨ leAt m (a + 20) 4 ≤ range.length)

theorem leAt_one (m : Memory) (a : ℕ) : leAt m a 1 = (m a).toNat := by
  rw [leAt, leAt, Nat.mul_zero, Nat.add_zero]

theorem reads_namesXsdt (a : ℕ) :
    Reads (namesXsdt m a)
      (decide (2 ≤ (m (a + 15)).toNat ∧ leAt m (a + 24) 8 ≠ 0))
      (List.range' (a + 15) 1 ++
        if (m (a + 15)).toNat < 2 then [] else List.range' (a + 24) 8) := by
  unfold namesXsdt
  apply (reads_loadLe 1 (a + 15)).bind
  rw [leAt_one]
  by_cases hold : (m (a + 15)).toNat < 2
  · rw [if_pos hold, if_pos hold, decide_eq_false (fun h => absurd h.1 (by omega))]
    exact reads_pure false
  · rw [if_neg hold, if_neg hold]
    have hsame : decide (2 ≤ (m (a + 15)).toNat ∧ leAt m (a + 24) 8 ≠ 0)
        = decide (leAt m (a + 24) 8 ≠ 0) := by
      rw [decide_eq_decide]
      exact and_iff_right (by omega)
    rw [hsame]
    exact (reads_loadLe 8 (a + 24)).bind_pure fun x => decide (x ≠ 0)

theorem looks_setRoot (a n : ℕ) (isXsdt : Bool) :
    Looks (do setRoot (← loadLe m a n) isXsdt) (List.range' a n) := by
  have hset := (reads_loadLe (m := m) n a).bind_looks (f := fun x => setRoot x isXsdt)
    (looks_withState _)
  rw [List.append_nil] at hset
  exact hset

/-- Behind the first twenty bytes, `init` looks at the fields of the second revision if
the structure has one, and at all the bytes it announces if it names an XSDT. -/
theorem initRoot_looks (a : ℕ) : ∃ l, Looks (initRoot m a) l ∧
    ∀ n, 20 ≤ n → ((∀ x ∈ l, a ≤ x ∧ x < a + n) ↔ (m (a + 15)).toNat < 2 ∨
      32 ≤ n ∧ (leAt m (a + 24) 8 = 0 ∨ leAt m (a + 20) 4 ≤ n)) := by
  unfold initRoot
  by_cases hnew : 2 ≤ (m (a + 15)).toNat ∧ leAt m (a + 24) 8 ≠ 0
  · obtain ⟨hrev, hxsdt⟩ := hnew
    have hnames := reads_namesXsdt (m := m) a
    rw [decide_eq_true ⟨hrev, hxsdt⟩, if_neg (by omega)] at hnames
    -- the address of the XSDT is read again once the checksum holds
    have hrest : ∃ l', Looks (do
        if !(decide (Checks m a (leAt m (a + 20) 4))) then pure ()
        else setRoot (← loadLe m (a + 24) 8) true) l' ∧
        (l' = [] ∨ l' = List.range' (a + 24) 8) := by
      by_cases hchecks : Checks m a (leAt m (a + 20) 4)
      · rw [decide_eq_true hchecks]
        exact ⟨_, looks_setRoot (a + 24) 8 true, Or.inr rfl⟩
      · rw [decide_eq_false hchecks]
        exact ⟨[], (reads_pure ()).looks, Or.inl rfl⟩
    obtain ⟨l', hlooks, hl'⟩ := hrest
    refine ⟨_, hnames.bind_looks ((reads_loadLe 4 (a + 20)).bind_looks
      ((reads_validateChecksum a _).bind_looks hlooks)), fun n hn => ?_⟩
    have hwhole := field_inside a 0 (leAt m (a + 20) 4) n
    rw [Nat.add_zero] at hwhole
    rcases hl' with rfl | rfl
    · simp only [List.forall_mem_append, field_inside, hwhole, List.append_nil]
      omega
    · simp only [List.forall_mem_append, field_inside, hwhole]
      omega
  · have hnames := reads_namesXsdt (m := m) a
    rw [decide_eq_false hnew] at hnames
    refine ⟨_, hnames.bind_looks (looks_setRoot (a + 16) 4 false), fun n hn => ?_⟩
    by_cases hold : (m (a + 15)).toNat < 2
    · rw [if_pos hold]
      simp only [List.forall_mem_append, field_inside, List.append_nil]
      omega
    · have hxsdt : leAt m (a + 24) 8 = 0 := by
        by_contra hne
        exact hnew ⟨by omega, hne⟩
      rw [if_neg hold]
      simp only [List.forall_mem_append, field_inside]
      omega

/-- All the reads of `init`, for a range of at least twenty bytes. -/
theorem init_looks (range : AddressRange) (hbase : range.base ≠ 0) (hlen : 20 ≤ range.length) :
    ∃ l, Looks (init m range.base) l ∧
      ((∀ x ∈ l, directMapBase + range.base ≤ x ∧
        x < directMapBase + range.base + range.length) ↔ StaysInside m range) := by
  -- the assignments in front of it read nothing
  have hfirst : ∀ {x : Firmware Unit} {l : List ℕ}, Looks x l →
      Looks (do modify fun s => s.withState ⟨range.base, 0, false, false⟩; x) l := by
    intro x l hx s
    exact hx (s.withState ⟨range.base, 0, false, false⟩)
  unfold init StaysInside
  rw [if_neg hbase]
  by_cases hreach : range.base < directMapSize
  · rw [phyToVrt, if_pos hreach]
    dsimp only
    obtain ⟨a, ha⟩ : ∃ a, a = directMapBase + range.base := ⟨_, rfl⟩
    rw [← ha]
    obtain ⟨k, hk, hcompare⟩ := reads_compareBytes (m := m) (φ := Empty) (σ := AcpiState)
      rsdpSignature a
    have hlength : rsdpSignature.length = 8 := rfl
    have hwhole : ∀ i n, (∀ x ∈ List.range' a i, a ≤ x ∧ x < a + n) ↔ i = 0 ∨ i ≤ n := by
      intro i n
      have h := field_inside a 0 i n
      rw [Nat.add_zero, Nat.zero_add] at h
      exact h
    rw [hlength] at hk hcompare
    have hshort : k = 0 ∨ k ≤ range.length := Or.inr (by omega)
    have hnear : ¬ directMapSize ≤ range.base := Nat.not_le_of_lt hreach
    by_cases hsig : bytesFrom m a 8 = rsdpSignature
    · rw [decide_eq_true hsig] at hcompare
      by_cases hsum : byteSum m a 20 % 256 = 0
      · have hchecks : Checks m a 20 := ⟨by decide, hsum⟩
        obtain ⟨l, hlooks, hiff⟩ := initRoot_looks (m := m) a
        have hvalid := reads_validateChecksum (m := m) (φ := Empty) (σ := AcpiState) a 20
        rw [decide_eq_true hchecks] at hvalid
        refine ⟨_, hfirst (hcompare.bind_looks (hvalid.bind_looks hlooks)), ?_⟩
        have hrsdp : IsRsdp m a := ⟨hsig, hsum⟩
        simp only [List.forall_mem_append, hwhole, hiff _ hlen, hshort, hrsdp, hnear, true_and,
          not_true_eq_false, false_or]
        exact and_iff_right (Or.inr hlen)
      · have hchecks : ¬ Checks m a 20 := fun h => hsum h.2
        have hvalid := reads_validateChecksum (m := m) (φ := Empty) (σ := AcpiState) a 20
        rw [decide_eq_false hchecks] at hvalid
        refine ⟨_, hfirst (hcompare.bind_looks (hvalid.bind_looks (reads_pure ()).looks)), ?_⟩
        have hrsdp : ¬ IsRsdp m a := fun h => hsum h.2
        simp only [List.forall_mem_append, hwhole, hshort, List.append_nil]
        exact iff_of_true ⟨trivial, Or.inr hlen⟩ (Or.inr (Or.inl hrsdp))
    · rw [decide_eq_false hsig] at hcompare
      refine ⟨_, hfirst (hcompare.bind_looks (reads_pure ()).looks), ?_⟩
      rw [List.append_nil, hwhole]
      exact iff_of_true hshort (Or.inr (Or.inl fun h => hsig h.1))
  · rw [phyToVrt, if_neg hreach]
    exact ⟨[], hfirst (reads_pure ()).looks, iff_of_true (fun x hx => absurd hx List.not_mem_nil)
      (Or.inl (Nat.le_of_not_lt hreach))⟩

/-- The range that a successful parse records has room for the first revision. -/
theorem rsdp_of_parse {h : ℕ} {out : BootInfo} (hwf : Multiboot2.wellFormed m h = some true)
    (hparse : (Multiboot2.parse m h).run .reset = .ok () out)
    (hpresent : out.acpi.present = true) :
    out.acpi.rsdp.base ≠ 0 ∧ 20 ≤ out.acpi.rsdp.length := by
  obtain ⟨hacc, rfl, -⟩ := (Multiboot2.parse_ok_iff hwf out).mp hparse
  have hacpi := Multiboot2.acpi_applyAll m (Multiboot2.tagList m h)
    (Multiboot2.reservedFirst m h) rfl
  rw [hacpi] at hpresent ⊢
  cases hselect : Multiboot2.selectRsdp (Multiboot2.tagList m h) with
  | none =>
    rw [hselect] at hpresent
    cases hpresent
  | some t =>
    have hsize : 28 ≤ t.size := by
      rcases Option.or_eq_some_iff.mp hselect with hfind | ⟨-, hfind⟩
      · have hmin := (hacc t (List.mem_of_find?_eq_some hfind)).size
        have htype := List.find?_some hfind
        rw [of_decide_eq_true htype, Multiboot2.length_contents] at hmin
        exact hmin
      · have hmin := (hacc t (List.mem_of_find?_eq_some hfind)).size
        have htype := List.find?_some hfind
        rw [of_decide_eq_true htype, Multiboot2.length_contents] at hmin
        exact hmin
    refine ⟨Nat.succ_ne_zero _, ?_⟩
    show 20 ≤ t.size - 8
    omega

/-- **What the root pointer makes `init` read.**  For every boot information that a
successful parse leaves with an ACPI tag, whatever memory holds by then, `init_acpi`
reads only bytes of the recorded range if and only if the range starts behind the direct
map, or the first twenty bytes are not those of a root pointer, or the structure is of
the first revision, or the range has the fields of the second revision and either names
no XSDT or announces no more bytes than the range has. -/
theorem rsdp_reads_inside_iff {m : Memory} {h : ℕ} {out : BootInfo}
    (hwf : Multiboot2.wellFormed m h = some true)
    (hparse : (Multiboot2.parse m h).run .reset = .ok () out) (hpresent : out.acpi.present = true)
    (content : Memory) (state : AcpiState) :
    ∃ r s, (initAcpi content out).run ⟨state, []⟩ = .ok r s ∧
      ((∀ x ∈ s.reads, directMapBase + out.acpi.rsdp.base ≤ x ∧
          x < directMapBase + out.acpi.rsdp.base + out.acpi.rsdp.length) ↔
        StaysInside content out.acpi.rsdp) := by
  obtain ⟨hbase, hlen⟩ := rsdp_of_parse hwf hparse hpresent
  obtain ⟨l, hlooks, hiff⟩ := init_looks (m := content) out.acpi.rsdp hbase hlen
  have hnot : ¬ (out.acpi.present = false ∨ out.acpi.rsdp.base = 0) := by
    rintro (hfalse | hzero)
    · rw [hpresent] at hfalse
      cases hfalse
    · exact hbase hzero
  obtain ⟨u, s, hrun, hreads⟩ := hlooks ⟨state, []⟩
  rw [List.nil_append] at hreads
  refine ⟨if !s.state.initialized then .error .invalidBootData else .ok (), s, ?_, ?_⟩
  · rw [initAcpi, if_neg hnot, run_bind_ok hrun, run_gets_bind]
    split_ifs <;> rfl
  · rw [hreads]
    exact hiff

/-- A buffer of 48 bytes at address 4096 with an old tag of 28 bytes, in which the first
twenty bytes of a root pointer of the second revision stand. -/
def secondRevision : Memory := fun a =>
  ([48, 0, 0, 0, 0, 0, 0, 0, 14, 0, 0, 0, 28, 0, 0, 0] ++ rsdpSignature
    -- the byte behind the signature makes the twenty bytes sum up to zero
    ++ [0xdf, 0, 0, 0, 0, 0, 0, 2, 0, 0, 0, 0] ++ [0, 0, 0, 0, 0, 0, 0, 0, 8] :
    List UInt8).getD (a - 4096) 0

/-- The same bytes through the direct map. -/
def secondRevisionMapped : Memory := fun a => secondRevision (a - directMapBase)

/-- What parsing the buffer leaves. -/
def secondRevisionInfo : BootInfo :=
  { reserved := [⟨4096, 48⟩], acpi := ⟨true, ⟨4112, 20⟩, 1⟩ }

/-- The fields of the second revision are read behind the end of the tag. -/
theorem rsdp_read_outside :
    ¬ ∀ (m : Memory) (h : ℕ) (out : BootInfo), Multiboot2.wellFormed m h = some true →
      (Multiboot2.parse m h).run .reset = .ok () out → out.acpi.present = true →
      ∀ (content : Memory) (state : AcpiState) (r : Except InitGraph.InitError Unit)
        (s : Seen AcpiState), (initAcpi content out).run ⟨state, []⟩ = .ok r s →
        ∀ x ∈ s.reads, directMapBase + out.acpi.rsdp.base ≤ x ∧
          x < directMapBase + out.acpi.rsdp.base + out.acpi.rsdp.length := by
  intro hall
  have hwf : Multiboot2.wellFormed secondRevision 4096 = some true := by decide
  have hparse : (Multiboot2.parse secondRevision 4096).run .reset
      = .ok () secondRevisionInfo := by decide +kernel
  obtain ⟨r, s, hrun, hmem⟩ : ∃ r s, (initAcpi secondRevisionMapped secondRevisionInfo).run
      ⟨{}, []⟩ = .ok r s ∧ directMapBase + 4112 + 24 ∈ s.reads := by
    refine ⟨_, _, rfl, ?_⟩
    decide
  have hinside := hall _ _ _ hwf hparse rfl _ _ _ _ hrun _ hmem
  exact absurd hinside.2 (by decide)

/-- A root pointer of the first revision in its place. -/
def firstRevisionMapped : Memory := fun a =>
  if a = directMapBase + 4112 + 8 then 0xe1 else if a = directMapBase + 4112 + 15 then 0
  else secondRevisionMapped a

theorem rsdp_reads_inside_iff_acpi :
    Multiboot2.wellFormed secondRevision 4096 = some true ∧
      IsRsdp firstRevisionMapped (directMapBase + 4112) ∧
      IsRsdp secondRevisionMapped (directMapBase + 4112) ∧
      (∃ r s, (initAcpi firstRevisionMapped secondRevisionInfo).run ⟨{}, []⟩ = .ok r s ∧
        ∀ x ∈ s.reads, directMapBase + 4112 ≤ x ∧ x < directMapBase + 4112 + 20) ∧
      ∃ r s, (initAcpi secondRevisionMapped secondRevisionInfo).run ⟨{}, []⟩ = .ok r s ∧
        ¬∀ x ∈ s.reads, directMapBase + 4112 ≤ x ∧ x < directMapBase + 4112 + 20 := by
  have hwf : Multiboot2.wellFormed secondRevision 4096 = some true := by decide
  have hparse : (Multiboot2.parse secondRevision 4096).run .reset
      = .ok () secondRevisionInfo := by decide +kernel
  have hfirst : StaysInside firstRevisionMapped ⟨4112, 20⟩ := by
    unfold StaysInside IsRsdp
    decide +kernel
  have hsecond : ¬StaysInside secondRevisionMapped ⟨4112, 20⟩ := by
    unfold StaysInside IsRsdp
    decide +kernel
  obtain ⟨r₁, s₁, hrun₁, hiff₁⟩ := rsdp_reads_inside_iff hwf hparse rfl firstRevisionMapped {}
  obtain ⟨r₂, s₂, hrun₂, hiff₂⟩ := rsdp_reads_inside_iff hwf hparse rfl secondRevisionMapped {}
  refine ⟨hwf, ?_, ?_, ⟨r₁, s₁, hrun₁, hiff₁.mpr hfirst⟩, r₂, s₂, hrun₂, fun hall =>
    hsecond (hiff₂.mp hall)⟩
  · unfold IsRsdp
    decide +kernel
  · unfold IsRsdp
    decide +kernel

/-! ## What `find_table` finds -/

/-- The width of an entry of the root table. -/
def entryWidth (s : AcpiState) : ℕ := if s.isXsdt then 8 else 4

/-- The root table is valid and lists these physical addresses; what is left behind the
last whole entry does not count. -/
structure RootLists (m : Memory) (s : AcpiState) (addresses : List ℕ) : Prop where
  ready : s.initialized = true
  reachable : s.sdtRootPhys < directMapSize
  checks : Checks m (directMapBase + s.sdtRootPhys)
    (leAt m (directMapBase + s.sdtRootPhys + 4) 4)
  header : sdtHeaderSize ≤ leAt m (directMapBase + s.sdtRootPhys + 4) 4
  count : (leAt m (directMapBase + s.sdtRootPhys + 4) 4 - sdtHeaderSize) / entryWidth s
    = addresses.length
  entries : ∀ i (hi : i < addresses.length),
    leAt m (directMapBase + s.sdtRootPhys + sdtHeaderSize + i * entryWidth s) (entryWidth s)
      = addresses[i]

/-- A valid table with this signature stands at the physical address. -/
structure IsTable (m : Memory) (signature : List UInt8) (phys : ℕ) : Prop where
  notNull : phys ≠ 0
  reachable : phys < directMapSize
  signature : bytesFrom m (directMapBase + phys) signature.length = signature
  checks : Checks m (directMapBase + phys) (leAt m (directMapBase + phys + 4) 4)

theorem isTable_iff (m : Memory) (signature : List UInt8) (phys : ℕ) :
    (phys ≠ 0 ∧ phys < directMapSize ∧
      bytesFrom m (directMapBase + phys) signature.length = signature ∧
      Checks m (directMapBase + phys) (leAt m (directMapBase + phys + 4) 4)) ↔
      IsTable m signature phys :=
  ⟨fun H => ⟨H.1, H.2.1, H.2.2.1, H.2.2.2⟩,
    fun H => ⟨H.notNull, H.reachable, H.signature, H.checks⟩⟩

instance (signature : List UInt8) (phys : ℕ) : Decidable (IsTable m signature phys) :=
  decidable_of_iff _ (isTable_iff m signature phys)

/-- The view of the first valid table. -/
def firstTable (m : Memory) (signature : List UInt8) (addresses : List ℕ) : Option ℕ :=
  (addresses.find? fun phys => decide (IsTable m signature phys)).map (directMapBase + ·)

theorem firstTable_of_table {signature : List UInt8} {phys : ℕ} (h : IsTable m signature phys)
    (addresses : List ℕ) :
    firstTable m signature (phys :: addresses) = some (directMapBase + phys) := by
  rw [firstTable, List.find?_cons_of_pos (by simpa using h), Option.map_some]

theorem firstTable_of_not_table {signature : List UInt8} {phys : ℕ}
    (h : ¬ IsTable m signature phys) (addresses : List ℕ) :
    firstTable m signature (phys :: addresses) = firstTable m signature addresses := by
  rw [firstTable, List.find?_cons_of_neg (by simpa using h), firstTable]

/-- One entry: the table is taken if it is valid, and the loop goes on if it is not,
whichever of the four checks fails. -/
theorem reads_entry (phys : ℕ) {signature : List UInt8} {rest : Firmware (Option ℕ)}
    {addresses : List ℕ} {l : List ℕ}
    (hrest : Reads rest (firstTable m signature addresses) l) :
    ∃ l', Reads (if phys = 0 then rest
      else
        match phyToVrt phys with
        | none => rest
        | some header => do
          if !(← compareBytes m header signature) then rest
          else
            let length ← loadLe m (header + 4) 4
            if ← validateChecksum m (some header) length then pure (some header)
            else rest)
      (firstTable m signature (phys :: addresses)) l' := by
  by_cases hnull : phys = 0
  · rw [if_pos hnull, firstTable_of_not_table (fun H => H.notNull hnull)]
    exact ⟨l, hrest⟩
  · rw [if_neg hnull]
    by_cases hreach : phys < directMapSize
    · rw [phyToVrt, if_pos hreach]
      dsimp only
      obtain ⟨k, -, hcompare⟩ := reads_compareBytes (m := m) (φ := Empty) (σ := AcpiState)
        signature (directMapBase + phys)
      by_cases hsig : bytesFrom m (directMapBase + phys) signature.length = signature
      · rw [decide_eq_true hsig] at hcompare
        have hlength := reads_loadLe (m := m) (φ := Empty) (σ := AcpiState) 4
          (directMapBase + phys + 4)
        have hvalid := reads_validateChecksum (m := m) (φ := Empty) (σ := AcpiState)
          (directMapBase + phys) (leAt m (directMapBase + phys + 4) 4)
        by_cases hchecks : Checks m (directMapBase + phys) (leAt m (directMapBase + phys + 4) 4)
        · rw [decide_eq_true hchecks] at hvalid
          rw [firstTable_of_table ⟨hnull, hreach, hsig, hchecks⟩]
          exact ⟨_, hcompare.bind (hlength.bind (hvalid.bind (reads_pure _)))⟩
        · rw [decide_eq_false hchecks] at hvalid
          rw [firstTable_of_not_table (fun H => hchecks H.checks)]
          exact ⟨_, hcompare.bind (hlength.bind (hvalid.bind hrest))⟩
      · rw [decide_eq_false hsig] at hcompare
        rw [firstTable_of_not_table (fun H => hsig H.signature)]
        exact ⟨_, hcompare.bind hrest⟩
    · rw [phyToVrt, if_neg hreach, firstTable_of_not_table (fun H => hreach H.reachable)]
      exact ⟨l, hrest⟩

/-- **The loop of `find_table`**, for entries of any width. -/
theorem reads_findEntry (signature : List UInt8) (entries width : ℕ) :
    ∀ (addresses : List ℕ) (i : ℕ),
      (∀ j (hj : j < addresses.length),
        leAt m (entries + (i + j) * width) width = addresses[j]) →
      ∃ l, Reads (findEntry m signature entries width addresses.length i)
        (firstTable m signature addresses) l := by
  intro addresses
  induction addresses with
  | nil => exact fun i _ => ⟨[], reads_pure none⟩
  | cons phys addresses ih =>
    intro i hentries
    have hrest : ∀ j (hj : j < addresses.length),
        leAt m (entries + (i + 1 + j) * width) width = addresses[j] := by
      intro j hj
      have h := hentries (j + 1) (Nat.succ_lt_succ hj)
      rw [show i + (j + 1) = i + 1 + j by omega] at h
      exact h
    have hfirst : leAt m (entries + i * width) width = phys := hentries 0 (Nat.succ_pos _)
    obtain ⟨l, hl⟩ := ih (i + 1) hrest
    obtain ⟨l', hl'⟩ := reads_entry phys hl
    have hload := reads_loadLe (m := m) (φ := Empty) (σ := AcpiState) width (entries + i * width)
    rw [hfirst] at hload
    exact ⟨_, hload.bind hl'⟩

/-- With a valid root table, `find_table` looks through the addresses it lists. -/
theorem findTable_run {s : Seen AcpiState} {addresses : List ℕ}
    (hroot : RootLists m s.state addresses) (signature : List UInt8) :
    ∃ l, (findTable m signature).run s
      = .ok (firstTable m signature addresses) (s.after l) := by
  obtain ⟨hready, hreach, hchecks, hheader, hcount, hentries⟩ := hroot
  obtain ⟨root, hroot⟩ : ∃ root, root = directMapBase + s.state.sdtRootPhys := ⟨_, rfl⟩
  rw [← hroot] at hchecks hheader hcount hentries
  obtain ⟨l, hloop⟩ := reads_findEntry (m := m) signature (root + sdtHeaderSize)
    (entryWidth s.state) addresses 0 (fun j hj => by rw [Nat.zero_add]; exact hentries j hj)
  rw [← hcount] at hloop
  have hvalid := reads_validateChecksum (m := m) (φ := Empty) (σ := AcpiState) root
    (leAt m (root + 4) 4)
  rw [decide_eq_true hchecks] at hvalid
  have hbody : Reads (if leAt m (root + 4) 4 < sdtHeaderSize then pure none
      else findEntry m signature (root + sdtHeaderSize) (entryWidth s.state)
        ((leAt m (root + 4) 4 - sdtHeaderSize) / entryWidth s.state) 0)
      (firstTable m signature addresses) l := by
    rw [if_neg (Nat.not_lt_of_le hheader)]
    exact hloop
  have hall : Reads (do
      let length ← loadLe m (root + 4) 4
      if !(← validateChecksum m (some root) length) then pure none
      else if length < sdtHeaderSize then pure none
      else
        findEntry m signature (root + sdtHeaderSize) (entryWidth s.state)
          ((length - sdtHeaderSize) / entryWidth s.state) 0 : Firmware (Option ℕ))
      (firstTable m signature addresses) _ :=
    (reads_loadLe 4 (root + 4)).bind (hvalid.bind hbody)
  refine ⟨List.range' (root + 4) 4 ++ (List.range' root (leAt m (root + 4) 4) ++ l), ?_⟩
  rw [findTable, run_gets_bind, hready, phyToVrt, if_pos hreach, ← hroot]
  exact hall s

/-- **`find_table` finds the first valid table.**  With a root table whose checksum and
length are valid and which lists some addresses, the result is the first of them, in
order, at which a table stands: an address that is not zero and inside the direct map,
the requested signature, and bytes that sum up to zero over a length that is not zero.
The view is invalid if and only if there is none.  Any other root table that lists the
same addresses gives the same result, be one an RSDT and the other an XSDT. -/
theorem find_table_first_match (m : Memory) (signature : List UInt8) (addresses : List ℕ)
    (s : Seen AcpiState) (hroot : RootLists m s.state addresses) :
    ∃ view,
      (∃ l, (findTable m signature).run s = .ok view (s.after l)) ∧
      (∀ header, view = some header ↔ ∃ front phys back, addresses = front ++ phys :: back ∧
        (∀ q ∈ front, ¬ IsTable m signature q) ∧ IsTable m signature phys ∧
        header = directMapBase + phys) ∧
      (view = none ↔ ∀ phys ∈ addresses, ¬ IsTable m signature phys) ∧
      ∀ s' : Seen AcpiState, RootLists m s'.state addresses →
        ∃ l, (findTable m signature).run s' = .ok view (s'.after l) := by
  refine ⟨firstTable m signature addresses, findTable_run hroot signature, fun header => ?_, ?_,
    fun s' hroot' => findTable_run hroot' signature⟩
  · rw [firstTable, Option.map_eq_some_iff]
    constructor
    · rintro ⟨phys, hfind, rfl⟩
      obtain ⟨htable, front, back, heq, hfront⟩ := List.find?_eq_some_iff_append.mp hfind
      refine ⟨front, phys, back, heq, fun q hq => ?_, of_decide_eq_true htable, rfl⟩
      simpa using hfront q hq
    · rintro ⟨front, phys, back, heq, hfront, htable, rfl⟩
      refine ⟨phys, List.find?_eq_some_iff_append.mpr ⟨decide_eq_true htable, front, back, heq,
        fun q hq => ?_⟩, rfl⟩
      simpa using hfront q hq
  · rw [firstTable, Option.map_eq_none_iff, List.find?_eq_none]
    constructor
    · intro hnone phys hphys htable
      exact hnone phys hphys (decide_eq_true htable)
    · intro hnone phys hphys htable
      exact hnone phys hphys (of_decide_eq_true htable)

/-- A header of 36 bytes, down to its checksum. -/
def sdtHeader (signature : List UInt8) (checksum : UInt8) : List UInt8 :=
  signature ++ [36, 0, 0, 0, 0, checksum]

/-- An RSDT and an XSDT with half an entry at the end of each, on the pages 1 and 2.  They list
the same: null, a table with another signature, one whose bytes do not sum up to zero, and two
that are as they should be. -/
def rootTables : List (ℕ × List UInt8) :=
  [(1, [0x52, 0x53, 0x44, 0x54, 58, 0, 0, 0, 0, 0x69] ++ List.replicate 26 0 ++ [0, 0, 0, 0] ++
      [0, 0x30, 0, 0] ++ [0, 0x40, 0, 0] ++ [0, 0x50, 0, 0] ++ [0, 0x60, 0, 0]),
    (2, [0x58, 0x53, 0x44, 0x54, 80, 0, 0, 0, 0, 0x4d] ++ List.replicate 26 0 ++
      [0, 0, 0, 0, 0, 0, 0, 0] ++ [0, 0x30, 0, 0, 0, 0, 0, 0] ++ [0, 0x40, 0, 0, 0, 0, 0, 0] ++
      [0, 0x50, 0, 0, 0, 0, 0, 0] ++ [0, 0x60, 0, 0, 0, 0, 0, 0]),
    (3, sdtHeader [0x46, 0x41, 0x43, 0x50] 0xc2), (4, sdtHeader [0x41, 0x50, 0x49, 0x43] 0),
    (5, sdtHeader [0x41, 0x50, 0x49, 0x43] 0xbf), (6, sdtHeader [0x41, 0x50, 0x49, 0x43] 0xbf)]

/-- The tables through the direct map. -/
def twoRoots : Memory := fun a =>
  ((rootTables.lookup ((a - directMapBase) / 4096)).getD []).getD (a % 4096) 0

theorem find_table_first_match_apic :
    ∃ view, view = some (directMapBase + 0x5000) ∧
      (∃ l, (findTable twoRoots [0x41, 0x50, 0x49, 0x43]).run
        ⟨⟨0, 4096, false, true⟩, []⟩ = .ok view ⟨⟨0, 4096, false, true⟩, l⟩) ∧
      ∃ l, (findTable twoRoots [0x41, 0x50, 0x49, 0x43]).run
        ⟨⟨0, 8192, true, true⟩, []⟩ = .ok view ⟨⟨0, 8192, true, true⟩, l⟩ := by
  have hrsdt : RootLists twoRoots ⟨0, 4096, false, true⟩ [0, 0x3000, 0x4000, 0x5000, 0x6000] := by
    refine ⟨rfl, by decide, by decide +kernel, by decide +kernel, by decide +kernel, ?_⟩
    decide +kernel
  have hxsdt : RootLists twoRoots ⟨0, 8192, true, true⟩ [0, 0x3000, 0x4000, 0x5000, 0x6000] := by
    refine ⟨rfl, by decide, by decide +kernel, by decide +kernel, by decide +kernel, ?_⟩
    decide +kernel
  have hfront : ∀ q ∈ [0, 0x3000, 0x4000], ¬IsTable twoRoots [0x41, 0x50, 0x49, 0x43] q := by
    decide +kernel
  have htable : IsTable twoRoots [0x41, 0x50, 0x49, 0x43] 0x5000 := by
    decide +kernel
  obtain ⟨view, hrun, hsome, -, hsame⟩ := find_table_first_match twoRoots
    [0x41, 0x50, 0x49, 0x43] _ ⟨⟨0, 4096, false, true⟩, []⟩ hrsdt
  refine ⟨view, ?_, hrun, hsame ⟨⟨0, 8192, true, true⟩, []⟩ hxsdt⟩
  exact (hsome _).mpr ⟨[0, 0x3000, 0x4000], 0x5000, [0x6000], rfl, hfront, htable, rfl⟩

end Acpi

end DoomOs
