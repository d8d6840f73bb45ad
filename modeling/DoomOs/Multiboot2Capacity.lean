/-
# When boot data is fatal

`boot_info.cpp`.  `component::parse` clears the record, checks the buffer and translates
it, and clears the record again if that failed.  A container that is full stops the
kernel instead: `translate_framebuffer` counts the colours before it stores them, while
the memory map and the modules are appended without a look at how many there are.

The counts that matter are those of the tags in front of the first one that is rejected,
since the translation ends there.
-/
import DoomOs.Multiboot2Order

namespace DoomOs

namespace Multiboot2

open Comp

variable {m : Memory} {h : ℕ} {t : Tag} {out : BootInfo}

/-! ## The component -/

/-- `active::parse`, with the record cleared after an error.  The panic of a full
container is not an error that anyone gets to see. -/
def parseOrReset (m : Memory) (h : ℕ) : Boot Unit := do
  match ← attempt (parse m h) with
  | .ok _ => pure ()
  | .error .pastCapacity => fail .pastCapacity
  | .error .invalidBootData => do
    modify fun _ => .reset
    fail .invalidBootData

/-- `component::parse`, for what `set_handoff` was given. -/
def componentParse (m : Memory) (magic h : ℕ) : Boot Unit := do
  modify fun _ => .reset
  match handoffWellFormed m magic h with
  | none => stop .endless
  | some false => fail .invalidBootData
  | some true => parseOrReset m h

/-! ## The tags that are translated -/

theorem accepted_iff (type : TagType) (c : List UInt8) :
    (minSize type ≤ c.length ∧ (type = .memoryMap → 24 ≤ leOf c 8 4) ∧
      (type = .framebuffer → (framebufferOf c).isSome = true)) ↔ Accepted type c :=
  ⟨fun H => ⟨H.1, H.2.1, H.2.2⟩, fun H => ⟨H.size, H.entries, H.framebuffer⟩⟩

instance (type : TagType) (c : List UInt8) : Decidable (Accepted type c) :=
  decidable_of_iff _ (accepted_iff type c)

/-- The tags in front of the first one that is rejected. -/
def acceptedTags (m : Memory) (l : List Tag) : List Tag :=
  l.takeWhile fun t => decide (Accepted t.type (contents m t))

theorem acceptedTags_of_rejected {front back : List Tag}
    (hfront : ∀ t ∈ front, Accepted t.type (contents m t))
    (hnot : ¬ Accepted t.type (contents m t)) :
    acceptedTags m (front ++ t :: back) = front := by
  rw [acceptedTags, List.takeWhile_append_of_pos (fun u hu => decide_eq_true (hfront u hu)),
    List.takeWhile_cons_of_neg (by simpa using hnot), List.append_nil]

theorem acceptedTags_of_accepted {front back : List Tag}
    (hfront : ∀ t ∈ front, Accepted t.type (contents m t)) :
    acceptedTags m (front ++ back) = front ++ acceptedTags m back :=
  List.takeWhile_append_of_pos (fun u hu => decide_eq_true (hfront u hu))

theorem acceptedTags_of_all {l : List Tag} (hl : ∀ t ∈ l, Accepted t.type (contents m t)) :
    acceptedTags m l = l := by
  have hall : acceptedTags m (l ++ []) = l ++ [] := acceptedTags_of_accepted hl
  rw [List.append_nil] at hall
  exact hall

/-- Only a tag that is accepted fills a container. -/
theorem accepted_of_panic (hfit : WithinCapacity out) (hlt : t.size < 2 ^ 64) {e : BootEnd}
    {out' : BootInfo} (hrun : (translateTag m t).run out = .err e out') :
    Accepted t.type (contents m t) := by
  have hfull := ((translateTag_sat hfit hlt).of_err hrun).2.1
  have hlong : minSize t.type ≤ t.size := by
    by_contra hshort
    unfold translateTag at hrun
    cases htype : t.type <;> rw [htype] at hrun hshort <;>
      simp only [translateAs, minSize] at hrun hshort
    case endTag => exact hshort (Nat.zero_le _)
    case other => exact hshort (Nat.zero_le _)
    all_goals
      rw [if_pos (by omega), run_pure] at hrun
      cases hrun
  refine ⟨by rw [length_contents]; exact hlong, fun htype => ?_, fun htype => ?_⟩
  · by_contra hentry
    rw [htype, minSize] at hlong
    simp only [translateTag, htype, translateAs] at hrun
    rw [if_neg (by omega), translateMemoryMap, run_bind_ok (readLe_run 4 8 rfl (by omega)),
      if_pos (by omega), run_pure] at hrun
    cases hrun
  · rw [htype, applyTag] at hfull
    exact absurd ⟨hfit.regions, hfit.modules⟩ hfull

/-- **The loop over the tags** either returns, or meets a tag that is rejected, or meets
one that is accepted and for which there is no room. -/
theorem translateAll_ends (hfit : WithinCapacity out) {l : List Tag}
    (hsize : ∀ t ∈ l, t.size < 2 ^ 32) :
    ((forEach (translateOrFail m) l).run out).Sat
      (fun _ _ => WithinCapacity (applyAll m (acceptedTags m l) out))
      (fun e _ => (e = .pastCapacity ↔
        ¬ WithinCapacity (applyAll m (acceptedTags m l) out))) := by
  refine (sat_forEach
    (I := fun front out' => (∀ t ∈ front, Accepted t.type (contents m t)) ∧
      out' = applyAll m front out ∧ WithinCapacity out')
    ?_ ⟨fun t ht => (by cases ht), rfl, hfit⟩).mono ?_ (fun _ _ hE => hE)
  · rintro front t back out' rfl ⟨hacc, rfl, hfit'⟩
    have hlt := hsize t (by simp)
    rw [translateOrFail, sat_bind]
    cases hrun : (translateTag m t).run (applyAll m front out) with
    | ok accepted out' =>
      have hafter := (translateTag_sat (m := m) hfit' (by omega)).of_ok hrun
      rw [AfterTag] at hafter
      cases accepted with
      | true =>
        obtain ⟨hthis, rfl, hcap⟩ := hafter
        exact ⟨List.forall_mem_append.mpr ⟨hacc, List.forall_mem_singleton.mpr hthis⟩,
          (applyAll_snoc m front t out).symm, hcap⟩
      | false =>
        show (BootEnd.invalidBootData = .pastCapacity ↔ _)
        rw [acceptedTags_of_rejected hacc hafter.1]
        exact ⟨fun he => (by cases he), fun hnot => absurd hfit' hnot⟩
    | err e out' =>
      obtain ⟨rfl, hfull, -⟩ := (translateTag_sat (m := m) hfit' (by omega)).of_err hrun
      have hthis := accepted_of_panic hfit' (by omega) hrun
      have hfront : ∀ u ∈ front ++ [t], Accepted u.type (contents m u) :=
        List.forall_mem_append.mpr ⟨hacc, List.forall_mem_singleton.mpr hthis⟩
      refine iff_of_true rfl (fun H => hfull ?_)
      rw [← List.singleton_append, ← List.append_assoc, acceptedTags_of_accepted hfront,
        applyAll_append, applyAll_snoc] at H
      exact H.of_applyAll
    | halt fault => exact absurd hrun ((translateTag_sat (m := m) hfit' (by omega)).ne_halt fault)
  · rintro - out' ⟨hacc, rfl, hcap⟩
    rw [acceptedTags_of_all hacc]
    exact hcap

/-! ## Counting -/

/-- The number of entries of a memory-map tag. -/
def entriesIn (m : Memory) (t : Tag) : ℕ :=
  if t.type = .memoryMap then (t.size - 16) / leOf (contents m t) 8 4 else 0

/-- The number of modules, none or one, that a tag adds. -/
def modulesIn (m : Memory) (t : Tag) : ℕ :=
  if t.type = .moduleTag ∧ leOf (contents m t) 8 4 < leOf (contents m t) 12 4 then 1 else 0

/-- The memory-map entries and the modules of some tags fit into their containers. -/
structure Fits (m : Memory) (l : List Tag) : Prop where
  entries : (l.map (entriesIn m)).sum ≤ maxBootMemoryRegions
  modules : (l.map (modulesIn m)).sum ≤ maxBootModules

theorem length_regions_applyTag :
    (applyTag t.type t.address (contents m t) out).memoryMap.length
      = out.memoryMap.length + entriesIn m t := by
  unfold entriesIn
  cases htype : t.type <;> simp [applyTag, regionsOf]

theorem length_modules_applyTag :
    (applyTag t.type t.address (contents m t) out).modules.length
      = out.modules.length + modulesIn m t := by
  unfold modulesIn
  cases htype : t.type with
  | moduleTag =>
    by_cases hempty : leOf (contents m t) 12 4 ≤ leOf (contents m t) 8 4
    · simp [applyTag, modulesOf, hempty]
    · simp [applyTag, modulesOf, hempty, Nat.lt_of_not_le hempty]
  | _ => simp [applyTag]

theorem lengths_applyAll (m : Memory) : ∀ (l : List Tag) (out : BootInfo),
    (applyAll m l out).memoryMap.length = out.memoryMap.length + (l.map (entriesIn m)).sum ∧
      (applyAll m l out).modules.length = out.modules.length + (l.map (modulesIn m)).sum := by
  intro l
  induction l with
  | nil => exact fun out => ⟨rfl, rfl⟩
  | cons t l ih =>
    intro out
    obtain ⟨hregions, hmodules⟩ := ih (applyTag t.type t.address (contents m t) out)
    rw [length_regions_applyTag] at hregions
    rw [length_modules_applyTag] at hmodules
    rw [List.map_cons, List.sum_cons, List.map_cons, List.sum_cons]
    exact ⟨hregions.trans (Nat.add_assoc _ _ _), hmodules.trans (Nat.add_assoc _ _ _)⟩

theorem withinCapacity_iff_fits (l : List Tag) :
    WithinCapacity (applyAll m l (reservedFirst m h)) ↔ Fits m l := by
  obtain ⟨hregions, hmodules⟩ := lengths_applyAll m l (reservedFirst m h)
  have hnone : (reservedFirst m h).memoryMap.length = 0 := rfl
  have hnone' : (reservedFirst m h).modules.length = 0 := rfl
  constructor
  · rintro ⟨hle, hle'⟩
    exact ⟨by omega, by omega⟩
  · rintro ⟨hle, hle'⟩
    exact ⟨by omega, by omega⟩

/-! ## The whole run -/

/-- `parse` ends in a panic exactly when a container is too small for what comes before
the first rejected tag. -/
theorem parse_ends (hwf : wellFormed m h = some true) :
    ((parse m h).run .reset).Sat (fun _ _ => Fits m (acceptedTags m (tagList m h)))
      (fun e _ => (e = .pastCapacity ↔ ¬ Fits m (acceptedTags m (tagList m h)))) := by
  obtain ⟨⟨last, htags⟩, hmem⟩ := tags_of_wellFormed hwf
  rw [parse, run_bind_ok (reserve_run m h), parseFrom_run _ _ _ _ htags]
  have hends := translateAll_ends (m := m) (withinCapacity_reservedFirst m h)
    fun t ht => (hmem t ht).1
  rw [withinCapacity_iff_fits] at hends
  exact hends

/-- The component ends as its translation does. -/
theorem componentParse_ends {magic : ℕ} (hwf : handoffWellFormed m magic h = some true)
    (out : BootInfo) :
    ((componentParse m magic h).run out).Sat
      (fun _ _ => Fits m (acceptedTags m (tagList m h)))
      (fun e _ => (e = .pastCapacity ↔ ¬ Fits m (acceptedTags m (tagList m h)))) := by
  have hbuffer : wellFormed m h = some true := by
    rw [handoffWellFormed] at hwf
    by_cases hmagic : magic ≠ bootloaderMagic
    · rw [if_pos hmagic] at hwf
      cases hwf
    · rw [if_neg hmagic] at hwf
      by_cases hnull : h = 0
      · rw [if_pos hnull] at hwf
        cases hwf
      · rw [if_neg hnull] at hwf
        exact hwf
  rw [componentParse, run_modify_bind, hwf]
  dsimp only
  rw [parseOrReset, sat_bind, sat_attempt]
  refine (parse_ends hbuffer).mono (fun _ _ hfits => hfits) (fun e out' hiff => ?_)
  cases e with
  | invalidBootData => exact hiff
  | pastCapacity => exact hiff

/-- **When boot data is fatal.**  On a buffer that `well_formed` accepts,
`component::parse` returns Ok or INVALID_BOOT_DATA if and only if, in front of the first
tag that a translator rejects, there are at most 128 memory-map entries and at most 32
modules that are not empty.  Else a full container stops the kernel. -/
theorem boot_data_not_fatal_iff {m : Memory} {magic h : ℕ}
    (hwf : handoffWellFormed m magic h = some true) (out : BootInfo) :
    (((∃ out', (componentParse m magic h).run out = .ok () out') ∨
        ∃ out', (componentParse m magic h).run out = .err .invalidBootData out') ↔
      Fits m (acceptedTags m (tagList m h))) ∧
    (¬ Fits m (acceptedTags m (tagList m h)) →
      ∃ out', (componentParse m magic h).run out = .err .pastCapacity out') := by
  have hends := componentParse_ends hwf out
  cases hrun : (componentParse m magic h).run out with
  | ok u out' =>
    have hfits := hends.of_ok hrun
    exact ⟨iff_of_true (Or.inl ⟨out', rfl⟩) hfits, fun hnot => absurd hfits hnot⟩
  | err e out' =>
    have hiff := hends.of_err hrun
    cases e with
    | invalidBootData =>
      have hfits : Fits m (acceptedTags m (tagList m h)) := by
        by_contra hnot
        cases hiff.mpr hnot
      exact ⟨iff_of_true (Or.inr ⟨out', rfl⟩) hfits, fun hnot => absurd hfits hnot⟩
    | pastCapacity =>
      have hnot := hiff.mp rfl
      refine ⟨iff_of_false ?_ hnot, fun _ => ⟨out', rfl⟩⟩
      rintro (⟨_, h⟩ | ⟨_, h⟩)
      · cases h
      · cases h
  | halt fault => exact absurd hrun (hends.ne_halt fault)

/-- A buffer at address 4096 with one memory-map tag of 129 entries of 24 bytes. -/
def manyRegions : Memory := fun a =>
  -- 3128 bytes in all, 3112 of them the tag
  if a = 4096 then 0x38 else if a = 4097 then 0x0c
  else if a = 4104 then 6
  else if a = 4108 then 0x28 else if a = 4109 then 0x0c
  else if a = 4112 then 24
  else if a = 7220 then 8
  else 0

theorem handoff_manyRegions :
    handoffWellFormed manyRegions bootloaderMagic 4096 = some true := by
  decide

/-- The same with 128 entries. -/
def fullRegions : Memory := fun a =>
  -- 3104 bytes in all, 3088 of them the tag
  if a = 4096 then 0x20 else if a = 4108 then 0x10 else if a = 7196 then 8
  else manyRegions a

theorem handoff_fullRegions :
    handoffWellFormed fullRegions bootloaderMagic 4096 = some true := by
  decide

/-- A memory map alone, with entries of 24 bytes, is accepted. -/
theorem acceptedTags_regions {m : Memory} {size : ℕ}
    (hsize : minSize .memoryMap ≤ (contents m ⟨4104, .memoryMap, size⟩).length)
    (hentry : leOf (contents m ⟨4104, .memoryMap, size⟩) 8 4 = 24) :
    acceptedTags m [⟨4104, .memoryMap, size⟩] = [⟨4104, .memoryMap, size⟩] := by
  refine acceptedTags_of_all (fun t ht => ?_)
  rw [List.mem_singleton.mp ht]
  exact ⟨hsize, fun _ => by rw [hentry], fun htype => (by cases htype)⟩

theorem not_fits_manyRegions :
    ¬ Fits manyRegions (acceptedTags manyRegions (tagList manyRegions 4096)) := by
  have hlist : tagList manyRegions 4096 = [⟨4104, .memoryMap, 3112⟩] := by decide
  have hentry : leOf (contents manyRegions ⟨4104, .memoryMap, 3112⟩) 8 4 = 24 := by
    simp [leOf, byteOf_contents, manyRegions]
  rintro ⟨hentries, -⟩
  rw [hlist, acceptedTags_regions (by rw [length_contents]; decide) hentry, List.map_singleton,
    List.sum_singleton, entriesIn, if_pos rfl, hentry] at hentries
  exact absurd hentries (by decide)

theorem fits_fullRegions :
    Fits fullRegions (acceptedTags fullRegions (tagList fullRegions 4096)) := by
  have hlist : tagList fullRegions 4096 = [⟨4104, .memoryMap, 3088⟩] := by decide
  have hentry : leOf (contents fullRegions ⟨4104, .memoryMap, 3088⟩) 8 4 = 24 := by
    simp [leOf, byteOf_contents, fullRegions, manyRegions]
  rw [hlist, acceptedTags_regions (by rw [length_contents]; decide) hentry]
  constructor
  · rw [List.map_singleton, List.sum_singleton, entriesIn, if_pos rfl, hentry]
    decide
  · rw [List.map_singleton, List.sum_singleton, modulesIn, if_neg (by decide)]
    exact Nat.zero_le _

/-- Boot data that `well_formed` accepts can stop the kernel. -/
theorem boot_data_can_be_fatal :
    ¬ ∀ (m : Memory) (magic h : ℕ) (out : BootInfo),
      handoffWellFormed m magic h = some true →
      (∃ out', (componentParse m magic h).run out = .ok () out') ∨
        ∃ out', (componentParse m magic h).run out = .err .invalidBootData out' := by
  intro hall
  have hends := componentParse_ends handoff_manyRegions .reset
  rcases hall _ _ _ .reset handoff_manyRegions with ⟨out', hrun⟩ | ⟨out', hrun⟩
  · exact not_fits_manyRegions (hends.of_ok hrun)
  · cases (hends.of_err hrun).mpr not_fits_manyRegions

/-- The buffer with 128 entries does not end in the panic, the one with 129 does. -/
theorem boot_data_not_fatal_iff_many :
    handoffWellFormed fullRegions bootloaderMagic 4096 = some true ∧
      ((∃ out', (componentParse fullRegions bootloaderMagic 4096).run .reset = .ok () out') ∨
        ∃ out', (componentParse fullRegions bootloaderMagic 4096).run .reset
          = .err .invalidBootData out') ∧
      handoffWellFormed manyRegions bootloaderMagic 4096 = some true ∧
      ∃ out', (componentParse manyRegions bootloaderMagic 4096).run .reset
        = .err .pastCapacity out' :=
  ⟨handoff_fullRegions,
    (boot_data_not_fatal_iff handoff_fullRegions .reset).1.mpr fits_fullRegions,
    handoff_manyRegions,
    (boot_data_not_fatal_iff handoff_manyRegions .reset).2 not_fits_manyRegions⟩

end Multiboot2

end DoomOs
