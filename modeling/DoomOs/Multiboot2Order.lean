/-
# Parsing all boot tags

`parse` runs the translators over the tags one after the other, on one record.  With the
meaning of a single tag at hand, the whole run is a fold (`parse_sat`): it succeeds
exactly when every tag is accepted and the containers hold everything.

Each field of the record is written by the tags of one type only, so it is a fold over
these alone (`foldl_filter_map`), and how tags of different types interleave does not
matter.  The root pointer is the exception, with two types that compete for it.
-/
import DoomOs.Multiboot2Tags

namespace DoomOs

namespace Multiboot2

open Comp

variable {m m' : Memory} {h h' : ℕ} {t : Tag} {out : BootInfo}

/-! ## The tags of a buffer -/

/-- The tags that the iteration visits. -/
def tagList (m : Memory) (h : ℕ) : List Tag :=
  ((tags m h (totalSize m h / 8 + 1)).map Prod.fst).getD []

/-- Behind `well_formed` the iteration comes to its end, and its tags lie in the buffer. -/
theorem tags_of_wellFormed (hwf : wellFormed m h = some true) :
    (∃ last, tagsFrom m (totalSize m h / 8 + 1) (u64 (h + 8)) = some (tagList m h, last)) ∧
      ∀ t ∈ tagList m h, t.size < 2 ^ 32 ∧ 8 ≤ t.size ∧ h ≤ t.address ∧
        t.address + t.size ≤ h + totalSize m h := by
  obtain ⟨hmin, hwrap, offs, last, H⟩ := (wellFormed_iff m h).mp hwf
  have hlen := H.length_le
  have htags : tagsFrom m (totalSize m h / 8 + 1) (u64 (h + 8))
      = some (offs.map fun o => tagAt m (h + o), h + last) := by
    rw [u64_of_lt (by omega)]
    exact H.tagsFrom hwrap _ (by omega)
  have hlist : tagList m h = offs.map fun o => tagAt m (h + o) := by
    rw [tagList, tags, htags]
    rfl
  rw [hlist]
  refine ⟨⟨_, htags⟩, fun t ht => ?_⟩
  obtain ⟨o, ho, rfl⟩ := List.mem_map.mp ht
  obtain ⟨-, hsize, hend⟩ := H.tag_mem o ho
  refine ⟨size_tagAt_lt m (h + o), hsize, Nat.le_add_right h o, ?_⟩
  rw [tagAt] at hend ⊢
  dsimp only at hend ⊢
  omega

/-- The loop of `parse` is a loop over the tags that the iteration visits. -/
theorem parseFrom_run : ∀ (fuel a : ℕ) (l : List Tag) (last : ℕ),
    tagsFrom m fuel a = some (l, last) →
      ∀ out, (parseFrom m fuel a).run out = (forEach (translateOrFail m) l).run out := by
  intro fuel
  induction fuel with
  | zero =>
    intro a l last htags
    cases htags
  | succ fuel ih =>
    intro a l last htags out
    rw [tagsFrom] at htags
    rw [parseFrom]
    split_ifs at htags ⊢ with hend
    · cases htags
      rfl
    · obtain ⟨⟨l', last'⟩, hrest, hl⟩ := Option.map_eq_some_iff.mp htags
      cases hl
      rw [forEach]
      simp only [run_bind]
      cases (translateOrFail m (tagAt m a)).run out with
      | ok _ out' => exact ih _ _ _ hrest out'
      | err e out' => rfl
      | halt f => rfl

/-! ## The whole run -/

/-- The boot information after a list of accepted tags. -/
def applyAll (m : Memory) (l : List Tag) (out : BootInfo) : BootInfo :=
  l.foldl (fun out t => applyTag t.type t.address (contents m t) out) out

theorem applyAll_snoc (m : Memory) (l : List Tag) (t : Tag) (out : BootInfo) :
    applyAll m (l ++ [t]) out
      = applyTag t.type t.address (contents m t) (applyAll m l out) := by
  rw [applyAll, List.foldl_append]
  rfl

theorem applyAll_append (m : Memory) (l l' : List Tag) (out : BootInfo) :
    applyAll m (l ++ l') out = applyAll m l' (applyAll m l out) :=
  List.foldl_append

/-- A tag only adds to the containers. -/
theorem WithinCapacity.of_applyTag {type : TagType} {a : ℕ} {c : List UInt8}
    (H : WithinCapacity (applyTag type a c out)) : WithinCapacity out := by
  obtain ⟨hregions, hmodules⟩ := H
  cases type <;> simp only [applyTag, List.length_append] at hregions hmodules <;>
    exact ⟨by omega, by omega⟩

theorem WithinCapacity.of_applyAll {l : List Tag} :
    ∀ {out : BootInfo}, WithinCapacity (applyAll m l out) → WithinCapacity out := by
  induction l with
  | nil => exact fun H => H
  | cons t l ih => exact fun H => (ih H).of_applyTag

/-- **The loop over the tags**, as a fold.  It ends early only if a tag is rejected or a
container is too small for all of them. -/
theorem translateAll_sat (hfit : WithinCapacity out) {l : List Tag}
    (hsize : ∀ t ∈ l, t.size < 2 ^ 32) :
    ((forEach (translateOrFail m) l).run out).Sat
      (fun _ out' => (∀ t ∈ l, Accepted t.type (contents m t)) ∧ out' = applyAll m l out ∧
        WithinCapacity out')
      (fun _ out' => ¬ ((∀ t ∈ l, Accepted t.type (contents m t)) ∧
          WithinCapacity (applyAll m l out)) ∧
        ∃ front, front <+: l ∧ out'.acpi = (applyAll m front out).acpi) := by
  refine sat_forEach
    (I := fun front out' => (∀ t ∈ front, Accepted t.type (contents m t)) ∧
      out' = applyAll m front out ∧ WithinCapacity out') ?_
    ⟨fun t ht => (by cases ht), rfl, hfit⟩
  rintro front t back out' rfl ⟨hacc, rfl, hfit'⟩
  have hlt := hsize t (by simp)
  have hpre : front <+: front ++ t :: back := List.prefix_append _ _
  rw [translateOrFail, sat_bind]
  refine (translateTag_sat (m := m) hfit' (by omega)).mono ?_ ?_
  · intro accepted out' hafter
    rw [AfterTag] at hafter
    cases accepted with
    | true =>
      obtain ⟨hthis, rfl, hcap⟩ := hafter
      exact ⟨List.forall_mem_append.mpr ⟨hacc, List.forall_mem_singleton.mpr hthis⟩,
        (applyAll_snoc m front t out).symm, hcap⟩
    | false =>
      obtain ⟨hnot, hacpi⟩ := hafter
      exact ⟨fun H => hnot (H.1 t (by simp)), front, hpre, hacpi⟩
  · rintro e out' ⟨-, hnot, hacpi⟩
    refine ⟨fun H => hnot ?_, front, hpre, hacpi⟩
    have hcap := H.2
    rw [← List.singleton_append, ← List.append_assoc, applyAll_append, applyAll_snoc] at hcap
    exact hcap.of_applyAll

/-- The boot information when `parse` comes to the tags. -/
def reservedFirst (m : Memory) (h : ℕ) : BootInfo :=
  { BootInfo.reset with reserved := [⟨h, totalSize m h⟩] }

theorem withinCapacity_reservedFirst (m : Memory) (h : ℕ) : WithinCapacity (reservedFirst m h) :=
  ⟨Nat.zero_le _, Nat.zero_le _⟩

/-- The buffer itself is the first reserved range. -/
theorem reserve_run (m : Memory) (h : ℕ) :
    (emplaceBack maxBootReservedRanges BootInfo.reserved
      (fun items out => { out with reserved := items }) ⟨h, totalSize m h⟩).run .reset
      = .ok () (reservedFirst m h) := by
  rw [emplaceBack_run, if_neg (by decide)]
  rfl

/-- **`parse` as a fold**, from the cleared record. -/
theorem parse_sat (hwf : wellFormed m h = some true) :
    ((parse m h).run .reset).Sat
      (fun _ out' => (∀ t ∈ tagList m h, Accepted t.type (contents m t)) ∧
        out' = applyAll m (tagList m h) (reservedFirst m h) ∧ WithinCapacity out')
      (fun _ out' => ¬ ((∀ t ∈ tagList m h, Accepted t.type (contents m t)) ∧
          WithinCapacity (applyAll m (tagList m h) (reservedFirst m h))) ∧
        ∃ front, front <+: tagList m h ∧
          out'.acpi = (applyAll m front (reservedFirst m h)).acpi) := by
  obtain ⟨⟨last, htags⟩, hmem⟩ := tags_of_wellFormed hwf
  rw [parse, run_bind_ok (reserve_run m h), parseFrom_run _ _ _ _ htags]
  exact translateAll_sat (withinCapacity_reservedFirst m h) fun t ht => (hmem t ht).1

/-! ## Every read is inside its tag -/

/-- Where the root pointer comes from. -/
theorem acpi_applyAll_cases (m : Memory) : ∀ (l : List Tag) (out : BootInfo),
    (applyAll m l out).acpi = out.acpi ∨
      ∃ t ∈ l, (applyAll m l out).acpi.rsdp = ⟨t.address + 8, t.size - 8⟩ := by
  have hone : ∀ (t : Tag) (out : BootInfo),
      (applyTag t.type t.address (contents m t) out).acpi = out.acpi ∨
        (applyTag t.type t.address (contents m t) out).acpi.rsdp
          = ⟨t.address + 8, t.size - 8⟩ := by
    intro t out
    cases t.type <;> simp only [applyTag, acpiAfter, length_contents, true_or]
    · split_ifs
      · exact Or.inl rfl
      · exact Or.inr rfl
    · split_ifs
      · exact Or.inl rfl
      · exact Or.inr rfl
  intro l
  induction l with
  | nil => exact fun out => Or.inl rfl
  | cons t l ih =>
    intro out
    rcases ih (applyTag t.type t.address (contents m t) out) with hsame | ⟨u, hu, hrsdp⟩
    · rcases hone t out with hkept | hset
      · exact Or.inl (hsame.trans hkept)
      · exact Or.inr ⟨t, List.mem_cons_self, (congrArg AcpiInfo.rsdp hsame).trans hset⟩
    · exact Or.inr ⟨u, List.mem_cons_of_mem t hu, hrsdp⟩

/-- The root pointer that a part of the tags leaves lies inside the buffer. -/
theorem rsdp_inside (hwf : wellFormed m h = some true) {front : List Tag}
    (hfront : front <+: tagList m h) {acpi : AcpiInfo}
    (hacpi : acpi = (applyAll m front (reservedFirst m h)).acpi) (hpresent : acpi.present = true) :
    h ≤ acpi.rsdp.base ∧ acpi.rsdp.base + acpi.rsdp.length ≤ h + totalSize m h := by
  subst hacpi
  rcases acpi_applyAll_cases m front (reservedFirst m h) with hnone | ⟨t, ht, hrsdp⟩
  · rw [hnone] at hpresent
    cases hpresent
  · obtain ⟨-, hsize, hlo, hhi⟩ := (tags_of_wellFormed hwf).2 t (hfront.subset ht)
    rw [hrsdp]
    dsimp only
    omega

/-- **Translation stays inside its tag.**  On a buffer that `well_formed` accepts,
`parse` never reads a byte outside the tag it translates, never divides by zero and
comes to an end; and the address range it stores for the root pointer lies inside the
buffer, whether it succeeds or not. -/
theorem translation_stays_inside (m : Memory) (h : ℕ) (hwf : wellFormed m h = some true) :
    (∀ fault, (parse m h).run .reset ≠ .halt fault) ∧
      (∀ t ∈ tagList m h, h ≤ t.address ∧ t.address + t.size ≤ h + totalSize m h) ∧
      ∀ out, ((parse m h).run .reset).state? = some out → out.acpi.present = true →
        h ≤ out.acpi.rsdp.base ∧
          out.acpi.rsdp.base + out.acpi.rsdp.length ≤ h + totalSize m h := by
  have hsat := parse_sat hwf
  have hstate : ((parse m h).run .reset).Sat
      (fun _ out => out.acpi.present = true → h ≤ out.acpi.rsdp.base ∧
        out.acpi.rsdp.base + out.acpi.rsdp.length ≤ h + totalSize m h)
      (fun _ out => out.acpi.present = true → h ≤ out.acpi.rsdp.base ∧
        out.acpi.rsdp.base + out.acpi.rsdp.length ≤ h + totalSize m h) := by
    refine hsat.mono ?_ ?_
    · rintro - out ⟨-, rfl, -⟩ hpresent
      exact rsdp_inside hwf (List.prefix_refl _) rfl hpresent
    · rintro - out ⟨-, front, hfront, hacpi⟩ hpresent
      exact rsdp_inside hwf hfront hacpi hpresent
  exact ⟨hsat.ne_halt, fun t ht => ((tags_of_wellFormed hwf).2 t ht).2.2,
    fun out hout => hstate.of_state? hout⟩

/-- A buffer of 48 bytes at address 4096 with an old root pointer and the END tag. -/
def acpiBuffer : Memory := fun a =>
  ([48, 0, 0, 0, 0, 0, 0, 0, 14, 0, 0, 0, 28, 0, 0, 0] ++ List.replicate 28 0 ++ [8] :
    List UInt8).getD (a - 4096) 0

theorem translation_stays_inside_acpi : wellFormed acpiBuffer 4096 = some true ∧
    ∃ out, ((parse acpiBuffer 4096).run .reset).state? = some out ∧
      out.acpi.rsdp = ⟨4112, 20⟩ ∧ 4112 + 20 ≤ 4096 + totalSize acpiBuffer 4096 := by
  have hwf : wellFormed acpiBuffer 4096 = some true := by decide
  obtain ⟨-, -, hinside⟩ := translation_stays_inside acpiBuffer 4096 hwf
  refine ⟨hwf, _, rfl, rfl, ?_⟩
  exact (hinside _ rfl rfl).2

/-! ## Interleavings -/

/-- A part `π` of the state that only the steps at the elements with `p` change, and
these by what `c` tells of the element, is a fold over these elements alone. -/
theorem foldl_filter_map {σ α β γ : Type} {f : σ → α → σ} {π : σ → β} {p : α → Bool} {c : α → γ}
    {g : β → γ → β} (hp : ∀ s a, p a = true → π (f s a) = g (π s) (c a))
    (hn : ∀ s a, p a = false → π (f s a) = π s) :
    ∀ (l : List α) (s : σ), π (l.foldl f s) = ((l.filter p).map c).foldl g (π s) := by
  intro l
  induction l with
  | nil => exact fun s => rfl
  | cons a l ih =>
    intro s
    rw [List.foldl_cons, ih]
    cases hpa : p a with
    | true => rw [List.filter_cons_of_pos hpa, List.map_cons, List.foldl_cons, hp s a hpa]
    | false => rw [List.filter_cons_of_neg (by rw [hpa]; decide), hn s a hpa]

/-- The contents of the tags of one type, in their order. -/
def ofType (m : Memory) (l : List Tag) (type : TagType) : List (List UInt8) :=
  (l.filter fun t => t.type = type).map (contents m)

/-- The two lists hold the same tags, those of each type in the same order: one is a
permutation of the other that keeps the order within every type. -/
def SameTags (m : Memory) (l : List Tag) (m' : Memory) (l' : List Tag) : Prop :=
  ∀ type, ofType m l type = ofType m' l' type

/-- A field that the tags of one type write, by their bytes, is a fold over these. -/
theorem field_applyAll {β : Type} (π : BootInfo → β) (type : TagType) (g : β → List UInt8 → β)
    (hp : ∀ out a c, π (applyTag type a c out) = g (π out) c)
    (hn : ∀ out a c type', type' ≠ type → π (applyTag type' a c out) = π out)
    (m : Memory) (l : List Tag) (out : BootInfo) :
    π (applyAll m l out) = (ofType m l type).foldl g (π out) := by
  rw [applyAll, ofType]
  apply foldl_filter_map
  · intro out t ht
    rw [of_decide_eq_true ht]
    exact hp out t.address (contents m t)
  · intro out t ht
    exact hn out t.address (contents m t) t.type (of_decide_eq_false ht)

theorem commandLine_applyAll (m : Memory) (l : List Tag) (out : BootInfo) :
    (applyAll m l out).commandLine = (ofType m l .commandLine).foldl
      (fun _ c => textOf maxBootString (c.drop 8)) out.commandLine := by
  apply field_applyAll BootInfo.commandLine .commandLine
  · exact fun out a c => rfl
  · intro out a c type' hne
    cases type' <;> first | rfl | exact absurd rfl hne

theorem bootloaderName_applyAll (m : Memory) (l : List Tag) (out : BootInfo) :
    (applyAll m l out).bootloaderName = (ofType m l .bootloaderName).foldl
      (fun _ c => textOf maxBootString (c.drop 8)) out.bootloaderName := by
  apply field_applyAll BootInfo.bootloaderName .bootloaderName
  · exact fun out a c => rfl
  · intro out a c type' hne
    cases type' <;> first | rfl | exact absurd rfl hne

theorem memoryMap_applyAll (m : Memory) (l : List Tag) (out : BootInfo) :
    (applyAll m l out).memoryMap = (ofType m l .memoryMap).foldl
      (fun regions c => regions ++ regionsOf c) out.memoryMap := by
  apply field_applyAll BootInfo.memoryMap .memoryMap
  · exact fun out a c => rfl
  · intro out a c type' hne
    cases type' <;> first | rfl | exact absurd rfl hne

theorem modules_applyAll (m : Memory) (l : List Tag) (out : BootInfo) :
    (applyAll m l out).modules = (ofType m l .moduleTag).foldl
      (fun modules c => modules ++ modulesOf c) out.modules := by
  apply field_applyAll BootInfo.modules .moduleTag
  · exact fun out a c => rfl
  · intro out a c type' hne
    cases type' <;> first | rfl | exact absurd rfl hne

theorem framebuffer_applyAll (m : Memory) (l : List Tag) (out : BootInfo) :
    (applyAll m l out).framebuffer = (ofType m l .framebuffer).foldl
      (fun _ c => (framebufferOf c).getD {}) out.framebuffer := by
  apply field_applyAll BootInfo.framebuffer .framebuffer
  · exact fun out a c => rfl
  · intro out a c type' hne
    cases type' <;> first | rfl | exact absurd rfl hne

/-- All tags are accepted in both lists or in none. -/
theorem SameTags.accepted {l l' : List Tag} (H : SameTags m l m' l')
    (hacc : ∀ t ∈ l, Accepted t.type (contents m t)) :
    ∀ t ∈ l', Accepted t.type (contents m' t) := by
  intro t ht
  have hmem : contents m' t ∈ ofType m l t.type := by
    rw [H t.type, ofType]
    exact List.mem_map_of_mem (List.mem_filter.mpr ⟨ht, decide_eq_true rfl⟩)
  obtain ⟨u, hu, hcontents⟩ := List.mem_map.mp hmem
  obtain ⟨hu, htype⟩ := List.mem_filter.mp hu
  rw [← hcontents, ← of_decide_eq_true htype]
  exact hacc u hu

theorem SameTags.symm {l l' : List Tag} (H : SameTags m l m' l') : SameTags m' l' m l :=
  fun type => (H type).symm

/-! ## The root pointer -/

/-- The tag that the root pointer is taken from: the first new one, else the first old one. -/
def selectRsdp (l : List Tag) : Option Tag :=
  (l.find? fun t => t.type = .acpiNew).or (l.find? fun t => t.type = .acpiOld)

/-- The record for the selected tag. -/
def acpiFrom : Option Tag → AcpiInfo
  | none => {}
  | some t => ⟨true, ⟨t.address + 8, t.size - 8⟩, if t.type = .acpiNew then 2 else 1⟩

theorem acpi_applyTag_of_ne {type : TagType} {a : ℕ} {c : List UInt8} (hold : type ≠ .acpiOld)
    (hnew : type ≠ .acpiNew) : (applyTag type a c out).acpi = out.acpi := by
  cases type <;> first | rfl | exact absurd rfl hold | exact absurd rfl hnew

/-- A new root pointer stays. -/
theorem acpi_applyAll_of_new (m : Memory) : ∀ (l : List Tag) (out : BootInfo),
    out.acpi.present = true → out.acpi.revision = 2 → (applyAll m l out).acpi = out.acpi := by
  intro l
  induction l with
  | nil => exact fun out _ _ => rfl
  | cons t l ih =>
    intro out hpresent hrev
    have hstep : (applyTag t.type t.address (contents m t) out).acpi = out.acpi := by
      cases t.type <;> simp [applyTag, acpiAfter, hpresent, hrev]
    have hrest := ih (applyTag t.type t.address (contents m t) out) (by rw [hstep]; exact hpresent)
      (by rw [hstep]; exact hrev)
    exact hrest.trans hstep

/-- An old root pointer gives way to the first new one. -/
theorem acpi_applyAll_of_old (m : Memory) : ∀ (l : List Tag) (out : BootInfo),
    out.acpi.present = true → out.acpi.revision = 1 → (applyAll m l out).acpi =
      ((l.find? fun t => t.type = .acpiNew).elim out.acpi fun t => acpiFrom (some t)) := by
  intro l
  induction l with
  | nil => exact fun out _ _ => rfl
  | cons t l ih =>
    intro out hpresent hrev
    by_cases hnew : t.type = .acpiNew
    · have hstep : (applyTag t.type t.address (contents m t) out).acpi = acpiFrom (some t) := by
        simp [hnew, applyTag, acpiAfter, hrev, acpiFrom]
      have hrest := acpi_applyAll_of_new m l (applyTag t.type t.address (contents m t) out)
        (by rw [hstep]; rfl) (by rw [hstep, acpiFrom, if_pos hnew])
      rw [List.find?_cons_of_pos (by simp [hnew])]
      exact hrest.trans hstep
    · have hstep : (applyTag t.type t.address (contents m t) out).acpi = out.acpi := by
        by_cases hold : t.type = .acpiOld
        · simp [hold, applyTag, acpiAfter, hpresent, hrev]
        · exact acpi_applyTag_of_ne hold hnew
      have hrest := ih (applyTag t.type t.address (contents m t) out)
        (by rw [hstep]; exact hpresent) (by rw [hstep]; exact hrev)
      rw [List.find?_cons_of_neg (by simp [hnew])]
      rw [hstep] at hrest
      exact hrest

/-- The root pointer is taken from the selected tag. -/
theorem acpi_applyAll (m : Memory) : ∀ (l : List Tag) (out : BootInfo),
    out.acpi = {} → (applyAll m l out).acpi = acpiFrom (selectRsdp l) := by
  intro l
  induction l with
  | nil => exact fun out hout => hout
  | cons t l ih =>
    intro out hout
    by_cases hnew : t.type = .acpiNew
    · have hstep : (applyTag t.type t.address (contents m t) out).acpi = acpiFrom (some t) := by
        simp [hnew, applyTag, acpiAfter, hout, acpiFrom]
      have hrest := acpi_applyAll_of_new m l (applyTag t.type t.address (contents m t) out)
        (by rw [hstep]; rfl) (by rw [hstep, acpiFrom, if_pos hnew])
      rw [selectRsdp, List.find?_cons_of_pos (by simp [hnew]), Option.some_or]
      exact hrest.trans hstep
    · by_cases hold : t.type = .acpiOld
      · have hstep : (applyTag t.type t.address (contents m t) out).acpi = acpiFrom (some t) := by
          simp [hold, applyTag, acpiAfter, hout, acpiFrom]
        have hrest := acpi_applyAll_of_old m l (applyTag t.type t.address (contents m t) out)
          (by rw [hstep]; rfl) (by rw [hstep, acpiFrom, if_neg hnew])
        rw [hstep] at hrest
        rw [selectRsdp, List.find?_cons_of_neg (by simp [hnew]),
          List.find?_cons_of_pos (by simp [hold])]
        refine hrest.trans ?_
        cases l.find? fun t => t.type = .acpiNew <;> rfl
      · have hrest := ih (applyTag t.type t.address (contents m t) out)
          (by rw [acpi_applyTag_of_ne hold hnew]; exact hout)
        rw [selectRsdp, List.find?_cons_of_neg (by simp [hnew]),
          List.find?_cons_of_neg (by simp [hold])]
        exact hrest

/-- The first tag of a type, by its contents. -/
theorem find_type (m : Memory) (l : List Tag) (type : TagType) :
    (l.find? fun t => t.type = type).map (contents m) = (ofType m l type).head? := by
  rw [ofType, List.head?_map, List.head?_filter]

theorem SameTags.selectRsdp {l l' : List Tag} (H : SameTags m l m' l') :
    (selectRsdp l).map (contents m) = (Multiboot2.selectRsdp l').map (contents m') := by
  rw [Multiboot2.selectRsdp, Multiboot2.selectRsdp, Option.map_or, Option.map_or, find_type,
    find_type, find_type, find_type, H .acpiNew, H .acpiOld]

/-! ## Two orders of the same tags -/

/-- `parse` succeeds exactly when every tag is accepted and the containers have room. -/
theorem parse_ok_iff (hwf : wellFormed m h = some true) (out : BootInfo) :
    (parse m h).run .reset = .ok () out ↔
      (∀ t ∈ tagList m h, Accepted t.type (contents m t)) ∧
        out = applyAll m (tagList m h) (reservedFirst m h) ∧ WithinCapacity out := by
  have hsat := parse_sat hwf
  constructor
  · exact fun hrun => hsat.of_ok hrun
  · rintro ⟨hacc, rfl, hcap⟩
    cases hrun : (parse m h).run .reset with
    | ok _ out' => rw [(hsat.of_ok hrun).2.1]
    | err e out' => exact absurd ⟨hacc, hcap⟩ (hsat.of_err hrun).1
    | halt fault => exact absurd hrun (hsat.ne_halt fault)

/-- The fields that two orders of the same tags leave. -/
theorem SameTags.fields {l l' : List Tag} (H : SameTags m l m' l') (r r' : List AddressRange) :
    let out := applyAll m l { BootInfo.reset with reserved := r }
    let out' := applyAll m' l' { BootInfo.reset with reserved := r' }
    out.commandLine = out'.commandLine ∧ out.bootloaderName = out'.bootloaderName ∧
      out.memoryMap = out'.memoryMap ∧ out.modules = out'.modules ∧
      out.framebuffer = out'.framebuffer := by
  intro out out'
  refine ⟨?_, ?_, ?_, ?_, ?_⟩
  · rw [commandLine_applyAll, commandLine_applyAll, H]
  · rw [bootloaderName_applyAll, bootloaderName_applyAll, H]
  · rw [memoryMap_applyAll, memoryMap_applyAll, H]
  · rw [modules_applyAll, modules_applyAll, H]
  · rw [framebuffer_applyAll, framebuffer_applyAll, H]

theorem SameTags.parse_ok (hwf : wellFormed m h = some true) (hwf' : wellFormed m' h' = some true)
    (H : SameTags m (tagList m h) m' (tagList m' h'))
    (hok : ∃ out, (parse m h).run .reset = .ok () out) :
    ∃ out, (parse m' h').run .reset = .ok () out := by
  obtain ⟨out, hrun⟩ := hok
  obtain ⟨hacc, rfl, hcap⟩ := (parse_ok_iff hwf out).mp hrun
  obtain ⟨-, -, hregions, hmodules, -⟩ := H.fields [⟨h, totalSize m h⟩] [⟨h', totalSize m' h'⟩]
  refine ⟨_, (parse_ok_iff hwf' _).mpr ⟨H.accepted hacc, rfl, ?_, ?_⟩⟩
  · exact (congrArg List.length hregions).symm.trans_le hcap.regions
  · exact (congrArg List.length hmodules).symm.trans_le hcap.modules

/-- **Boot parsing does not depend on the interleaving.**  Two well-formed buffers with
the same tags, those of each type in the same order, are both parsed or both not, the
strings, the memory map, the modules and the framebuffer are the same, and the root
pointer is taken from the same tag: the first new one, or the first old one if there is
no new one. -/
theorem parse_ignores_interleaving {m m' : Memory} {h h' : ℕ}
    (hwf : wellFormed m h = some true) (hwf' : wellFormed m' h' = some true)
    (H : SameTags m (tagList m h) m' (tagList m' h')) :
    ((∃ out, (parse m h).run .reset = .ok () out) ↔
        ∃ out, (parse m' h').run .reset = .ok () out) ∧
      ∀ out out', (parse m h).run .reset = .ok () out → (parse m' h').run .reset = .ok () out' →
        out.commandLine = out'.commandLine ∧ out.bootloaderName = out'.bootloaderName ∧
        out.memoryMap = out'.memoryMap ∧ out.modules = out'.modules ∧
        out.framebuffer = out'.framebuffer ∧
        out.acpi = acpiFrom (selectRsdp (tagList m h)) ∧
        out'.acpi = acpiFrom (selectRsdp (tagList m' h')) ∧
        (selectRsdp (tagList m h)).map (contents m)
          = (selectRsdp (tagList m' h')).map (contents m') := by
  refine ⟨⟨H.parse_ok hwf hwf', H.symm.parse_ok hwf' hwf⟩, fun out out' hrun hrun' => ?_⟩
  obtain ⟨-, rfl, -⟩ := (parse_ok_iff hwf out).mp hrun
  obtain ⟨-, rfl, -⟩ := (parse_ok_iff hwf' out').mp hrun'
  obtain ⟨hline, hname, hregions, hmodules, hfb⟩ :=
    H.fields [⟨h, totalSize m h⟩] [⟨h', totalSize m' h'⟩]
  exact ⟨hline, hname, hregions, hmodules, hfb, acpi_applyAll m _ _ rfl, acpi_applyAll m' _ _ rfl,
    H.selectRsdp⟩

/-- A buffer of 64 bytes at address `h` with two tags, padded, and the END tag. -/
def twoTags (h : ℕ) (first second : List UInt8) : Memory := fun a =>
  ([64, 0, 0, 0, 0, 0, 0, 0] ++ first ++ second ++ [0, 0, 0, 0, 8, 0, 0, 0] :
    List UInt8).getD (a - h) 0

/-- A command line of two characters. -/
def lineTag : List UInt8 := [1, 0, 0, 0, 11, 0, 0, 0, 104, 105, 0, 0, 0, 0, 0, 0]

/-- An old root pointer. -/
def oldTag : List UInt8 := [14, 0, 0, 0, 28, 0, 0, 0] ++ List.replicate 24 0

/-- What parsing these two tags leaves. -/
def lineAndOld (h rsdp : ℕ) : BootInfo :=
  { commandLine := textOf maxBootString [104, 105], reserved := [⟨h, 64⟩],
    acpi := ⟨true, ⟨rsdp, 20⟩, 1⟩ }

theorem parse_ignores_interleaving_two :
    (parse (twoTags 4096 lineTag oldTag) 4096).run .reset = .ok () (lineAndOld 4096 4128) ∧
      (parse (twoTags 8192 oldTag lineTag) 8192).run .reset = .ok () (lineAndOld 8192 8208) ∧
      (lineAndOld 4096 4128).commandLine = (lineAndOld 8192 8208).commandLine ∧
      (lineAndOld 4096 4128).commandLine.chars = [104, 105] := by
  have hwf : wellFormed (twoTags 4096 lineTag oldTag) 4096 = some true := by decide
  have hwf' : wellFormed (twoTags 8192 oldTag lineTag) 8192 = some true := by decide
  have hlist : tagList (twoTags 4096 lineTag oldTag) 4096
      = [⟨4104, .commandLine, 11⟩, ⟨4120, .acpiOld, 28⟩] := by decide
  have hlist' : tagList (twoTags 8192 oldTag lineTag) 8192
      = [⟨8200, .acpiOld, 28⟩, ⟨8232, .commandLine, 11⟩] := by decide
  have H : SameTags (twoTags 4096 lineTag oldTag) (tagList (twoTags 4096 lineTag oldTag) 4096)
      (twoTags 8192 oldTag lineTag) (tagList (twoTags 8192 oldTag lineTag) 8192) := by
    rw [hlist, hlist']
    intro type
    cases type with
    | commandLine => decide +kernel
    | acpiOld => decide +kernel
    | _ => simp [ofType]
  have hrun : (parse (twoTags 4096 lineTag oldTag) 4096).run .reset
      = .ok () (lineAndOld 4096 4128) := by decide +kernel
  have hrun' : (parse (twoTags 8192 oldTag lineTag) 8192).run .reset
      = .ok () (lineAndOld 8192 8208) := by decide +kernel
  obtain ⟨-, hsame⟩ := parse_ignores_interleaving hwf hwf' H
  exact ⟨hrun, hrun', (hsame _ _ hrun hrun').1, by decide⟩

end Multiboot2

end DoomOs
