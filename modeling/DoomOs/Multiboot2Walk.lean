/-
# The checked and the unchecked walk over the boot tags

`well_formed` is the only guard in front of an iteration that checks nothing.
`Decodes` says what a sequence of tags is without walking it; `scan_spec` shows that
the checked walk accepts exactly these, and `Decodes.tagsFrom` that the unchecked one
then takes the same steps and stops at the same place.
-/
import DoomOs.Multiboot2

namespace DoomOs

/-! ## Numbers -/

theorem leAt_lt (m : Memory) : ∀ n a : ℕ, leAt m a n < 256 ^ n := by
  intro n
  induction n with
  | zero => intro a; exact Nat.one_pos
  | succ n ih =>
    intro a
    have hbyte := (m a).toNat_lt
    have hrest := ih (a + 1)
    rw [leAt, Nat.pow_succ]
    omega

theorem leAt_congr {m m' : Memory} : ∀ {n a : ℕ}, (∀ i < n, m' (a + i) = m (a + i)) →
    leAt m' a n = leAt m a n := by
  intro n
  induction n with
  | zero => exact fun _ => rfl
  | succ n ih =>
    intro a h
    have hrest : ∀ i < n, m' (a + 1 + i) = m (a + 1 + i) := by
      intro i hi
      rw [show a + 1 + i = a + (i + 1) by omega]
      exact h (i + 1) (by omega)
    have hfirst : m' a = m a := h 0 (Nat.succ_pos n)
    rw [leAt, leAt, ih hrest, hfirst]

theorem alignUp_8 {v : ℕ} (h : v + 7 < 2 ^ 64) : alignUp v 8 = (v + 7) / 8 * 8 := by
  have hdown := alignDown_two_pow (v + 7) 3
  norm_num at hdown
  rw [alignUp, show v + 8 - 1 = v + 7 by omega, u64_of_lt h, hdown]
  omega

namespace Multiboot2

theorem size_tagAt_lt (m : Memory) (a : ℕ) : (tagAt m a).size < 2 ^ 32 :=
  lt_of_lt_of_eq (leAt_lt m 4 (a + 4)) (by norm_num)

/-- The distance to the next tag. -/
theorem step_tagAt (m : Memory) (a : ℕ) :
    alignUp (tagAt m a).size tagAlignment = ((tagAt m a).size + 7) / 8 * 8 := by
  have hlt := size_tagAt_lt m a
  rw [tagAlignment, alignUp_8 (by omega)]

/-! ## What a sequence of tags is -/

/-- The bytes from offset `o` on are tags at the offsets `offs`, each with its header,
its size and its padding inside the `total` bytes, and then an END tag at offset `last`. -/
inductive Decodes (m : Memory) (h total : ℕ) : (o : ℕ) → (offs : List ℕ) → (last : ℕ) → Prop
  | finish {o : ℕ} : o + 8 ≤ total → (tagAt m (h + o)).type = .endTag →
      (tagAt m (h + o)).size = 8 → Decodes m h total o [] o
  | tag {o last : ℕ} {offs : List ℕ} : (tagAt m (h + o)).type ≠ .endTag →
      8 ≤ (tagAt m (h + o)).size → o + (tagAt m (h + o)).size ≤ total →
      o + ((tagAt m (h + o)).size + 7) / 8 * 8 ≤ total →
      Decodes m h total (o + ((tagAt m (h + o)).size + 7) / 8 * 8) offs last →
      Decodes m h total o (o :: offs) last

variable {m : Memory} {h total o last : ℕ} {offs : List ℕ}

/-- The headers lie inside, eight bytes apart at least. -/
theorem Decodes.length_le (H : Decodes m h total o offs last) :
    o + 8 * offs.length + 8 ≤ total := by
  induction H with
  | finish hle _ _ => simpa using hle
  | tag _ hsize _ _ _ ih =>
    rw [List.length_cons]
    omega

theorem Decodes.header_mem (H : Decodes m h total o offs last) :
    ∀ i ∈ offs ++ [last], o ≤ i ∧ i + 8 ≤ total := by
  induction H with
  | finish hle _ _ =>
    intro i hi
    obtain rfl := List.mem_singleton.mp hi
    exact ⟨le_rfl, hle⟩
  | tag _ hsize hend _ _ ih =>
    intro i hi
    rcases List.mem_cons.mp hi with rfl | hi
    · exact ⟨le_rfl, by omega⟩
    · obtain ⟨hle, hlt⟩ := ih i hi
      exact ⟨by omega, hlt⟩

/-- A tag lies inside with all its bytes. -/
theorem Decodes.tag_mem (H : Decodes m h total o offs last) :
    ∀ i ∈ offs, (tagAt m (h + i)).type ≠ .endTag ∧ 8 ≤ (tagAt m (h + i)).size ∧
      i + (tagAt m (h + i)).size ≤ total := by
  induction H with
  | finish _ _ _ =>
    intro i hi
    cases hi
  | tag htype hsize hend _ _ ih =>
    intro i hi
    rcases List.mem_cons.mp hi with rfl | hi
    · exact ⟨htype, hsize, hend⟩
    · exact ih i hi

theorem Decodes.type_last (H : Decodes m h total o offs last) :
    (tagAt m (h + last)).type = .endTag := by
  induction H with
  | finish _ htype _ => exact htype
  | tag _ _ _ _ _ ih => exact ih

/-! ## The checked walk -/

/-- **The checked walk decides `Decodes`**, and reads the headers it speaks of.  The
bound on the iterations is met, since every tag takes up eight bytes. -/
theorem scan_spec (m : Memory) (h total : ℕ) : ∀ fuel o : ℕ, o ≤ total → total < o + 8 * fuel →
    ∃ r, scan m h total fuel o = some r ∧
      (r.2 = true → ∃ offs last, Decodes m h total o offs last) ∧
      ∀ offs last, Decodes m h total o offs last → r = (offs ++ [last], true) := by
  intro fuel
  induction fuel with
  | zero =>
    intro o hle hfuel
    omega
  | succ fuel ih =>
    intro o hle hfuel
    have hstep := step_tagAt m (h + o)
    simp only [scan, hstep]
    split_ifs with hroom hsize htype hpad
    · -- no header fits any more
      refine ⟨_, rfl, fun h => absurd h Bool.false_ne_true, fun offs last H => ?_⟩
      have := H.length_le
      omega
    · -- the size is out of range
      refine ⟨_, rfl, fun h => absurd h Bool.false_ne_true, fun offs last H => ?_⟩
      cases H with
      | finish hend _ height => omega
      | tag _ hmin hend _ _ => omega
    · -- the END tag
      refine ⟨_, rfl, fun h => ⟨[], o, ?_⟩, fun offs last H => ?_⟩
      · exact .finish (by omega) htype (by simpa using h)
      · cases H with
        | finish _ _ height => simp [height]
        | tag hne _ _ _ _ => exact absurd htype hne
    · -- the padding does not fit
      refine ⟨_, rfl, fun h => absurd h Bool.false_ne_true, fun offs last H => ?_⟩
      cases H with
      | finish _ hend _ => exact absurd hend htype
      | tag _ _ _ hfits _ => omega
    · -- a tag, and the walk goes on behind it
      obtain ⟨r, hr, hsound, hcomplete⟩ := ih (o + ((tagAt m (h + o)).size + 7) / 8 * 8)
        (by omega) (by omega)
      refine ⟨_, by rw [hr]; rfl, fun hv => ?_, fun offs last H => ?_⟩
      · obtain ⟨offs, last, H⟩ := hsound hv
        exact ⟨o :: offs, last, .tag htype (by omega) (by omega) (by omega) H⟩
      · cases H with
        | finish _ hend _ => exact absurd hend htype
        | tag _ _ _ _ H => rw [hcomplete _ _ H]; rfl

/-- `well_formed` always comes to a verdict. -/
theorem wellFormed_total (m : Memory) (h : ℕ) : ∃ b, wellFormed m h = some b := by
  simp only [wellFormed]
  split_ifs with hmin hwrap
  · exact ⟨_, rfl⟩
  · exact ⟨_, rfl⟩
  · obtain ⟨r, hr, -, -⟩ := scan_spec m h (totalSize m h) (totalSize m h / 8 + 1) 8
      (by omega) (by omega)
    exact ⟨r.2, by rw [hr]; rfl⟩

/-- What `well_formed` accepts. -/
theorem wellFormed_iff (m : Memory) (h : ℕ) :
    wellFormed m h = some true ↔ 8 ≤ totalSize m h ∧ h + totalSize m h < 2 ^ 64 ∧
      ∃ offs last, Decodes m h (totalSize m h) 8 offs last := by
  simp only [wellFormed]
  split_ifs with hmin hwrap
  · constructor
    · intro hv
      cases hv
    · rintro ⟨hle, -, -⟩
      omega
  · constructor
    · intro hv
      cases hv
    · rintro ⟨-, hlt, -⟩
      omega
  · obtain ⟨r, hr, hsound, hcomplete⟩ := scan_spec m h (totalSize m h) (totalSize m h / 8 + 1) 8
      (by omega) (by omega)
    rw [hr, Option.map_some, Option.some.injEq]
    constructor
    · intro hv
      exact ⟨by omega, by omega, hsound hv⟩
    · rintro ⟨-, -, offs, last, H⟩
      rw [hcomplete offs last H]

/-! ## The unchecked walk -/

/-- On a sequence of tags the iteration takes the steps of the checked walk. -/
theorem Decodes.tagsFrom (hwrap : h + total < 2 ^ 64) (H : Decodes m h total o offs last) :
    ∀ fuel, offs.length < fuel →
      tagsFrom m fuel (h + o) = some (offs.map fun i => tagAt m (h + i), h + last) := by
  induction H with
  | finish _ htype _ =>
    intro fuel hfuel
    obtain ⟨fuel, rfl⟩ : ∃ n, fuel = n + 1 := ⟨fuel - 1, by omega⟩
    rw [Multiboot2.tagsFrom, if_pos htype, List.map_nil]
  | @tag o last offs htype hsize hend hpad _ ih =>
    intro fuel hfuel
    obtain ⟨fuel, rfl⟩ : ∃ n, fuel = n + 1 := ⟨fuel - 1, by omega⟩
    rw [List.length_cons] at hfuel
    have hnext : nextTag m (h + o) = h + (o + ((tagAt m (h + o)).size + 7) / 8 * 8) := by
      rw [nextTag, step_tagAt, u64_of_lt (by omega), Nat.add_assoc]
    rw [Multiboot2.tagsFrom, if_neg htype, hnext, ih fuel (by omega), Option.map_some,
      List.map_cons]

/-- **The two walks agree.**  `well_formed` ends, it accepts exactly the buffers that
hold a sequence of tags and do not wrap, and on these the iteration that checks nothing
ends too: it visits the tags at the offsets the checked walk has read, in this order, it
stops at the END tag, and every header it reads lies inside the buffer. -/
theorem checked_and_unchecked_walks_agree (m : Memory) (h : ℕ) :
    (∃ b, wellFormed m h = some b) ∧
      (wellFormed m h = some true ↔ 8 ≤ totalSize m h ∧ h + totalSize m h < 2 ^ 64 ∧
        ∃ offs last, Decodes m h (totalSize m h) 8 offs last) ∧
      (wellFormed m h = some true → ∃ offs last fuel,
        Decodes m h (totalSize m h) 8 offs last ∧
        scan m h (totalSize m h) (totalSize m h / 8 + 1) 8 = some (offs ++ [last], true) ∧
        tags m h fuel = some (offs.map fun o => tagAt m (h + o), h + last) ∧
        (tagAt m (h + last)).type = .endTag ∧
        ∀ o ∈ offs ++ [last], 8 ≤ o ∧ o + 8 ≤ totalSize m h) := by
  refine ⟨wellFormed_total m h, wellFormed_iff m h, fun hwf => ?_⟩
  obtain ⟨hmin, hwrap, offs, last, H⟩ := (wellFormed_iff m h).mp hwf
  obtain ⟨r, hr, -, hcomplete⟩ := scan_spec m h (totalSize m h) (totalSize m h / 8 + 1) 8
    hmin (by omega)
  refine ⟨offs, last, offs.length + 1, H, ?_, ?_, H.type_last, H.header_mem⟩
  · rw [hr, hcomplete offs last H]
  · rw [tags, u64_of_lt (by omega)]
    exact H.tagsFrom hwrap _ (Nat.lt_succ_self _)

-- a header of 16 bytes with nothing but the END tag behind it
example : wellFormed (fun a => if a = 0 then 16 else if a = 12 then 8 else 0) 0 = some true := by
  decide

end Multiboot2

end DoomOs
