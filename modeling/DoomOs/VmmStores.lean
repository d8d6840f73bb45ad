/-
# Storing bytes through the page tables

What kernel code does with the memory that it is given: it stores bytes through the page
tables, as the loop of `memset` in `kernel/runtime/memory.cpp`.  The bytes lie in the memory
that the tables lie in (`Kernel.mem`), so a store may reach a table.  One through a page of an
allocation does not, as the frame behind it is no table (`Window.setByte`), and changing
protections does not reach such a frame either (`protect_allocation`).
-/
import DoomOs.VmmAnswers

namespace DoomOs

open Comp Paging RadixFormat Mmu

/-! ## Bytes in words -/

/-- Byte `j` of a word, from the lowest on. -/
def wordByte (w : Entry) (j : ℕ) : BitVec 8 := w.extractLsb' (8 * j) 8

/-- A word with another byte `j`. -/
def withByte (w : Entry) (j : ℕ) (v : BitVec 8) : Entry :=
  (w &&& ~~~((BitVec.allOnes 8).setWidth 64 <<< (8 * j))) ||| (v.setWidth 64 <<< (8 * j))

theorem wordByte_withByte (w : Entry) (v : BitVec 8) {j j' : ℕ} (hj' : j' < 8) :
    wordByte (withByte w j v) j' = if j' = j then v else wordByte w j' := by
  apply BitVec.eq_of_getLsbD_eq
  intro i hi
  have hlt : 8 * j' + i < 64 := by omega
  rw [wordByte, withByte, BitVec.getLsbD_extractLsb', BitVec.getLsbD_or, BitVec.getLsbD_and,
    BitVec.getLsbD_not, BitVec.getLsbD_shiftLeft, BitVec.getLsbD_shiftLeft,
    BitVec.getLsbD_setWidth, BitVec.getLsbD_setWidth, BitVec.getLsbD_allOnes]
  by_cases hj : j' = j
  · subst hj
    have h64 : i < 64 := by omega
    simp [hi, hlt, h64]
  · rw [if_neg hj, wordByte, BitVec.getLsbD_extractLsb']
    rcases Nat.lt_or_gt_of_ne hj with hlt' | hgt
    · simp [hi, hlt, show 8 * j' + i < 8 * j by omega]
    · have h8 : ¬8 * j' + i - 8 * j < 8 := by omega
      simp [hi, hlt, h8, BitVec.getLsbD_of_ge v _ (not_lt.mp h8)]

namespace Kernel

variable (s : Kernel)

/-- The byte at a physical address. -/
def byteAt (pa : ℕ) : BitVec 8 := wordByte (s.mem (pa - pa % 4096) (pa % 4096 / 8)) (pa % 8)

/-- Writing the byte at a physical address. -/
def setByte (pa : ℕ) (v : BitVec 8) : Kernel :=
  s.poke (pa - pa % 4096) (pa % 4096 / 8)
    (withByte (s.mem (pa - pa % 4096) (pa % 4096 / 8)) (pa % 8) v)

theorem mem_setByte (pa : ℕ) (v : BitVec 8) {t : ℕ} (h : t ≠ pa - pa % 4096) (i : ℕ) :
    (s.setByte pa v).mem t i = s.mem t i :=
  store_of_ne (fun h' => h h'.1)

theorem byteAt_setByte (pa : ℕ) (v : BitVec 8) (q : ℕ) :
    (s.setByte pa v).byteAt q = if q = pa then v else s.byteAt q := by
  by_cases hword : q - q % 4096 = pa - pa % 4096 ∧ q % 4096 / 8 = pa % 4096 / 8
  · have hbyte : q % 8 = pa % 8 ↔ q = pa := by omega
    rw [byteAt, setByte, hword.1, hword.2]
    show wordByte (store s.mem _ _ _ _ _) _ = _
    rw [store_self, wordByte_withByte _ _ (Nat.mod_lt q (by norm_num)), byteAt, hword.1, hword.2]
    simp only [hbyte]
  · rw [if_neg (fun h => hword (by rw [h]; exact ⟨rfl, rfl⟩)), byteAt, byteAt]
    exact congrArg (wordByte · _) (store_of_ne hword)

end Kernel

/-! ## Stores -/

namespace Vmm

variable (L : Layout) (feat : Features) {ε : Type}

/-- What is loaded from an address. -/
def loadByte (s : Vmm) (va : ℕ) : Option (BitVec 8) :=
  ((kernelSpace L feat).translation s.kernel va).map fun q => s.kernel.byteAt q.1

/-- A store of one byte.  It faults where nothing is mapped and where the page may not be
written. -/
def storeByte (va : ℕ) (v : BitVec 8) : Comp Fault ε Vmm Unit := do
  match ← gets fun s => (kernelSpace L feat).translation s.kernel va with
  | none => stop (.pageFault va)
  | some (phys, p) =>
    if p.write then modify fun s => { s with kernel := s.kernel.setByte phys v }
    else stop (.pageFault va)

/-- `memset`. -/
def memset (dest : ℕ) (value : BitVec 32) (count : ℕ) : Comp Fault ε Vmm Unit :=
  forRange count fun i => storeByte L feat (u64 (dest + i)) (value.setWidth 8)

variable {L} {feat} {k₀ : Kernel} {s s' : Vmm} {live held : Set ℕ} {x va base n phys : ℕ}
  {p : PageProt}

/-! ## The frames behind the window -/

/-- The frame behind an address of the window. -/
theorem frame_of_translation {s₀ s : Kernel} (H : Window L feat s₀ live held s) (hx : x ∈ window)
    (h : (kernelSpace L feat).translation s x = some (phys, p)) :
    phys - phys % 4096 ∈ backing L feat s := by
  obtain ⟨d, e, hm⟩ := RadixTree.exists_maps H.shape (valid_window hx) (by rw [h]; exact nofun)
  obtain rfl := H.depth x hx d e hm
  rw [RadixTree.translation_of_maps H.shape (valid_window hx) hm] at h
  have hphys : address e + x % 4096 = phys := congrArg Prod.fst (Option.some.inj h)
  have hal := address_mod e
  rw [show phys - phys % 4096 = address e by omega]
  exact ⟨x, hx, e, hm, rfl⟩

/-- A page behind the window is neither free nor a table. -/
theorem Window.not_table {s₀ s : Kernel} (H : Window L feat s₀ live held s) {f : ℕ}
    (hf : f ∈ backing L feat s) : ∀ y k, (kernelSpace L feat).tableOn s y k ≠ some f := by
  have hnot : f ∉ owned L feat s := fun ho =>
    Set.disjoint_left.mp H.backing_disjoint hf (Or.inl ho)
  exact (not_used (H.frame_of_backing hf).2.2 hnot).2

/-- Memory that keeps the tables keeps the window. -/
theorem Window.of_read_eq {s₀ s s' : Kernel} (H : Window L feat s₀ live ∅ s)
    (hpmm : s'.pmm = s.pmm)
    (hread : ∀ y k c, (kernelSpace L feat).tableOn s y k = some c → ∀ i, s'.mem c i = s.mem c i) :
    Window L feat s₀ live ∅ s' ∧ (kernelSpace L feat).Untouched (fun _ => False) s s' := by
  have hread' : ∀ y k c, (kernelSpace L feat).tableOn s y k = some c → ∀ i,
      (kernelSpace L feat).env.read s' c i = (kernelSpace L feat).env.read s c i := hread
  have hav : s'.avail = s.avail := by
    unfold Kernel.avail
    rw [hpmm]
  have howned : owned L feat s' = owned L feat s := by
    have htab := RadixTree.tables_of_read_eq hread'
    ext t
    simp only [owned, RadixTree.owned, htab]
    show (t ∈ s'.avail ∨ _) ∧ _ ↔ (t ∈ s.avail ∨ _) ∧ _
    rw [hav]
  have hgood : s'.pmm.Inv := by
    rw [hpmm]
    exact H.shape.good
  refine ⟨H.of_same (H.shape.of_read_eq hread' hgood (fun y k c hc => ?_))
    (fun t ht => H.image t (hav ▸ ht)) (fun y k t _ ht => ?_) (fun x hx k e hm => ?_)
    (fun x hx g => ?_) (by rw [howned]) (by rw [howned]; exact H.held_disjoint), ?_⟩
  · show c ∉ s'.avail
    rw [hav]
    exact H.shape.not_avail y k c hc
  · rw [RadixTree.tableOn_of_read_eq hread']
    exact ht
  · exact H.depth x hx k e ((RadixTree.maps_of_read_eq hread').mp hm)
  · exact exists_congr (fun e => and_congr_left' (RadixTree.maps_of_read_eq hread'))
  · exact ⟨fun y _ k => RadixTree.tableOn_of_read_eq hread' y k,
      fun y _ k e => RadixTree.maps_of_read_eq hread'⟩

/-- **A store through the window** leaves the page tables alone. -/
theorem Window.setByte {s₀ s : Kernel} (H : Window L feat s₀ live ∅ s) (hx : x ∈ window)
    (h : (kernelSpace L feat).translation s x = some (phys, p)) (v : BitVec 8) :
    Window L feat s₀ live ∅ (s.setByte phys v) ∧
      (kernelSpace L feat).Untouched (fun _ => False) s (s.setByte phys v) := by
  refine H.of_read_eq rfl fun y k c hc i => s.mem_setByte phys v ?_ i
  rintro rfl
  exact H.not_table (frame_of_translation H hx h) y k hc

/-- Stores through the window keep the invariant. -/
theorem setByte_after (H : Inv L feat k₀ s) (hx : x ∈ window)
    (h : (kernelSpace L feat).translation s.kernel x = some (phys, p)) (v : BitVec 8) :
    After L feat k₀ (fun _ => False) s { s with kernel := s.kernel.setByte phys v } := by
  obtain ⟨hwindow, hsame⟩ := H.window.setByte hx h v
  exact ⟨⟨H.table, hwindow⟩, hsame⟩

/-- What is known of a state when nothing was remapped on the way to it. -/
theorem translation_of_after (H : Inv L feat k₀ s) (h : After L feat k₀ (fun _ => False) s s')
    (hx : x ∈ window) : (kernelSpace L feat).translation s'.kernel x
      = (kernelSpace L feat).translation s.kernel x :=
  h.elsewhere.translation H.window.shape h.inv.window.shape (valid_window hx) not_false

theorem storeByte_run (h : (kernelSpace L feat).translation s.kernel x = some (phys, p))
    (hw : p.write = true) (v : BitVec 8) :
    (storeByte L feat x v : Comp Fault ε Vmm Unit).run s
      = .ok () { s with kernel := s.kernel.setByte phys v } := by
  rw [storeByte, run_gets_bind, h]
  dsimp only
  rw [if_pos hw]
  rfl

/-- The bytes of a range are mapped and may be written. -/
def Writable (L : Layout) (feat : Features) (s : Vmm) (base n : ℕ) : Prop :=
  ∀ i < n, base + i ∈ window ∧ ∃ phys p,
    (kernelSpace L feat).translation s.kernel (base + i) = some (phys, p) ∧ p.write = true

/-- **`memset`** fills a range of the window and changes no mapping. -/
theorem memset_sat (H : Inv L feat k₀ s) (hrange : Writable L feat s base n)
    (value : BitVec 32) :
    ((memset L feat base value n : Comp Fault ε Vmm Unit).run s).Sat
      (fun _ s' => After L feat k₀ (fun _ => False) s s' ∧ s'.table = s.table ∧
        ∀ i < n, loadByte L feat s' (base + i) = some (value.setWidth 8))
      (fun _ _ => False) := by
  rw [memset]
  refine sat_forRange (I := fun j s₁ => After L feat k₀ (fun _ => False) s s₁ ∧
    s₁.table = s.table ∧ ∀ i < j, loadByte L feat s₁ (base + i) = some (value.setWidth 8))
    (fun j s₁ hj h₁ => ?_) ⟨H.after, rfl, fun i hi => absurd hi (Nat.not_lt_zero i)⟩
  obtain ⟨hafter, htable, hfilled⟩ := h₁
  obtain ⟨hwin, phys, p, htr, hw⟩ := hrange j hj
  have hlt := lt_of_mem_window hwin
  rw [← translation_of_after H hafter hwin] at htr
  rw [u64_of_lt (by omega), storeByte_run htr hw]
  have hstore := setByte_after hafter.inv hwin htr (value.setWidth 8)
  refine ⟨hafter.trans hstore, htable, fun i hi => ?_⟩
  rw [loadByte, translation_of_after hafter.inv hstore (hrange i (by omega)).1]
  -- the byte written now is the one asked for, and so are the others
  rcases Nat.lt_succ_iff_lt_or_eq.mp hi with hlt' | rfl
  · have hold := hfilled i hlt'
    rw [loadByte, Option.map_eq_some_iff] at hold
    obtain ⟨q, hq, hbyte⟩ := hold
    rw [hq, Option.map_some, Kernel.byteAt_setByte, hbyte, ite_self]
  · rw [htr, Option.map_some, Kernel.byteAt_setByte, if_pos rfl]

/-! ## What `alloc` maps -/

/-- The pages that were mapped have the leaves that were asked for. -/
theorem PagesMapped.maps {b s₀ s s' : Kernel} (H : Since L feat b s₀ live ∅ s)
    (hal : base % 4096 = 0) (hwin : ∀ i < n, base + i * 4096 ∈ window)
    (hnew : ∀ x ∈ bytesAt base (n * 4096), x ∉ live) (h : PagesMapped L feat p base s n s') :
    ∀ i < n, ∃ f, (kernelSpace L feat).Maps s' (base + i * 4096) 3
      (leafEntry feat f .size4K p) := by
  have hrun := h.inv (I := fun i s₁ => PagesMapped L feat p base s i s₁ ∧ ∀ j < i, ∃ f,
    (kernelSpace L feat).Maps s₁ (base + j * 4096) 3 (leafEntry feat f .size4K p))
    ⟨.none, fun j hj => absurd hj (Nat.not_lt_zero j)⟩ (fun i s₁ s₂ hi _ h₁ hpage => ?_)
  · exact hrun.2
  obtain ⟨hmapped, hleaves⟩ := h₁
  refine ⟨hmapped.next hpage, fun j hj => ?_⟩
  obtain ⟨f, t₁, t₂, htake, -, -, hgrow, hput⟩ := hpage
  have H₁ := H.pagesMapped hal (fun k hk => hwin k (by omega))
    (fun x hx => hnew x (bytesAt_mono base hi.le hx)) hmapped
  have H₂ := H₁.here.take rfl htake
  by_cases hlast : j = i
  · rw [hlast]
    refine ⟨f, (hput.maps _ _ _).mpr ?_⟩
    rw [if_pos (Agree.refl _ _)]
    exact ⟨rfl, rfl, present_leafEntry _ _ _ _⟩
  · -- the earlier pages stay
    obtain ⟨g, hg⟩ := hleaves j (by omega)
    refine ⟨g, (hput.maps _ _ _).mpr ?_⟩
    rw [if_neg, H₂.maps_extends hgrow (hwin j (by omega)), maps_of_mem htake.mem]
    · exact hg
    · rw [agree_window (hwin i hi) (hwin j (by omega))]
      omega

/-- The range `[base, base + n)` is an allocation, and its pages have the protection `p`. -/
structure Allocated (L : Layout) (feat : Features) (s : Vmm) (base n : ℕ) (p : PageProt) :
    Prop where
  entry : ∃ i < s.table.count, s.table.allocations i = ⟨base, n⟩
  pages : ∀ x ∈ bytesAt base n, ∃ phys, (kernelSpace L feat).translation s.kernel x = some (phys, p)

/-- An allocation is in the window. -/
theorem Allocated.mem_window (H : Inv L feat k₀ s) (h : Allocated L feat s base n p)
    (hx : x ∈ bytesAt base n) : x ∈ window := by
  obtain ⟨i, hi, hentry⟩ := h.entry
  refine window_of_mem H.table hi ?_
  rw [Allocation.addresses, hentry]
  exact hx

theorem Allocated.writable (H : Inv L feat k₀ s) (h : Allocated L feat s base n p)
    (hw : p.write = true) : Writable L feat s base n := by
  intro i hi
  have hmem : base + i ∈ bytesAt base n := ⟨Nat.le_add_right _ _, by omega⟩
  obtain ⟨phys, htr⟩ := h.pages _ hmem
  exact ⟨h.mem_window H hmem, phys, p, htr, hw⟩

/-- Stores leave allocations as they are. -/
theorem Allocated.after (H : Inv L feat k₀ s) (h : Allocated L feat s base n p)
    (hafter : After L feat k₀ (fun _ => False) s s') (htable : s'.table = s.table) :
    Allocated L feat s' base n p := by
  refine ⟨?_, fun x hx => ?_⟩
  · rw [htable]
    exact h.entry
  · rw [translation_of_after H hafter (h.mem_window H hx)]
    exact h.pages x hx

/-- **`alloc`** makes an allocation with the protection that is asked for. -/
theorem alloc_allocated (H : Inv L feat k₀ s) (bytes : ℕ) (p : PageProt) :
    ((alloc L feat bytes p).run s).Sat
      (fun base s' => After L feat k₀ (· = 384) s s' ∧ bytes ≠ 0 ∧ bytes ≤ vmallocSize ∧
        Allocated L feat s' base (alignUp bytes frameSize) (readBack feat p))
      (fun _ s' => After L feat k₀ (· = 384) s s') := by
  refine ((alloc_after H bytes p).and (alloc_cases H bytes p)).mono (fun base s' h => ?_)
    (fun _ _ h => h.1)
  obtain ⟨hafter, index, n, hplaced, hbase, hins, hmapped⟩ := h
  obtain ⟨hpos, hle⟩ := not_or.mp hplaced.accepted
  refine ⟨hafter, hpos, not_lt.mp hle, ?_⟩
  rw [hplaced.size]
  have hentry : ∃ i < s'.table.count, s'.table.allocations i = ⟨base, n * 4096⟩ := by
    have hcount := hins.count
    have hindex := hplaced.index_le
    exact ⟨index, by omega, hins.self⟩
  refine ⟨hentry, fun x hx => ?_⟩
  have hbase_mem := hplaced.base_mem
  have hlast_mem := hplaced.last_mem
  have hal := hplaced.aligned
  have hnew := hplaced.new
  rw [← hbase] at hbase_mem hlast_mem hal hnew
  have hwin := page_mem_window hbase_mem hlast_mem
  obtain ⟨h1, h2⟩ := hx
  -- the page of the address is one of those that were mapped
  have hi : (x - base) / 4096 < n := by omega
  obtain ⟨f, hm⟩ := hmapped.maps H.window.since hal hwin hnew _ hi
  have hx : x ∈ window := ⟨hbase_mem.1.trans h1, h2.trans hlast_mem.2⟩
  have hmx := hm.congr ((agree_window (hwin _ hi) hx).mpr (by omega))
  have htr := RadixTree.translation_of_maps hafter.inv.window.shape (valid_window hx) hmx
  rw [prot_leafEntry] at htr
  exact ⟨_, htr⟩

/-- **`protect`** on a whole allocation gives it the protection that is asked for, and not a
byte of it changes. -/
theorem protect_allocation (H : Inv L feat k₀ s) {bytes : ℕ} {p₀ : PageProt} (hpos : bytes ≠ 0)
    (hle : bytes ≤ vmallocSize) (h : Allocated L feat s base (alignUp bytes frameSize) p₀)
    (p : PageProt) :
    ((protect L feat base bytes p).run s).Sat
      (fun _ s' => After L feat k₀ (· = 384) s s' ∧
        Allocated L feat s' base (alignUp bytes frameSize) (readBack feat p) ∧
        ∀ x ∈ bytesAt base (alignUp bytes frameSize), loadByte L feat s' x = loadByte L feat s x)
      (fun _ _ => False) := by
  obtain ⟨i, hi, hentry⟩ := h.entry
  have hw := H.table.inWindow i hi
  have hfirst := hw.first_le
  have hlast := hw.last_le
  have hal := hw.base_aligned
  have hend := AllocationTable.vmalloc_end
  rw [hentry] at hfirst hlast hal
  dsimp only at hfirst hlast hal
  have hsize : (bytes + 4095) / 4096 * 4096 = alignUp bytes frameSize := by
    unfold vmallocSize at hle
    rw [frameSize, alignUp_4096 (by omega)]
    omega
  have hlt : bytes < 2 ^ 64 := by
    unfold vmallocSize at hle
    omega
  have hbase : base < 2 ^ 64 := by omega
  rcases protect_cases H hbase hlt p with ⟨-, hno⟩ | ⟨-, -, j, hj, hjfirst, hjlast, hrun⟩
  · refine absurd ⟨by omega, hal, i, hi, ?_, ?_⟩ hno
    · rw [hentry]
    · rw [hentry, hsize]
  rw [hsize] at hjlast hrun
  have hafter := protectRange_after H p hj hjfirst hjlast hal (by omega) (by omega)
  rw [Nat.add_sub_cancel_left, ← hrun] at hafter
  refine hafter.mono (fun _ s' h' => ?_) (fun _ _ h' => h')
  obtain ⟨hafter, htable, hwrites, hprotects⟩ := h'
  have hpage : ∀ x ∈ bytesAt base (alignUp bytes frameSize), ∃ phys p₁,
      (kernelSpace L feat).translation s.kernel x = some (phys, p₁) ∧
      (kernelSpace L feat).translation s'.kernel x = some (phys, readBack feat p) := by
    intro x hx
    have hcase := hprotects x (valid_window (h.mem_window H hx))
    have hin : base ≤ x ∧ x < base + alignUp bytes frameSize := hx
    rw [if_pos hin] at hcase
    exact hcase
  refine ⟨hafter, ⟨by rw [htable]; exact h.entry, fun x hx => ?_⟩, fun x hx => ?_⟩
  · obtain ⟨phys, -, -, htr⟩ := hpage x hx
    exact ⟨phys, htr⟩
  · obtain ⟨phys, p₁, htr, htr'⟩ := hpage x hx
    have hframe := frame_of_translation H.window (h.mem_window H hx) htr
    have hnot : phys - phys % 4096 ∉ owned L feat s.kernel := fun ho =>
      Set.disjoint_left.mp H.window.backing_disjoint hframe (Or.inl ho)
    rw [loadByte, loadByte, htr, htr', Option.map_some, Option.map_some, Kernel.byteAt,
      Kernel.byteAt, hwrites.mem _ (H.window.frame_of_backing hframe).2.2 hnot]

end Vmm

end DoomOs
