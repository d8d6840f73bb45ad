/-
# Frames and pages of the window

What holds of the page tables and the frame allocator while the virtual memory manager
works on its window.  `Window s₀ live held s` says of a state `s`, reached since `s₀`:

* the addresses of the window that are mapped are those in `live`, all by 4 KiB leaves,
  and no frame is behind two pages;
* the frames that could be handed out at `s₀` are still free, are tables of the tree, are
  behind a page of the window, or are in `held`, and never two of these at once.

Each thing that the manager does to the page tables is one transition of `Window`: taking
a frame, giving one back, growing the tree, mapping a page, removing a page, changing the
protection of a page and mapping something outside the window.
-/
import DoomOs.MmuInit
import DoomOs.VmmTable

namespace DoomOs

open Comp Paging RadixFormat Mmu

namespace Vmm

variable {L : Layout} {feat : Features} {s₀ s s' : Kernel} {live held : Set ℕ}
  {x y va f k d : ℕ} {e : Entry} {m : Mapping}

/-! ## The window -/

/-- The addresses from `VMALLOC_BASE` on. -/
def window : Set ℕ := {x | vmallocBase ≤ x ∧ x < vmallocBase + vmallocSize}

/-- The window is what one entry of the root covers. -/
theorem index_window (h : x ∈ window) : index 4 x = 384 := by
  obtain ⟨hle, hlt⟩ := h
  simp only [vmallocBase, vmallocSize] at hle hlt
  rw [index_eq]
  omega

theorem valid_window (h : x ∈ window) : valid x = true := by
  obtain ⟨hle, hlt⟩ := h
  simp only [vmallocBase, vmallocSize] at hle hlt
  rw [valid_iff]
  omega

theorem mem_window_of_index (hx : valid x = true) (h4 : index 4 x = 384) : x ∈ window := by
  rw [valid_iff] at hx
  rw [index_eq] at h4
  show vmallocBase ≤ x ∧ x < vmallocBase + vmallocSize
  simp only [vmallocBase, vmallocSize]
  omega

theorem lt_of_mem_window (h : x ∈ window) : x + 4096 < 2 ^ 64 := by
  obtain ⟨-, hlt⟩ := h
  simp only [vmallocBase, vmallocSize] at hlt
  omega

/-- Addresses of the window that meet the same 4 KiB leaf are in the same page. -/
theorem agree_window (hx : x ∈ window) (hy : y ∈ window) :
    format.Agree 4 x y ↔ x / 4096 = y / 4096 := by
  obtain ⟨hle, hlt⟩ := hx
  obtain ⟨hle', hlt'⟩ := hy
  simp only [vmallocBase, vmallocSize] at hle hlt hle' hlt'
  rw [agree_iff (le_refl 3)]
  simp only [span]
  omega

/-- The frame `f` is behind the 4 KiB leaf that maps `x`. -/
def Backs (L : Layout) (feat : Features) (s : Kernel) (x f : ℕ) : Prop :=
  ∃ e, (kernelSpace L feat).Maps s x 3 e ∧ address e = f

/-- The frames behind pages of the window. -/
def backing (L : Layout) (feat : Features) (s : Kernel) : Set ℕ :=
  {f | ∃ x ∈ window, Backs L feat s x f}

theorem Backs.unique (h : Backs L feat s x f) {f' : ℕ} (h' : Backs L feat s x f') : f = f' := by
  obtain ⟨e, hm, rfl⟩ := h
  obtain ⟨e', hm', rfl⟩ := h'
  rw [(hm.unique hm').2]

/-- A page has one frame. -/
theorem Backs.congr (h : Backs L feat s x f) (hx : x ∈ window) (hy : y ∈ window)
    (hpage : x / 4096 = y / 4096) : Backs L feat s y f := by
  obtain ⟨e, hm, rfl⟩ := h
  exact ⟨e, hm.congr ((agree_window hx hy).mpr hpage), rfl⟩

/-- The frames that the manager can account for: free ones and tables, outside the image. -/
def owned (L : Layout) (feat : Features) (s : Kernel) : Set ℕ :=
  (kernelSpace L feat).owned (kernelSpec L.image) s

/-- The state of the page tables and the frame allocator, since `s₀`. -/
structure Window (L : Layout) (feat : Features) (s₀ : Kernel) (live held : Set ℕ) (s : Kernel) :
    Prop where
  start : Ready L feat s₀
  shape : (kernelSpace L feat).Shape (kernelSpec L.image) s
  image : ∀ t ∈ s.avail, t ∉ L.image.pages
  kept : ∀ y k t, (kernelSpace L feat).tableOn s₀ y (k + 1) = some t →
    (kernelSpace L feat).tableOn s y (k + 1) = some t
  depth : ∀ x ∈ window, ∀ k e, (kernelSpace L feat).Maps s x k e → k = 3
  mapped : ∀ x ∈ window, x ∈ live ↔ ∃ f, Backs L feat s x f
  once : ∀ x ∈ window, ∀ y ∈ window, ∀ f, Backs L feat s x f → Backs L feat s y f →
    x / 4096 = y / 4096
  frames : owned L feat s ∪ held ∪ backing L feat s = owned L feat s₀
  held_disjoint : Disjoint (owned L feat s) held
  backing_disjoint : Disjoint (backing L feat s) (owned L feat s ∪ held)

/-- Nothing is mapped in the window at first. -/
theorem window_of_ready (h : Ready L feat s) : Window L feat s ∅ ∅ s := by
  have hno : ∀ x ∈ window, ∀ k e, ¬(kernelSpace L feat).Maps s x k e := by
    intro x hx k e
    have h4 := index_window hx
    exact h.not_maps (by omega) (by omega)
  have hbacks : ∀ x ∈ window, ∀ f, ¬Backs L feat s x f := fun x hx f ⟨e, hm, _⟩ => hno x hx 3 e hm
  have hempty : backing L feat s = ∅ := by
    ext f
    simp only [Set.mem_empty_iff_false, iff_false]
    rintro ⟨x, hx, hb⟩
    exact hbacks x hx f hb
  refine ⟨h, h.shape, h.image, fun _ _ _ ht => ht, fun x hx k e hm => absurd hm (hno x hx k e),
    fun x hx => ?_, fun x hx y _ f hb => absurd hb (hbacks x hx f), ?_, ?_, ?_⟩
  · simp only [Set.mem_empty_iff_false, false_iff, not_exists]
    exact hbacks x hx
  · rw [hempty, Set.union_empty, Set.union_empty]
  · exact Set.disjoint_empty _
  · rw [hempty]
    exact Set.empty_disjoint _

/-- The frames that are accounted for are frames of the allocator outside the image. -/
theorem frame_of_owned (h : Ready L feat s) (hf : f ∈ owned L feat s) :
    f % 4096 = 0 ∧ f / 4096 < maxFrames ∧ f ∉ L.image.pages := by
  obtain ⟨hav | ⟨y, k, ht⟩, hpin⟩ := hf
  · exact ⟨hav.1, Kernel.lt_of_mem_avail hav, hpin⟩
  · rcases h.shape.managed y k f ht with himg | ⟨hal, hlt⟩
    · exact absurd himg hpin
    · exact ⟨hal, hlt, hpin⟩

theorem root_in_image : (kernelSpace L feat).root ∈ L.image.pages :=
  L.tables_inside _ L.mem_tables.1

/-- A frame outside the image that is not accounted for as free or as a table is neither. -/
theorem not_used (himg : f ∉ L.image.pages) (hf : f ∉ owned L feat s) :
    f ∉ s.avail ∧ ∀ y k, (kernelSpace L feat).tableOn s y k ≠ some f := by
  refine ⟨fun hav => hf ⟨Or.inl hav, himg⟩, fun y k ht => ?_⟩
  cases k with
  | zero =>
    have hroot : (kernelSpace L feat).root = f := Option.some.inj ht
    exact himg (hroot ▸ root_in_image)
  | succ k => exact hf ⟨Or.inr ⟨y, k, ht⟩, himg⟩

/-- Which frames are behind the window once a 4 KiB leaf has been written. -/
theorem backs_put (hput : (kernelSpace L feat).Puts (kernelSpec L.image) va 3 e s s')
    (hva : va ∈ window) (hx : x ∈ window) (hp : present e = true) :
    Backs L feat s' x f ↔ if va / 4096 = x / 4096 then f = address e else Backs L feat s x f := by
  have hmaps : ∀ e', (kernelSpace L feat).Maps s' x 3 e' ↔
      if va / 4096 = x / 4096 then e' = e else (kernelSpace L feat).Maps s x 3 e' := by
    intro e'
    simp only [hput.maps, agree_window hva hx, hp, and_true, true_and]
  simp only [Backs, hmaps]
  split_ifs with hpage
  · constructor
    · rintro ⟨e', rfl, rfl⟩
      rfl
    · rintro rfl
      exact ⟨e, rfl, rfl⟩
  · rfl

namespace Window

section Steps

variable (H : Window L feat s₀ live held s)
include H

theorem frame_of_held (hf : f ∈ held) : f % 4096 = 0 ∧ f / 4096 < maxFrames ∧ f ∉ L.image.pages :=
  frame_of_owned H.start (H.frames ▸ Or.inl (Or.inr hf))

theorem frame_of_backing (hf : f ∈ backing L feat s) :
    f % 4096 = 0 ∧ f / 4096 < maxFrames ∧ f ∉ L.image.pages :=
  frame_of_owned H.start (H.frames ▸ Or.inr hf)

theorem mapped_of_maps (hx : x ∈ window) (hm : (kernelSpace L feat).Maps s x k e) : x ∈ live := by
  obtain rfl := H.depth x hx k e hm
  exact (H.mapped x hx).mpr ⟨_, e, hm, rfl⟩

/-! ## Transitions -/

/-- The pages of the window stay as they are. -/
theorem of_same {held' : Set ℕ} (hshape : (kernelSpace L feat).Shape (kernelSpec L.image) s')
    (himage : ∀ t ∈ s'.avail, t ∉ L.image.pages)
    (hkept : ∀ y k t, (kernelSpace L feat).tableOn s₀ y (k + 1) = some t →
      (kernelSpace L feat).tableOn s y (k + 1) = some t →
      (kernelSpace L feat).tableOn s' y (k + 1) = some t)
    (hdepth : ∀ x ∈ window, ∀ k e, (kernelSpace L feat).Maps s' x k e → k = 3)
    (hbacks : ∀ x ∈ window, ∀ f, Backs L feat s' x f ↔ Backs L feat s x f)
    (hframes : owned L feat s' ∪ held' = owned L feat s ∪ held)
    (hdisj : Disjoint (owned L feat s') held') : Window L feat s₀ live held' s' := by
  have hbacking : backing L feat s' = backing L feat s := by
    ext f
    constructor
    · rintro ⟨x, hx, hb⟩
      exact ⟨x, hx, (hbacks x hx f).mp hb⟩
    · rintro ⟨x, hx, hb⟩
      exact ⟨x, hx, (hbacks x hx f).mpr hb⟩
  refine ⟨H.start, hshape, himage, fun y k t ht => hkept y k t ht (H.kept y k t ht), hdepth,
    fun x hx => ?_, fun x hx y hy f hb hb' => ?_, ?_, hdisj, ?_⟩
  · rw [H.mapped x hx]
    exact exists_congr (fun f => (hbacks x hx f).symm)
  · exact H.once x hx y hy f ((hbacks x hx f).mp hb) ((hbacks y hy f).mp hb')
  · rw [hbacking, hframes]
    exact H.frames
  · rw [hbacking, hframes]
    exact H.backing_disjoint

/-- Taking a frame. -/
theorem take (hheld : held = ∅) (ht : Kernel.Takes f s s') : Window L feat s₀ live {f} s' := by
  subst hheld
  obtain ⟨hinv, hf, hav, hmem⟩ := ht
  have hread : ∀ y k c, (kernelSpace L feat).tableOn s y k = some c → ∀ i,
      (kernelSpace L feat).env.read s' c i = (kernelSpace L feat).env.read s c i := by
    intro y k c _ i
    exact congrFun (congrFun hmem c) i
  have hfree : ∀ y k, (kernelSpace L feat).tableOn s y k ≠ some f :=
    fun y k ht => H.shape.not_avail y k f ht hf
  have howned : owned L feat s' = owned L feat s \ {f} := by
    ext t
    have htab := RadixTree.tables_of_read_eq hread
    simp only [owned, RadixTree.owned, htab]
    show (t ∈ s'.avail ∨ _) ∧ _ ↔ ((t ∈ s.avail ∨ _) ∧ _) ∧ _
    rw [hav]
    constructor
    · rintro ⟨⟨h, hne⟩ | ⟨y, k, ht⟩, hpin⟩
      · exact ⟨⟨Or.inl h, hpin⟩, hne⟩
      · refine ⟨⟨Or.inr ⟨y, k, ht⟩, hpin⟩, ?_⟩
        rintro rfl
        exact hfree _ _ ht
    · rintro ⟨⟨h | h, hpin⟩, hne⟩
      · exact ⟨Or.inl ⟨h, hne⟩, hpin⟩
      · exact ⟨Or.inr h, hpin⟩
  have hin : f ∈ owned L feat s := ⟨Or.inl hf, H.image f hf⟩
  refine H.of_same (H.shape.of_read_eq hread hinv (fun y k c hc => ?_)) (fun t ht => ?_)
    (fun y k t _ ht => ?_) (fun x hx k e hm => ?_) (fun x hx g => ?_) ?_ ?_
  · show c ∉ s'.avail
    rw [hav]
    exact fun h => H.shape.not_avail y k c hc h.1
  · rw [hav] at ht
    exact H.image t ht.1
  · rw [RadixTree.tableOn_of_read_eq hread]
    exact ht
  · exact H.depth x hx k e ((RadixTree.maps_of_read_eq hread).mp hm)
  · exact exists_congr (fun e => and_congr_left' (RadixTree.maps_of_read_eq hread))
  · rw [howned, Set.union_empty, Set.sdiff_union_self]
    exact Set.union_eq_left.mpr (Set.singleton_subset_iff.mpr hin)
  · rw [howned]
    exact Set.disjoint_sdiff_left

/-- Growing the tree does not touch 4 KiB leaves. -/
theorem maps_extends (hgrow : (kernelSpace L feat).Extends (kernelSpec L.image) va s s')
    (hx : x ∈ window) :
    (kernelSpace L feat).Maps s' x k e ↔ (kernelSpace L feat).Maps s x k e :=
  hgrow.maps_iff (H.depth x hx)

/-- Growing the tree. -/
theorem extend (hgrow : (kernelSpace L feat).Extends (kernelSpec L.image) va s s') :
    Window L feat s₀ live held s' := by
  have howned : owned L feat s' = owned L feat s := hgrow.owned
  refine H.of_same hgrow.shape (fun t ht himg => H.image t (hgrow.avail t ht himg) himg)
    (fun y k t _ ht => hgrow.tables y (k + 1) t ht) (fun x hx k e hm => ?_) (fun x hx f => ?_) ?_
    ?_
  · exact H.depth x hx k e ((H.maps_extends hgrow hx).mp hm)
  · exact exists_congr (fun e => and_congr_left' (H.maps_extends hgrow hx))
  · rw [howned]
  · rw [howned]
    exact H.held_disjoint

/-- Writing a leaf outside the window. -/
theorem putOutside (hput : (kernelSpace L feat).Puts (kernelSpec L.image) va d e s s')
    (hva : index 4 va ≠ 384) : Window L feat s₀ live held s' := by
  have howned : owned L feat s' = owned L feat s := hput.owned
  have hav : s'.avail = s.avail := hput.avail
  have hmaps : ∀ x ∈ window, ∀ k e', (kernelSpace L feat).Maps s' x k e' ↔
      (kernelSpace L feat).Maps s x k e' := by
    intro x hx k e'
    have hne : ¬format.Agree (d + 1) va x :=
      RadixTree.not_agree_of_index (by rw [index_window hx]; exact Ne.symm hva)
    rw [hput.maps, if_neg hne]
  refine H.of_same hput.shape (fun t ht => H.image t (hav ▸ ht))
    (fun y k t _ ht => (hput.tables y (k + 1)).trans ht)
    (fun x hx k e hm => H.depth x hx k e ((hmaps x hx k e).mp hm)) (fun x hx f => ?_) ?_ ?_
  · exact exists_congr (fun e => and_congr_left' (hmaps x hx 3 e))
  · rw [howned]
  · rw [howned]
    exact H.held_disjoint

/-- Removing a leaf outside the window, below a root entry that led nowhere at first. -/
theorem removeOutside (hrem : (kernelSpace L feat).Removes (kernelSpec L.image) va m s s' d e)
    (hva : index 4 va ≠ 384)
    (hbare : ∀ y, index 4 y = index 4 va → (kernelSpace L feat).tableOn s₀ y 1 = none) :
    Window L feat s₀ live held s' := by
  have howned : owned L feat s' = owned L feat s := hrem.owned
  have hmaps : ∀ x ∈ window, ∀ k e', (kernelSpace L feat).Maps s' x k e' ↔
      (kernelSpace L feat).Maps s x k e' := by
    intro x hx k e'
    rw [hrem.maps]
    exact and_iff_left (RadixTree.not_agree_of_index (by rw [index_window hx]; exact Ne.symm hva))
  refine H.of_same hrem.shape (fun t ht himg => H.image t (hrem.avail t ht himg) himg)
    (fun y k t ht₀ ht => ?_) (fun x hx k e hm => H.depth x hx k e ((hmaps x hx k e).mp hm))
    (fun x hx f => ?_) ?_ ?_
  · by_cases h4 : index 4 y = index 4 va
    · obtain ⟨t', ht'⟩ := tableOn_above ht₀ (show 1 ≤ k + 1 by omega)
      have hnone := hbare y h4
      rw [RadixTree.tableOn, ht'] at hnone
      cases hnone
    · rw [hrem.frame y h4]
      exact ht
  · exact exists_congr (fun e => and_congr_left' (hmaps x hx 3 e))
  · rw [howned]
  · rw [howned]
    exact H.held_disjoint

theorem depth_put (hput : (kernelSpace L feat).Puts (kernelSpec L.image) va 3 e s s')
    (hx : x ∈ window) {e' : Entry} (hm : (kernelSpace L feat).Maps s' x k e') : k = 3 := by
  rw [hput.maps] at hm
  split_ifs at hm
  · exact hm.1
  · exact H.depth x hx k e' hm

/-- Changing the protection of a page. -/
theorem reprotect (hput : (kernelSpace L feat).Puts (kernelSpec L.image) va 3 e s s')
    (hva : va ∈ window) (hp : present e = true) (hf : Backs L feat s va (address e)) :
    Window L feat s₀ live held s' := by
  have howned : owned L feat s' = owned L feat s := hput.owned
  have hav : s'.avail = s.avail := hput.avail
  refine H.of_same hput.shape (fun t ht => H.image t (hav ▸ ht))
    (fun y k t _ ht => (hput.tables y (k + 1)).trans ht)
    (fun x hx k e' hm => H.depth_put hput hx hm) (fun x hx f => ?_) ?_ ?_
  · rw [backs_put hput hva hx hp]
    split_ifs with hpage
    · obtain ⟨e', hm, heq⟩ := hf
      have hb : Backs L feat s x (address e) :=
        ⟨e', hm.congr ((agree_window hva hx).mpr hpage), heq⟩
      constructor
      · rintro rfl
        exact hb
      · intro hb'
        exact hb'.unique hb
    · rfl
  · rw [howned]
  · rw [howned]
    exact H.held_disjoint

end Steps

/-- Giving a frame back. -/
theorem give (H : Window L feat s₀ live {f} s) (hg : Kernel.Gives f s s') :
    Window L feat s₀ live ∅ s' := by
  obtain ⟨hinv, hav, hmem⟩ := hg
  have hread : ∀ y k c, (kernelSpace L feat).tableOn s y k = some c → ∀ i,
      (kernelSpace L feat).env.read s' c i = (kernelSpace L feat).env.read s c i := by
    intro y k c _ i
    exact congrFun (congrFun hmem c) i
  obtain ⟨-, -, himg⟩ := H.frame_of_held (Set.mem_singleton f)
  have hnot : f ∉ owned L feat s := fun hf =>
    Set.disjoint_left.mp H.held_disjoint hf (Set.mem_singleton f)
  obtain ⟨-, htable⟩ := not_used himg hnot
  have howned : owned L feat s' = insert f (owned L feat s) := by
    ext t
    have htab := RadixTree.tables_of_read_eq hread
    simp only [owned, RadixTree.owned, htab]
    show (t ∈ s'.avail ∨ _) ∧ _ ↔ t = f ∨ (t ∈ s.avail ∨ _) ∧ _
    rw [hav]
    constructor
    · rintro ⟨(rfl | h) | h, hpin⟩
      · exact Or.inl rfl
      · exact Or.inr ⟨Or.inl h, hpin⟩
      · exact Or.inr ⟨Or.inr h, hpin⟩
    · rintro (rfl | ⟨h | h, hpin⟩)
      · exact ⟨Or.inl (Or.inl rfl), himg⟩
      · exact ⟨Or.inl (Or.inr h), hpin⟩
      · exact ⟨Or.inr h, hpin⟩
  refine H.of_same (H.shape.of_read_eq hread hinv (fun y k c hc => ?_)) (fun t ht => ?_)
    (fun y k t _ ht => ?_) (fun x hx k e hm => ?_) (fun x hx g => ?_) ?_ ?_
  · show c ∉ s'.avail
    rw [hav]
    rintro (rfl | h)
    · exact htable y k hc
    · exact H.shape.not_avail y k c hc h
  · rw [hav] at ht
    rcases ht with rfl | ht
    · exact himg
    · exact H.image t ht
  · rw [RadixTree.tableOn_of_read_eq hread]
    exact ht
  · exact H.depth x hx k e ((RadixTree.maps_of_read_eq hread).mp hm)
  · exact exists_congr (fun e => and_congr_left' (RadixTree.maps_of_read_eq hread))
  · rw [howned, Set.union_empty, Set.union_singleton]
  · exact Set.disjoint_empty _

theorem mem_page (hva : va % 4096 = 0) : x ∈ bytesAt va 4096 ↔ va / 4096 = x / 4096 := by
  show va ≤ x ∧ x < va + 4096 ↔ _
  omega

/-- A new page adds its frame to those behind pages. -/
theorem backing_mapPage (hva : va ∈ window) (hbare : ∀ g, ¬Backs L feat s va g)
    (hput : (kernelSpace L feat).Puts (kernelSpec L.image) va 3 e s s') (hp : present e = true) :
    backing L feat s' = insert (address e) (backing L feat s) := by
  ext g
  constructor
  · rintro ⟨x, hx, hb⟩
    rw [backs_put hput hva hx hp] at hb
    split_ifs at hb with heq
    · exact Or.inl hb
    · exact Or.inr ⟨x, hx, hb⟩
  · rintro (rfl | ⟨x, hx, hb⟩)
    · exact ⟨va, hva, (backs_put hput hva hva hp).mpr (by rw [if_pos rfl])⟩
    · refine ⟨x, hx, (backs_put hput hva hx hp).mpr ?_⟩
      rw [if_neg (fun heq => hbare g (hb.congr hx hva heq.symm))]
      exact hb

/-- Mapping the frame in hand. -/
theorem mapPage (H : Window L feat s₀ live {f} s) (hva : va ∈ window) (hal : va % 4096 = 0)
    (hnew : va ∉ live) (hput : (kernelSpace L feat).Puts (kernelSpec L.image) va 3 e s s')
    (hp : present e = true) (hf : address e = f) :
    Window L feat s₀ (live ∪ bytesAt va 4096) ∅ s' := by
  have howned : owned L feat s' = owned L feat s := hput.owned
  have hav : s'.avail = s.avail := hput.avail
  have hbacks : ∀ x ∈ window, ∀ g, Backs L feat s' x g ↔
      if va / 4096 = x / 4096 then g = f else Backs L feat s x g := by
    intro x hx g
    rw [backs_put hput hva hx hp, hf]
  -- the page was not mapped, and the frame was not behind any page
  have hbare : ∀ g, ¬Backs L feat s va g := fun g hb => hnew ((H.mapped va hva).mpr ⟨g, hb⟩)
  have hfresh : ∀ x ∈ window, ¬Backs L feat s x f := fun x hx hb =>
    Set.disjoint_left.mp H.backing_disjoint ⟨x, hx, hb⟩ (Or.inr (Set.mem_singleton f))
  have hbacking : backing L feat s' = insert f (backing L feat s) := by
    rw [← hf]
    exact backing_mapPage hva hbare hput hp
  refine ⟨H.start, hput.shape, fun t ht => H.image t (hav ▸ ht),
    fun y k t ht => (hput.tables y (k + 1)).trans (H.kept y k t ht),
    fun x hx k e' hm => H.depth_put hput hx hm, fun x hx => ?_, fun x hx y hy g hb hb' => ?_,
    ?_, Set.disjoint_empty _, ?_⟩
  · rw [Set.mem_union, mem_page hal, H.mapped x hx]
    constructor
    · rintro (⟨g, hb⟩ | heq)
      · refine ⟨g, (hbacks x hx g).mpr ?_⟩
        rw [if_neg (fun heq => hbare g (hb.congr hx hva heq.symm))]
        exact hb
      · exact ⟨f, (hbacks x hx f).mpr (by rw [if_pos heq])⟩
    · rintro ⟨g, hb⟩
      rw [hbacks x hx] at hb
      split_ifs at hb with heq
      · exact Or.inr heq
      · exact Or.inl ⟨g, hb⟩
  · rw [hbacks x hx] at hb
    rw [hbacks y hy] at hb'
    split_ifs at hb hb' with hx' hy' hy'
    · exact hx'.symm.trans hy'
    · exact absurd (hb ▸ hb') (hfresh y hy)
    · exact absurd (hb' ▸ hb) (hfresh x hx)
    · exact H.once x hx y hy g hb hb'
  · rw [howned, hbacking, Set.union_empty, ← H.frames, Set.insert_eq, Set.union_assoc]
  · rw [howned, hbacking, Set.union_empty, Set.disjoint_insert_left]
    exact ⟨fun hf => Set.disjoint_left.mp H.held_disjoint hf (Set.mem_singleton f),
      (Set.disjoint_union_right.mp H.backing_disjoint).1⟩

theorem backs_remove (hrem : (kernelSpace L feat).Removes (kernelSpec L.image) va m s s' 3 e)
    (hva : va ∈ window) (hx : x ∈ window) :
    Backs L feat s' x f ↔ Backs L feat s x f ∧ va / 4096 ≠ x / 4096 := by
  simp only [Backs, hrem.maps, agree_window hva hx]
  constructor
  · rintro ⟨e', ⟨hm, hne⟩, heq⟩
    exact ⟨⟨e', hm, heq⟩, hne⟩
  · rintro ⟨⟨e', hm, heq⟩, hne⟩
    exact ⟨e', ⟨hm, hne⟩, heq⟩

/-- The frame of a page that goes was behind this page only. -/
theorem backing_removePage (H : Window L feat s₀ live held s) (hva : va ∈ window)
    (hrem : (kernelSpace L feat).Removes (kernelSpec L.image) va m s s' 3 e) :
    backing L feat s' = backing L feat s \ {address e} := by
  have hwas : Backs L feat s va (address e) := ⟨e, hrem.was, rfl⟩
  ext g
  constructor
  · rintro ⟨x, hx, hb⟩
    obtain ⟨hb, hne⟩ := (backs_remove hrem hva hx).mp hb
    refine ⟨⟨x, hx, hb⟩, ?_⟩
    rintro rfl
    exact hne (H.once va hva x hx _ hwas hb)
  · rintro ⟨⟨x, hx, hb⟩, hne⟩
    refine ⟨x, hx, (backs_remove hrem hva hx).mpr ⟨hb, fun heq => hne ?_⟩⟩
    exact Backs.unique (hb.congr hx hva heq.symm) hwas

/-- Removing a page puts its frame in hand. -/
theorem removePage (H : Window L feat s₀ live ∅ s) (hva : va ∈ window) (hal : va % 4096 = 0)
    (hrem : (kernelSpace L feat).Removes (kernelSpec L.image) va m s s' d e) :
    m.size = .size4K ∧ Window L feat s₀ (live \ bytesAt va 4096) {m.frame} s' := by
  obtain rfl : d = 3 := H.depth va hva d e hrem.was
  have hframe : m.frame = address e := by rw [hrem.mapping]
  refine ⟨by rw [hrem.mapping]; rfl, ?_⟩
  rw [hframe]
  have howned : owned L feat s' = owned L feat s := hrem.owned
  have hbacking := H.backing_removePage hva hrem
  have hin : address e ∈ backing L feat s := ⟨va, hva, e, hrem.was, rfl⟩
  have hdisj := H.backing_disjoint
  have hframes := H.frames
  rw [Set.union_empty] at hdisj hframes
  refine ⟨H.start, hrem.shape, fun t ht himg => H.image t (hrem.avail t ht himg) himg,
    fun y k t ht => ?_, fun x hx k e' hm => H.depth x hx k e' ((hrem.maps x k e').mp hm).1,
    fun x hx => ?_, fun x hx y hy g hb hb' => ?_, ?_, ?_, ?_⟩
  · -- below the root entry of the window there was nothing at first
    by_cases h4 : index 4 y = 384
    · obtain ⟨t', ht'⟩ := tableOn_above ht (show 1 ≤ k + 1 by omega)
      have hnone := H.start.roots y (by omega) (by omega)
      rw [RadixTree.tableOn, ht'] at hnone
      cases hnone
    · rw [hrem.frame y (by rw [index_window hva]; exact h4)]
      exact H.kept y k t ht
  · rw [Set.mem_sdiff, mem_page hal, H.mapped x hx]
    constructor
    · rintro ⟨⟨g, hb⟩, hne⟩
      exact ⟨g, (backs_remove hrem hva hx).mpr ⟨hb, hne⟩⟩
    · rintro ⟨g, hb⟩
      obtain ⟨hb, hne⟩ := (backs_remove hrem hva hx).mp hb
      exact ⟨⟨g, hb⟩, hne⟩
  · exact H.once x hx y hy g ((backs_remove hrem hva hx).mp hb).1
      ((backs_remove hrem hva hy).mp hb').1
  · rw [howned, hbacking, Set.union_assoc, Set.union_sdiff_self,
      Set.union_eq_right.mpr (Set.singleton_subset_iff.mpr hin)]
    exact hframes
  · rw [howned, Set.disjoint_singleton_right]
    exact fun hf => Set.disjoint_left.mp hdisj hin hf
  · rw [howned, hbacking, Set.disjoint_union_right]
    exact ⟨hdisj.mono_left Set.sdiff_subset, Set.disjoint_sdiff_left⟩

/-- Whatever happens below other root entries, if they led nowhere at first. -/
theorem keeps (L : Layout) (feat : Features) (s₀ : Kernel) (live held : Set ℕ) {P : ℕ → Prop}
    (hP : ∀ y, P (index 4 y) →
      index 4 y ≠ 384 ∧ (kernelSpace L feat).tableOn s₀ y 1 = none) :
    (kernelSpace L feat).Kept (kernelSpec L.image) P (Window L feat s₀ live held) where
  shape _ H := H.shape
  extend _ _ _ _ H hgrow := H.extend hgrow
  put va _ _ _ _ hva H hput := H.putOutside hput (hP va hva).1
  remove va _ _ _ _ _ hva H hrem :=
    H.removeOutside hrem (hP va hva).1 (fun y hy => (hP y (hy ▸ hva)).2)

end Window

end Vmm

end DoomOs
