/-
# The page tables as a flat map

`translation` is what `translate` says about an address: where it leads and with
which protection.  Seen through it the tree is a flat map from addresses, and the
range operations are pointwise updates of that map:

* `mapRange_sat`: `map_range` fills in the range from its start on, and never
  overwrites;
* `protectRange_sat`: `protect_range` changes protections from the start of the
  range on, and nothing else.

Both say the same about a call that fails half way, for the part it got through.
-/
import DoomOs.RadixLeaf

namespace DoomOs

open Comp Paging RadixFormat

namespace RadixTree

variable {σ ρ : Type} {tree : RadixTree σ} {E : tree.env.Spec ρ} {s s' s'' : σ}
  {x y va pa d k t c target level length : ℕ} {e e' : Entry} {size : PageSize} {p : PageProt}

/-! ## Translation -/

/-- The physical address and the protection that `translate` gives for an address. -/
def translation (tree : RadixTree σ) (s : σ) (x : ℕ) : Option (ℕ × PageProt) :=
  match (tree.translate x).run s with
  | .ok m _ => some (m.physical, m.prot)
  | .err _ _ => none
  | .halt _ => none

/-- Only canonical addresses are translated. -/
theorem valid_of_translation {q : ℕ × PageProt} (h : tree.translation s x = some q) :
    valid x = true := by
  by_contra hx
  rw [translation, translate, if_pos (by simp [hx])] at h
  cases h

theorem translation_of_not_valid (hx : ¬valid x = true) : tree.translation s x = none := by
  by_contra hne
  obtain ⟨q, hq⟩ := Option.ne_none_iff_exists'.mp hne
  exact hx (valid_of_translation hq)

theorem translate_sat (H : tree.Shape E s) (hx : valid x = true) :
    ((tree.translate x).run s).Sat
      (fun m s' => s' = s ∧ ∃ d e, tree.Maps s x d e ∧
        m = ⟨address e, x % span d, sizeAt (4 - d), prot e⟩)
      (fun _ s' => s' = s ∧ ∀ d e, ¬tree.Maps s x d e) := by
  rw [translate, if_neg (by simp [hx]), sat_bind]
  refine (walk_false_sat le_rfl (by omega)).mono (fun path s₀ h₀ => ?_) (fun _ _ h => h)
  obtain ⟨rfl, d, hd, hpath, hreach, hcase⟩ := h₀
  dsimp only
  rw [load, run_gets_bind, hreach]
  have hs := hpath.slotOn (Nat.lt_succ_self d)
  by_cases hp : present (tree.env.read s₀ (path.slots (4 - d)).table
      (path.slots (4 - d)).index) = true
  swap
  · rw [if_pos (by simp [hp])]
    exact ⟨rfl, not_maps_of_not_present hs (Bool.eq_false_of_not_eq_true hp)⟩
  have hm : tree.Maps s₀ x d (tree.env.read s₀ (path.slots (4 - d)).table
      (path.slots (4 - d)).index) := by
    refine ⟨hs, hp, ?_⟩
    rcases hcase with h1 | ⟨-, e, hm⟩
    · rw [h1]
      rfl
    · rw [Option.some.inj (hs.symm.trans hm.1)]
      exact hm.2.2
  obtain ⟨h1, -⟩ := H.leaf_aligned _ _ _ hm
  rw [if_neg (by simp [hp]), and_bytesIn_sub_one, bytesIn_depth h1 hd]
  exact ⟨rfl, d, _, hm, rfl⟩

theorem span_lt (d : ℕ) : 0 < span d ∧ span d ≤ 2 ^ 39 :=
  ⟨Nat.two_pow_pos _, Nat.pow_le_pow_right (by norm_num) (by omega)⟩

/-- A leaf gives the translation of the addresses that meet it. -/
theorem translation_of_maps (H : tree.Shape E s) (hx : valid x = true) (hm : tree.Maps s x d e) :
    tree.translation s x = some (address e + x % span d, prot e) := by
  have hsat := translate_sat H hx
  rw [translation]
  cases hrun : (tree.translate x).run s with
  | ok m s₀ =>
    obtain ⟨-, d', e', hm', rfl⟩ := hsat.of_ok hrun
    obtain ⟨rfl, rfl⟩ := hm.unique hm'
    have hlt := address_lt e
    have hspan := span_lt d
    have hmod := Nat.mod_lt x hspan.1
    simp only [Mapping.physical]
    rw [u64_of_lt (by omega)]
  | err er s₀ => exact absurd hm ((hsat.of_err hrun).2 d e)
  | halt f => exact absurd hrun (hsat.ne_halt f)

theorem translation_of_not_maps (H : tree.Shape E s) (hx : valid x = true)
    (hno : ∀ d e, ¬tree.Maps s x d e) : tree.translation s x = none := by
  have hsat := translate_sat H hx
  rw [translation]
  cases hrun : (tree.translate x).run s with
  | ok m s₀ =>
    obtain ⟨-, d', e', hm', -⟩ := hsat.of_ok hrun
    exact absurd hm' (hno d' e')
  | err er s₀ => rfl
  | halt f => exact absurd hrun (hsat.ne_halt f)

theorem translation_eq_none_iff (H : tree.Shape E s) (hx : valid x = true) :
    tree.translation s x = none ↔ ∀ d e, ¬tree.Maps s x d e := by
  constructor
  · intro h d e hm
    rw [translation_of_maps H hx hm] at h
    cases h
  · exact translation_of_not_maps H hx

/-- Addresses that the same leaf maps translate the same. -/
theorem translation_congr_maps (H : tree.Shape E s) (H' : tree.Shape E s') (hx : valid x = true)
    (h : ∀ d e, tree.Maps s' x d e ↔ tree.Maps s x d e) :
    tree.translation s' x = tree.translation s x := by
  by_cases hm : ∃ d e, tree.Maps s x d e
  · obtain ⟨d, e, hm⟩ := hm
    rw [translation_of_maps H hx hm, translation_of_maps H' hx ((h d e).mpr hm)]
  · have hno : ∀ d e, ¬tree.Maps s x d e := fun d e hm' => hm ⟨d, e, hm'⟩
    rw [translation_of_not_maps H hx hno, translation_of_not_maps H' hx
      (fun d e hm' => hno d e ((h d e).mp hm'))]

/-- Extending the tree does not change the map. -/
theorem Extends.translation (h : tree.Extends E va s s') (H : tree.Shape E s)
    (hx : valid x = true) : tree.translation s' x = tree.translation s x := by
  by_cases hm : ∃ d e, tree.Maps s x d e
  · obtain ⟨d, e, hm⟩ := hm
    obtain ⟨d', e', hm', hp⟩ := h.finer x d e hm
    rw [translation_of_maps H hx hm, translation_of_maps h.shape hx hm', hp.physical, hp.prot]
  · have hno : ∀ d e, ¬tree.Maps s x d e := fun d e hm' => hm ⟨d, e, hm'⟩
    rw [translation_of_not_maps H hx hno, translation_of_not_maps h.shape hx
      (fun d e hm' => hm (h.covered x d e hm'))]

/-- Writing a leaf changes the map where the leaf is. -/
theorem Puts.translation (h : tree.Puts E va d e s s') (H : tree.Shape E s)
    (hx : valid x = true) (hp : present e = true) : tree.translation s' x =
      if format.Agree (d + 1) va x then some (address e + x % span d, prot e)
      else tree.translation s x := by
  split_ifs with ha
  · refine translation_of_maps h.shape hx ((h.maps x d e).mpr ?_)
    rw [if_pos ha]
    exact ⟨rfl, rfl, hp⟩
  · apply translation_congr_maps H h.shape hx
    intro k e'
    rw [h.maps, if_neg ha]

/-- The offset into a leaf that starts at `va`. -/
theorem mod_span_of_mem {S : ℕ} (ha : va % S = 0) (h : va ≤ x ∧ x < va + S) :
    x % S = x - va := by
  obtain ⟨q, rfl⟩ := Nat.dvd_of_mod_eq_zero ha
  obtain ⟨r, rfl⟩ := Nat.exists_eq_add_of_le h.1
  rw [Nat.mul_add_mod, Nat.mod_eq_of_lt (by omega), Nat.add_sub_cancel_left]

/-! ## Loops over leaves -/

theorem leafSize_size4K : tree.leafSize .size4K = .size4K := rfl

theorem sat_forEachLeaf {fn : ℕ → ℕ → PageSize → Comp Fault MmError σ Unit} {I : ℕ → σ → Prop}
    {Err : MmError → σ → Prop} (h0 : I 0 s)
    (hErr : length = 0 ∨ length % (tree.leafSize size).bytesIn ≠ 0 → ∀ er, Err er s)
    (hbody : ∀ i s, (i + 1) * (tree.leafSize size).bytesIn ≤ length →
      I (i * (tree.leafSize size).bytesIn) s →
      ((fn (u64 (va + i * (tree.leafSize size).bytesIn)) (i * (tree.leafSize size).bytesIn)
        (tree.leafSize size)).run s).Sat
        (fun _ s' => I ((i + 1) * (tree.leafSize size).bytesIn) s') Err) :
    ((tree.forEachLeaf va length size fn).run s).Sat
      (fun _ s' => 0 < length ∧ I length s') Err := by
  rw [forEachLeaf]
  split_ifs with h
  · simp only [Bool.or_eq_true, decide_eq_true_eq, bne_iff_ne] at h
    exact hErr h _
  · simp only [Bool.or_eq_true, decide_eq_true_eq, bne_iff_ne, ne_eq, not_or, not_not] at h
    have hlen := Nat.div_mul_cancel (Nat.dvd_of_mod_eq_zero h.2)
    refine (sat_forRange (I := fun i s => I (i * (tree.leafSize size).bytesIn) s)
      (fun i s' hi hI => hbody i s' ?_ hI) ?_).mono (fun _ s' hs' => ?_) (fun _ _ h => h)
    · calc (i + 1) * (tree.leafSize size).bytesIn
          ≤ length / (tree.leafSize size).bytesIn * (tree.leafSize size).bytesIn :=
            Nat.mul_le_mul_right _ hi
        _ = length := hlen
    · rw [Nat.zero_mul]
      exact h0
    · rw [hlen] at hs'
      exact ⟨by omega, hs'⟩

/-- `map_range` over one leaf is `map_leaf`. -/
theorem mapRange_single (tree : RadixTree σ) (va pa : ℕ) (size : PageSize) (p : PageProt) (s : σ) :
    (tree.mapRange va pa (tree.leafSize size).bytesIn size p).run s
      = (tree.mapLeaf (u64 va) (u64 pa) (tree.leafSize size) p).run s := by
  have hpos : 0 < (tree.leafSize size).bytesIn := Nat.two_pow_pos _
  rw [mapRange, forEachLeaf, if_neg (by simp [hpos.ne']), Nat.div_self hpos, forRange, forFrom,
    forFrom, Nat.zero_mul, Nat.add_zero, Nat.add_zero, run_bind]
  cases (tree.mapLeaf (u64 va) (u64 pa) (tree.leafSize size) p).run s <;> rfl

/-- The addresses of a leaf are canonical. -/
theorem valid_of_mem_leaf {size : PageSize} (hva : valid va = true) (hal : va % size.bytesIn = 0)
    (hx : va ≤ x ∧ x < va + size.bytesIn) : valid x = true := by
  rw [← span_depthOf] at hal hx
  have hend := leaf_end_le (depthOf_pos size) (depthOf_le size) hva hal
  rw [valid_iff]
  omega

/-! ## Mapping a range -/

/-- The map of `s'` is that of `s` with `m` bytes from `va` on mapped to `pa`; what was
mapped before is as it was. -/
def MapsTo (tree : RadixTree σ) (va pa m : ℕ) (p : PageProt) (s s' : σ) : Prop :=
  ∀ x, valid x = true →
    (tree.translation s' x = if va ≤ x ∧ x < va + m then some (pa + (x - va), p)
      else tree.translation s x) ∧
    (tree.translation s x ≠ none → tree.translation s' x = tree.translation s x)

theorem MapsLeaf.mapsTo (h : tree.MapsLeaf E va (depthOf size) (leafEntry tree.feat pa size p) s s')
    (H : tree.Shape E s) (hva : valid va = true) (hal : va % size.bytesIn = 0)
    (hpal : pa % size.bytesIn = 0) (hpa : pa < 2 ^ 52) :
    tree.MapsTo va pa size.bytesIn (readBack tree.feat p) s s' := by
  obtain ⟨s₁, hx, hcase⟩ := h
  have haddr : address (leafEntry tree.feat pa size p) = pa := by
    rw [address_leafEntry]
    refine mod_two_pow_52 ?_ hpa
    cases size <;> simp only [PageSize.bytesIn_size4K, PageSize.bytesIn_size2M,
      PageSize.bytesIn_size1G] at hpal <;> omega
  rw [← span_depthOf size] at hal ⊢
  have hmem : ∀ {x}, valid x = true → (format.Agree (depthOf size + 1) va x ↔
      va ≤ x ∧ x < va + span (depthOf size)) := fun hxv =>
    agree_iff_mem (depthOf_le size) hva hxv hal
  intro x hxv
  rw [← hx.translation H hxv]
  rcases hcase with ⟨rfl, hm⟩ | ⟨hno, hput⟩
  · -- the entry was there already
    refine ⟨?_, fun _ => rfl⟩
    split_ifs with hr
    · rw [translation_of_maps hx.shape hxv (hm.congr ((hmem hxv).mpr hr)), haddr, prot_leafEntry,
        mod_span_of_mem hal hr]
    · rfl
  · rw [hput.translation hx.shape hxv (present_leafEntry _ _ _ _), haddr, prot_leafEntry]
    by_cases hr : va ≤ x ∧ x < va + span (depthOf size)
    · rw [if_pos ((hmem hxv).mpr hr), if_pos hr, mod_span_of_mem hal hr]
      refine ⟨rfl, fun h => absurd (translation_of_not_maps hx.shape hxv ?_) h⟩
      exact fun k e' => hno x k e' ((hmem hxv).mpr hr)
    · rw [if_neg (fun ha => hr ((hmem hxv).mp ha)), if_neg hr]
      exact ⟨rfl, fun _ => rfl⟩

/-- The next leaf of the range. -/
theorem MapsTo.append {m n : ℕ} (h : tree.MapsTo va pa m p s s')
    (h' : tree.MapsTo (va + m) (pa + m) n p s' s'') : tree.MapsTo va pa (m + n) p s s'' := by
  intro x hxv
  obtain ⟨h1, h2⟩ := h x hxv
  obtain ⟨h1', h2'⟩ := h' x hxv
  refine ⟨?_, fun hne => ?_⟩
  · rw [h1', h1]
    split_ifs with ha hb hc hd he <;> first | omega | rfl | skip
    rw [show pa + m + (x - (va + m)) = pa + (x - va) by omega]
  · rw [← h2 hne]
    refine h2' ?_
    rw [h2 hne]
    exact hne

/-- `map_range` keeps the shape, whatever its arguments are. -/
theorem mapRange_shape (H : tree.Shape E s) (va pa length : ℕ) (size : PageSize) (p : PageProt) :
    ((tree.mapRange va pa length size p).run s).Sat
      (fun _ s' => tree.Shape E s' ∧ E.rest s' = E.rest s)
      (fun _ s' => tree.Shape E s' ∧ E.rest s' = E.rest s) := by
  rw [mapRange]
  refine (sat_forEachLeaf (I := fun _ s' => tree.Shape E s' ∧ E.rest s' = E.rest s) ⟨H, rfl⟩
    (fun _ _ => ⟨H, rfl⟩) (fun i s₀ _ h₀ => ?_)).mono (fun _ _ h => h.2) (fun _ _ h => h)
  refine (mapLeaf_sat h₀.1 _ _ _ p).mono (fun _ s₁ h₁ => ?_) (fun _ s₁ h₁ => ?_)
  · obtain ⟨-, -, -, s₂, hx, ⟨rfl, -⟩ | ⟨-, hput⟩⟩ := h₁
    · exact ⟨hx.shape, hx.rest.trans h₀.2⟩
    · exact ⟨hput.shape, hput.rest.trans (hx.rest.trans h₀.2)⟩
  · exact ⟨h₁.shape, h₁.rest.trans h₀.2⟩

/-- **Mapping a range** fills it in from its start on. -/
theorem mapRange_sat (H : tree.Shape E s) (hva : va + length ≤ 2 ^ 64) (hpa : pa + length ≤ 2 ^ 52)
    (size : PageSize) (p : PageProt) :
    ((tree.mapRange va pa length size p).run s).Sat
      (fun _ s' => (∀ x, va ≤ x → x < va + length → valid x = true) ∧
        tree.MapsTo va pa length (readBack tree.feat p) s s')
      (fun _ s' => ∃ m ≤ length, tree.MapsTo va pa m (readBack tree.feat p) s s') := by
  have hnone : tree.MapsTo va pa 0 (readBack tree.feat p) s s := by
    intro x _
    rw [if_neg (by omega)]
    exact ⟨rfl, fun _ => rfl⟩
  rw [mapRange]
  refine (sat_forEachLeaf (I := fun m s' => tree.Shape E s' ∧
    (∀ x, va ≤ x → x < va + m → valid x = true) ∧
    tree.MapsTo va pa m (readBack tree.feat p) s s') ⟨H, fun x h h' => absurd h' (by omega), hnone⟩
    (fun _ _ => ⟨0, Nat.zero_le _, hnone⟩) (fun i s₀ hi h₀ => ?_)).mono (fun _ _ h => h.2.2)
    (fun _ _ h => h)
  obtain ⟨H₀, hvalid, hmaps⟩ := h₀
  generalize tree.leafSize size = lsize at *
  have hpos : 0 < lsize.bytesIn := Nat.two_pow_pos _
  rw [Nat.add_mul, Nat.one_mul] at hi ⊢
  rw [u64_of_lt (by omega), u64_of_lt (by omega)]
  refine (mapLeaf_sat H₀ _ _ _ p).mono (fun _ s₁ h₁ => ?_) (fun _ s₁ h₁ => ?_)
  · obtain ⟨hv, hal, hpal, hleaf⟩ := h₁
    have hstep := hleaf.mapsTo H₀ hv hal hpal (by omega)
    refine ⟨?_, fun x hle hlt => ?_, hmaps.append hstep⟩
    · obtain ⟨s₂, hx, ⟨rfl, -⟩ | ⟨-, hput⟩⟩ := hleaf
      · exact hx.shape
      · exact hput.shape
    · by_cases hx : x < va + i * lsize.bytesIn
      · exact hvalid x hle hx
      · exact valid_of_mem_leaf hv hal (by omega)
  · refine ⟨i * lsize.bytesIn, by omega, fun x hxv => ?_⟩
    rw [h₁.translation H₀ hxv]
    exact hmaps x hxv

/-! ## Protecting a range -/

/-- The map of `s'` is that of `s` with the protection `p` on `m` bytes from `va` on, all of
which were mapped. -/
def ProtectsTo (tree : RadixTree σ) (va m : ℕ) (p : PageProt) (s s' : σ) : Prop :=
  ∀ x, valid x = true →
    if va ≤ x ∧ x < va + m then
      ∃ phys p₀, tree.translation s x = some (phys, p₀) ∧ tree.translation s' x = some (phys, p)
    else tree.translation s' x = tree.translation s x

theorem ProtectsTo.append {m n : ℕ} (h : tree.ProtectsTo va m p s s')
    (h' : tree.ProtectsTo (va + m) n p s' s'') : tree.ProtectsTo va (m + n) p s s'' := by
  intro x hxv
  have h1 := h x hxv
  have h1' := h' x hxv
  by_cases hlow : va ≤ x ∧ x < va + m
  · rw [if_pos hlow] at h1
    rw [if_neg (by omega)] at h1'
    rw [if_pos (by omega), h1']
    exact h1
  · rw [if_neg hlow] at h1
    by_cases hhigh : va + m ≤ x ∧ x < va + m + n
    · rw [if_pos hhigh] at h1'
      rw [if_pos (by omega), ← h1]
      exact h1'
    · rw [if_neg hhigh] at h1'
      rw [if_neg (by omega), h1', h1]

theorem protectsTo_of_leaf {s₁ : σ} (hx : tree.Extends E va s s₁) (H : tree.Shape E s)
    (hm : tree.Maps s₁ va (depthOf size) e)
    (hput : tree.Puts E va (depthOf size) (leafEntry tree.feat (address e) size p) s₁ s')
    (hva : valid va = true) (hal : va % size.bytesIn = 0) :
    tree.ProtectsTo va size.bytesIn (readBack tree.feat p) s s' := by
  intro x hxv
  have haddr : address (leafEntry tree.feat (address e) size p) = address e := by
    rw [address_leafEntry, mod_two_pow_52 (address_mod e) (address_lt e)]
  rw [← span_depthOf size] at hal ⊢
  have hmem := agree_iff_mem (depthOf_le size) hva hxv hal
  rw [hput.translation hx.shape hxv (present_leafEntry _ _ _ _), haddr, prot_leafEntry,
    ← hx.translation H hxv]
  split_ifs with hr ha ha
  · exact ⟨_, _, translation_of_maps hx.shape hxv (hm.congr ha), rfl⟩
  · exact absurd (hmem.mpr hr) ha
  · exact absurd (hmem.mp ha) hr
  · rfl

/-- `protect_range` keeps the shape, whatever its arguments are. -/
theorem protectRange_shape (H : tree.Shape E s) (va length : ℕ) (size : PageSize) (p : PageProt) :
    ((tree.protectRange va length size p).run s).Sat
      (fun _ s' => tree.Shape E s' ∧ E.rest s' = E.rest s)
      (fun _ s' => tree.Shape E s' ∧ E.rest s' = E.rest s) := by
  rw [protectRange]
  refine (sat_forEachLeaf (I := fun _ s' => tree.Shape E s' ∧ E.rest s' = E.rest s) ⟨H, rfl⟩
    (fun _ _ => ⟨H, rfl⟩) (fun i s₀ _ h₀ => ?_)).mono (fun _ _ h => h.2) (fun _ _ h => h)
  refine (protectLeaf_sat h₀.1 _ _ p).mono (fun _ s₁ h₁ => ?_) (fun _ s₁ h₁ => ?_)
  · obtain ⟨-, -, s₂, e, hx, -, hput⟩ := h₁
    exact ⟨hput.shape, hput.rest.trans (hx.rest.trans h₀.2)⟩
  · exact ⟨h₁.1.shape, h₁.1.rest.trans h₀.2⟩

/-- **Protecting a range** changes the protections from its start on. -/
theorem protectRange_sat (H : tree.Shape E s) (hva : va + length ≤ 2 ^ 64) (size : PageSize)
    (p : PageProt) :
    ((tree.protectRange va length size p).run s).Sat
      (fun _ s' => (∀ x, va ≤ x → x < va + length → valid x = true) ∧
        tree.ProtectsTo va length (readBack tree.feat p) s s')
      (fun _ s' => ∃ m ≤ length, tree.ProtectsTo va m (readBack tree.feat p) s s') := by
  have hnone : tree.ProtectsTo va 0 (readBack tree.feat p) s s := by
    intro x _
    rw [if_neg (by omega)]
  rw [protectRange]
  refine (sat_forEachLeaf (I := fun m s' => tree.Shape E s' ∧
    (∀ x, va ≤ x → x < va + m → valid x = true) ∧
    tree.ProtectsTo va m (readBack tree.feat p) s s') ⟨H, fun x h h' => absurd h' (by omega), hnone⟩
    (fun _ _ => ⟨0, Nat.zero_le _, hnone⟩) (fun i s₀ hi h₀ => ?_)).mono (fun _ _ h => h.2.2)
    (fun _ _ h => h)
  obtain ⟨H₀, hvalid, hprot⟩ := h₀
  generalize tree.leafSize size = lsize at *
  have hpos : 0 < lsize.bytesIn := Nat.two_pow_pos _
  rw [Nat.add_mul, Nat.one_mul] at hi ⊢
  rw [u64_of_lt (by omega)]
  refine (protectLeaf_sat H₀ _ _ p).mono (fun _ s₁ h₁ => ?_) (fun _ s₁ h₁ => ?_)
  · obtain ⟨hv, hal, s₂, e, hx, hm, hput⟩ := h₁
    refine ⟨hput.shape, fun x hle hlt => ?_,
      hprot.append (protectsTo_of_leaf hx H₀ hm hput hv hal)⟩
    by_cases hlow : x < va + i * lsize.bytesIn
    · exact hvalid x hle hlow
    · exact valid_of_mem_leaf hv hal (by omega)
  · refine ⟨i * lsize.bytesIn, by omega, fun x hxv => ?_⟩
    rw [h₁.1.translation H₀ hxv]
    exact hprot x hxv

end RadixTree

end DoomOs
