/-
# Unmapping a range

`unmap_range` first cuts the leaves that reach across an end of the range, then
removes leaf after leaf.  After the cuts no leaf reaches across either end
(`Boundary`), and removing a leaf at the front leaves a boundary right after it, so
the loop goes exactly to the end of the range and reports leaves that tile it
(`Tiles`).

What `on_removed` does with a mapping is a parameter: a callback may change the part
of the state that has nothing to do with the tables (`Observes`).
-/
import DoomOs.RadixRanges

namespace DoomOs

open Comp Paging RadixFormat

namespace RadixTree

variable {σ ρ : Type} {tree : RadixTree σ} {E : tree.env.Spec ρ} {s s₀ s' s'' : σ}
  {x y va b d k length offset : ℕ} {e e' : Entry} {size : PageSize} {m : Mapping}

/-! ## Boundaries -/

/-- No leaf reaches across the address `b`. -/
def Boundary (tree : RadixTree σ) (s : σ) (b : ℕ) : Prop :=
  valid b = true → ∀ k e, tree.Maps s b k e → b % span k = 0

theorem span_dvd (h : d ≤ k) : span k ∣ span d :=
  Nat.pow_dvd_pow 2 (by omega)

theorem mod_span_of_le (hb : b % span d = 0) (h : d ≤ k) : b % span k = 0 :=
  Nat.mod_eq_zero_of_dvd ((span_dvd h).trans (Nat.dvd_of_mod_eq_zero hb))

theorem SplitAt.boundary (h : tree.SplitAt s b d) (hb : b % span d = 0) : tree.Boundary s b := by
  intro _ k e hm
  rcases h k e hm with hle | hmod
  · exact mod_span_of_le hb hle
  · exact hmod

/-- A boundary stays one while the tree is extended. -/
theorem Boundary.extends (h : tree.Boundary s b) (hx : tree.Extends E va s s') :
    tree.Boundary s' b := by
  intro hb k e hm
  obtain ⟨k', e', hm', hp⟩ := hx.piece hm
  exact mod_span_of_le (h hb k' e' hm') hp.le

/-- Two neighbours with no leaf boundary between them meet the same entry. -/
theorem agree_pred (hk : k ≤ 3) (hb : b % span k ≠ 0) : format.Agree (k + 1) b (b - 1) := by
  rw [agree_iff hk]
  interval_cases k <;> simp only [span] at hb ⊢ <;> omega

/-- The mapping of a leaf covers what the leaf covers. -/
theorem Removes.bytesIn (h : tree.Removes E va m s s' d e) (H : tree.Shape E s) :
    m.size.bytesIn = span d := by
  rw [h.mapping]
  exact bytesIn_depth (H.leaf_aligned _ _ _ h.was).1 h.was.depth_le

/-- Removing the leaf that starts at a boundary leaves a boundary after it. -/
theorem Removes.boundary (h : tree.Removes E va m s s' d e) (H : tree.Shape E s)
    (hva : valid va = true) (hal : va % span d = 0) : tree.Boundary s' (va + span d) := by
  intro hb k e' hm
  obtain ⟨hm, hn⟩ := (h.maps _ k e').mp hm
  by_contra hmod
  have h1 := (H.leaf_aligned _ _ _ h.was).1
  have hd := h.was.depth_le
  have hpos := (span_lt d).1
  -- otherwise the address just before is mapped by the same leaf, which is the one removed
  have hm' := hm.congr (agree_pred hm.depth_le hmod)
  have hend := leaf_end_le h1 hd hva hal
  have hv : valid (va + span d - 1) = true := by
    rw [valid_iff] at hva ⊢
    omega
  have hag := (agree_iff_mem hd hva hv hal).mpr ⟨by omega, by omega⟩
  obtain ⟨rfl, -⟩ := hm'.unique (h.was.congr hag)
  rw [Nat.add_mod_right] at hmod
  exact hmod hal

/-- A leaf that starts inside a range does not reach past the boundary at its end. -/
theorem leaf_end_le_of_boundary (H : tree.Shape E s) (hm : tree.Maps s va d e)
    (hva : valid va = true) (hal : va % span d = 0) (hlt : va < b) (hb : tree.Boundary s b) :
    va + span d ≤ b := by
  have h1 := (H.leaf_aligned _ _ _ hm).1
  have hd := hm.depth_le
  have hend := leaf_end_le h1 hd hva hal
  by_cases hvb : valid b = true
  · by_contra hcross
    have hag := (agree_iff_mem hd hva hvb hal).mpr ⟨hlt.le, by omega⟩
    have hmod := hb hvb d e (hm.congr hag)
    have := mod_span_of_mem hal ⟨hlt.le, by omega⟩
    omega
  · rw [valid_iff] at hva hvb
    omega

/-! ## Tiles -/

/-- The mappings lie one after the other from `start` to `stop`, and each is what the map
`T` gives for its addresses. -/
def Tiles (T : ℕ → Option (ℕ × PageProt)) : (start : ℕ) → List Mapping → (stop : ℕ) → Prop
  | start, [], stop => start = stop
  | start, m :: ms, stop =>
    (m.offset = 0 ∧ ∀ i < m.size.bytesIn, T (start + i) = some (m.frame + i, m.prot)) ∧
      Tiles T (start + m.size.bytesIn) ms stop

theorem Tiles.snoc {T : ℕ → Option (ℕ × PageProt)} : ∀ {ms : List Mapping} {start stop : ℕ},
    Tiles T start ms stop → m.offset = 0 →
    (∀ i < m.size.bytesIn, T (stop + i) = some (m.frame + i, m.prot)) →
    Tiles T start (ms ++ [m]) (stop + m.size.bytesIn) := by
  intro ms
  induction ms with
  | nil =>
    rintro start stop rfl h0 hT
    exact ⟨⟨h0, hT⟩, rfl⟩
  | cons m' ms ih =>
    rintro start stop ⟨hm', hrest⟩ h0 hT
    exact ⟨hm', ih hrest h0 hT⟩

theorem Tiles.congr {T T' : ℕ → Option (ℕ × PageProt)} (hT : ∀ x q, T x = some q → T' x = some q) :
    ∀ {ms : List Mapping} {start stop : ℕ}, Tiles T start ms stop → Tiles T' start ms stop := by
  intro ms
  induction ms with
  | nil => exact fun h => h
  | cons m ms ih =>
    rintro start stop ⟨⟨h0, hm⟩, hrest⟩
    exact ⟨⟨h0, fun i hi => hT _ _ (hm i hi)⟩, ih hrest⟩

/-! ## The part before the loop -/

/-- What holds when the loop starts. -/
structure Prepared (tree : RadixTree σ) (E : tree.env.Spec ρ) (va length : ℕ) (s s' : σ) :
    Prop where
  shape : tree.Shape E s'
  translation : ∀ x, valid x = true → tree.translation s' x = tree.translation s x
  rest : E.rest s' = E.rest s
  pos : 0 < length
  end_le : va + length ≤ 2 ^ 64
  length_lt : length < 2 ^ 64
  valid_last : valid (va + length - 1) = true
  start_boundary : tree.Boundary s' va
  end_boundary : tree.Boundary s' (va + length)

theorem validate_end {last : ℕ} (hlast : last = u64 (va + length)) (hva : va < 2 ^ 64)
    (hlen : length < 2 ^ 64) (h0 : length ≠ 0) (h : ¬sub64 last 1 < va) :
    va + length ≤ 2 ^ 64 ∧ sub64 last 1 = va + length - 1 := by
  subst hlast
  unfold sub64 u64 at *
  omega

theorem unmapPrepare_sat (H : tree.Shape E s) (hlen : length < 2 ^ 64) (va : ℕ)
    (size : PageSize) :
    ((tree.unmapPrepare va length size).run s).Sat
      (fun _ s' => tree.Prepared E va length s s')
      (fun _ s' => tree.Shape E s' ∧ E.rest s' = E.rest s ∧
        ∀ x, valid x = true → tree.translation s' x = tree.translation s x) := by
  rw [unmapPrepare]
  dsimp only
  generalize tree.leafSize size = lsize
  rw [sat_bind]
  refine (validate_sat va lsize 0 s).mono (fun target s₀ h₀ => ?_) (fun _ s₀ h₀ => ?_)
  swap
  · rw [h₀.1]
    exact ⟨H, rfl, fun _ _ => rfl⟩
  obtain ⟨rfl, rfl, hva, hal, -⟩ := h₀
  have hva64 : va < 2 ^ 64 := by
    have := (valid_iff va).mp hva
    omega
  have hd := depthOf_le lsize
  rw [← span_depthOf lsize] at hal ⊢
  rw [levelOf_eq]
  split_ifs with hbad hend
  · exact ⟨H, rfl, fun _ _ => rfl⟩
  all_goals
    simp only [Bool.or_eq_true, decide_eq_true_eq, bne_iff_ne, ne_eq, not_or, not_not,
      Bool.not_eq_true', Bool.not_eq_false] at hbad
    obtain ⟨⟨⟨h0, hmod⟩, hnw⟩, hvl⟩ := hbad
    obtain ⟨hle, hsub⟩ := validate_end rfl hva64 hlen h0 hnw
    rw [hsub] at hvl
    have hendal : (va + length) % span (depthOf lsize) = 0 := by
      rw [Nat.add_mod, hal, hmod, Nat.add_zero, Nat.zero_mod]
    rw [sat_bind]
    refine (splitAt_sat H va hd).mono (fun _ s₁ h₁ => ?_)
      (fun _ s₁ h₁ => ⟨h₁.shape, h₁.rest, fun x hx => h₁.translation H hx⟩)
    obtain ⟨hx₁, hsplit₁⟩ := h₁
  · -- both ends are cut
    rw [Bool.and_eq_true, decide_eq_true_eq] at hend
    have hlast : u64 (va + length) = va + length := by
      unfold u64 at hend ⊢
      omega
    rw [hlast]
    refine (splitAt_sat hx₁.shape (va + length) hd).mono (fun _ s₂ h₂ => ?_) (fun _ s₂ h₂ => ?_)
    · obtain ⟨hx₂, hsplit₂⟩ := h₂
      exact ⟨hx₂.shape, fun x hx => (hx₂.translation hx₁.shape hx).trans (hx₁.translation H hx),
        hx₂.rest.trans hx₁.rest, by omega, hle, hlen, hvl, (hsplit₁.boundary hal).extends hx₂,
        hsplit₂.boundary hendal⟩
    · exact ⟨h₂.shape, h₂.rest.trans hx₁.rest,
        fun x hx => (h₂.translation hx₁.shape hx).trans (hx₁.translation H hx)⟩
  · -- the end is the end of the address space or of its lower half
    refine ⟨hx₁.shape, fun x hx => hx₁.translation H hx, hx₁.rest, by omega, hle, hlen, hvl,
      hsplit₁.boundary hal, fun hv => absurd ?_ hend⟩
    have hlt := (valid_iff _).mp hv
    have hlast : u64 (va + length) = va + length := u64_of_lt (by omega)
    rw [hlast, Bool.and_eq_true, decide_eq_true_eq]
    exact ⟨by omega, hv⟩

/-- Where no leaf reaches across the ends, the part before the loop only checks. -/
theorem unmapPrepare_still (H : tree.Shape E s) (hva : valid va = true)
    (hal : va % (tree.leafSize size).bytesIn = 0) (hpos : 0 < length)
    (hmod : length % (tree.leafSize size).bytesIn = 0) (hlen : length < 2 ^ 64)
    (hend : va + length ≤ 2 ^ 64)
    (hlast : valid (va + length - 1) = true)
    (hfirst : tree.SplitAt s va (depthOf (tree.leafSize size)))
    (hsecond : tree.SplitAt s (va + length) (depthOf (tree.leafSize size))) :
    ((tree.unmapPrepare va length size).run s).Sat (fun _ s' => s' = s) (fun _ _ => False) := by
  have hva64 := (valid_iff va).mp hva
  have hsub : sub64 (u64 (va + length)) 1 = va + length - 1 := by
    unfold sub64 u64
    omega
  have hd := depthOf_le (tree.leafSize size)
  rw [unmapPrepare]
  dsimp only
  rw [sat_bind, hsub]
  refine (validate_sat va (tree.leafSize size) 0 s).mono (fun target s₁ h₁ => ?_)
    (fun _ s₁ h₁ => h₁.2 ⟨hva, hal, Nat.zero_mod _⟩)
  obtain ⟨rfl, rfl, -⟩ := h₁
  have hok : ¬(decide (length = 0) || length % (tree.leafSize size).bytesIn != 0 ||
      decide (va + length - 1 < va) || !valid (va + length - 1)) = true := by
    rw [hlast, hmod]
    simp only [bne_self_eq_false, Bool.or_false, Bool.not_true, Bool.or_eq_true, decide_eq_true_eq]
    omega
  rw [if_neg hok, sat_bind, levelOf_eq]
  refine (splitAt_still H hd hfirst).mono (fun _ s₂ h₂ => ?_) (fun _ _ h => h)
  rw [h₂]
  split_ifs with hcond
  · rw [Bool.and_eq_true, decide_eq_true_eq] at hcond
    have heq : u64 (va + length) = va + length := by
      unfold u64 at hcond ⊢
      omega
    rw [heq]
    exact splitAt_still H hd hsecond
  · rfl

/-! ## The loop -/

/-- What `on_removed` may do: change the rest of the state, by `log`. -/
def Observes (tree : RadixTree σ) (E : tree.env.Spec ρ) (log : ρ → Mapping → ρ)
    (onRemoved : Mapping → Comp Fault MmError σ Unit) : Prop :=
  ∀ m s, E.good s → ((onRemoved m).run s).Sat
    (fun _ s' => E.good s' ∧ E.avail s' = E.avail s ∧ tree.env.read s' = tree.env.read s ∧
      E.rest s' = log (E.rest s) m) (fun _ _ => False)

/-- Where the loop is: `offset` bytes are removed, and the mappings reported tile them. -/
structure Removed (tree : RadixTree σ) (E : tree.env.Spec ρ) (log : ρ → Mapping → ρ)
    (va length : ℕ) (s₀ : σ) (offset : ℕ) (s : σ) : Prop where
  shape : tree.Shape E s
  le : offset ≤ length
  translation : ∀ x, valid x = true → tree.translation s x =
    if va ≤ x ∧ x < va + offset then none else tree.translation s₀ x
  reported : ∃ ms, Tiles (tree.translation s₀) va ms (va + offset) ∧
    E.rest s = ms.foldl log (E.rest s₀)
  boundary : tree.Boundary s (va + offset)
  end_boundary : tree.Boundary s (va + length)

theorem translation_of_read_eq (H : tree.Shape E s) (H' : tree.Shape E s')
    (hr : tree.env.read s' = tree.env.read s) (hx : valid x = true) :
    tree.translation s' x = tree.translation s x := by
  apply translation_congr_maps H H' hx
  intro k e
  rw [Maps, Maps, slotOn, slotOn, hr]

theorem Removes.translation (h : tree.Removes E va m s s' d e) (H : tree.Shape E s)
    (hx : valid x = true) : tree.translation s' x =
      if format.Agree (d + 1) va x then none else tree.translation s x := by
  split_ifs with ha
  · exact translation_of_not_maps h.shape hx (fun k e' hm => ((h.maps x k e').mp hm).2 ha)
  · apply translation_congr_maps H h.shape hx
    intro k e'
    rw [h.maps, and_iff_left ha]

/-- One iteration: the leaf at the front is removed and reported. -/
theorem Removed.step {log : ρ → Mapping → ρ} (h : tree.Removed E log va length s₀ offset s)
    (hlt : offset < length) (hcur : valid (va + offset) = true)
    (hrem : tree.Removes E (va + offset) m s s' d e) (hgood : E.good s'')
    (hav : E.avail s'' = E.avail s') (hread : tree.env.read s'' = tree.env.read s')
    (hrest : E.rest s'' = log (E.rest s') m) :
    tree.Removed E log va length s₀ (offset + m.size.bytesIn) s'' := by
  have hd := hrem.was.depth_le
  have h1 := (h.shape.leaf_aligned _ _ _ hrem.was).1
  have hal := h.boundary hcur d e hrem.was
  have hbytes := hrem.bytesIn h.shape
  have hfit := leaf_end_le_of_boundary h.shape hrem.was hcur hal (by omega) h.end_boundary
  have hend := leaf_end_le h1 hd hcur hal
  have hcur' := (valid_iff _).mp hcur
  have hread' : ∀ y k c, tree.tableOn s' y k = some c →
      ∀ i, tree.env.read s'' c i = tree.env.read s' c i := fun _ _ _ _ i => by rw [hread]
  have H'' : tree.Shape E s'' := hrem.shape.of_read_eq hread' hgood (fun y k c hy hm => by
    rw [hav] at hm
    exact hrem.shape.not_avail y k c hy hm)
  have hbound : ∀ {b}, tree.Boundary s' b → tree.Boundary s'' b := fun hb hv k e hm =>
    hb hv k e ((maps_of_read_eq hread').mp hm)
  rw [hbytes]
  refine ⟨H'', by omega, fun x hx => ?_, ?_, ?_, ?_⟩
  · rw [translation_of_read_eq hrem.shape H'' hread hx, hrem.translation h.shape hx,
      h.translation x hx]
    have hmem := agree_iff_mem hd hcur hx hal
    by_cases ha : format.Agree (d + 1) (va + offset) x
    · have := hmem.mp ha
      rw [if_pos ha, if_pos (by omega)]
    · rw [if_neg ha]
      by_cases hr : va ≤ x ∧ x < va + offset
      · rw [if_pos hr, if_pos (by omega)]
      · rw [if_neg hr, if_neg (fun hr' => ha (hmem.mpr (by omega)))]
  · obtain ⟨ms, htiles, hlog⟩ := h.reported
    refine ⟨ms ++ [m], ?_, ?_⟩
    · have hsnoc := htiles.snoc (m := m) (by rw [hrem.mapping]) (fun i hi => ?_)
      · rw [hbytes, Nat.add_assoc] at hsnoc
        exact hsnoc
      · -- the leaf still maps what it mapped at the start
        rw [hbytes] at hi
        have hv : valid (va + offset + i) = true := by
          rw [valid_iff]
          omega
        have hold := h.translation _ hv
        rw [if_neg (by omega)] at hold
        have hag := (agree_iff_mem hd hcur hv hal).mpr ⟨by omega, by omega⟩
        rw [← hold, translation_of_maps h.shape hv (hrem.was.congr hag),
          mod_span_of_mem hal ⟨by omega, by omega⟩, hrem.mapping, Nat.add_sub_cancel_left]
    · rw [hrest, hrem.rest, hlog, List.foldl_append, List.foldl_cons, List.foldl_nil]
  · rw [← Nat.add_assoc]
    exact hbound (hrem.boundary h.shape hcur hal)
  · exact hbound (fun hv k e hm => h.end_boundary hv k e ((hrem.maps _ k e).mp hm).1)

theorem unmapFrom_sat {log : ρ → Mapping → ρ} {onRemoved : Mapping → Comp Fault MmError σ Unit}
    (hcb : tree.Observes E log onRemoved) (hend : va + length ≤ 2 ^ 64) (hlen : length < 2 ^ 64) :
    ∀ (n offset : ℕ) (s : σ), tree.Removed E log va length s₀ offset s →
      length < offset + 4096 * n →
      ((tree.unmapFrom va length onRemoved n offset).run s).Sat
        (fun _ s' => tree.Removed E log va length s₀ length s')
        (fun _ s' => ∃ offset, tree.Removed E log va length s₀ offset s') := by
  intro n
  induction n with
  | zero =>
    intro offset s h hfuel
    have := h.le
    omega
  | succ n ih =>
    intro offset s h hfuel
    have hle := h.le
    rw [unmapFrom]
    by_cases hlt : offset < length
    swap
    · rw [if_neg hlt]
      obtain rfl : offset = length := by omega
      exact h
    rw [if_pos hlt, u64_of_lt (by omega), sat_bind]
    refine (removeLeaf_sat h.shape (va + offset)).mono (fun m s₁ h₁ => ?_)
      (fun _ s₁ h₁ => ⟨offset, h₁.1 ▸ h⟩)
    obtain ⟨hcur, d, e, hrem⟩ := h₁
    rw [sat_bind]
    refine (hcb m s₁ hrem.shape.good).mono (fun _ s₂ h₂ => ?_) (fun _ _ h => h.elim)
    obtain ⟨hgood, hav, hread, hrest⟩ := h₂
    have hstep := h.step hlt hcur hrem hgood hav hread hrest
    have hbig : 4096 ≤ m.size.bytesIn := by
      rw [m.size.bytesIn_eq]
      have := m.size.framesIn_pos
      omega
    have hle' := hstep.le
    rw [u64_of_lt (by omega)]
    exact ih _ s₂ hstep (by omega)

/-- The loop of `unmap_range` from the state that the first part leaves. -/
theorem Prepared.loop {log : ρ → Mapping → ρ} {onRemoved : Mapping → Comp Fault MmError σ Unit}
    (hcb : tree.Observes E log onRemoved) (h : tree.Prepared E va length s s') :
    ((tree.unmapFrom va length onRemoved (length / 4096 + 1) 0).run s').Sat
      (fun _ s'' => tree.Removed E log va length s' length s'')
      (fun _ s'' => ∃ offset, tree.Removed E log va length s' offset s'') := by
  refine unmapFrom_sat hcb h.end_le h.length_lt _ 0 s' ⟨h.shape, by omega, fun x _ => ?_,
    ⟨[], rfl, rfl⟩, h.start_boundary, h.end_boundary⟩ (by omega)
  rw [if_neg (by omega)]

/-- `unmap_range` keeps the shape, whatever its arguments are. -/
theorem unmapRange_shape {log : ρ → Mapping → ρ} {onRemoved : Mapping → Comp Fault MmError σ Unit}
    (hcb : tree.Observes E log onRemoved) (H : tree.Shape E s) (hlen : length < 2 ^ 64) (va : ℕ)
    (size : PageSize) :
    ((tree.unmapRange va length size onRemoved).run s).Sat (fun _ s' => tree.Shape E s')
      (fun _ s' => tree.Shape E s') := by
  rw [unmapRange, sat_bind]
  refine (unmapPrepare_sat H hlen va size).mono (fun _ s₁ h₁ => ?_) (fun _ _ h => h.1)
  exact (h₁.loop hcb).mono (fun _ _ h => h.shape) (fun _ _ ⟨_, h⟩ => h.shape)

theorem observes_ignoreRemoved : tree.Observes E (fun r _ => r) ignoreRemoved :=
  fun _ _ hgood => ⟨hgood, rfl, rfl, rfl⟩

/-- **Unmapping a range** takes exactly the range out of the map. -/
theorem unmapRange_sat (H : tree.Shape E s) (hlen : length < 2 ^ 64) (va : ℕ) (size : PageSize) :
    ((tree.unmapRange va length size ignoreRemoved).run s).Sat
      (fun _ s' => tree.Shape E s' ∧ ∀ x, valid x = true → tree.translation s' x =
        if va ≤ x ∧ x < va + length then none else tree.translation s x)
      (fun _ _ => True) := by
  rw [unmapRange, sat_bind]
  refine (unmapPrepare_sat H hlen va size).mono (fun _ s₁ h₁ => ?_) (fun _ _ _ => trivial)
  refine (h₁.loop observes_ignoreRemoved).mono (fun _ s₂ h₂ => ?_) (fun _ _ _ => trivial)
  refine ⟨h₂.shape, fun x hx => ?_⟩
  rw [h₂.translation x hx, h₁.translation x hx]

end RadixTree

end DoomOs
