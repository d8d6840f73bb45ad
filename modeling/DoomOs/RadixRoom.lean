/-
# Room for tables

When an operation on the tree can fail.  An environment that refuses a table only when
it has none left (`FailsWhenEmpty`) makes every failure of a walk a lack of tables, and
a walk needs at most three of them.  So with enough tables to spare (`Spare`) changing
mapped pages does not fail, and where the way to a page is there already a walk changes
nothing at all.
-/
import DoomOs.RadixUnmap

namespace DoomOs

open Comp Paging RadixFormat

/-- `alloc_table` fails only when no table is available, with `OUT_OF_MEMORY`. -/
def PageEnv.Spec.FailsWhenEmpty {σ ρ : Type} {env : PageEnv σ} (E : env.Spec ρ) : Prop :=
  ∀ s, E.good s → (env.allocTable.run s).Sat (fun _ _ => True)
    (fun er _ => er = .outOfMemory ∧ E.avail s = ∅)

/-- Only finitely many tables are available at any time. -/
def PageEnv.Spec.FiniteAvail {σ ρ : Type} {env : PageEnv σ} (E : env.Spec ρ) : Prop :=
  ∀ s, E.good s → (E.avail s).Finite

/-- At least `n` tables are available. -/
def PageEnv.Spec.Spare {σ ρ : Type} {env : PageEnv σ} (E : env.Spec ρ) (n : ℕ) (s : σ) : Prop :=
  ∃ ts : Finset ℕ, n ≤ ts.card ∧ ∀ t ∈ ts, t ∈ E.avail s

namespace PageEnv.Spec

variable {σ ρ : Type} {env : PageEnv σ} {E : env.Spec ρ} {s s' : σ} {n m c : ℕ}

theorem Spare.mono (h : E.Spare n s) (hle : m ≤ n) : E.Spare m s := by
  obtain ⟨ts, hcard, hts⟩ := h
  exact ⟨ts, by omega, hts⟩

theorem Spare.of_subset (h : E.Spare n s) (hsub : ∀ t ∈ E.avail s, t ∈ E.avail s') :
    E.Spare n s' := by
  obtain ⟨ts, hcard, hts⟩ := h
  exact ⟨ts, hcard, fun t ht => hsub t (hts t ht)⟩

theorem not_spare_of_empty (h : E.avail s = ∅) (hn : 0 < n) : ¬E.Spare n s := by
  rintro ⟨ts, hcard, hts⟩
  obtain ⟨t, ht⟩ := Finset.card_pos.mp (by omega : 0 < ts.card)
  have := hts t ht
  rw [h] at this
  exact this

/-- Taking one table leaves all but one of those to spare. -/
theorem Spare.take (h : E.Spare (n + 1) s) (hav : E.avail s' = E.avail s \ {c}) :
    E.Spare n s' := by
  obtain ⟨ts, hcard, hts⟩ := h
  refine ⟨ts.erase c, ?_, fun t ht => ?_⟩
  · have := Finset.pred_card_le_card_erase (s := ts) (a := c)
    omega
  · rw [hav]
    exact ⟨hts t (Finset.mem_of_mem_erase ht), Finset.ne_of_mem_erase ht⟩

/-- A computation that takes at most `m` tables, and one after it that takes at most `c`. -/
theorem spare_bind {α β : Type} {x : Comp Fault MmError σ α} {f : α → Comp Fault MmError σ β}
    {Q : α → σ → Prop}
    (hx : (x.run s).Sat (fun a s' => Q a s' ∧ ∀ n, E.Spare (n + m) s → E.Spare n s')
      (fun _ _ => ¬E.Spare m s))
    (hf : ∀ a s', Q a s' → ((f a).run s').Sat (fun _ s'' => ∀ n, E.Spare (n + c) s' → E.Spare n s'')
      (fun _ _ => ¬E.Spare c s')) :
    ((x >>= f).run s).Sat (fun _ s'' => ∀ n, E.Spare (n + (m + c)) s → E.Spare n s'')
      (fun _ _ => ¬E.Spare (m + c) s) := by
  rw [sat_bind]
  refine hx.mono (fun a s₁ h₁ => ?_) (fun _ _ h hn => h (hn.mono (by omega)))
  refine (hf a s₁ h₁.1).mono (fun _ s₂ h₂ n hn => h₂ n (h₁.2 _ (hn.mono (by omega))))
    (fun _ _ h₂ hn => h₂ (h₁.2 _ (hn.mono (by omega))))

end PageEnv.Spec

namespace RadixTree

variable {σ ρ : Type} {tree : RadixTree σ} {E : tree.env.Spec ρ} {s s' : σ}
  {va pa d t b target length : ℕ} {e : Entry} {size : PageSize} {p : PageProt}

/-! ## Walks -/

section Walks

variable (hE : E.FailsWhenEmpty)
include hE

/-- Growing fails only where a table has to be linked and there is none. -/
theorem grow_fails (hgood : E.good s) (slot : Slot) (entry : Entry) (d : ℕ) :
    ((tree.grow slot entry (4 - d)).run s).Sat (fun _ _ => True)
      (fun er _ => er = .outOfMemory ∧ E.avail s = ∅ ∧ format.child d entry = none) := by
  have halloc := (E.alloc s hgood).and (hE s hgood)
  rw [grow]
  split_ifs with hp hl
  · rw [sat_bind]
    refine halloc.mono (fun _ _ _ => trivial) (fun _ _ h => ⟨h.2.1, h.2.2, ?_⟩)
    rw [Bool.not_eq_true'] at hp
    exact child_eq_none.mpr (fun h => absurd h (by simp [hp]))
  · rw [sat_bind]
    refine halloc.mono (fun c s₁ _ => ?_)
      (fun _ _ h => ⟨h.2.1, h.2.2, child_eq_none.mpr (fun _ => hl)⟩)
    rw [sat_bind]
    exact (split_sat (E := E) s₁ c entry (4 - d)).mono (fun _ _ _ => trivial) (fun _ _ h => h.elim)
  · exact trivial

/-- Linking a table takes one. -/
theorem grow_room (H : tree.Shape E s) (t i d : ℕ) :
    ((tree.grow ⟨t, i⟩ (tree.env.read s t i) (4 - d)).run s).Sat
      (fun _ s' => ∀ n, E.Spare (n + 1) s → E.Spare n s')
      (fun er _ => er = .outOfMemory ∧ ¬E.Spare 1 s) := by
  refine ((grow_cases H t i d).and (grow_fails hE H.good _ _ d)).mono (fun _ s' h => ?_)
    (fun _ _ h => ⟨h.2.1, PageEnv.Spec.not_spare_of_empty h.2.2.1 one_pos⟩)
  intro n hn
  rcases h.1 with ⟨rfl, -⟩ | ⟨-, c, s₁, T, rfl⟩
  · exact hn.mono (by omega)
  · exact (hn.take T.avail).of_subset (fun t ht => by rw [E.avail_write]; exact ht)

/-- **A walk takes at most three tables**, and fails only where there are fewer. -/
theorem walk_true_room (H : tree.Shape E s) (va : ℕ) (h1 : 1 ≤ target) (h4 : target ≤ 4) :
    ((tree.walk va target true).run s).Sat (fun _ s' => ∀ n, E.Spare (n + 3) s → E.Spare n s')
      (fun er _ => er = .outOfMemory ∧ ¬E.Spare 3 s) := by
  have hwalk := walk_true_rule va (D := 4 - target)
    (I := fun d _ s' => ∀ n, E.Spare (n + d) s → E.Spare n s')
    (Q := fun _ s' => ∀ n, E.Spare (n + 3) s → E.Spare n s')
    (R := fun er _ => er = .outOfMemory ∧ ¬E.Spare 3 s) (by omega)
    (fun {t path s₁} _ h n hn => h n (hn.mono (by omega)))
    (fun {d t path s₁} hd H₁ ht h => (grow_room hE H₁ _ _ d).mono
      (fun _ s₂ h₂ _ n hn => h₂ n (h _ (hn.mono (by omega))))
      (fun _ _ h₂ => ⟨h₂.1, fun hn => h₂.2 (h 1 (hn.mono (by omega)))⟩))
    H (fun n hn => hn)
  rwa [show 4 - (4 - target) = target by omega] at hwalk

end Walks

theorem walkFrom_still (htarget : 1 ≤ target) : ∀ (level d t : ℕ) (path : WalkPath),
    level + d = 4 → target ≤ level → tree.tableOn s va d = some t →
    (∃ c, tree.tableOn s va (4 - target) = some c) →
    ((tree.walkFrom va target true level t path).run s).Sat (fun _ s' => s' = s)
      (fun _ _ => False) := by
  intro level
  induction level with
  | zero =>
    intro d t path hlev htl
    omega
  | succ level ih =>
    intro d t path hlev htl ht hway
    have hl4 : level + 1 = 4 - d := by omega
    rw [walkFrom]
    by_cases htar : level + 1 = target
    · rw [if_pos htar]
      exact rfl
    · -- the entry leads to the next table, so nothing is linked
      obtain ⟨c, hc⟩ := hway
      obtain ⟨c', hc'⟩ := tableOn_above hc (show d + 1 ≤ 4 - target by omega)
      obtain ⟨t', ht', hchild⟩ := tableOn_succ_iff.mp hc'
      obtain rfl : t = t' := Option.some.inj (ht.symm.trans ht')
      obtain ⟨hp, hl, haddr⟩ := child_eq_some.mp hchild
      have hp' : present (tree.env.read s t (index (4 - d) va)) = true := hp
      have hl' : leaf (tree.env.read s t (index (4 - d) va)) (4 - d) = false := hl
      rw [if_neg htar, hl4]
      simp only [load, run_gets_bind, Bool.not_true, Bool.and_false, Bool.false_eq_true, if_false,
        grow, hp', hl', run_pure_bind]
      refine ih (d + 1) _ _ (by omega) (by omega) ?_ ⟨c, hc⟩
      rw [show address (tree.env.read s t (index (4 - d) va)) = c' from haddr]
      exact hc'

/-- **Where the way is there already, a walk changes nothing.** -/
theorem walk_still (h1 : 1 ≤ target) (h4 : target ≤ 4)
    (hway : ∃ c, tree.tableOn s va (4 - target) = some c) :
    ((tree.walk va target true).run s).Sat (fun _ s' => s' = s) (fun _ _ => False) :=
  walkFrom_still h1 4 0 tree.root {} rfl h4 rfl hway

/-! ## Mapping a page -/

/-- Mapping a leaf takes at most three tables, and fails where there are fewer or where the slot
holds something else. -/
theorem mapLeaf_spare (hE : E.FailsWhenEmpty) (H : tree.Shape E s) (hva : valid va = true)
    (hal : va % size.bytesIn = 0) (hpal : pa % size.bytesIn = 0) (p : PageProt) :
    ((tree.mapLeaf va pa size p).run s).Sat (fun _ s' => ∀ n, E.Spare (n + 3) s → E.Spare n s')
      (fun er s' => (er = .outOfMemory ∧ ¬E.Spare 3 s) ∨ (er = .conflict ∧
        tree.Extends E va s s' ∧ ∃ e, tree.slotOn s' va (depthOf size) = some e ∧
          present e = true ∧ e ≠ leafEntry tree.feat pa size p)) := by
  have hwalk := walk_true_room hE H va (levelOf_pos size) (levelOf_le size)
  refine (mapLeaf_rule H hwalk pa p).mono (fun _ s' h => ?_) (fun er s' h => ?_)
  · obtain ⟨-, -, -, s₁, hroom, -, ⟨rfl, -⟩ | ⟨-, hput⟩⟩ := h
    · exact hroom
    · intro n hn
      exact (hroom n hn).of_subset (fun t ht => by rw [hput.avail]; exact ht)
  · rcases h with ⟨-, hbad⟩ | ⟨hempty, -⟩ | ⟨rfl, -, hx, hother⟩
    · exact absurd ⟨hva, hal, hpal⟩ hbad
    · exact Or.inl hempty
    · exact Or.inr ⟨rfl, hx, hother⟩

/-- **Why mapping a page fails**: fewer than three tables were left, or another page is
mapped there. -/
theorem mapLeaf_room (hE : E.FailsWhenEmpty) (H : tree.Shape E s) (hva : valid va = true)
    (hal : va % 4096 = 0) (hpal : pa % 4096 = 0) (p : PageProt) :
    ((tree.mapLeaf va pa .size4K p).run s).Sat (fun _ s' => ∀ n, E.Spare (n + 3) s → E.Spare n s')
      (fun er s' => (er = .outOfMemory ∧ ¬E.Spare 3 s) ∨ (er = .conflict ∧
        tree.Extends E va s s' ∧ ∃ e, tree.Maps s' va 3 e ∧
          e ≠ leafEntry tree.feat pa .size4K p)) := by
  refine (mapLeaf_spare hE H hva (show va % PageSize.size4K.bytesIn = 0 from hal) hpal p).mono
    (fun _ _ h => h)
    (fun er s' h => h.imp_right ?_)
  -- the slot of a 4 KiB page holds a leaf when it holds anything
  rintro ⟨rfl, hx, e, hs, hp, hne⟩
  exact ⟨rfl, hx, e, ⟨hs, hp, rfl⟩, hne⟩

/-- Mapping a page that is not mapped, with three tables to spare. -/
theorem mapLeaf_new {n : ℕ} (hE : E.FailsWhenEmpty) (H : tree.Shape E s)
    (hspare : E.Spare (n + 3) s) (hva : valid va = true) (hal : va % 4096 = 0)
    (hpal : pa % 4096 = 0)
    (hno : ∀ k e, ¬tree.Maps s va k e) (p : PageProt) :
    ((tree.mapLeaf va pa .size4K p).run s).Sat
      (fun _ s' => tree.Shape E s' ∧ E.Spare n s' ∧ ∀ y, ¬format.Agree 4 va y →
        (∀ k e, ¬tree.Maps s y k e) → ∀ k e, ¬tree.Maps s' y k e)
      (fun _ _ => False) := by
  refine ((mapLeaf_sat H va pa .size4K p).and (mapLeaf_room hE H hva hal hpal p)).mono
    (fun _ s' h => ?_) (fun er s' h => ?_)
  · obtain ⟨⟨-, -, -, s₁, hx, hcase⟩, hroom⟩ := h
    rcases hcase with ⟨rfl, -⟩ | ⟨-, hput⟩
    · exact ⟨hx.shape, hroom n hspare, fun y _ hy k e hm => by
        obtain ⟨k', e', hm'⟩ := hx.covered y k e hm
        exact hy k' e' hm'⟩
    · refine ⟨hput.shape, hroom n hspare, fun y hn hy k e hm => ?_⟩
      rw [hput.maps, if_neg (show ¬format.Agree (depthOf .size4K + 1) va y from hn)] at hm
      obtain ⟨k', e', hm'⟩ := hx.covered y k e hm
      exact hy k' e' hm'
  · rcases h.2 with ⟨-, hfull⟩ | ⟨-, hx, e, hm, -⟩
    · exact hfull (hspare.mono (by omega))
    · obtain ⟨k', e', hm'⟩ := hx.covered va 3 e hm
      exact hno k' e' hm'

/-- With three tables to spare `map_leaf` does not run out, and takes at most three. -/
theorem mapLeaf_supplied (hE : E.FailsWhenEmpty) (H : tree.Shape E s) (hspare : E.Spare 3 s)
    (hva : valid va = true) (hal : va % size.bytesIn = 0) (hpal : pa % size.bytesIn = 0)
    (p : PageProt) :
    ((tree.mapLeaf va pa size p).run s).Sat (fun _ s' => ∀ n, E.Spare (n + 3) s → E.Spare n s')
      (fun er _ => er = .conflict) := by
  refine (mapLeaf_spare hE H hva hal hpal p).mono (fun _ _ h => h) (fun er _ h => ?_)
  rcases h with ⟨-, hfull⟩ | ⟨hconflict, -⟩
  · exact absurd hspare hfull
  · exact hconflict

/-- Mapping a page that is mapped: nothing changes, and the call succeeds if and only if
the entry is the one asked for. -/
theorem mapLeaf_mapped (H : tree.Shape E s) (hva : valid va = true) (hal : va % 4096 = 0)
    (hpal : pa % 4096 = 0) (p : PageProt) (hm : tree.Maps s va 3 e) :
    ((tree.mapLeaf va pa .size4K p).run s).Sat
      (fun _ s' => s' = s ∧ e = leafEntry tree.feat pa .size4K p)
      (fun er s' => s' = s ∧ er = .conflict ∧ e ≠ leafEntry tree.feat pa .size4K p) := by
  obtain ⟨t, ht, -⟩ := tableOn_of_slotOn hm.1
  have hwalk := walk_still (levelOf_pos .size4K) (levelOf_le .size4K) ⟨t, ht⟩
  refine (mapLeaf_rule H hwalk pa p).mono (fun _ s' h => ?_) (fun er s' h => ?_)
  · obtain ⟨-, -, -, s₁, rfl, -, ⟨rfl, hm'⟩ | ⟨hno, -⟩⟩ := h
    · exact ⟨rfl, (hm.unique hm').2⟩
    · exact absurd hm (hno va 3 e (Agree.refl _ _))
  · rcases h with ⟨-, hbad⟩ | ⟨h, -⟩ | ⟨rfl, rfl, -, e', hs, -, hne⟩
    · rw [PageSize.bytesIn_size4K] at hbad
      exact absurd ⟨hva, hal, hpal⟩ hbad
    · exact h.elim
    · obtain rfl : e' = e := Option.some.inj (hs.symm.trans hm.1)
      exact ⟨rfl, rfl, hne⟩

/-! ## Protecting pages -/

/-- Walking to the leaf of a page that is mapped fails for lack of tables only. -/
theorem walkToLeaf_room (hE : E.FailsWhenEmpty) (H : tree.Shape E s) (hm : tree.Maps s va d e) :
    ((tree.walkToLeaf va 1).run s).Sat (fun _ s' => ∀ n, E.Spare (n + 3) s → E.Spare n s')
      (fun _ _ => ¬E.Spare 3 s) := by
  -- a path to the last level ends at a leaf, as the address stays mapped
  have hlast : ∀ {path : WalkPath} {s₁ : σ}, tree.Extends E va s s₁ → tree.OnPath s₁ va path 4 →
      (∀ n, E.Spare (n + 3) s → E.Spare n s₁) →
      ((do
        let entry ← tree.load (path.slots 1)
        if !present entry then fail .notMapped
        else if !leaf entry 1 then fail .conflict
        else pure path : Comp Fault MmError σ WalkPath).run s₁).Sat
        (fun _ s' => ∀ n, E.Spare (n + 3) s → E.Spare n s') (fun _ _ => ¬E.Spare 3 s) := by
    intro path s₁ hx hpath hroom
    obtain ⟨d', e', hm', -⟩ := hx.finer va d e hm
    have hdepth := hm'.le_of_tableOn (hpath 3 (by omega)).1
    obtain rfl : d' = 3 := le_antisymm hm'.depth_le hdepth
    have hs := hpath.slotOn (k := 3) (by omega)
    have he : tree.env.read s₁ (path.slots 1).table (path.slots 1).index = e' :=
      Option.some.inj (hs.symm.trans hm'.1)
    have hl : leaf e' 1 = true := hm'.2.2
    rw [load, run_gets_bind, he, hm'.2.1, hl]
    exact hroom
  rw [walkToLeaf, sat_bind]
  refine (walk_false_sat le_rfl (by omega)).mono (fun path s₀ h₀ => ?_)
    (fun _ _ h₀ => absurd hm (h₀.2 d e))
  obtain ⟨rfl, d', hd', hpath, hreach, -⟩ := h₀
  dsimp only
  by_cases habove : path.reachedLevel > 1
  · rw [if_pos habove, sat_bind]
    refine ((walk_true_sat H _ le_rfl (by omega)).and
        (walk_true_room hE H _ le_rfl (by omega))).mono
      (fun path₁ s₁ h₁ => hlast h₁.1.1 h₁.1.2 h₁.2) (fun _ _ h₁ => h₁.2.2)
  · rw [if_neg habove, run_pure_bind]
    obtain rfl : d' = 3 := by omega
    exact hlast (Extends.refl H va) hpath (fun n hn => hn.mono (by omega))

theorem protectLeaf_room (hE : E.FailsWhenEmpty) (H : tree.Shape E s) (hva : valid va = true)
    (hal : va % 4096 = 0) (hm : tree.Maps s va d e) (p : PageProt) :
    ((tree.protectLeaf va .size4K p).run s).Sat (fun _ s' => ∀ n, E.Spare (n + 3) s → E.Spare n s')
      (fun _ _ => ¬E.Spare 3 s) := by
  refine (protectLeaf_rule H (walkToLeaf_room hE H hm) p).mono (fun _ s' h => ?_)
    (fun _ s' h => ?_)
  · obtain ⟨-, -, s₁, e₁, hroom, -, -, hput⟩ := h
    intro n hn
    exact (hroom n hn).of_subset (fun t ht => by rw [hput.avail]; exact ht)
  · rcases h with ⟨-, hbad⟩ | ⟨hroom, -⟩
    · rw [PageSize.bytesIn_size4K] at hbad
      exact absurd ⟨hva, hal⟩ hbad
    · exact hroom

/-- The leaf behind a translation. -/
theorem exists_maps (H : tree.Shape E s) (hx : valid va = true) (h : tree.translation s va ≠ none) :
    ∃ d e, tree.Maps s va d e := by
  by_contra hno
  exact h (translation_of_not_maps H hx (fun d e hm => hno ⟨d, e, hm⟩))

/-- **Protecting mapped pages** takes at most three tables for each, and fails only where there
are fewer. -/
theorem protectRange_room (hE : E.FailsWhenEmpty) (H : tree.Shape E s) (hal : va % 4096 = 0)
    (hpos : 0 < length) (hlen : length % 4096 = 0)
    (hmapped : ∀ x, va ≤ x → x < va + length → valid x = true ∧ tree.translation s x ≠ none)
    (p : PageProt) :
    ((tree.protectRange va length .size4K p).run s).Sat
      (fun _ s' => ∀ n, E.Spare (n + 3 * (length / 4096)) s → E.Spare n s')
      (fun _ _ => ¬E.Spare (3 * (length / 4096)) s) := by
  rw [protectRange]
  refine (sat_forEachLeaf (I := fun m s' => tree.Shape E s' ∧
    tree.ProtectsTo va m (readBack tree.feat p) s s' ∧
    ∀ n, E.Spare (n + 3 * (m / 4096)) s → E.Spare n s') ⟨H, fun x _ => ?_,
      fun n hn => hn.mono (by omega)⟩ (fun hbad => ?_) (fun i s₀ hi h₀ => ?_)).mono
    (fun _ _ h => h.2.2.2) (fun _ _ h => h)
  · rw [if_neg (by omega)]
  · rw [leafSize_size4K, PageSize.bytesIn_size4K] at hbad
    omega
  rw [leafSize_size4K, PageSize.bytesIn_size4K] at h₀
  rw [leafSize_size4K, PageSize.bytesIn_size4K, Nat.add_mul, Nat.one_mul] at hi ⊢
  obtain ⟨H₀, hprot, hroom⟩ := h₀
  obtain ⟨hv, hne⟩ := hmapped (va + i * 4096) (by omega) (by omega)
  have hlt := (valid_iff _).mp hv
  rw [u64_of_lt (by omega)]
  -- the page is mapped still
  have hsame := hprot _ hv
  rw [if_neg (by omega)] at hsame
  obtain ⟨d, e, hm⟩ := exists_maps H₀ hv (hsame ▸ hne)
  refine ((protectLeaf_sat H₀ _ _ p).and (protectLeaf_room hE H₀ hv (by omega) hm p)).mono
    (fun _ s₁ h₁ => ?_) (fun _ _ h₁ => fun hn => h₁.2 (hroom 3 (hn.mono (by omega))))
  obtain ⟨⟨-, hal', s₂, e', hx, hm', hput⟩, hspare⟩ := h₁
  have hstep := protectsTo_of_leaf hx H₀ hm' hput hv hal'
  rw [PageSize.bytesIn_size4K] at hstep
  refine ⟨hput.shape, hprot.append hstep, fun n hn => hspare n (hroom _ ?_)⟩
  exact hn.mono (by omega)

/-! ## Unmapping pages -/

/-- Taking tables out of the tree leaves as many available. -/
theorem pruneFrom_room {path : WalkPath} (d : ℕ) (s : σ) (hd : d ≤ 3) (H : tree.Shape E s)
    (hpath : tree.OnPath s va path (d + 1)) :
    ((tree.pruneFrom path (4 - d) d).run s).Sat (fun _ s' => ∀ t ∈ E.avail s, t ∈ E.avail s')
      (fun _ _ => False) :=
  pruneFrom_rule (I := fun _ s' => ∀ t ∈ E.avail s, t ∈ E.avail s') (fun _ h => h)
    (fun _ _ _ _ h => h) (fun _ _ hone h t ht => hone.avail t (h t ht)) d s hd H hpath
    (fun _ h => h)

theorem removeLeaf_room (H : tree.Shape E s) (va : ℕ) :
    ((tree.removeLeaf va).run s).Sat (fun _ s' => ∀ t ∈ E.avail s, t ∈ E.avail s')
      (fun _ s' => s' = s) := by
  refine (removeLeaf_rule (W := fun _ s₁ s' => ∀ t ∈ E.avail s₁, t ∈ E.avail s') H va
    (fun d e s₁ path hm hputs hpath => ?_)).mono (fun m s' h => ?_) (fun _ _ h => h.1)
  · rw [prune_of_depth hm.depth_le]
    exact pruneFrom_room d _ hm.depth_le hputs.shape hpath
  · obtain ⟨-, d, e, s₁, -, -, hputs, h₁⟩ := h
    rw [hputs.avail] at h₁
    exact h₁

/-- Splitting at a boundary takes at most three tables. -/
theorem splitAt_room (hE : E.FailsWhenEmpty) (H : tree.Shape E s) (b : ℕ) :
    ((tree.splitAt b 1).run s).Sat (fun _ s' => ∀ n, E.Spare (n + 3) s → E.Spare n s')
      (fun _ _ => ¬E.Spare 3 s) := by
  rw [splitAt, sat_bind, sat_attempt]
  refine (walk_false_sat le_rfl (by omega)).mono (fun path s₀ h₀ => ?_) (fun _ s₀ h₀ => ?_)
  · obtain ⟨rfl, -⟩ := h₀
    dsimp only
    split_ifs
    · rw [sat_bind]
      exact (walk_true_room hE H _ le_rfl (by omega)).mono (fun _ _ h => h) (fun _ _ h => h.2)
    · exact fun n hn => hn.mono (by omega)
  · rw [h₀.1]
    exact fun n hn => hn.mono (by omega)

/-- What `unmap_range` does before its loop takes at most six tables. -/
theorem unmapPrepare_room (hE : E.FailsWhenEmpty) (H : tree.Shape E s) (hva : valid va = true)
    (hal : va % 4096 = 0) (hpos : 0 < length) (hlen : length % 4096 = 0)
    (hend : va + length < 2 ^ 64) (hlast : valid (va + length - 1) = true) :
    ((tree.unmapPrepare va length .size4K).run s).Sat
      (fun _ s' => ∀ n, E.Spare (n + 6) s → E.Spare n s') (fun _ _ => ¬E.Spare 6 s) := by
  have hsub : sub64 (va + length) 1 = va + length - 1 := sub64_of_le hend (by omega)
  have hok : ¬(decide (length = 0) || length % 4096 != 0 || decide (va + length - 1 < va) ||
      !valid (va + length - 1)) = true := by
    rw [hlast, decide_eq_false (by omega), hlen, decide_eq_false (by omega)]
    decide
  rw [unmapPrepare]
  dsimp only
  rw [leafSize_size4K, sat_bind, u64_of_lt hend, hsub, PageSize.bytesIn_size4K]
  refine (validate_sat va .size4K 0 s).mono (fun target s₀ h₀ => ?_) (fun _ s₀ h₀ => ?_)
  swap
  · rw [PageSize.bytesIn_size4K] at h₀
    exact absurd ⟨hva, hal, rfl⟩ h₀.2
  obtain ⟨rfl, rfl, -⟩ := h₀
  rw [if_neg hok]
  apply PageEnv.Spec.spare_bind (m := 3) (c := 3) (Q := fun _ s₁ => tree.Shape E s₁)
  · exact ((splitAt_sat H va (le_refl 3)).and (splitAt_room hE H va)).mono
      (fun _ s₁ h₁ => ⟨h₁.1.1.shape, h₁.2⟩) (fun _ _ h₁ => h₁.2)
  · intro _ s₁ h₁
    split_ifs
    · exact splitAt_room hE h₁ (va + length)
    · exact fun n hn => hn.mono (by omega)

/-- The loop of `unmap_range` over mapped addresses. -/
theorem unmapFrom_room {s₀ : σ} (hend : va + length ≤ 2 ^ 64) (hlen : length < 2 ^ 64)
    (hmapped : ∀ x, va ≤ x → x < va + length → valid x = true ∧ tree.translation s₀ x ≠ none) :
    ∀ (n offset : ℕ) (s : σ), tree.Removed E (fun r _ => r) va length s₀ offset s →
      length < offset + 4096 * n →
      ((tree.unmapFrom va length ignoreRemoved n offset).run s).Sat
        (fun _ s' => ∀ t ∈ E.avail s, t ∈ E.avail s') (fun _ _ => False) := by
  intro n
  induction n with
  | zero =>
    intro offset s h hfuel
    have := h.le
    omega
  | succ n ih =>
    intro offset s h hfuel
    rw [unmapFrom]
    by_cases hlt : offset < length
    swap
    · rw [if_neg hlt]
      exact fun t ht => ht
    obtain ⟨hv, hne⟩ := hmapped (va + offset) (by omega) (by omega)
    -- what is not removed yet is mapped
    have hsame := h.translation _ hv
    rw [if_neg (by omega)] at hsame
    obtain ⟨k, e₀, hm⟩ := exists_maps h.shape hv (hsame ▸ hne)
    rw [if_pos hlt, u64_of_lt (by omega), sat_bind]
    refine ((removeLeaf_sat h.shape (va + offset)).and (removeLeaf_room h.shape _)).mono
      (fun m s₁ h₁ => ?_) (fun _ s₁ h₁ => absurd hm (h₁.1.2 hv k e₀))
    obtain ⟨⟨hcur, d, e, hrem⟩, havail⟩ := h₁
    have hstep := h.step hlt hcur hrem hrem.shape.good rfl rfl rfl
    have hbig : 4096 ≤ m.size.bytesIn := by
      rw [m.size.bytesIn_eq]
      have := m.size.framesIn_pos
      omega
    have hle := hstep.le
    rw [ignoreRemoved, run_pure_bind, u64_of_lt (by omega)]
    exact (ih _ s₁ hstep (by omega)).mono (fun _ s₂ h₂ t ht => h₂ t (havail t ht))
      (fun _ _ h => h)

/-- **Unmapping mapped pages** takes at most six tables, and fails only where there are fewer. -/
theorem unmapRange_room (hE : E.FailsWhenEmpty) (H : tree.Shape E s) (hal : va % 4096 = 0)
    (hpos : 0 < length) (hlen : length % 4096 = 0) (hend : va + length < 2 ^ 64)
    (hmapped : ∀ x, va ≤ x → x < va + length → valid x = true ∧ tree.translation s x ≠ none) :
    ((tree.unmapRange va length .size4K ignoreRemoved).run s).Sat
      (fun _ s' => ∀ n, E.Spare (n + 6) s → E.Spare n s') (fun _ _ => ¬E.Spare 6 s) := by
  have hva := (hmapped va le_rfl (by omega)).1
  have hlast := (hmapped (va + length - 1) (by omega) (by omega)).1
  rw [unmapRange, sat_bind]
  have hprep := (unmapPrepare_sat H (by omega) va .size4K).and
    (unmapPrepare_room hE H hva hal hpos hlen hend hlast)
  refine hprep.mono (fun _ s₁ h₁ => ?_) (fun _ _ h => h.2)
  obtain ⟨h₁, hroom⟩ := h₁
  have hmapped₁ : ∀ x, va ≤ x → x < va + length → valid x = true ∧
      tree.translation s₁ x ≠ none := by
    intro x hle hlt
    obtain ⟨hv, hne⟩ := hmapped x hle hlt
    rw [h₁.translation x hv]
    exact ⟨hv, hne⟩
  refine (unmapFrom_room h₁.end_le h₁.length_lt hmapped₁ _ 0 s₁
    ⟨h₁.shape, by omega, fun x _ => by rw [if_neg (by omega)], ⟨[], rfl, rfl⟩, h₁.start_boundary,
      h₁.end_boundary⟩ (by omega)).mono (fun _ s₂ h₂ n hn => ?_) (fun _ _ h => h.elim)
  exact (hroom n hn).of_subset h₂

end RadixTree

end DoomOs
