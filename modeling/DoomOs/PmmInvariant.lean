/-
# The representation invariant of the frame allocator

The bitmap is the truth; the counters and the two lists are caches of it.
`Pmm.Inv` says that they agree: every counter is the number of set bits of its
block, and each list holds exactly the blocks that `list_of` sends to it, as a
doubly linked list in the sense of `LinkedList.Chain`.

Everything that touches the lists goes through `set_free`, so the lists are
handled once, in `setFree_listed`; the counters are then a matter of counting
bits, and `alloc_sat` and `free_sat` say what an allocation and a release do to
the set of free frames.
-/
import DoomOs.LinkedList
import DoomOs.Pmm

namespace DoomOs

namespace Pmm

open LinkedList Comp

/-! ## The lists -/

/-- The `next` links of the block array. -/
def next (s : Pmm) (i : ℕ) : ℕ := (s.blocks i).next

/-- The `prev` links of the block array. -/
def prev (s : Pmm) (i : ℕ) : ℕ := (s.blocks i).prev

/-- Both heads start a list; the lists are disjoint and stay inside the array. -/
structure Linked (s : Pmm) (l : Head → List ℕ) : Prop where
  chain : ∀ h, Chain s.next s.prev nil nil (s.head h) (l h)
  nodup : ∀ h, (l h).Nodup
  lt : ∀ h, ∀ i ∈ l h, i < blockCount
  disjoint : ∀ h h' i, i ∈ l h → i ∈ l h' → h = h'

/-- A linked state whose lists hold what the counters say. -/
structure Listed (s : Pmm) (l : Head → List ℕ) : Prop extends Linked s l where
  mem : ∀ h i, i < blockCount → (i ∈ l h ↔ listOf (s.blocks i).free = some h)

theorem u16_of_lt_blockCount {i : ℕ} (hi : i < blockCount) : u16 i = i :=
  u16_of_lt (by simp only [blockCount] at hi; omega)

@[simp] theorem head_setBlock (s : Pmm) (i : ℕ) (b : Block) (h : Head) :
    (s.setBlock i b).head h = s.head h := by
  cases h <;> rfl

@[simp] theorem blocks_setBlock (s : Pmm) (i : ℕ) (b : Block) :
    (s.setBlock i b).blocks = Function.update s.blocks i b := rfl

@[simp] theorem blocks_setHead (s : Pmm) (h : Head) (v : ℕ) :
    (s.setHead h v).blocks = s.blocks := by
  cases h <;> rfl

@[simp] theorem head_setHead (s : Pmm) (h h' : Head) (v : ℕ) :
    (s.setHead h v).head h' = if h' = h then v else s.head h' := by
  cases h <;> cases h' <;> rfl

@[simp] theorem frames_setHead (s : Pmm) (h : Head) (v : ℕ) :
    (s.setHead h v).frames = s.frames := by
  cases h <;> rfl

@[simp] theorem frames_setBlock (s : Pmm) (i : ℕ) (b : Block) :
    (s.setBlock i b).frames = s.frames := rfl

@[simp] theorem frames_push (s : Pmm) (h : Head) (i : ℕ) : (s.push h i).frames = s.frames := by
  unfold push
  dsimp only
  split <;> simp

@[simp] theorem frames_unlink (s : Pmm) (h : Head) (i : ℕ) :
    (s.unlink h i).frames = s.frames := by
  unfold unlink
  dsimp only
  split <;> split <;> simp

@[simp] theorem frames_setFree (s : Pmm) (i free : ℕ) : (s.setFree i free).frames = s.frames := by
  unfold setFree relist unlinkFrom pushTo
  dsimp only
  split
  · cases listOf (s.blocks i).free <;> cases listOf free <;> simp
  · simp

/-- What `push` does to the array: the links of `Chain.push`, the counters kept. -/
theorem blocks_push {i : ℕ} (s : Pmm) (h : Head) (hi : u16 i = i) (j : ℕ) :
    (s.push h i).blocks j =
      ⟨(s.blocks j).free, pushNext s.next (s.head h) i j, pushPrev s.prev nil (s.head h) i j⟩ := by
  unfold push pushNext pushPrev
  simp only [head_setBlock, hi]
  by_cases hh : s.head h = nil
  · rw [if_neg (not_not.mpr hh), if_pos hh, blocks_setHead, blocks_setBlock]
    by_cases hj : j = i
    · subst hj
      simp
    · simp [Function.update_of_ne hj, next, prev]
  · rw [if_pos hh, if_neg hh, blocks_setHead, blocks_setBlock, blocks_setBlock]
    by_cases hjh : j = s.head h
    · by_cases hj : j = i
      · subst hj
        simp [← hjh]
      · have hne : s.head h ≠ i := fun e => hj (hjh.trans e)
        simp [hjh, Function.update_of_ne hne, next]
    · by_cases hj : j = i
      · subst hj
        simp [Function.update_of_ne hjh]
      · simp [Function.update_of_ne hjh, Function.update_of_ne hj, next, prev]

/-- What `unlink` does to the array: the links of `Chain.unlink`, the counters kept. -/
theorem blocks_unlink {i : ℕ} (s : Pmm) (h : Head) (hi : s.prev i ≠ i) (j : ℕ) :
    (s.unlink h i).blocks j =
      ⟨(s.blocks j).free, unlinkNext s.next s.prev nil i j, unlinkPrev s.next s.prev nil i j⟩ := by
  have hi' : i ≠ (s.blocks i).prev := fun e => hi e.symm
  have hp : s.prev i = (s.blocks i).prev := rfl
  have hn : s.next i = (s.blocks i).next := rfl
  unfold unlink unlinkNext unlinkPrev
  rw [hp, hn]
  by_cases hpn : (s.blocks i).prev = nil
  · rw [if_pos hpn, if_pos hpn]
    simp only [blocks_setHead]
    by_cases hnn : (s.blocks i).next = nil
    · rw [if_neg (not_not.mpr hnn), if_pos hnn, blocks_setHead]
      rfl
    · rw [if_pos hnn, if_neg hnn, blocks_setBlock, blocks_setHead]
      by_cases hj : j = (s.blocks i).next
      · simp [hj, next]
      · simp [Function.update_of_ne hj, next, prev]
  · rw [if_neg hpn, if_neg hpn]
    simp only [blocks_setBlock, Function.update_of_ne hi']
    by_cases hnn : (s.blocks i).next = nil
    · rw [if_neg (not_not.mpr hnn), if_pos hnn, blocks_setBlock]
      by_cases hj : j = (s.blocks i).prev
      · simp [hj, prev]
      · simp [Function.update_of_ne hj, next, prev]
    · rw [if_pos hnn, if_neg hnn, blocks_setBlock, blocks_setBlock]
      by_cases hjn : j = (s.blocks i).next
      · by_cases hjp : j = (s.blocks i).prev
        · simp [← hjn, ← hjp]
        · have hne : (s.blocks i).next ≠ (s.blocks i).prev := fun e => hjp (hjn.trans e)
          simp [hjn, Function.update_of_ne hne, next]
      · by_cases hjp : j = (s.blocks i).prev
        · have hne : (s.blocks i).prev ≠ (s.blocks i).next := fun e => hjn (hjp.trans e)
          simp [hjp, Function.update_of_ne hne, prev]
        · simp [Function.update_of_ne hjn, Function.update_of_ne hjp, next, prev]

theorem head_push {i : ℕ} (s : Pmm) (h h' : Head) (hi : u16 i = i) :
    (s.push h i).head h' = if h' = h then i else s.head h' := by
  unfold push
  dsimp only
  split <;> simp [hi]

theorem head_unlink {i : ℕ} (s : Pmm) (h h' : Head) :
    (s.unlink h i).head h' =
      if h' = h then (if s.prev i = nil then s.next i else s.head h) else s.head h' := by
  unfold unlink prev next
  dsimp only
  by_cases hp : (s.blocks i).prev = nil
  · rw [if_pos hp, if_pos hp]
    split <;> simp
  · rw [if_neg hp, if_neg hp]
    by_cases hh : h' = h
    · subst hh
      split <;> simp
    · split <;> simp

/-- `push` puts a block that is in no list in front of one. -/
theorem Linked.push {s : Pmm} {l : Head → List ℕ} (H : Linked s l) (h : Head) {i : ℕ}
    (hi : i < blockCount) (hout : ∀ h', i ∉ l h') :
    Linked (s.push h i) (Function.update l h (i :: l h)) := by
  have hi16 : u16 i = i := u16_of_lt_blockCount hi
  have hin : i ≠ nil := by
    simp only [blockCount, nil] at hi ⊢
    omega
  have hnext : (s.push h i).next = pushNext s.next (s.head h) i := by
    funext j
    rw [next, blocks_push s h hi16]
  have hprev : (s.push h i).prev = pushPrev s.prev nil (s.head h) i := by
    funext j
    rw [prev, blocks_push s h hi16]
  constructor
  · intro h'
    rw [hnext, hprev, head_push s h h' hi16]
    by_cases hh : h' = h
    · subst hh
      rw [if_pos rfl, Function.update_self]
      exact (H.chain h').push (H.nodup h') (hout h') hin
    · -- the other list: neither `i` nor the old head of `h` is one of its elements
      rw [if_neg hh, Function.update_of_ne hh]
      refine (H.chain h').congr (fun j hj => ?_) (fun j hj => ?_)
      · have hji : j ≠ i := fun e => hout h' (e ▸ hj)
        exact Function.update_of_ne hji ..
      · have hji : j ≠ i := fun e => hout h' (e ▸ hj)
        unfold pushPrev
        split
        · exact Function.update_of_ne hji ..
        · rename_i hne
          have hjh : j ≠ s.head h := by
            intro e
            exact hh (H.disjoint h' h j hj (e ▸ (H.chain h).head_mem hne))
          rw [Function.update_of_ne hjh, Function.update_of_ne hji]
  · intro h'
    by_cases hh : h' = h
    · subst hh
      rw [Function.update_self]
      exact List.nodup_cons.mpr ⟨hout h', H.nodup h'⟩
    · rw [Function.update_of_ne hh]
      exact H.nodup h'
  · intro h' j hj
    by_cases hh : h' = h
    · subst hh
      rw [Function.update_self] at hj
      rcases List.mem_cons.mp hj with rfl | hj
      · exact hi
      · exact H.lt h' j hj
    · rw [Function.update_of_ne hh] at hj
      exact H.lt h' j hj
  · intro h1 h2 j hj1 hj2
    have hback : ∀ h', j ∈ Function.update l h (i :: l h) h' → j ≠ i → j ∈ l h' := by
      intro h' hj hji
      by_cases hh : h' = h
      · subst hh
        rw [Function.update_self] at hj
        exact (List.mem_cons.mp hj).resolve_left hji
      · rwa [Function.update_of_ne hh] at hj
    by_cases hji : j = i
    · subst hji
      have hfix : ∀ h', j ∈ Function.update l h (j :: l h) h' → h' = h := by
        intro h' hj
        by_contra hh
        rw [Function.update_of_ne hh] at hj
        exact hout h' hj
      rw [hfix h1 hj1, hfix h2 hj2]
    · exact H.disjoint h1 h2 j (hback h1 hj1 hji) (hback h2 hj2 hji)

/-- `unlink` takes a block out of its list. -/
theorem Linked.unlink {s : Pmm} {l : Head → List ℕ} (H : Linked s l) (h : Head) {i : ℕ}
    (hi : i ∈ l h) : Linked (s.unlink h i) (Function.update l h ((l h).erase i)) := by
  have hnil : nil ∉ l h := fun hm => (H.chain h).ne_nil nil hm rfl
  have hself : s.prev i ≠ i := (H.chain h).prev_ne_self (H.nodup h) hnil i hi
  have hnext : (s.unlink h i).next = unlinkNext s.next s.prev nil i := by
    funext j
    rw [next, blocks_unlink s h hself]
  have hprev : (s.unlink h i).prev = unlinkPrev s.next s.prev nil i := by
    funext j
    rw [prev, blocks_unlink s h hself]
  have hsub : ∀ h' j, j ∈ Function.update l h ((l h).erase i) h' → j ∈ l h' := by
    intro h' j hj
    by_cases hh : h' = h
    · subst hh
      rw [Function.update_self] at hj
      exact List.mem_of_mem_erase hj
    · rwa [Function.update_of_ne hh] at hj
  constructor
  · intro h'
    rw [hnext, hprev, head_unlink]
    by_cases hh : h' = h
    · subst hh
      rw [if_pos rfl, Function.update_self]
      exact (H.chain h').unlink (H.nodup h') hi
    · -- the other list holds neither neighbour of `i`
      rw [if_neg hh, Function.update_of_ne hh]
      refine (H.chain h').congr (fun j hj => ?_) (fun j hj => ?_)
      · unfold unlinkNext
        split
        · rfl
        · rename_i hne
          have hmem : s.prev i ∈ l h := by
            rcases (H.chain h).prev_mem i hi with ⟨-, e⟩ | hm
            · exact absurd e hne
            · exact hm
          have hne' : j ≠ s.prev i := fun e => hh (H.disjoint h' h j hj (e ▸ hmem))
          exact Function.update_of_ne hne' ..
      · unfold unlinkPrev
        split
        · rfl
        · rename_i hne
          have hmem : s.next i ∈ l h := by
            rcases (H.chain h).next_mem i hi with e | hm
            · exact absurd e hne
            · exact hm
          have hne' : j ≠ s.next i := fun e => hh (H.disjoint h' h j hj (e ▸ hmem))
          exact Function.update_of_ne hne' ..
  · intro h'
    by_cases hh : h' = h
    · subst hh
      rw [Function.update_self]
      exact (H.nodup h').erase i
    · rw [Function.update_of_ne hh]
      exact H.nodup h'
  · exact fun h' j hj => H.lt h' j (hsub h' j hj)
  · exact fun h1 h2 j hj1 hj2 => H.disjoint h1 h2 j (hsub h1 j hj1) (hsub h2 j hj2)

/-- Writing a counter leaves the lists alone. -/
theorem Linked.setBlock {s : Pmm} {l : Head → List ℕ} (H : Linked s l) (i f : ℕ) :
    Linked (s.setBlock i { s.blocks i with free := f }) l := by
  have hnext : (s.setBlock i { s.blocks i with free := f }).next = s.next := by
    funext j
    by_cases hj : j = i
    · subst hj
      simp [next]
    · simp [next, Function.update_of_ne hj]
  have hprev : (s.setBlock i { s.blocks i with free := f }).prev = s.prev := by
    funext j
    by_cases hj : j = i
    · subst hj
      simp [prev]
    · simp [prev, Function.update_of_ne hj]
  exact ⟨fun h => by rw [hnext, hprev, head_setBlock]; exact H.chain h, H.nodup, H.lt, H.disjoint⟩

/-- The lists after a block has moved from `source` to `target`. -/
def moved (l : Head → List ℕ) (source target : Option Head) (i : ℕ) (h : Head) : List ℕ :=
  if source = target then l h
  else if target = some h then i :: l h
  else if source = some h then (l h).erase i
  else l h

/-- Taking a block out of the list its counter names. -/
theorem Listed.unlinkFrom {s : Pmm} {l : Head → List ℕ} (H : Listed s l) {i : ℕ}
    (hi : i < blockCount) :
    ∃ l', Linked (s.unlinkFrom (listOf (s.blocks i).free) i) l' ∧
      (∀ h, l' h = if listOf (s.blocks i).free = some h then (l h).erase i else l h) ∧
      (∀ h, i ∉ l' h) ∧
      ∀ j, ((s.unlinkFrom (listOf (s.blocks i).free) i).blocks j).free = (s.blocks j).free := by
  cases hsrc : listOf (s.blocks i).free with
  | none =>
    refine ⟨l, H.toLinked, fun h => by simp, fun h hm => ?_, fun _ => rfl⟩
    rw [H.mem h i hi, hsrc] at hm
    cases hm
  | some h0 =>
    have hmem : i ∈ l h0 := (H.mem h0 i hi).mpr hsrc
    have hnil : nil ∉ l h0 := fun hm => (H.chain h0).ne_nil nil hm rfl
    have hself := (H.chain h0).prev_ne_self (H.nodup h0) hnil i hmem
    refine ⟨_, H.toLinked.unlink h0 hmem, fun h => ?_, fun h hm => ?_, fun j => ?_⟩
    · by_cases hh : h = h0
      · subst hh
        simp
      · rw [Function.update_of_ne hh, if_neg (fun e => hh (Option.some.inj e).symm)]
    · by_cases hh : h = h0
      · subst hh
        rw [Function.update_self] at hm
        exact (H.nodup h).not_mem_erase hm
      · rw [Function.update_of_ne hh] at hm
        exact hh (H.disjoint h h0 i hm hmem)
    · rw [Pmm.unlinkFrom, blocks_unlink s h0 hself]

/-- The list changes of `set_free`: the block moves from the list of its old counter
to the list `target`. -/
theorem Listed.relist {s : Pmm} {l : Head → List ℕ} (H : Listed s l) {i : ℕ}
    (hi : i < blockCount) (target : Option Head) :
    Linked (s.relist (listOf (s.blocks i).free) target i)
        (moved l (listOf (s.blocks i).free) target i) ∧
      ∀ j, ((s.relist (listOf (s.blocks i).free) target i).blocks j).free
        = (s.blocks j).free := by
  by_cases heq : listOf (s.blocks i).free = target
  · have hl : moved l (listOf (s.blocks i).free) target i = l := by
      funext h
      rw [moved, if_pos heq]
    rw [hl, Pmm.relist, if_neg (not_not.mpr heq)]
    exact ⟨H.toLinked, fun _ => rfl⟩
  obtain ⟨l1, H1, hl1, hout1, hfree1⟩ := H.unlinkFrom hi
  rw [Pmm.relist, if_pos heq]
  cases target with
  | none =>
    have hl : moved l (listOf (s.blocks i).free) none i = l1 := by
      funext h
      rw [moved, if_neg heq, if_neg (by simp), hl1]
    rw [hl]
    exact ⟨H1, hfree1⟩
  | some h0 =>
    have hl : moved l (listOf (s.blocks i).free) (some h0) i
        = Function.update l1 h0 (i :: l1 h0) := by
      funext h
      rw [moved, if_neg heq]
      by_cases hh : h = h0
      · subst hh
        rw [if_pos rfl, Function.update_self, hl1, if_neg heq]
      · rw [if_neg (fun e => hh (Option.some.inj e).symm), Function.update_of_ne hh, hl1]
    rw [hl]
    refine ⟨H1.push h0 hi hout1, fun j => ?_⟩
    rw [pushTo, blocks_push _ h0 (u16_of_lt_blockCount hi), hfree1]

/-- **`set_free` keeps the lists.**  Afterwards the lists hold what the new counter
says, and no other counter has changed. -/
theorem setFree_listed {s : Pmm} {l : Head → List ℕ} (H : Listed s l) {i free : ℕ}
    (hi : i < blockCount) (hf : free ≤ framesPerBlock) :
    Listed (s.setFree i free) (moved l (listOf (s.blocks i).free) (listOf free) i) ∧
      ∀ j, ((s.setFree i free).blocks j).free = if j = i then free else (s.blocks j).free := by
  obtain ⟨H', hfree'⟩ := H.relist hi (listOf free)
  have h16 : u16 free = free := u16_of_lt (by
    simp only [framesPerBlock] at hf
    omega)
  have hblocks : ∀ j, ((s.setFree i free).blocks j).free
      = if j = i then free else (s.blocks j).free := by
    intro j
    rw [setFree, h16, blocks_setBlock]
    by_cases hj : j = i
    · subst hj
      simp
    · rw [Function.update_of_ne hj, if_neg hj, hfree']
  refine ⟨⟨?_, fun h j hj => ?_⟩, hblocks⟩
  · rw [setFree, h16]
    exact H'.setBlock i free
  · rw [hblocks, moved]
    by_cases heq : listOf (s.blocks i).free = listOf free
    · rw [if_pos heq, H.mem h j hj]
      by_cases hji : j = i
      · subst hji
        rw [if_pos rfl, heq]
      · rw [if_neg hji]
    · rw [if_neg heq]
      by_cases hji : j = i
      · subst hji
        rw [if_pos rfl]
        by_cases ht : listOf free = some h
        · rw [if_pos ht]
          exact ⟨fun _ => ht, fun _ => List.mem_cons_self⟩
        · rw [if_neg ht]
          refine ⟨fun hm => ?_, fun e => absurd e ht⟩
          by_cases hs : listOf (s.blocks j).free = some h
          · rw [if_pos hs] at hm
            exact absurd hm (H.nodup h).not_mem_erase
          · rw [if_neg hs, H.mem h j hj] at hm
            exact absurd hm hs
      · rw [if_neg hji, ← H.mem h j hj]
        by_cases ht : listOf free = some h
        · rw [if_pos ht, List.mem_cons, or_iff_right hji]
        · rw [if_neg ht]
          by_cases hs : listOf (s.blocks i).free = some h
          · rw [if_pos hs, List.mem_erase_of_ne hji]
          · rw [if_neg hs]

@[simp] theorem frames_setFreeRun (free : ℕ) : ∀ (n first : ℕ) (s : Pmm),
    (s.setFreeRun free first n).frames = s.frames := by
  intro n
  induction n with
  | zero => intro first s; rfl
  | succ n ih => intro first s; rw [setFreeRun, ih, frames_setFree]

/-- A run of `set_free` calls. -/
theorem setFreeRun_listed {free : ℕ} (hf : free ≤ framesPerBlock) :
    ∀ (n first : ℕ) (s : Pmm), (∃ l, Listed s l) → first + n ≤ blockCount →
      (∃ l, Listed (s.setFreeRun free first n) l) ∧
        ∀ j, ((s.setFreeRun free first n).blocks j).free =
          if first ≤ j ∧ j < first + n then free else (s.blocks j).free := by
  intro n
  induction n with
  | zero =>
    intro first s hl _
    refine ⟨hl, fun j => ?_⟩
    rw [if_neg (by omega), setFreeRun]
  | succ n ih =>
    rintro first s ⟨l, hl⟩ hle
    obtain ⟨hl1, hfree1⟩ := setFree_listed hl (by omega : first < blockCount) hf
    obtain ⟨hl2, hfree2⟩ := ih (first + 1) (s.setFree first free) ⟨_, hl1⟩ (by omega)
    refine ⟨hl2, fun j => ?_⟩
    rw [setFreeRun, hfree2, hfree1]
    by_cases hj : j = first
    · subst hj
      rw [if_neg (by omega : ¬ (j + 1 ≤ j ∧ _)), if_pos rfl, if_pos (by omega)]
    · rw [if_neg hj]
      by_cases hin : first + 1 ≤ j ∧ j < first + 1 + n
      · rw [if_pos hin, if_pos (by omega)]
      · rw [if_neg hin, if_neg (by omega)]

/-! ## The invariant -/

/-- **The representation invariant**: counters and lists agree with the bitmap. -/
structure Inv (s : Pmm) : Prop where
  counts : ∀ i < blockCount,
    (s.blocks i).free = s.frames.setCount (i * framesPerBlock) ((i + 1) * framesPerBlock)
  lists : ∃ l, Listed s l

/-- The frames that are free. -/
def freeFrames (s : Pmm) : Set ℕ := {f | f < maxFrames ∧ s.frames.test f = true}

/-- The frames of a block of the given size at physical address `base`. -/
def blockFrames (size : PageSize) (base : ℕ) : Set ℕ :=
  {f | base / 4096 ≤ f ∧ f < base / 4096 + size.framesIn}

theorem mem_freeFrames {s : Pmm} {f : ℕ} :
    f ∈ s.freeFrames ↔ f < maxFrames ∧ s.frames.test f = true := Iff.rfl

theorem mem_blockFrames {size : PageSize} {base f : ℕ} :
    f ∈ blockFrames size base ↔ base / 4096 ≤ f ∧ f < base / 4096 + size.framesIn := Iff.rfl

theorem counts_le {s : Pmm} (H : s.Inv) {i : ℕ} (hi : i < blockCount) :
    (s.blocks i).free ≤ framesPerBlock := by
  rw [H.counts i hi]
  refine (Bitmap.setCount_le _ _ _).trans ?_
  simp only [framesPerBlock]
  omega

/-- A counter is zero exactly when nothing of the block is free. -/
theorem free_eq_zero_iff {s : Pmm} (H : s.Inv) {i : ℕ} (hi : i < blockCount) :
    (s.blocks i).free = 0 ↔
      ∀ f, i * framesPerBlock ≤ f → f < (i + 1) * framesPerBlock → s.frames.test f = false := by
  rw [H.counts i hi, Bitmap.setCount_eq_zero_iff]

/-- A counter is full exactly when the whole block is free. -/
theorem free_eq_full_iff {s : Pmm} (H : s.Inv) {i : ℕ} (hi : i < blockCount) :
    (s.blocks i).free = framesPerBlock ↔
      ∀ f, i * framesPerBlock ≤ f → f < (i + 1) * framesPerBlock → s.frames.test f = true := by
  rw [H.counts i hi, ← Bitmap.setCount_eq_sub_iff]
  have : (i + 1) * framesPerBlock - i * framesPerBlock = framesPerBlock := by
    simp only [framesPerBlock]
    omega
  rw [this]

theorem listOf_eq_whole_iff (free : ℕ) : listOf free = some .whole ↔ free = framesPerBlock := by
  unfold listOf
  by_cases h0 : free = 0
  · subst h0
    simp [framesPerBlock]
  · by_cases hf : free = framesPerBlock
    · subst hf
      simp [h0]
    · simp [h0, hf]

theorem listOf_eq_broken_iff (free : ℕ) :
    listOf free = some .broken ↔ free ≠ 0 ∧ free ≠ framesPerBlock := by
  unfold listOf
  by_cases h0 : free = 0
  · simp [h0]
  · by_cases hf : free = framesPerBlock
    · subst hf
      simp [h0]
    · simp [h0, hf]

/-- The head of a list is `NIL` or a block that belongs to it. -/
theorem head_cases {s : Pmm} (H : s.Inv) (h : Head) :
    s.head h = nil ∨ (s.head h < blockCount ∧ listOf (s.blocks (s.head h)).free = some h) := by
  obtain ⟨l, hl⟩ := H.lists
  by_cases hn : s.head h = nil
  · exact Or.inl hn
  · have hmem := (hl.chain h).head_mem hn
    have hlt := hl.lt h _ hmem
    exact Or.inr ⟨hlt, (hl.mem h _ hlt).mp hmem⟩

/-- A new bitmap with counters that follow it. -/
theorem Inv.of_counts {s s' : Pmm} (hl : ∃ l, Listed s' l)
    (hc : ∀ i < blockCount, (s'.blocks i).free
      = s.frames.setCount (i * framesPerBlock) ((i + 1) * framesPerBlock))
    (hf : s'.frames = s.frames) : s'.Inv :=
  ⟨fun i hi => by rw [hf]; exact hc i hi, hl⟩

/-! ## Taking frames -/

/-- What an allocation does: it returns an aligned block of free frames and makes
exactly these frames used. -/
def AllocPost (s : Pmm) (size : PageSize) (base : ℕ) (s' : Pmm) : Prop :=
  s'.Inv ∧ base % size.bytesIn = 0 ∧ blockFrames size base ⊆ s.freeFrames ∧
    s'.freeFrames = s.freeFrames \ blockFrames size base

/-- When an allocation fails: there is no aligned block of free frames.  Nothing
changes. -/
def AllocFails (s : Pmm) (size : PageSize) (e : MmError) (s' : Pmm) : Prop :=
  e = .outOfMemory ∧ s' = s ∧
    ∀ base, base % size.bytesIn = 0 → ¬ blockFrames size base ⊆ s.freeFrames

theorem listed_withFrames {s : Pmm} {l : Head → List ℕ} (H : Listed s l) (m : FrameMap) :
    Listed { s with frames := m } l :=
  ⟨⟨fun h => by cases h; exacts [H.chain .whole, H.chain .broken], H.nodup, H.lt, H.disjoint⟩,
    H.mem⟩

/-- The block that `take<SIZE_4K>` takes from: there is one unless nothing is free. -/
theorem index_cases {s : Pmm} (H : s.Inv) :
    ((if s.broken ≠ nil then s.broken else s.whole) = nil ∧ s.freeFrames = ∅) ∨
      ((if s.broken ≠ nil then s.broken else s.whole) < blockCount ∧
        (s.blocks (if s.broken ≠ nil then s.broken else s.whole)).free ≠ 0) := by
  by_cases hb : s.broken ≠ nil
  · rw [if_pos hb]
    rcases head_cases H .broken with hn | ⟨hlt, hlist⟩
    · exact absurd hn hb
    · exact Or.inr ⟨hlt, ((listOf_eq_broken_iff _).mp hlist).1⟩
  · rw [if_neg hb]
    rcases head_cases H .whole with hn | ⟨hlt, hlist⟩
    · refine Or.inl ⟨hn, Set.eq_empty_of_forall_notMem (fun f hf => ?_)⟩
      -- both lists are empty, so the counter of the block of `f` is zero
      obtain ⟨l, hl⟩ := H.lists
      have hempty : ∀ h, l h = [] := by
        intro h
        refine ((hl.chain h).head_eq_nil_iff).mp ?_
        cases h with
        | whole => exact hn
        | broken => exact not_not.mp hb
      have hi : f / framesPerBlock < blockCount := by
        have := hf.1
        simp only [maxFrames, framesPerBlock, blockCount] at this ⊢
        omega
      have hzero : (s.blocks (f / framesPerBlock)).free = 0 := by
        by_contra hne
        cases hlist : listOf (s.blocks (f / framesPerBlock)).free with
        | none =>
          unfold listOf at hlist
          rw [if_neg hne] at hlist
          split at hlist <;> cases hlist
        | some h =>
          have hmem := (hl.mem h _ hi).mpr hlist
          rw [hempty h] at hmem
          cases hmem
      have hfalse := (free_eq_zero_iff H hi).mp hzero f (Nat.div_mul_le_self ..) (by
        simp only [framesPerBlock]
        omega)
      rw [hf.2] at hfalse
      cases hfalse
    · rw [listOf_eq_whole_iff] at hlist
      refine Or.inr ⟨hlt, ?_⟩
      show (s.blocks (s.head .whole)).free ≠ 0
      rw [hlist]
      decide

/-- Clearing one free frame and decrementing its counter. -/
theorem inv_takeFrame {s : Pmm} (H : s.Inv) {i f : ℕ} (hi : i < blockCount)
    (hlo : i * framesPerBlock ≤ f) (hhi : f < (i + 1) * framesPerBlock)
    (ht : s.frames.test f = true) :
    (({ s with frames := s.frames.clear f } : Pmm).setFree i
      (sub64 (s.blocks i).free 1)).Inv := by
  have hW : 0 < 64 := by decide
  obtain ⟨l, hl⟩ := H.lists
  have htest : ∀ j, (s.frames.clear f).test j = (!decide (j = f) && s.frames.test j) :=
    Bitmap.test_clear hW s.frames f
  have hcount : s.frames.setCount (i * framesPerBlock) ((i + 1) * framesPerBlock)
      = (s.frames.clear f).setCount (i * framesPerBlock) ((i + 1) * framesPerBlock) + 1 := by
    refine Bitmap.setCount_of_set hlo hhi (by simp [htest]) ht (fun j _ _ hj => ?_)
    simp [htest, hj]
  have hle := counts_le H hi
  rw [H.counts i hi, hcount] at hle
  have hsub : sub64 (s.blocks i).free 1
      = (s.frames.clear f).setCount (i * framesPerBlock) ((i + 1) * framesPerBlock) := by
    have hlt := lt_of_le_of_lt hle (by decide : framesPerBlock < 2 ^ 64)
    rw [H.counts i hi, hcount, sub64_of_le hlt (by omega)]
    rfl
  rw [hsub]
  obtain ⟨hl', hfree'⟩ := setFree_listed (listed_withFrames hl (s.frames.clear f)) hi
    (by omega : (s.frames.clear f).setCount (i * framesPerBlock) ((i + 1) * framesPerBlock)
      ≤ framesPerBlock)
  refine Inv.of_counts ⟨_, hl'⟩ (fun j hj => ?_) (frames_setFree ..)
  rw [hfree']
  by_cases hji : j = i
  · subst hji
    rw [if_pos rfl]
  · rw [if_neg hji]
    show (s.blocks j).free = _
    rw [H.counts j hj]
    refine (Bitmap.setCount_congr (fun k hk hk' => ?_)).symm
    have hkf : k ≠ f := by
      rintro rfl
      simp only [framesPerBlock] at hlo hhi hk hk'
      omega
    simp [htest, hkf]

theorem takeFrame_sat {s : Pmm} (H : s.Inv) :
    (takeFrame.run s).Sat (AllocPost s .size4K) (AllocFails s .size4K) := by
  have hW : 0 < 64 := by decide
  unfold takeFrame
  rw [run_gets_bind]
  rcases index_cases H with ⟨hn, hempty⟩ | ⟨hlt, hne⟩
  · rw [if_pos hn]
    refine ⟨rfl, rfl, fun base _ hsub => ?_⟩
    have hmem : base / 4096 ∈ s.freeFrames := hsub ⟨le_rfl, by simp⟩
    rw [hempty] at hmem
    exact hmem
  generalize hidx : (if s.broken ≠ nil then s.broken else s.whole) = i at hlt hne ⊢
  have hin : i ≠ nil := by
    simp only [blockCount, nil] at hlt ⊢
    omega
  rw [if_neg hin, run_gets_bind]
  have hsearch := Bitmap.firstSet_findSet hW s.frames wordsPerBlock (i * wordsPerBlock)
  have hlo : i * wordsPerBlock * 64 = i * framesPerBlock := by
    simp only [wordsPerBlock, framesPerBlock]
    omega
  have hhi : (i * wordsPerBlock + wordsPerBlock) * 64 = (i + 1) * framesPerBlock := by
    simp only [wordsPerBlock, framesPerBlock]
    omega
  rw [hlo, hhi] at hsearch
  cases hf : s.frames.findSet (i * wordsPerBlock) wordsPerBlock with
  | none =>
    -- the counter says that the block is not empty
    rw [hf] at hsearch
    exact absurd ((free_eq_zero_iff H hlt).mpr hsearch) hne
  | some f =>
    rw [hf] at hsearch
    obtain ⟨h1, h2, h3, -⟩ := hsearch
    refine ⟨inv_takeFrame H hlt h1 h2 h3, ?_, ?_, ?_⟩
    · simp [addressOf]
    · intro g hg
      simp only [blockFrames, addressOf, PageSize.framesIn_size4K, Set.mem_ofPred_eq] at hg
      have hgf : g = f := by omega
      subst hgf
      refine ⟨?_, h3⟩
      simp only [framesPerBlock, blockCount, maxFrames] at h2 hlt ⊢
      omega
    · ext g
      simp only [freeFrames, blockFrames, addressOf, PageSize.framesIn_size4K, frames_setFree,
        Set.mem_ofPred_eq, Set.mem_sdiff, Bitmap.test_clear hW, Bool.and_eq_true,
        Bool.not_eq_true', decide_eq_false_iff_not]
      constructor
      · rintro ⟨hg, hgf, hgt⟩
        exact ⟨⟨hg, hgt⟩, by omega⟩
      · rintro ⟨⟨hg, hgt⟩, hgf⟩
        exact ⟨hg, by omega, hgt⟩

/-! ## Whole blocks -/

/-- Giving all the bits of `n` whole blocks one value and setting their counters
accordingly. -/
theorem inv_setFreeRun {s : Pmm} (H : s.Inv) {first n : ℕ} (hle : first + n ≤ blockCount)
    (value : Bool) {m : FrameMap}
    (hm : ∀ f, m.test f = if first * framesPerBlock ≤ f ∧ f < (first + n) * framesPerBlock
      then value else s.frames.test f) :
    (({ s with frames := m } : Pmm).setFreeRun (if value then framesPerBlock else 0)
      first n).Inv := by
  obtain ⟨l, hl⟩ := H.lists
  have hf : (if value then framesPerBlock else 0) ≤ framesPerBlock := by
    cases value <;> simp
  obtain ⟨hl', hfree'⟩ := setFreeRun_listed hf n first { s with frames := m }
    ⟨l, listed_withFrames hl m⟩ hle
  refine ⟨fun i hi => ?_, hl'⟩
  rw [hfree', frames_setFreeRun]
  show _ = m.setCount _ _
  by_cases hin : first ≤ i ∧ i < first + n
  · have hbits : ∀ f, i * framesPerBlock ≤ f → f < (i + 1) * framesPerBlock →
        m.test f = value := by
      intro f h1 h2
      rw [hm, if_pos]
      simp only [framesPerBlock] at h1 h2 ⊢
      omega
    rw [if_pos hin]
    cases value with
    | false => exact ((Bitmap.setCount_eq_zero_iff _ _ _).mpr hbits).symm
    | true =>
      rw [(Bitmap.setCount_eq_sub_iff _ _ _).mpr hbits]
      simp only [framesPerBlock, if_true]
      omega
  · rw [if_neg hin]
    show (s.blocks i).free = _
    rw [H.counts i hi]
    refine (Bitmap.setCount_congr (fun f h1 h2 => ?_)).symm
    rw [hm, if_neg]
    simp only [framesPerBlock] at h1 h2 ⊢
    omega

theorem countWhole_eq_iff (s : Pmm) (first : ℕ) : ∀ n whole : ℕ,
    s.countWhole first n whole = whole + n ↔
      ∀ k < n, (s.blocks (first + whole + k)).free = framesPerBlock := by
  intro n
  induction n with
  | zero =>
    intro whole
    simp [countWhole]
  | succ n ih =>
    intro whole
    rw [countWhole]
    by_cases hw : (s.blocks (first + whole)).free = framesPerBlock
    · rw [if_pos hw, show whole + (n + 1) = whole + 1 + n by omega, ih]
      constructor
      · intro h k hk
        cases k with
        | zero => exact hw
        | succ k =>
          have := h k (by omega)
          rwa [show first + (whole + 1) + k = first + whole + (k + 1) by omega] at this
      · intro h k hk
        have := h (k + 1) (by omega)
        rwa [show first + whole + (k + 1) = first + (whole + 1) + k by omega] at this
    · rw [if_neg hw]
      refine ⟨fun h => by omega, fun h => absurd (h 0 (by omega)) hw⟩

/-- All of the `n` blocks from `first` on are free. -/
def WholeRun (s : Pmm) (first n : ℕ) : Prop :=
  ∀ j < n, (s.blocks (first + j)).free = framesPerBlock

/-- The outer search returns the first candidate all of whose blocks are free. -/
theorem searchRun_cases (s : Pmm) (blocks : ℕ) : ∀ n first : ℕ,
    (s.searchRun blocks first n = nil ∧ ∀ k < n, ¬ s.WholeRun (first + k * blocks) blocks) ∨
      ∃ k < n, s.searchRun blocks first n = first + k * blocks ∧
        s.WholeRun (first + k * blocks) blocks := by
  intro n
  induction n with
  | zero =>
    intro first
    exact Or.inl ⟨rfl, fun k hk => absurd hk (Nat.not_lt_zero k)⟩
  | succ n ih =>
    intro first
    rw [searchRun]
    by_cases hc : s.countWhole first blocks 0 = blocks
    · rw [if_pos hc]
      refine Or.inr ⟨0, by omega, by omega, fun j hj => ?_⟩
      rw [Nat.zero_mul]
      exact (countWhole_eq_iff s first blocks 0).mp (by omega) j hj
    · rw [if_neg hc]
      have hstep : ∀ k, first + blocks + k * blocks = first + (k + 1) * blocks := fun k => by ring
      rcases ih (first + blocks) with ⟨hn, hnone⟩ | ⟨k, hk, heq, hall⟩
      · refine Or.inl ⟨hn, fun k hk => ?_⟩
        cases k with
        | zero =>
          rw [Nat.zero_mul]
          intro h
          have := (countWhole_eq_iff s first blocks 0).mpr h
          omega
        | succ k =>
          rw [← hstep]
          exact hnone k (by omega)
      · rw [hstep] at heq hall
        exact Or.inr ⟨k + 1, by omega, heq, hall⟩

/-- `find_whole_run` returns an aligned run of whole blocks inside the array, if there
is one. -/
theorem findWholeRun_cases {s : Pmm} (H : s.Inv) {n : ℕ} (hn : n = 1 ∨ n = 512) :
    (s.findWholeRun n = nil ∧
        ∀ first, first % n = 0 → first + n ≤ blockCount → ¬ s.WholeRun first n) ∨
      (s.findWholeRun n % n = 0 ∧ s.findWholeRun n + n ≤ blockCount ∧
        s.WholeRun (s.findWholeRun n) n) := by
  unfold findWholeRun
  rcases hn with rfl | rfl
  · rw [if_pos rfl]
    obtain ⟨l, hl⟩ := H.lists
    rcases head_cases H .whole with hn | ⟨hlt, hlist⟩
    · -- an empty list means that no counter is full
      refine Or.inl ⟨hn, fun first _ hle hrun => ?_⟩
      have hmem := (hl.mem .whole first (by omega)).mpr
        ((listOf_eq_whole_iff _).mpr (hrun 0 (by omega)))
      rw [((hl.chain .whole).head_eq_nil_iff).mp hn] at hmem
      cases hmem
    · rw [listOf_eq_whole_iff] at hlist
      refine Or.inr ⟨Nat.mod_one _, hlt, fun j hj => ?_⟩
      rw [Nat.lt_one_iff.mp hj]
      exact hlist
  · rw [if_neg (by decide)]
    rcases searchRun_cases s 512 (blockCount / 512) 0 with ⟨hn, hnone⟩ | ⟨k, hk, heq, hall⟩
    · refine Or.inl ⟨hn, fun first hal hle hrun => ?_⟩
      have hk := hnone (first / 512) (by simp only [blockCount] at hle ⊢; omega)
      rw [show 0 + first / 512 * 512 = first by omega] at hk
      exact hk hrun
    · rw [heq]
      refine Or.inr ⟨by omega, ?_, hall⟩
      simp only [blockCount] at hk ⊢
      omega

/-- A run of whole blocks is a run of free frames. -/
theorem wholeRun_iff {s : Pmm} (H : s.Inv) {first n : ℕ} (hle : first + n ≤ blockCount) :
    s.WholeRun first n ↔
      ∀ f, first * framesPerBlock ≤ f → f < (first + n) * framesPerBlock →
        f ∈ s.freeFrames := by
  constructor
  · intro h f h1 h2
    have hj := h (f / framesPerBlock - first) (by simp only [framesPerBlock] at h1 h2 ⊢; omega)
    rw [show first + (f / framesPerBlock - first) = f / framesPerBlock by
      simp only [framesPerBlock] at h1 ⊢
      omega] at hj
    have hlt : f / framesPerBlock < blockCount := by
      simp only [framesPerBlock] at h2 ⊢
      omega
    refine ⟨?_, (free_eq_full_iff H hlt).mp hj f ?_ ?_⟩
    · simp only [framesPerBlock, blockCount, maxFrames] at hlt ⊢
      omega
    · exact Nat.div_mul_le_self ..
    · simp only [framesPerBlock]
      omega
  · intro h j hj
    have hlt : first + j < blockCount := by omega
    refine (free_eq_full_iff H hlt).mpr (fun f h1 h2 => ?_)
    have hlo : first * framesPerBlock ≤ f :=
      (Nat.mul_le_mul_right _ (by omega)).trans h1
    have hhi : f < (first + n) * framesPerBlock :=
      lt_of_lt_of_le h2 (Nat.mul_le_mul_right _ (by omega))
    exact (h f hlo hhi).2

/-- The sizes above 4 KiB are one block or 512 blocks. -/
theorem large_size {size : PageSize} (hsize : size ≠ .size4K) :
    ∃ n, (n = 1 ∨ n = 512) ∧ size.framesIn = n * 512 ∧ size.bytesIn = n * 2097152 := by
  cases size with
  | size4K => exact absurd rfl hsize
  | size2M => exact ⟨1, Or.inl rfl, by decide, by decide⟩
  | size1G => exact ⟨512, Or.inr rfl, by decide, by decide⟩

theorem takeBlocks_sat {s : Pmm} (H : s.Inv) {size : PageSize} (hsize : size ≠ .size4K) :
    ((takeBlocks size).run s).Sat (AllocPost s size) (AllocFails s size) := by
  have hW : 0 < 64 := by decide
  obtain ⟨n, hn, hframes, hbytes⟩ := large_size hsize
  have hblocks : size.framesIn / framesPerBlock = n := by
    rw [hframes]
    simp only [framesPerBlock]
    omega
  unfold takeBlocks
  rw [hblocks, run_gets_bind]
  rcases findWholeRun_cases H hn with ⟨hnil, hnone⟩ | ⟨halign, hle, hall⟩
  · rw [if_pos hnil]
    refine ⟨rfl, rfl, fun base hal hsub => ?_⟩
    have hbase : base / 4096 = base / 2097152 * framesPerBlock := by
      rw [hbytes] at hal
      simp only [framesPerBlock]
      rcases hn with rfl | rfl <;> omega
    have hlast : base / 4096 + (n * 512 - 1) ∈ s.freeFrames :=
      hsub ⟨by omega, by rw [hframes]; rcases hn with rfl | rfl <;> omega⟩
    have hin : base / 2097152 + n ≤ blockCount := by
      have := hlast.1
      rw [hbase] at this
      simp only [maxFrames, framesPerBlock, blockCount] at this ⊢
      rcases hn with rfl | rfl <;> omega
    have hal' : base / 2097152 % n = 0 := by
      rw [hbytes] at hal
      rcases hn with rfl | rfl <;> omega
    refine hnone (base / 2097152) hal' hin ((wholeRun_iff H hin).mpr (fun f h1 h2 => ?_))
    rw [← hbase] at h1
    rw [Nat.add_mul, ← hbase, show n * framesPerBlock = n * 512 from rfl, ← hframes] at h2
    exact hsub ⟨h1, h2⟩
  generalize s.findWholeRun n = first at halign hle hall ⊢
  have hfn : first ≠ nil := by
    simp only [blockCount, nil] at hle ⊢
    omega
  rw [if_neg hfn]
  have hm : ∀ f, (s.frames.clearRange (first * framesPerBlock) (n * framesPerBlock)).test f
      = if first * framesPerBlock ≤ f ∧ f < (first + n) * framesPerBlock then false
        else s.frames.test f := by
    intro f
    rw [Bitmap.clearRange, Bitmap.test_apply hW, Nat.add_mul]
  have hmem : ∀ f, f ∈ blockFrames size (addressOf (first * framesPerBlock)) ↔
      first * framesPerBlock ≤ f ∧ f < (first + n) * framesPerBlock := by
    intro f
    simp only [blockFrames, addressOf, hframes, framesPerBlock, Set.mem_ofPred_eq]
    omega
  refine ⟨inv_setFreeRun H hle false hm, ?_, ?_, ?_⟩
  · rw [hbytes]
    simp only [addressOf, framesPerBlock]
    rcases hn with rfl | rfl <;> omega
  · intro f hf
    obtain ⟨h1, h2⟩ := (hmem f).mp hf
    exact (wholeRun_iff H hle).mp hall f h1 h2
  · ext f
    rw [Set.mem_sdiff, hmem]
    simp only [freeFrames, frames_setFreeRun, Set.mem_ofPred_eq, hm]
    by_cases hin : first * framesPerBlock ≤ f ∧ f < (first + n) * framesPerBlock
    · simp [hin]
    · simp [hin]

/-- **Allocation.** -/
theorem alloc_sat {s : Pmm} (H : s.Inv) (size : PageSize) :
    ((alloc size).run s).Sat (AllocPost s size) (AllocFails s size) := by
  cases size with
  | size4K => exact takeFrame_sat H
  | size2M => exact takeBlocks_sat H (by decide)
  | size1G => exact takeBlocks_sat H (by decide)

/-! ## Giving frames back -/

/-- A block that may be released: aligned, inside the managed memory, and holding no
free frame. -/
structure Releasable (s : Pmm) (size : PageSize) (base : ℕ) : Prop where
  aligned : base % size.bytesIn = 0
  inside : base / 4096 + size.framesIn ≤ maxFrames
  used : ∀ f ∈ blockFrames size base, f ∉ s.freeFrames

/-- What a release does: exactly the frames of the block become free. -/
def FreePost (s : Pmm) (size : PageSize) (base : ℕ) (s' : Pmm) : Prop :=
  s'.Inv ∧ s'.freeFrames = s.freeFrames ∪ blockFrames size base

/-- The state after a release that does not panic. -/
def released (s : Pmm) (size : PageSize) (base : ℕ) : Pmm :=
  let s := { s with frames := s.frames.setRange (base / 4096) size.framesIn }
  let index := base / 4096 / framesPerBlock
  if size.framesIn < framesPerBlock then
    s.setFree index ((s.blocks index).free + size.framesIn)
  else s.setFreeRun framesPerBlock index (size.framesIn / framesPerBlock)

/-- `free` panics unless the block may be released. -/
theorem free_eq (s : Pmm) (size : PageSize) (base : ℕ) :
    (Releasable s size base ∧ (free size base).run s = .ok () (s.released size base)) ∨
      (¬ Releasable s size base ∧ ∃ f, (free size base).run s = .halt f) := by
  have hW : 0 < 64 := by decide
  have hcond : (!isAligned base size.bytesIn || decide (base / 4096 ≥ maxFrames) ||
      decide (size.framesIn > maxFrames - base / 4096)) = true ↔
      ¬ (base % size.bytesIn = 0 ∧ base / 4096 + size.framesIn ≤ maxFrames) := by
    have hal : isAligned base size.bytesIn = true ↔ base % size.bytesIn = 0 :=
      isAligned_two_pow base size.shiftOf
    have hpos := size.framesIn_pos
    cases hb : isAligned base size.bytesIn with
    | true =>
      have hz := hal.mp hb
      simp only [Bool.not_true, Bool.false_or, Bool.or_eq_true, decide_eq_true_eq, hz, true_and]
      omega
    | false =>
      have hz : ¬ base % size.bytesIn = 0 := fun h => by rw [hal.mpr h] at hb; cases hb
      simp [hz]
  have hnone := (Bitmap.firstSet_findSetIn hW s.frames (base / 4096) size.framesIn).eq_none_iff
  unfold free
  by_cases hc : base % size.bytesIn = 0 ∧ base / 4096 + size.framesIn ≤ maxFrames
  · rw [if_neg (fun h => hcond.mp h hc), run_gets_bind]
    by_cases hused : ∀ j, base / 4096 ≤ j → j < base / 4096 + size.framesIn →
        s.frames.test j = false
    · rw [hnone.mpr hused]
      refine Or.inl ⟨⟨hc.1, hc.2, fun f hf hfree => ?_⟩, ?_⟩
      · have := hused f hf.1 hf.2
        rw [hfree.2] at this
        cases this
      · rw [run_modify_bind, released]
        by_cases hlt : size.framesIn < framesPerBlock
        · rw [if_pos hlt, if_pos hlt]
          rfl
        · rw [if_neg hlt, if_neg hlt]
          rfl
    · refine Or.inr ⟨fun hr => hused (fun j h1 h2 => ?_), ?_⟩
      · have hj := hr.used j ⟨h1, h2⟩
        have hlt : j < maxFrames := by omega
        exact Bool.eq_false_of_not_eq_true (fun ht => hj ⟨hlt, ht⟩)
      · cases hf : s.frames.findSetIn (base / 4096) size.framesIn with
        | none => exact absurd (hnone.mp hf) hused
        | some g => exact ⟨_, rfl⟩
  · rw [if_pos (hcond.mpr hc)]
    exact Or.inr ⟨fun hr => hc ⟨hr.aligned, hr.inside⟩, _, rfl⟩

theorem inv_released {s : Pmm} (H : s.Inv) {size : PageSize} {base : ℕ}
    (hr : Releasable s size base) : (s.released size base).Inv := by
  have hW : 0 < 64 := by decide
  have hin := hr.inside
  have hoff : ∀ f, base / 4096 ≤ f → f < base / 4096 + size.framesIn →
      s.frames.test f = false := fun f h1 h2 =>
    Bool.eq_false_of_not_eq_true (fun ht => hr.used f ⟨h1, h2⟩ ⟨by omega, ht⟩)
  have htest := Bitmap.test_setRange hW s.frames (base / 4096) size.framesIn
  unfold released
  by_cases hsize : size = .size4K
  · -- one frame: its block gains one
    subst hsize
    rw [if_pos (by decide)]
    simp only [PageSize.framesIn_size4K] at hin hoff htest ⊢
    obtain ⟨f, hf⟩ : ∃ f, base / 4096 = f := ⟨_, rfl⟩
    rw [hf] at hin hoff htest ⊢
    have hi : f / framesPerBlock < blockCount := by
      simp only [framesPerBlock, blockCount, maxFrames] at hin ⊢
      omega
    have hlo : f / framesPerBlock * framesPerBlock ≤ f := Nat.div_mul_le_self ..
    have hhi : f < (f / framesPerBlock + 1) * framesPerBlock := by
      simp only [framesPerBlock]
      omega
    have hon : (s.frames.setRange f 1).test f = true := by simp [htest]
    have hcount := Bitmap.setCount_of_set hlo hhi (hoff f le_rfl (by omega)) hon (fun j _ _ hj => by
      rw [htest, decide_eq_false (by omega), Bool.false_or])
    have hle : s.frames.setCount (f / framesPerBlock * framesPerBlock)
        ((f / framesPerBlock + 1) * framesPerBlock) + 1 ≤ framesPerBlock := by
      rw [← hcount]
      refine (Bitmap.setCount_le _ _ _).trans ?_
      simp only [framesPerBlock]
      omega
    obtain ⟨l, hl⟩ := H.lists
    rw [H.counts _ hi]
    obtain ⟨hl', hfree'⟩ := setFree_listed (listed_withFrames hl (s.frames.setRange f 1)) hi hle
    refine ⟨fun j hj => ?_, _, hl'⟩
    rw [hfree', frames_setFree]
    show _ = (s.frames.setRange f 1).setCount _ _
    by_cases hji : j = f / framesPerBlock
    · rw [if_pos hji, hji, hcount]
    · rw [if_neg hji]
      show (s.blocks j).free = _
      rw [H.counts j hj]
      refine (Bitmap.setCount_congr (fun k hk hk' => ?_)).symm
      rw [htest, decide_eq_false, Bool.false_or]
      simp only [framesPerBlock] at hji hk hk'
      omega
  · -- whole blocks: their counters become full
    obtain ⟨n, hn, hframes, hbytes⟩ := large_size hsize
    have hal := hr.aligned
    rw [hbytes] at hal
    rw [hframes] at hin htest ⊢
    rw [if_neg (by simp only [framesPerBlock]; rcases hn with rfl | rfl <;> omega)]
    have hfirst : base / 4096 / framesPerBlock * framesPerBlock = base / 4096 := by
      simp only [framesPerBlock]
      rcases hn with rfl | rfl <;> omega
    have hcount : n * 512 / framesPerBlock = n := by
      simp only [framesPerBlock]
      omega
    rw [hcount]
    refine inv_setFreeRun H ?_ true (fun f => ?_)
    · simp only [framesPerBlock, blockCount, maxFrames] at hin ⊢
      rcases hn with rfl | rfl <;> omega
    · rw [htest, Nat.add_mul, hfirst, show n * framesPerBlock = n * 512 from rfl]
      by_cases h : base / 4096 ≤ f ∧ f < base / 4096 + n * 512 <;> simp [h]

theorem freeFrames_released {s : Pmm} {size : PageSize} {base : ℕ} (hr : Releasable s size base) :
    (s.released size base).freeFrames = s.freeFrames ∪ blockFrames size base := by
  have hW : 0 < 64 := by decide
  have hin := hr.inside
  have hframes : (s.released size base).frames
      = s.frames.setRange (base / 4096) size.framesIn := by
    unfold released
    dsimp only
    split <;> simp
  ext f
  simp only [freeFrames, blockFrames, hframes, Set.mem_ofPred_eq, Set.mem_union,
    Bitmap.test_setRange hW, Bool.or_eq_true, decide_eq_true_eq]
  constructor
  · rintro ⟨hlt, h | h⟩
    · exact Or.inr h
    · exact Or.inl ⟨hlt, h⟩
  · rintro (⟨hlt, h⟩ | h)
    · exact ⟨hlt, Or.inr h⟩
    · exact ⟨by omega, Or.inl h⟩

/-- **Release.** -/
theorem free_sat {s : Pmm} (H : s.Inv) {size : PageSize} {base : ℕ}
    (hr : Releasable s size base) :
    ((free size base).run s).Sat (fun _ s' => FreePost s size base s') (fun _ _ => False) := by
  rcases free_eq s size base with ⟨-, h⟩ | ⟨hnot, -⟩
  · rw [h]
    exact ⟨inv_released H hr, freeFrames_released hr⟩
  · exact absurd hr hnot

end Pmm

end DoomOs
