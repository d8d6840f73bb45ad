/-
# Doubly linked lists threaded through an array

An intrusive list stores its links in the elements: `next x` and `prev x`, with a
value `nil` that is no element.  `Chain next prev nil p h l` says that walking
`next` from `h` visits exactly the elements of `l`, in order, and ends at `nil`,
and that `prev` leads back from each element to the one before it (to `p` from
the first one).  A list is a chain with `p = nil`.

The two operations of such lists are stated on the link functions alone, so that
they apply to any record that carries links: `Chain.push` puts an element in
front, `Chain.unlink` takes one out from anywhere, and `Chain.congr` says that a
list does not see changes to the links of other elements.
-/
import Mathlib

namespace LinkedList

variable {ι : Type} [DecidableEq ι]

/-- Walking `next` from `h` visits `l` and ends at `nil`, and `prev` leads back,
to `p` from the first element. -/
def Chain (next prev : ι → ι) (nil : ι) : ι → ι → List ι → Prop
  | _, h, [] => h = nil
  | p, h, x :: xs => h = x ∧ x ≠ nil ∧ prev x = p ∧ Chain next prev nil x (next x) xs

/-- `next` after `x` has been put in front of `head`. -/
def pushNext (next : ι → ι) (head x : ι) : ι → ι := Function.update next x head

/-- `prev` after `x` has been put in front of `head`. -/
def pushPrev (prev : ι → ι) (nil head x : ι) : ι → ι :=
  if head = nil then Function.update prev x nil
  else Function.update (Function.update prev x nil) head x

/-- `next` after `x` has been taken out. -/
def unlinkNext (next prev : ι → ι) (nil x : ι) : ι → ι :=
  if prev x = nil then next else Function.update next (prev x) (next x)

/-- `prev` after `x` has been taken out. -/
def unlinkPrev (next prev : ι → ι) (nil x : ι) : ι → ι :=
  if next x = nil then prev else Function.update prev (next x) (prev x)

section

omit [DecidableEq ι]

variable {next prev next' prev' : ι → ι} {nil p h x : ι} {l : List ι}

/-- A chain only reads the links of its own elements. -/
theorem Chain.congr : ∀ {l : List ι} {p h : ι}, Chain next prev nil p h l →
    (∀ y ∈ l, next' y = next y) → (∀ y ∈ l, prev' y = prev y) →
    Chain next' prev' nil p h l := by
  intro l
  induction l with
  | nil =>
    intro p h hc _ _
    exact hc
  | cons y ys ih =>
    intro p h hc hn hp
    obtain ⟨rfl, hne, hprev, hrest⟩ := hc
    refine ⟨rfl, hne, ?_, ?_⟩
    · rw [hp h List.mem_cons_self, hprev]
    · rw [hn h List.mem_cons_self]
      exact ih hrest (fun z hz => hn z (List.mem_cons_of_mem _ hz))
        (fun z hz => hp z (List.mem_cons_of_mem _ hz))

theorem Chain.ne_nil : ∀ {l : List ι} {p h : ι}, Chain next prev nil p h l →
    ∀ y ∈ l, y ≠ nil := by
  intro l
  induction l with
  | nil =>
    intro p h _ y hy
    cases hy
  | cons z zs ih =>
    intro p h hc y hy
    obtain ⟨-, hne, -, hrest⟩ := hc
    rcases List.mem_cons.mp hy with rfl | hy
    · exact hne
    · exact ih hrest y hy

/-- The head is `nil` exactly for the empty list. -/
theorem Chain.head_eq_nil_iff (hc : Chain next prev nil p h l) : h = nil ↔ l = [] := by
  cases l with
  | nil => exact ⟨fun _ => rfl, fun _ => hc⟩
  | cons y ys =>
    obtain ⟨rfl, hne, -, -⟩ := hc
    exact ⟨fun e => absurd e hne, fun e => by cases e⟩

theorem Chain.head_mem (hc : Chain next prev nil p h l) (hne : h ≠ nil) : h ∈ l := by
  cases l with
  | nil => exact absurd hc hne
  | cons y ys =>
    obtain ⟨rfl, -, -, -⟩ := hc
    exact List.mem_cons_self

/-- The first element leads back to `p`. -/
theorem Chain.prev_head (hc : Chain next prev nil p h l) (hne : h ≠ nil) : prev h = p := by
  cases l with
  | nil => exact absurd hc hne
  | cons y ys =>
    obtain ⟨rfl, -, hprev, -⟩ := hc
    exact hprev

/-- The successor of an element is `nil` or a later element. -/
theorem Chain.next_mem : ∀ {l : List ι} {p h : ι}, Chain next prev nil p h l → ∀ y ∈ l,
    next y = nil ∨ next y ∈ l := by
  intro l
  induction l with
  | nil =>
    intro p h _ y hy
    cases hy
  | cons z zs ih =>
    intro p h hc y hy
    obtain ⟨rfl, -, -, hrest⟩ := hc
    rcases List.mem_cons.mp hy with rfl | hy
    · by_cases hn : next y = nil
      · exact Or.inl hn
      · exact Or.inr (List.mem_cons_of_mem _ (hrest.head_mem hn))
    · rcases ih hrest y hy with hn | hn
      · exact Or.inl hn
      · exact Or.inr (List.mem_cons_of_mem _ hn)

/-- The predecessor of an element is `p`, for the first one, or an element. -/
theorem Chain.prev_mem : ∀ {l : List ι} {p h : ι}, Chain next prev nil p h l → ∀ y ∈ l,
    (y = h ∧ prev y = p) ∨ prev y ∈ l := by
  intro l
  induction l with
  | nil =>
    intro p h _ y hy
    cases hy
  | cons z zs ih =>
    intro p h hc y hy
    obtain ⟨rfl, -, hprev, hrest⟩ := hc
    rcases List.mem_cons.mp hy with rfl | hy
    · exact Or.inl ⟨rfl, hprev⟩
    · rcases ih hrest y hy with ⟨-, hp⟩ | hp
      · exact Or.inr (by rw [hp]; exact List.mem_cons_self)
      · exact Or.inr (List.mem_cons_of_mem _ hp)

/-- No element precedes itself. -/
theorem Chain.prev_ne_self : ∀ {l : List ι} {p h : ι}, Chain next prev nil p h l → l.Nodup →
    p ∉ l → ∀ y ∈ l, prev y ≠ y := by
  intro l
  induction l with
  | nil =>
    intro p h _ _ _ y hy
    cases hy
  | cons z zs ih =>
    intro p h hc hnd hp y hy
    obtain ⟨rfl, -, hprev, hrest⟩ := hc
    rcases List.mem_cons.mp hy with rfl | hy
    · rw [hprev]
      exact fun e => hp (by rw [e]; exact List.mem_cons_self)
    · exact ih hrest (List.nodup_cons.mp hnd).2 (List.nodup_cons.mp hnd).1 y hy

/-- The first element may be given another predecessor. -/
theorem Chain.set_prev_head (hc : Chain next prev nil p h l) (hnd : l.Nodup)
    {q : ι} (hhead : h ≠ nil → prev' h = q) (hp : ∀ y ∈ l, y ≠ h → prev' y = prev y)
    (hn : ∀ y ∈ l, next' y = next y) : Chain next' prev' nil q h l := by
  cases l with
  | nil => exact hc
  | cons y ys =>
    obtain ⟨rfl, hne, -, hrest⟩ := hc
    have hnotin : h ∉ ys := (List.nodup_cons.mp hnd).1
    refine ⟨rfl, hne, hhead hne, ?_⟩
    rw [hn h List.mem_cons_self]
    refine hrest.congr (fun z hz => hn z (List.mem_cons_of_mem _ hz)) (fun z hz => ?_)
    exact hp z (List.mem_cons_of_mem _ hz) (fun e => hnotin (e ▸ hz))

end

variable {next prev next' prev' : ι → ι} {nil p h x : ι} {l : List ι}

/-- **Putting an element in front.** -/
theorem Chain.push (hc : Chain next prev nil nil h l) (hnd : l.Nodup) (hx : x ∉ l)
    (hxn : x ≠ nil) : Chain (pushNext next h x) (pushPrev prev nil h x) nil nil x (x :: l) := by
  refine ⟨rfl, hxn, ?_, ?_⟩
  · unfold pushPrev
    by_cases hh : h = nil
    · rw [if_pos hh, Function.update_self]
    · have hne : x ≠ h := fun e => hx (e ▸ hc.head_mem hh)
      rw [if_neg hh, Function.update_of_ne hne, Function.update_self]
  · have hnext : pushNext next h x x = h := Function.update_self ..
    rw [hnext]
    refine hc.set_prev_head hnd (fun hh => ?_) (fun y hy hyh => ?_) (fun y hy => ?_)
    · rw [pushPrev, if_neg hh, Function.update_self]
    · have hyx : y ≠ x := fun e => hx (e ▸ hy)
      unfold pushPrev
      split
      · rw [Function.update_of_ne hyx]
      · rw [Function.update_of_ne hyh, Function.update_of_ne hyx]
    · have hyx : y ≠ x := fun e => hx (e ▸ hy)
      exact Function.update_of_ne hyx ..

/-- Taking `x` out of a chain whose predecessor `p` is no element: the links
around `x` are joined, and the head moves on if `x` was first. -/
theorem Chain.unlink_aux : ∀ {l : List ι} {p h : ι}, Chain next prev nil p h l → l.Nodup → p ∉ l →
    x ∈ l → (∀ y, y ≠ prev x → next' y = next y) → (∀ y, y ≠ next x → prev' y = prev y) →
    (next x ≠ nil → prev' (next x) = prev x) → (∀ y ∈ l, y = prev x → next' y = next x) →
    Chain next' prev' nil p (if h = x then next x else h) (l.erase x) := by
  intro l
  induction l with
  | nil =>
    intro p h _ _ _ hx
    cases hx
  | cons y ys ih =>
    intro p h hc hnd hp hx hn' hp' hnx hjoin
    obtain ⟨rfl, hne, hprev, hrest⟩ := hc
    have hnotin : h ∉ ys := (List.nodup_cons.mp hnd).1
    have hndys : ys.Nodup := (List.nodup_cons.mp hnd).2
    have hpys : p ∉ ys := fun hm => hp (List.mem_cons_of_mem _ hm)
    by_cases hhx : h = x
    · -- `x` is the first element: the rest of the chain gets `p` as predecessor
      subst hhx
      rw [if_pos rfl, List.erase_cons_head]
      refine hrest.set_prev_head hndys (fun hh => ?_) (fun z _ hz => hp' z hz) (fun z hz => ?_)
      · rw [hnx hh, hprev]
      · exact hn' z (fun e => hpys (by rw [← hprev, ← e]; exact hz))
    · have hxys : x ∈ ys := by
        rcases List.mem_cons.mp hx with e | hm
        · exact absurd e.symm hhx
        · exact hm
      rw [if_neg hhx, List.erase_cons_tail (by simpa using hhx)]
      have hnext_ne : h ≠ next x := by
        intro e
        rcases hrest.next_mem x hxys with hnil | hm
        · exact hne (e.trans hnil)
        · exact hnotin (by rw [e]; exact hm)
      refine ⟨rfl, hne, by rw [hp' h hnext_ne, hprev], ?_⟩
      have hhead : next' h = if next h = x then next x else next h := by
        by_cases hnh : next h = x
        · have hpx' : prev x = h := by
            have := hrest.prev_head (hrest.ne_nil x hxys ∘ fun e => hnh ▸ e)
            rwa [hnh] at this
          rw [if_pos hnh, hjoin h List.mem_cons_self hpx'.symm]
        · rw [if_neg hnh]
          refine hn' h (fun e => ?_)
          rcases hrest.prev_mem x hxys with ⟨hxh, -⟩ | hm
          · exact hnh hxh.symm
          · exact hnotin (by rw [e]; exact hm)
      rw [hhead]
      exact ih hrest hndys hnotin hxys hn' hp' hnx
        (fun z hz => hjoin z (List.mem_cons_of_mem _ hz))

/-- **Taking an element out**, from anywhere in the list. -/
theorem Chain.unlink (hc : Chain next prev nil nil h l) (hnd : l.Nodup) (hx : x ∈ l) :
    Chain (unlinkNext next prev nil x) (unlinkPrev next prev nil x) nil nil
      (if prev x = nil then next x else h) (l.erase x) := by
  have hnil : nil ∉ l := fun hm => hc.ne_nil nil hm rfl
  -- an element has no predecessor exactly when it is the head
  have hhead : (prev x = nil) ↔ h = x := by
    constructor
    · intro e
      rcases hc.prev_mem x hx with ⟨hxh, -⟩ | hm
      · exact hxh.symm
      · exact absurd (e ▸ hm) hnil
    · rintro rfl
      exact hc.prev_head (hc.ne_nil h hx)
  have hnext : ∀ y, y ≠ prev x → unlinkNext next prev nil x y = next y := by
    intro y hy
    unfold unlinkNext
    split
    · rfl
    · exact Function.update_of_ne hy ..
  have hprev : ∀ y, y ≠ next x → unlinkPrev next prev nil x y = prev y := by
    intro y hy
    unfold unlinkPrev
    split
    · rfl
    · exact Function.update_of_ne hy ..
  have hjoin : prev x ≠ nil → unlinkNext next prev nil x (prev x) = next x := by
    intro hne
    rw [unlinkNext, if_neg hne, Function.update_self]
  have haux := hc.unlink_aux hnd hnil hx hnext hprev
    (fun hne => by rw [unlinkPrev, if_neg hne, Function.update_self])
    (fun y hy e => by rw [e]; exact hjoin (fun e' => hnil (e' ▸ e ▸ hy)))
  by_cases hpx : prev x = nil
  · rw [if_pos hpx]
    rwa [if_pos (hhead.mp hpx)] at haux
  · rw [if_neg hpx]
    rwa [if_neg (fun e => hpx (hhead.mpr e))] at haux

end LinkedList
