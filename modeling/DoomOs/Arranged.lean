/-
# Lists in order of dependency

A list is arranged by a relation when each of its members comes after everything that it
needs.  Such a list is built by appending one member after the other, and it shows that no
member needs itself, however indirectly.
-/
import Mathlib.Data.List.Basic
import Mathlib.Data.List.Induction
import Mathlib.Data.List.Nodup
import Mathlib.Logic.Relation

namespace DoomOs

open Relation

variable {α : Type} {r : α → α → Prop} {l : List α} {a : α}

/-- Each member of the list comes after all that it needs. -/
def Arranged (r : α → α → Prop) (l : List α) : Prop :=
  ∀ front a back, l = front ++ a :: back → ∀ b, r a b → b ∈ front

theorem arranged_nil : Arranged r ([] : List α) := by
  intro front a back h
  exact absurd h.symm (List.append_ne_nil_of_right_ne_nil _ (List.cons_ne_nil _ _))

/-- What a new member needs has to be there already. -/
theorem Arranged.snoc (h : Arranged r l) (ha : ∀ b, r a b → b ∈ l) : Arranged r (l ++ [a]) := by
  intro front c back heq b hb
  -- the split is at the new member, or inside the old list
  rcases List.eq_nil_or_concat back with rfl | ⟨back', z, rfl⟩
  · obtain ⟨rfl, hc⟩ := List.append_inj' heq rfl
    obtain rfl : a = c := List.singleton_inj.mp hc
    exact ha b hb
  · rw [List.concat_eq_append, ← List.cons_append, ← List.append_assoc] at heq
    obtain ⟨hl, -⟩ := List.append_inj' heq rfl
    exact h front c back' hl b hb

theorem Arranged.of_append {m : List α} (h : Arranged r (l ++ m)) : Arranged r l :=
  fun front a back heq => h front a (back ++ m) (by rw [heq, List.append_assoc, List.cons_append])

/-- Each member also comes after what it needs indirectly. -/
theorem Arranged.transGen (h : Arranged r l) : Arranged (TransGen r) l := by
  intro front a back heq b hb
  induction hb with
  | single hab => exact h front a back heq _ hab
  | @tail c d _ hcd ih =>
    obtain ⟨front₁, back₁, rfl⟩ := List.append_of_mem ih
    have hd : d ∈ front₁ :=
      h front₁ c (back₁ ++ a :: back) (by rw [heq, List.append_assoc, List.cons_append]) d hcd
    exact List.mem_append_left _ hd

/-- No member needs itself. -/
theorem Arranged.not_transGen_self (h : Arranged r l) (hnodup : l.Nodup) (ha : a ∈ l) :
    ¬ TransGen r a a := by
  intro haa
  obtain ⟨front, back, rfl⟩ := List.append_of_mem ha
  have hfront := h.transGen front a back rfl a haa
  exact (List.nodup_append.mp hnodup).2.2 a hfront a List.mem_cons_self rfl

/-- No member needs one that comes later. -/
theorem Arranged.pairwise (h : Arranged r l) (hnodup : l.Nodup) :
    l.Pairwise fun b a => ¬ TransGen r b a := by
  induction l using List.reverseRecOn with
  | nil => exact List.Pairwise.nil
  | append_singleton l a ih =>
    obtain ⟨hl, -, hdisjoint⟩ := List.nodup_append.mp hnodup
    refine List.pairwise_append.mpr ⟨ih h.of_append hl, List.pairwise_singleton _ a, ?_⟩
    rintro b hb c hc hbc
    obtain ⟨front, back, rfl⟩ := List.append_of_mem hb
    have hfront : c ∈ front := h.of_append.transGen front b back rfl c hbc
    exact hdisjoint c (List.mem_append_left _ hfront) c hc rfl

end DoomOs
