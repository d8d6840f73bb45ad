/-
# Computations with a state, errors and faults

Kernel code is modelled as state passing with three ways to end: it returns a
value, it returns an error (and the state it had reached is kept, as nothing is
rolled back), or it halts for good (a panic, or a modelled loop that uses up its
iteration bound).  `Comp` is the monad of such computations, and `Outcome.Sat`
is total correctness for one of them: the two postconditions are met and the
computation does not halt.

* `sat_bind` and `Outcome.Sat.mono` take a computation apart;
* `sat_forRange` and `sat_forEach` are the invariant rules of the two loops;
* `sat_attempt`, `sat_handle` and `sat_zoom` read an error as a value, go on where an error
  is returned and run a computation on one part of the state;
* `Steps` says what a counted loop has done when it is known what each iteration does,
  and `Steps.inv` is its invariant rule;
* `trace` runs a list of operations, an operation that returns an error included, and
  `trace_cons_map_iff` compares two systems under the same operations.
-/
import Mathlib

/-- How a computation on a state of type `σ` ends: with a value, with an error,
or not at all. -/
inductive Outcome (φ ε σ α : Type) where
  | ok (a : α) (s : σ)
  | err (e : ε) (s : σ)
  | halt (f : φ)
  deriving DecidableEq

/-- A computation: faults in `φ`, errors in `ε`, state `σ`, value `α`. -/
def Comp (φ ε σ α : Type) : Type := σ → Outcome φ ε σ α

namespace Outcome

variable {φ ε σ α : Type}

/-- Total correctness: a value meets `Q`, an error meets `E`, and the
computation never halts. -/
def Sat (o : Outcome φ ε σ α) (Q : α → σ → Prop) (E : ε → σ → Prop) : Prop :=
  match o with
  | ok a s => Q a s
  | err e s => E e s
  | halt _ => False

@[simp] theorem sat_ok (a : α) (s : σ) (Q : α → σ → Prop) (E : ε → σ → Prop) :
    (ok a s : Outcome φ ε σ α).Sat Q E ↔ Q a s := Iff.rfl

@[simp] theorem sat_err (e : ε) (s : σ) (Q : α → σ → Prop) (E : ε → σ → Prop) :
    (err e s : Outcome φ ε σ α).Sat Q E ↔ E e s := Iff.rfl

@[simp] theorem sat_halt (f : φ) (Q : α → σ → Prop) (E : ε → σ → Prop) :
    (halt f : Outcome φ ε σ α).Sat Q E ↔ False := Iff.rfl

/-- Postconditions may be weakened. -/
theorem Sat.mono {o : Outcome φ ε σ α} {Q Q' : α → σ → Prop} {E E' : ε → σ → Prop}
    (h : o.Sat Q E) (hQ : ∀ a s, Q a s → Q' a s) (hE : ∀ e s, E e s → E' e s) :
    o.Sat Q' E' := by
  cases o with
  | ok a s => exact hQ a s h
  | err e s => exact hE e s h
  | halt f => exact h

/-- Two postconditions proved apart hold together. -/
theorem Sat.and {o : Outcome φ ε σ α} {Q Q' : α → σ → Prop} {E E' : ε → σ → Prop}
    (h : o.Sat Q E) (h' : o.Sat Q' E') :
    o.Sat (fun a s => Q a s ∧ Q' a s) (fun e s => E e s ∧ E' e s) := by
  cases o with
  | ok a s => exact ⟨h, h'⟩
  | err e s => exact ⟨h, h'⟩
  | halt f => exact h

theorem Sat.of_ok {o : Outcome φ ε σ α} {Q : α → σ → Prop} {E : ε → σ → Prop} {a : α} {s : σ}
    (h : o.Sat Q E) (ho : o = ok a s) : Q a s := by
  rw [ho] at h
  exact h

theorem Sat.of_err {o : Outcome φ ε σ α} {Q : α → σ → Prop} {E : ε → σ → Prop} {e : ε} {s : σ}
    (h : o.Sat Q E) (ho : o = err e s) : E e s := by
  rw [ho] at h
  exact h

theorem Sat.ne_halt {o : Outcome φ ε σ α} {Q : α → σ → Prop} {E : ε → σ → Prop}
    (h : o.Sat Q E) (f : φ) : o ≠ halt f := by
  rintro rfl
  exact h

/-- Partial correctness: a value meets `Q` and an error meets `E`, if there is one. -/
def Meets (o : Outcome φ ε σ α) (Q : α → σ → Prop) (E : ε → σ → Prop) : Prop :=
  match o with
  | ok a s => Q a s
  | err e s => E e s
  | halt _ => True

theorem Meets.mono {o : Outcome φ ε σ α} {Q Q' : α → σ → Prop} {E E' : ε → σ → Prop}
    (h : o.Meets Q E) (hQ : ∀ a s, Q a s → Q' a s) (hE : ∀ e s, E e s → E' e s) :
    o.Meets Q' E' := by
  cases o with
  | ok a s => exact hQ a s h
  | err e s => exact hE e s h
  | halt f => trivial

/-- The state a computation leaves behind, if it leaves one. -/
def state? : Outcome φ ε σ α → Option σ
  | ok _ s => some s
  | err _ s => some s
  | halt _ => none

/-- A postcondition on the state alone holds of the state left behind. -/
theorem Sat.of_state? {o : Outcome φ ε σ α} {P : σ → Prop} {s : σ}
    (h : o.Sat (fun _ s => P s) (fun _ s => P s)) (hs : o.state? = some s) : P s := by
  cases o with
  | ok a t =>
    simp only [state?, Option.some.injEq] at hs
    rw [← hs]
    exact h
  | err e t =>
    simp only [state?, Option.some.injEq] at hs
    rw [← hs]
    exact h
  | halt f => exact h.elim

/-- What meets a postcondition leaves a state behind. -/
theorem Sat.exists_state? {o : Outcome φ ε σ α} {Q : α → σ → Prop} {E : ε → σ → Prop}
    (h : o.Sat Q E) : ∃ s, o.state? = some s := by
  cases o with
  | ok a s => exact ⟨s, rfl⟩
  | err e s => exact ⟨s, rfl⟩
  | halt f => exact h.elim

/-- What never fails returns. -/
theorem Sat.exists_ok {o : Outcome φ ε σ α} {Q : α → σ → Prop} {E : ε → σ → Prop}
    (h : o.Sat Q E) (hE : ∀ e s, ¬E e s) : ∃ a s, o = ok a s ∧ Q a s := by
  cases o with
  | ok a s => exact ⟨a, s, rfl, h⟩
  | err e s => exact absurd h (hE e s)
  | halt f => exact h.elim

theorem Sat.exists_err {o : Outcome φ ε σ α} {Q : α → σ → Prop} {E : ε → σ → Prop}
    (h : o.Sat Q E) (hQ : ∀ a s, ¬Q a s) : ∃ e s, o = err e s ∧ E e s := by
  cases o with
  | ok a s => exact absurd h (hQ a s)
  | err e s => exact ⟨e, s, rfl, h⟩
  | halt f => exact h.elim

end Outcome

namespace Comp

variable {φ ε ε' σ τ α β ι : Type}

open Outcome

instance : Monad (Comp φ ε σ) where
  pure a := fun s => ok a s
  bind x f := fun s =>
    match x s with
    | ok a s' => f a s'
    | err e s' => err e s'
    | halt p => halt p

/-- Running a computation from a state. -/
def run (x : Comp φ ε σ α) (s : σ) : Outcome φ ε σ α := x s

/-- Read something off the state. -/
def gets (f : σ → α) : Comp φ ε σ α := fun s => ok (f s) s

/-- Change the state. -/
def modify (f : σ → σ) : Comp φ ε σ Unit := fun s => ok () (f s)

/-- Return an error. -/
def fail (e : ε) : Comp φ ε σ α := fun s => err e s

/-- Stop for good. -/
def stop (f : φ) : Comp φ ε σ α := fun _ => halt f

/-- Run `x` and hand its error over as a value. -/
def attempt (x : Comp φ ε σ α) : Comp φ ε σ (Except ε α) := fun s =>
  match x.run s with
  | ok a s' => ok (.ok a) s'
  | err e s' => ok (.error e) s'
  | halt p => halt p

/-- Run `x`, and go on with `h` where it returns an error. -/
def handle (x : Comp φ ε σ α) (h : ε → Comp φ ε' σ α) : Comp φ ε' σ α := fun s =>
  match x.run s with
  | ok a s' => ok a s'
  | err e s' => (h e).run s'
  | halt p => halt p

/-- Run `x` on the part of the state that `get` and `put` single out. -/
def zoom (get : σ → τ) (put : τ → σ → σ) (x : Comp φ ε τ α) : Comp φ ε σ α := fun s =>
  match x.run (get s) with
  | ok a t => ok a (put t s)
  | err e t => err e (put t s)
  | halt p => halt p

/-- `for (i = first; i < first + n; ++i) body(i)`, left at the first error. -/
def forFrom (body : ℕ → Comp φ ε σ Unit) : (first n : ℕ) → Comp φ ε σ Unit
  | _, 0 => pure ()
  | first, n + 1 => do
    body first
    forFrom body (first + 1) n

/-- `for (i = 0; i < n; ++i) body(i)`, left at the first error. -/
def forRange (n : ℕ) (body : ℕ → Comp φ ε σ Unit) : Comp φ ε σ Unit := forFrom body 0 n

/-- `for (x : xs) body(x)`, left at the first error. -/
def forEach (body : ι → Comp φ ε σ Unit) : List ι → Comp φ ε σ Unit
  | [] => pure ()
  | x :: xs => do
    body x
    forEach body xs

/-! ## The rules -/

@[simp] theorem run_pure (a : α) (s : σ) : (pure a : Comp φ ε σ α).run s = ok a s := rfl

@[simp] theorem run_gets (f : σ → α) (s : σ) : (gets f : Comp φ ε σ α).run s = ok (f s) s := rfl

@[simp] theorem run_modify (f : σ → σ) (s : σ) :
    (modify f : Comp φ ε σ Unit).run s = ok () (f s) := rfl

@[simp] theorem run_fail (e : ε) (s : σ) : (fail e : Comp φ ε σ α).run s = err e s := rfl

@[simp] theorem run_stop (f : φ) (s : σ) : (stop f : Comp φ ε σ α).run s = halt f := rfl

theorem run_bind (x : Comp φ ε σ α) (f : α → Comp φ ε σ β) (s : σ) :
    (x >>= f).run s =
      match x.run s with
      | ok a s' => (f a).run s'
      | err e s' => err e s'
      | halt p => halt p := rfl

theorem run_bind_ok {x : Comp φ ε σ α} {f : α → Comp φ ε σ β} {s s' : σ} {a : α}
    (h : x.run s = ok a s') : (x >>= f).run s = (f a).run s' := by
  rw [run_bind, h]

theorem run_bind_err {x : Comp φ ε σ α} {f : α → Comp φ ε σ β} {s s' : σ} {e : ε}
    (h : x.run s = err e s') : (x >>= f).run s = err e s' := by
  rw [run_bind, h]

theorem run_bind_halt {x : Comp φ ε σ α} {f : α → Comp φ ε σ β} {s : σ} {p : φ}
    (h : x.run s = halt p) : (x >>= f).run s = halt p := by
  rw [run_bind, h]

/-- A sequence that returns has two parts that return. -/
theorem run_bind_eq_ok {x : Comp φ ε σ α} {f : α → Comp φ ε σ β} {s s' : σ} {b : β}
    (h : (x >>= f).run s = ok b s') : ∃ a s₁, x.run s = ok a s₁ ∧ (f a).run s₁ = ok b s' := by
  cases hx : x.run s with
  | ok a s₁ => exact ⟨a, s₁, rfl, (run_bind_ok hx).symm.trans h⟩
  | err e s₁ =>
    rw [run_bind_err hx] at h
    cases h
  | halt p =>
    rw [run_bind_halt hx] at h
    cases h

/-- What `attempt` returns. -/
theorem attempt_eq_ok {x : Comp φ ε σ α} {s s' : σ} {r : Except ε α}
    (h : (attempt x).run s = ok r s') :
    (∃ a, r = .ok a ∧ x.run s = ok a s') ∨ ∃ e, r = .error e ∧ x.run s = err e s' := by
  change (match x.run s with
    | ok a s' => ok (.ok a) s'
    | err e s' => ok (.error e) s'
    | halt p => halt p : Outcome φ ε σ (Except ε α)) = _ at h
  cases hx : x.run s with
  | ok a s₁ =>
    rw [hx] at h
    cases h
    exact Or.inl ⟨a, rfl, rfl⟩
  | err e s₁ =>
    rw [hx] at h
    cases h
    exact Or.inr ⟨e, rfl, rfl⟩
  | halt p =>
    rw [hx] at h
    cases h

@[simp] theorem run_gets_bind (g : σ → α) (f : α → Comp φ ε σ β) (s : σ) :
    (gets g >>= f).run s = (f (g s)).run s := rfl

@[simp] theorem run_modify_bind (g : σ → σ) (f : Unit → Comp φ ε σ β) (s : σ) :
    (modify g >>= f).run s = (f ()).run (g s) := rfl

@[simp] theorem run_pure_bind (a : α) (f : α → Comp φ ε σ β) (s : σ) :
    (pure a >>= f).run s = (f a).run s := rfl

@[simp] theorem run_fail_bind (e : ε) (f : α → Comp φ ε σ β) (s : σ) :
    ((fail e : Comp φ ε σ α) >>= f).run s = err e s := rfl

theorem run_zoom (get : σ → τ) (put : τ → σ → σ) (x : Comp φ ε τ α) (s : σ) :
    (zoom get put x).run s =
      match x.run (get s) with
      | ok a t => ok a (put t s)
      | err e t => err e (put t s)
      | halt p => halt p := rfl

/-- A sequence is correct when its first part establishes what its second
part needs. -/
theorem sat_bind {x : Comp φ ε σ α} {f : α → Comp φ ε σ β} {s : σ}
    {Q : β → σ → Prop} {E : ε → σ → Prop} :
    ((x >>= f).run s).Sat Q E ↔ (x.run s).Sat (fun a s' => ((f a).run s').Sat Q E) E := by
  rw [run_bind]
  cases x.run s <;> rfl

theorem sat_attempt {x : Comp φ ε σ α} {s : σ} {Q : Except ε α → σ → Prop} {E : ε → σ → Prop} :
    ((attempt x).run s).Sat Q E ↔
      (x.run s).Sat (fun a s' => Q (.ok a) s') (fun e s' => Q (.error e) s') := by
  show (match x.run s with
    | ok a s' => ok (.ok a) s'
    | err e s' => ok (.error e) s'
    | halt p => halt p : Outcome φ ε σ (Except ε α)).Sat Q E ↔ _
  cases x.run s <;> rfl

theorem sat_handle {x : Comp φ ε σ α} {h : ε → Comp φ ε' σ α} {s : σ} {Q : α → σ → Prop}
    {E : ε' → σ → Prop} :
    ((handle x h).run s).Sat Q E ↔ (x.run s).Sat Q (fun e s' => ((h e).run s').Sat Q E) := by
  show (match x.run s with
    | ok a s' => ok a s'
    | err e s' => (h e).run s'
    | halt p => halt p : Outcome φ ε' σ α).Sat Q E ↔ _
  cases x.run s <;> rfl

/-- The rule of a sequence, for partial correctness. -/
theorem meets_bind {x : Comp φ ε σ α} {f : α → Comp φ ε σ β} {s : σ}
    {Q : β → σ → Prop} {E : ε → σ → Prop} :
    ((x >>= f).run s).Meets Q E ↔ (x.run s).Meets (fun a s' => ((f a).run s').Meets Q E) E := by
  rw [run_bind]
  cases x.run s <;> rfl

theorem meets_attempt {x : Comp φ ε σ α} {s : σ} {Q : Except ε α → σ → Prop}
    {E : ε → σ → Prop} :
    ((attempt x).run s).Meets Q E ↔
      (x.run s).Meets (fun a s' => Q (.ok a) s') (fun e s' => Q (.error e) s') := by
  show (match x.run s with
    | ok a s' => ok (.ok a) s'
    | err e s' => ok (.error e) s'
    | halt p => halt p : Outcome φ ε σ (Except ε α)).Meets Q E ↔ _
  cases x.run s <;> rfl

theorem sat_zoom {get : σ → τ} {put : τ → σ → σ} {x : Comp φ ε τ α} {s : σ}
    {Q : α → σ → Prop} {E : ε → σ → Prop} :
    ((zoom get put x).run s).Sat Q E ↔
      (x.run (get s)).Sat (fun a t => Q a (put t s)) (fun e t => E e (put t s)) := by
  rw [run_zoom]
  cases x.run (get s) <;> rfl

/-- **Counted loops.**  If `I i` before iteration `i` gives `I (i + 1)` after it,
then `I` holds at the end of the loop. -/
theorem sat_forFrom {body : ℕ → Comp φ ε σ Unit} {I : ℕ → σ → Prop} {E : ε → σ → Prop} :
    ∀ (n first : ℕ) (s : σ),
      (∀ i s, first ≤ i → i < first + n → I i s →
        ((body i).run s).Sat (fun _ s' => I (i + 1) s') E) →
      I first s → ((forFrom body first n).run s).Sat (fun _ s' => I (first + n) s') E := by
  intro n
  induction n with
  | zero =>
    intro first s _ h0
    exact h0
  | succ n ih =>
    intro first s hbody h0
    rw [forFrom, sat_bind]
    refine (hbody first s le_rfl (by omega) h0).mono (fun _ s' hs' => ?_) (fun _ _ h => h)
    have hrec := ih (first + 1) s'
      (fun i t hle hlt => hbody i t (by omega) (by omega)) hs'
    rw [show first + (n + 1) = first + 1 + n by omega]
    exact hrec

-- kept folded, so that a loop of fixed length is not unrolled where its rule is used
attribute [irreducible] forFrom

theorem sat_forRange {body : ℕ → Comp φ ε σ Unit} {I : ℕ → σ → Prop} {E : ε → σ → Prop}
    {n : ℕ} {s : σ}
    (hbody : ∀ i s, i < n → I i s → ((body i).run s).Sat (fun _ s' => I (i + 1) s') E)
    (h0 : I 0 s) : ((forRange n body).run s).Sat (fun _ s' => I n s') E := by
  have h := sat_forFrom n 0 s (fun i t _ hlt => hbody i t (by omega)) h0
  rw [Nat.zero_add] at h
  exact h

/-- **Loops over a list.**  The invariant may speak of the part of the list that
is already done. -/
theorem sat_forEach_aux {body : ι → Comp φ ε σ Unit} {I : List ι → σ → Prop} {E : ε → σ → Prop} :
    ∀ (xs done : List ι) (s : σ),
      (∀ front x back s, done ++ xs = front ++ x :: back → I front s →
        ((body x).run s).Sat (fun _ s' => I (front ++ [x]) s') E) →
      I done s → ((forEach body xs).run s).Sat (fun _ s' => I (done ++ xs) s') E := by
  intro xs
  induction xs with
  | nil =>
    intro done s _ h0
    rw [List.append_nil]
    exact h0
  | cons x xs ih =>
    intro done s hbody h0
    rw [forEach, sat_bind]
    refine (hbody done x xs s rfl h0).mono (fun _ s' hs' => ?_) (fun _ _ h => h)
    have hrec := ih (done ++ [x]) s' (fun front y back t heq => hbody front y back t (by
      rw [← heq, List.append_assoc, List.singleton_append])) hs'
    rw [List.append_assoc, List.singleton_append] at hrec
    exact hrec

theorem sat_forEach {body : ι → Comp φ ε σ Unit} {I : List ι → σ → Prop} {E : ε → σ → Prop}
    {xs : List ι} {s : σ}
    (hbody : ∀ front x back s, xs = front ++ x :: back → I front s →
      ((body x).run s).Sat (fun _ s' => I (front ++ [x]) s') E)
    (h0 : I [] s) : ((forEach body xs).run s).Sat (fun _ s' => I xs s') E :=
  sat_forEach_aux xs [] s (fun front x back t heq => hbody front x back t (by
    rw [← heq, List.nil_append])) h0

/-- The rule of a loop over a list, for partial correctness and an invariant of the state. -/
theorem meets_forEach {body : ι → Comp φ ε σ Unit} {I : σ → Prop} {E : ε → σ → Prop} :
    ∀ (xs : List ι) (s : σ),
      (∀ x ∈ xs, ∀ s, I s → ((body x).run s).Meets (fun _ s' => I s') E) → I s →
      ((forEach body xs).run s).Meets (fun _ s' => I s') E := by
  intro xs
  induction xs with
  | nil => exact fun s _ h0 => h0
  | cons x xs ih =>
    intro s hbody h0
    rw [forEach, meets_bind]
    refine (hbody x List.mem_cons_self s h0).mono (fun _ s' hs' => ?_) (fun _ _ h => h)
    exact ih s' (fun y hy => hbody y (List.mem_cons_of_mem x hy)) hs'

theorem forEach_congr {f g : ι → Comp φ ε σ Unit} : ∀ {xs : List ι},
    (∀ x ∈ xs, f x = g x) → forEach f xs = forEach g xs := by
  intro xs
  induction xs with
  | nil => exact fun _ => rfl
  | cons x xs ih =>
    intro h
    rw [forEach, forEach, h x List.mem_cons_self,
      ih (fun y hy => h y (List.mem_cons_of_mem x hy))]

/-- A loop that skips some elements is one over the others. -/
theorem forEach_filter (body : ι → Comp φ ε σ Unit) (p : ι → Bool) (xs : List ι) :
    forEach (fun x => if p x then body x else pure ()) xs = forEach body (xs.filter p) := by
  induction xs with
  | nil => rfl
  | cons x xs ih =>
    funext s
    cases hp : p x with
    | true =>
      rw [List.filter_cons_of_pos hp]
      show (forEach _ (x :: xs)).run s = (forEach _ (x :: xs.filter p)).run s
      rw [forEach, forEach, hp, if_pos rfl, ih]
    | false =>
      rw [List.filter_cons_of_neg (by simp [hp])]
      show (forEach _ (x :: xs)).run s = (forEach body (xs.filter p)).run s
      rw [forEach, hp, if_neg Bool.false_ne_true, run_pure_bind, ih]

/-! ## Faults that do not occur -/

/-- `x` never stops with the fault `p`. -/
def Avoids (p : φ) (x : Comp φ ε σ α) : Prop := ∀ s, x.run s ≠ halt p

theorem avoids_pure (p : φ) (a : α) : Avoids p (pure a : Comp φ ε σ α) := fun _ h => by cases h

theorem avoids_gets (p : φ) (f : σ → α) : Avoids p (gets f : Comp φ ε σ α) :=
  fun _ h => by cases h

theorem avoids_modify (p : φ) (f : σ → σ) : Avoids p (modify f : Comp φ ε σ Unit) :=
  fun _ h => by cases h

theorem avoids_fail (p : φ) (e : ε) : Avoids p (fail e : Comp φ ε σ α) := fun _ h => by cases h

theorem avoids_stop {p q : φ} (h : q ≠ p) : Avoids p (stop q : Comp φ ε σ α) :=
  fun _ hq => h (Outcome.halt.inj hq)

theorem Avoids.bind {p : φ} {x : Comp φ ε σ α} {f : α → Comp φ ε σ β} (hx : Avoids p x)
    (hf : ∀ a, Avoids p (f a)) : Avoids p (x >>= f) := by
  intro s
  rw [run_bind]
  cases hrun : x.run s with
  | ok a s' => exact hf a s'
  | err e s' => exact fun h => by cases h
  | halt q =>
    intro h
    exact hx s (hrun.trans (congrArg halt (Outcome.halt.inj h)))

theorem Avoids.attempt {p : φ} {x : Comp φ ε σ α} (hx : Avoids p x) :
    Avoids p (Comp.attempt x) := by
  intro s
  show (match x.run s with
    | ok a s' => ok (.ok a) s'
    | err e s' => ok (.error e) s'
    | halt q => halt q : Outcome φ ε σ (Except ε α)) ≠ halt p
  cases hrun : x.run s with
  | ok a s' => exact fun h => by cases h
  | err e s' => exact fun h => by cases h
  | halt q =>
    intro h
    exact hx s (hrun.trans (congrArg halt (Outcome.halt.inj h)))

theorem avoids_forEach {p : φ} {body : ι → Comp φ ε σ Unit} (hbody : ∀ x, Avoids p (body x)) :
    ∀ xs : List ι, Avoids p (forEach body xs) := by
  intro xs
  induction xs with
  | nil => exact avoids_pure p ()
  | cons x xs ih => exact (hbody x).bind (fun _ => ih)

/-! ## What a loop has done -/

/-- From `s`, the steps `R 0`, `R 1` and so on up to `R (n - 1)` were made in turn. -/
inductive Steps {σ : Type} (R : ℕ → σ → σ → Prop) (s : σ) : ℕ → σ → Prop
  | none : Steps R s 0 s
  | next {n : ℕ} {s₁ s₂ : σ} : Steps R s n s₁ → R n s₁ s₂ → Steps R s (n + 1) s₂

theorem Steps.inv {σ : Type} {R : ℕ → σ → σ → Prop} {I : ℕ → σ → Prop} {s s' : σ} {n : ℕ}
    (h : Steps R s n s') (h0 : I 0 s)
    (hstep : ∀ i s₁ s₂, i < n → Steps R s i s₁ → I i s₁ → R i s₁ s₂ → I (i + 1) s₂) :
    I n s' := by
  induction h with
  | none => exact h0
  | next hsteps hR ih =>
    have hI := ih (fun i s₁ s₂ hi => hstep i s₁ s₂ (Nat.lt_succ_of_lt hi))
    exact hstep _ _ _ (Nat.lt_succ_self _) hsteps hI hR

end Comp

/-! ## Operations one after the other -/

/-- The same outcome, with the state seen through `f`. -/
def Outcome.mapState {φ ε σ τ α : Type} (f : σ → τ) : Outcome φ ε σ α → Outcome φ ε τ α
  | ok a s => ok a (f s)
  | err e s => err e (f s)
  | halt p => halt p

theorem Outcome.state?_mapState {φ ε σ τ α : Type} (f : σ → τ) (o : Outcome φ ε σ α) :
    (o.mapState f).state? = o.state?.map f := by
  cases o <;> rfl

namespace Comp

open Outcome

variable {φ ε σ τ α ι : Type}

/-- What the operations of a list do, each in the state that the one before it left behind,
up to the first that halts. -/
def trace (exec : ι → Comp φ ε σ α) : List ι → σ → List (Outcome φ ε σ α)
  | [], _ => []
  | i :: is, s =>
    (exec i).run s ::
      match ((exec i).run s).state? with
      | some s' => trace exec is s'
      | none => []

/-- `P` holds of every operation of such a run and the state it meets. -/
def Along (exec : ι → Comp φ ε σ α) (P : ι → σ → Prop) : List ι → σ → Prop
  | [], _ => True
  | i :: is, s => P i s ∧ ∀ s', ((exec i).run s).state? = some s' → Along exec P is s'

/-- Two systems do the same when the first operation does the same in both and the others do
so in the states it leaves behind. -/
theorem trace_cons_map_iff {exec : ι → Comp φ ε σ α} {exec' : ι → Comp φ ε τ α} {f : σ → τ}
    {i : ι} {is : List ι} {s : σ} :
    (trace exec (i :: is) s).map (mapState f) = trace exec' (i :: is) (f s) ↔
      ((exec i).run s).mapState f = (exec' i).run (f s) ∧
      ∀ s', ((exec i).run s).state? = some s' →
        (trace exec is s').map (mapState f) = trace exec' is (f s') := by
  rw [trace, trace, List.map_cons, List.cons.injEq]
  refine and_congr_right fun hfirst => ?_
  rw [← hfirst, state?_mapState]
  cases ((exec i).run s).state? with
  | none => simp
  | some s' => simp

end Comp
