/-
# Calls served one after the other

Any number of threads call operations on an object of plain cells, each at a local state of its
own that says what it may call next.  `Served` is the object when every call is one indivisible
step; an implementation that refines it may be reasoned about through `Served.inv`.

`Served.sum_le` is the invariant of an object that hands out resources: when each operation on
its own keeps account of what is out, and the threads give back only what they have, then what
all threads have together is never more than what is out, so that no resource has two owners.
-/
import DoomOs.SharedMemory

set_option linter.unusedSectionVars false

open SharedMemory

/-- Who calls what: a caller at the local state `s` may call `j`, and is at `after s j r` once
it has been answered `r`. -/
structure Client (S J R : Type) where
  calls : S → J → Prop
  after : S → J → R → S

variable {T D V S J R : Type} [DecidableEq T] [DecidableEq D]

/-- The calls served one after the other: each runs on the cells that the calls before it left. -/
inductive Served (cl : Client S J R) (code : J → Body D V R) (s₀ : S) (σ₀ : D → V) :
    List (T × J × R) → (T → S) → (D → V) → Prop
  | start : Served cl code s₀ σ₀ [] (fun _ => s₀) σ₀
  | call {cs s σ t j r σ'} : Served cl code s₀ σ₀ cs s σ → cl.calls (s t) j →
      (code j).exec σ = some (r, σ') →
      Served cl code s₀ σ₀ (cs ++ [(t, j, r)])
        (Function.update s t (cl.after (s t) j r)) σ'

namespace Served

variable {cl : Client S J R} {code : J → Body D V R} {s₀ : S} {σ₀ : D → V}
  {cs : List (T × J × R)} {s : T → S} {σ : D → V}

/-- What every call keeps holds after all calls. -/
theorem inv (I : (T → S) → (D → V) → Prop) (h : Served cl code s₀ σ₀ cs s σ)
    (h0 : I (fun _ => s₀) σ₀)
    (hcall : ∀ s σ t j r σ', I s σ → cl.calls (s t) j → (code j).exec σ = some (r, σ') →
      I (Function.update s t (cl.after (s t) j r)) σ') : I s σ := by
  induction h with
  | start => exact h0
  | call _ hc he ih => exact hcall _ _ _ _ _ _ ih hc he

end Served

/-! ## Objects that hand out resources -/

/-- A call to an object that hands out resources. -/
inductive Demand (Q B : Type) where
  | take (q : Q)
  | give (b : B)

variable {Q B : Type} [DecidableEq B]

/-- A caller has the resources it was given, and gives back only these.  `got q r` is the
resource that the answer `r` to `take q` hands out, if it does. -/
def Client.holder (allowed : Q → Prop) (got : Q → R → Option B) :
    Client (Multiset B) (Demand Q B) R where
  calls own
    | .take q => allowed q
    | .give b => b ∈ own
  after own j r :=
    match j with
    | .take q => (got q r).elim own fun b => b ::ₘ own
    | .give b => own.erase b

/-- What an operation that runs alone does to the account `Out` of the resources that are out. -/
structure Accounts (allowed : Q → Prop) (got : Q → R → Option B)
    (code : Demand Q B → Body D V R) (Out : (D → V) → Multiset B → Prop) : Prop where
  take : ∀ {σ out q}, Out σ out → allowed q → ∃ r σ', (code (.take q)).exec σ = some (r, σ') ∧
    Out σ' ((got q r).elim out fun b => b ::ₘ out)
  give : ∀ {σ out b}, Out σ out → b ∈ out → ∃ r σ', (code (.give b)).exec σ = some (r, σ') ∧
    Out σ' (out.erase b)

namespace Accounts

variable {allowed : Q → Prop} {got : Q → R → Option B} {code : Demand Q B → Body D V R}
  {Out : (D → V) → Multiset B → Prop}

/-- What all threads have together is out. -/
def Shared (Out : (D → V) → Multiset B → Prop) (s : T → Multiset B) (σ : D → V) : Prop :=
  ∃ out, Out σ out ∧ ∀ F : Finset T, ∑ t ∈ F, s t ≤ out

/-- What a thread has is out. -/
theorem mem_out {out : Multiset B} {s : T → Multiset B} (h : ∀ F : Finset T, ∑ t ∈ F, s t ≤ out)
    {t : T} {b : B} (hb : b ∈ s t) : b ∈ out := by
  have := h {t}
  rw [Finset.sum_singleton] at this
  exact Multiset.mem_of_le this hb

/-- What the other threads of `F` have does not change. -/
theorem sum_update (s : T → Multiset B) (t : T) (own : Multiset B) (F : Finset T) (ht : t ∈ F) :
    ∑ u ∈ F, Function.update s t own u = own + ∑ u ∈ F.erase t, s u := by
  rw [← Finset.add_sum_erase F _ ht, Function.update_self]
  congr 1
  apply Finset.sum_congr rfl
  intro u hu
  exact Function.update_of_ne (Finset.ne_of_mem_erase hu) _ _

theorem sum_update_of_notMem (s : T → Multiset B) (t : T) (own : Multiset B) (F : Finset T)
    (ht : t ∉ F) : ∑ u ∈ F, Function.update s t own u = ∑ u ∈ F, s u := by
  apply Finset.sum_congr rfl
  rintro u hu
  have hne : u ≠ t := by
    rintro rfl
    exact ht hu
  exact Function.update_of_ne hne _ _

/-- An operation keeps the account. -/
theorem shared_call (H : Accounts allowed got code Out) {s : T → Multiset B} {σ σ' : D → V}
    {t : T} {j : Demand Q B} {r : R} (h : Shared Out s σ)
    (hc : (Client.holder allowed got).calls (s t) j) (he : (code j).exec σ = some (r, σ')) :
    Shared Out (Function.update s t ((Client.holder allowed got).after (s t) j r)) σ' := by
  obtain ⟨out, hout, hle⟩ := h
  cases j with
  | take q =>
    obtain ⟨r', σ'', he', hout'⟩ := H.take hout hc
    obtain ⟨rfl, rfl⟩ := Prod.mk.inj (Option.some.inj (he.symm.trans he'))
    refine ⟨_, hout', fun F => ?_⟩
    simp only [Client.holder]
    cases got q r with
    | none =>
      simp only [Option.elim_none, Function.update_eq_self]
      exact hle F
    | some b =>
      simp only [Option.elim_some]
      by_cases ht : t ∈ F
      · rw [sum_update s t _ F ht, Multiset.cons_add, Finset.add_sum_erase F s ht]
        exact Multiset.cons_le_cons b (hle F)
      · rw [sum_update_of_notMem s t _ F ht]
        exact (hle F).trans (Multiset.le_cons_self out b)
  | give b =>
    obtain ⟨r', σ'', he', hout'⟩ := H.give hout (mem_out hle hc)
    obtain ⟨rfl, rfl⟩ := Prod.mk.inj (Option.some.inj (he.symm.trans he'))
    have hb : b ∈ s t := hc
    refine ⟨_, hout', fun F => ?_⟩
    simp only [Client.holder]
    -- the thread's own share counts, whether or not it is in `F`
    have hwith : (s t).erase b + ∑ u ∈ F.erase t, s u ≤ out.erase b := by
      rw [← Multiset.erase_add_left_pos _ hb]
      apply Multiset.erase_le_erase
      have := hle (insert t F)
      rwa [← Finset.insert_erase (Finset.mem_insert_self t F),
        Finset.sum_insert (Finset.notMem_erase t _), Finset.erase_insert_eq_erase] at this
    by_cases ht : t ∈ F
    · rw [sum_update s t _ F ht]
      exact hwith
    · rw [sum_update_of_notMem s t _ F ht]
      rw [Finset.erase_eq_of_notMem ht] at hwith
      exact (Multiset.le_add_left _ _).trans hwith

/-- No resource has two owners: what all threads have together is out, with its multiplicity. -/
theorem sum_le (H : Accounts allowed got code Out) {σ₀ σ : D → V} {s : T → Multiset B}
    {cs : List (T × Demand Q B × R)} (h : Served (Client.holder allowed got) code 0 σ₀ cs s σ)
    (h0 : Out σ₀ 0) : Shared Out s σ := by
  apply h.inv (Shared Out)
  · exact ⟨0, h0, fun F => by simp⟩
  · intro s σ t j r σ' hI hc he
    exact H.shared_call hI hc he

/-- What is called never stops for good. -/
theorem exec_ne_none (H : Accounts allowed got code Out) {s : T → Multiset B} {σ : D → V} {t : T}
    {j : Demand Q B} (h : Shared Out s σ) (hc : (Client.holder allowed got).calls (s t) j) :
    (code j).exec σ ≠ none := by
  obtain ⟨out, hout, hle⟩ := h
  cases j with
  | take q =>
    obtain ⟨r, σ', he, _⟩ := H.take hout hc
    simp [he]
  | give b =>
    obtain ⟨r, σ', he, _⟩ := H.give hout (mem_out hle hc)
    simp [he]

/-- Of two threads each has resources of its own. -/
theorem pair_le {out : Multiset B} {s : T → Multiset B}
    (h : ∀ F : Finset T, ∑ t ∈ F, s t ≤ out) {t u : T} (htu : t ≠ u) {b b' : B}
    (hb : b ∈ s t) (hb' : b' ∈ s u) : b ::ₘ {b'} ≤ out := by
  have hsum := h {t, u}
  rw [Finset.sum_pair htu] at hsum
  refine le_trans ?_ hsum
  rw [← Multiset.singleton_add]
  exact add_le_add (Multiset.singleton_le.mpr hb) (Multiset.singleton_le.mpr hb')

end Accounts
