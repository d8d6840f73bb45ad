/-
# The init graph

`kernel/init/init_graph.hpp`.  The components that have to be initialised name the
components they depend on; the list of all that is needed for some roots is computed
at compile time, by a recursion on types.  `topo_component` sorts the dependencies of
a component and puts the component after them, `topo_list` does so for a list and
merges the results, leaving out what is there already.  Nothing is remembered between
branches except the path from the root, which is how a cycle is noticed.

A compile-time recursion has no bound of its own, so the model has a depth `fuel`;
`init_graph_sorts` shows that there is always enough of it.  What a failed
`static_assert` leaves is kept beside the list, since the compiler goes on.
-/
import Mathlib
import DoomOs.Arranged

namespace DoomOs

namespace InitGraph

open Relation

variable {α : Type} [DecidableEq α]

/-! ## Lists of types -/

/-- `list_contains`. -/
def listContains (x : α) : List α → Bool
  | [] => false
  | head :: tail => decide (x = head) || listContains x tail

/-- `list_append`. -/
def listAppend (l : List α) (x : α) : List α := l ++ [x]

/-- `list_append_unique`. -/
def listAppendUnique (l : List α) (x : α) : List α :=
  if listContains x l then l else listAppend l x

/-- `list_concat_unique`. -/
def listConcatUnique (a : List α) : List α → List α
  | [] => a
  | head :: tail => listConcatUnique (listAppendUnique a head) tail

/-! ## Sorting -/

/-- What sorting yields: the list, and whether "cycle detected in init graph" was
reported on the way. -/
structure Sorted (α : Type) where
  components : List α
  asserted : Bool
  deriving DecidableEq

/-- `topo_list`, with what sorts one component as a parameter. -/
def topoListWith (topo : α → Option (Sorted α)) : List α → Option (Sorted α)
  | [] => some ⟨[], false⟩
  | head :: tail => do
    let headSorted ← topo head
    let tailSorted ← topoListWith topo tail
    pure ⟨listConcatUnique headSorted.components tailSorted.components,
      headSorted.asserted || tailSorted.asserted⟩

/-- `topo_component`, to a depth of `fuel`. -/
def topoComponent (deps : α → List α) : (fuel : ℕ) → α → List α → Option (Sorted α)
  | 0, _, _ => none
  | fuel + 1, component, visiting => do
    let isCyclic := listContains component visiting
    let visitingWithSelf := listAppend visiting component
    let depsSorted ← topoListWith (fun d => topoComponent deps fuel d visitingWithSelf)
      (if isCyclic then [] else deps component)
    pure ⟨listAppendUnique depsSorted.components component, isCyclic || depsSorted.asserted⟩

/-- `topo_list`, to a depth of `fuel`. -/
def topoList (deps : α → List α) (fuel : ℕ) (list visiting : List α) : Option (Sorted α) :=
  topoListWith (fun c => topoComponent deps fuel c visiting) list

/-! ## Running -/

/-- `init_error`. -/
inductive InitError where
  | unspecified
  | dependencyUnavailable
  | invalidBootData
  | capacityExceeded
  | noUsableMemory
  | hardwareUnsupported
  deriving DecidableEq

/-- What a run works on: the backing with whatever else `init` and the logger can reach,
and the calls of `init` made so far with what they returned. -/
structure World (σ α : Type) where
  state : σ
  calls : List (α × Except InitError Unit)

/-- The logger of `run_logged`. -/
structure Logger (σ α : Type) where
  begin : α → σ → σ
  ok : α → σ → σ
  fail : α → InitError → σ → σ

section Running

variable {σ : Type} (init : α → σ → Except InitError Unit × σ)

/-- The call of `Component::init`. -/
def callInit (component : α) (w : World σ α) : Except InitError Unit × World σ α :=
  let (outcome, state) := init component w.state
  (outcome, ⟨state, w.calls ++ [(component, outcome)]⟩)

/-- `run_component_silent`. -/
def runComponentSilent (component : α) (w : World σ α) : Bool × World σ α :=
  match callInit init component w with
  | (.ok _, w) => (true, w)
  | (.error _, w) => (false, w)

/-- `run_component_logged`. -/
def runComponentLogged (logger : Logger σ α) (component : α) (w : World σ α) :
    Bool × World σ α :=
  let w := { w with state := logger.begin component w.state }
  match callInit init component w with
  | (.error e, w) => (false, { w with state := logger.fail component e w.state })
  | (.ok _, w) => (true, { w with state := logger.ok component w.state })

/-- `(run<Components>(…) && ...)`. -/
def runAll (run : α → World σ α → Bool × World σ α) : List α → World σ α → Bool × World σ α
  | [], w => (true, w)
  | c :: cs, w =>
    match run c w with
    | (true, w) => runAll run cs w
    | (false, w) => (false, w)

/-- `run_silent`. -/
def runSilent (components : List α) (w : World σ α) : Bool × World σ α :=
  runAll (runComponentSilent init) components w

/-- `run_logged`. -/
def runLogged (logger : Logger σ α) (components : List α) (w : World σ α) : Bool × World σ α :=
  runAll (runComponentLogged init logger) components w

end Running

/-! ## What the lists hold -/

theorem listContains_iff (x : α) (l : List α) : listContains x l = true ↔ x ∈ l := by
  induction l with
  | nil => simp [listContains]
  | cons head tail ih =>
    rw [listContains, Bool.or_eq_true, decide_eq_true_eq, ih, List.mem_cons]

theorem mem_listAppendUnique {l : List α} {x y : α} :
    y ∈ listAppendUnique l x ↔ y ∈ l ∨ y = x := by
  unfold listAppendUnique listAppend
  by_cases hx : x ∈ l
  · rw [if_pos ((listContains_iff x l).mpr hx)]
    constructor
    · exact Or.inl
    · rintro (hy | rfl)
      · exact hy
      · exact hx
  · rw [if_neg (fun h => hx ((listContains_iff x l).mp h)), List.mem_append, List.mem_singleton]

theorem mem_listConcatUnique {y : α} : ∀ {a b : List α},
    y ∈ listConcatUnique a b ↔ y ∈ a ∨ y ∈ b := by
  intro a b
  induction b generalizing a with
  | nil => simp [listConcatUnique]
  | cons head tail ih =>
    rw [listConcatUnique, ih, mem_listAppendUnique, List.mem_cons, or_assoc]

/-- `b` is a dependency of `a`. -/
def Dep (deps : α → List α) (a b : α) : Prop := b ∈ deps a

/-- Each component once, and behind all it depends on. -/
structure Ordered (deps : α → List α) (l : List α) : Prop where
  nodup : l.Nodup
  before : ∀ front c back, l = front ++ c :: back → ∀ d ∈ deps c, d ∈ front

section Order

variable {deps : α → List α}

omit [DecidableEq α] in
theorem Ordered.nil : Ordered deps ([] : List α) := by
  exact ⟨List.nodup_nil, arranged_nil⟩

theorem Ordered.appendUnique {l : List α} {x : α} (h : Ordered deps l)
    (hx : ∀ d ∈ deps x, d ∈ l) : Ordered deps (listAppendUnique l x) := by
  unfold listAppendUnique listAppend
  by_cases hmem : x ∈ l
  · rw [if_pos ((listContains_iff x l).mpr hmem)]
    exact h
  · rw [if_neg (fun hc => hmem ((listContains_iff x l).mp hc))]
    refine ⟨List.nodup_append.mpr ⟨h.nodup, List.nodup_singleton x, ?_⟩, ?_⟩
    · rintro a ha b hb rfl
      exact hmem (List.mem_singleton.mp hb ▸ ha)
    · exact Arranged.snoc (r := Dep deps) h.before hx

theorem Ordered.concatUnique_of : ∀ {a b : List α}, Ordered deps a →
    (∀ front c back, b = front ++ c :: back → ∀ d ∈ deps c, d ∈ a ∨ d ∈ front) →
    Ordered deps (listConcatUnique a b) := by
  intro a b ha hb
  induction b generalizing a with
  | nil => exact ha
  | cons head tail ih =>
    have hhead : ∀ d ∈ deps head, d ∈ a := by
      intro d hd
      rcases hb [] head tail rfl d hd with h | h
      · exact h
      · cases h
    apply ih (ha.appendUnique hhead)
    intro front c back heq d hd
    rw [mem_listAppendUnique]
    rcases hb (head :: front) c back (by rw [heq, List.cons_append]) d hd with h | h
    · exact Or.inl (Or.inl h)
    · rcases List.mem_cons.mp h with rfl | h
      · exact Or.inl (Or.inr rfl)
      · exact Or.inr h

theorem Ordered.concatUnique {a b : List α} (ha : Ordered deps a) (hb : Ordered deps b) :
    Ordered deps (listConcatUnique a b) :=
  ha.concatUnique_of (fun front c back heq d hd => Or.inr (hb.before front c back heq d hd))

end Order

/-! ## Lists of components -/

theorem topoListWith_cons {topo : α → Option (Sorted α)} {c : α} {cs : List α} {r : Sorted α} :
    topoListWith topo (c :: cs) = some r ↔
      ∃ h t, topo c = some h ∧ topoListWith topo cs = some t ∧
        r = ⟨listConcatUnique h.components t.components, h.asserted || t.asserted⟩ := by
  rw [topoListWith]
  cases hc : topo c with
  | none => simp
  | some h =>
    cases ht : topoListWith topo cs with
    | none => simp
    | some t =>
      simp only [Option.bind_eq_bind, Option.bind_some, Option.pure_def, Option.some.injEq]
      constructor
      · rintro rfl
        exact ⟨h, t, rfl, rfl, rfl⟩
      · rintro ⟨h', t', rfl, rfl, rfl⟩
        rfl

/-- A list sorts to what its members sort to. -/
theorem topoListWith_spec {topo : α → Option (Sorted α)} (deps : α → List α) :
    ∀ {l : List α} {r : Sorted α}, topoListWith topo l = some r →
    (∀ c ∈ l, ∃ rc, topo c = some rc) ∧
    (r.asserted = true ↔ ∃ c ∈ l, ∃ rc, topo c = some rc ∧ rc.asserted = true) ∧
    (∀ x, x ∈ r.components ↔ ∃ c ∈ l, ∃ rc, topo c = some rc ∧ x ∈ rc.components) ∧
    ((∀ c ∈ l, ∀ rc, topo c = some rc → Ordered deps rc.components) →
      Ordered deps r.components) := by
  intro l
  induction l with
  | nil =>
    intro r h
    obtain rfl : ⟨[], false⟩ = r := Option.some.inj h
    exact ⟨by simp, by simp, by simp, fun _ => Ordered.nil⟩
  | cons c cs ih =>
    intro r h
    obtain ⟨hd, tl, hc, hcs, rfl⟩ := topoListWith_cons.mp h
    obtain ⟨hsome, hassert, hmem, hord⟩ := ih hcs
    refine ⟨?_, ?_, fun x => ?_, fun hall => ?_⟩
    · rintro b hb
      rcases List.mem_cons.mp hb with rfl | hb
      · exact ⟨hd, hc⟩
      · exact hsome b hb
    · simp only [Bool.or_eq_true, hassert, List.mem_cons, exists_eq_or_imp, hc,
        Option.some.injEq, exists_eq_left']
    · simp only [mem_listConcatUnique, hmem, List.mem_cons, exists_eq_or_imp, hc,
        Option.some.injEq, exists_eq_left']
    · exact (hall c List.mem_cons_self hd hc).concatUnique
        (hord (fun b hb => hall b (List.mem_cons_of_mem c hb)))

theorem exists_topoListWith {topo : α → Option (Sorted α)} : ∀ {l : List α},
    (∀ c ∈ l, ∃ r, topo c = some r) → ∃ r, topoListWith topo l = some r := by
  intro l
  induction l with
  | nil => exact fun _ => ⟨_, rfl⟩
  | cons c cs ih =>
    intro h
    obtain ⟨hd, hc⟩ := h c List.mem_cons_self
    obtain ⟨tl, hcs⟩ := ih (fun b hb => h b (List.mem_cons_of_mem c hb))
    exact ⟨_, topoListWith_cons.mpr ⟨hd, tl, hc, hcs, rfl⟩⟩

theorem topoListWith_mono {f g : α → Option (Sorted α)}
    (hfg : ∀ c r, f c = some r → g c = some r) : ∀ {l : List α} {r : Sorted α},
    topoListWith f l = some r → topoListWith g l = some r := by
  intro l
  induction l with
  | nil => exact fun h => h
  | cons c cs ih =>
    intro r h
    obtain ⟨hd, tl, hc, hcs, hr⟩ := topoListWith_cons.mp h
    exact topoListWith_cons.mpr ⟨hd, tl, hfg c hd hc, ih hcs, hr⟩

/-! ## One component -/

section Component

variable {deps : α → List α}

/-- What sorting one component comes to: its dependencies are sorted unless it is on the
path, and it follows them. -/
theorem topoComponent_succ {n : ℕ} {c : α} {visiting : List α} {r : Sorted α} :
    topoComponent deps (n + 1) c visiting = some r ↔
      ∃ ds, topoListWith (fun d => topoComponent deps n d (visiting ++ [c]))
          (if c ∈ visiting then [] else deps c) = some ds ∧
        r = ⟨listAppendUnique ds.components c, decide (c ∈ visiting) || ds.asserted⟩ := by
  have hc : listContains c visiting = decide (c ∈ visiting) := by
    rw [Bool.eq_iff_iff, listContains_iff, decide_eq_true_eq]
  rw [topoComponent, hc]
  simp only [listAppend, Option.bind_eq_bind, Option.pure_def, Option.bind_eq_some_iff,
    Option.some.injEq, decide_eq_true_eq]
  constructor
  · rintro ⟨ds, h, rfl⟩
    exact ⟨ds, h, rfl⟩
  · rintro ⟨ds, h, rfl⟩
    exact ⟨ds, h, rfl⟩

theorem topoComponent_mono {n : ℕ} : ∀ {c : α} {visiting : List α} {r : Sorted α},
    topoComponent deps n c visiting = some r →
    topoComponent deps (n + 1) c visiting = some r := by
  induction n with
  | zero =>
    intro c visiting r h
    cases h
  | succ n ih =>
    intro c visiting r h
    obtain ⟨ds, hds, hr⟩ := topoComponent_succ.mp h
    exact topoComponent_succ.mpr ⟨ds, topoListWith_mono (fun _ _ hd => ih hd) hds, hr⟩

theorem topoList_mono {n m : ℕ} (hle : n ≤ m) {l visiting : List α} {r : Sorted α}
    (h : topoList deps n l visiting = some r) : topoList deps m l visiting = some r := by
  induction hle with
  | refl => exact h
  | step _ ih => exact topoListWith_mono (fun _ _ hd => topoComponent_mono hd) ih

/-- **Termination.**  The path never holds a component twice while it grows, so its
length is bounded by the number of components there are. -/
theorem exists_topoComponent {U : Finset α} (hU : ∀ a ∈ U, ∀ d ∈ deps a, d ∈ U) :
    ∀ (n : ℕ) {c : α} {visiting : List α}, c ∈ U → visiting.Nodup → (∀ x ∈ visiting, x ∈ U) →
    U.card + 1 ≤ n + visiting.length → ∃ r, topoComponent deps n c visiting = some r := by
  intro n
  induction n with
  | zero =>
    intro c visiting _ hnodup hsub hle
    have hcard : visiting.length ≤ U.card := by
      rw [← List.toFinset_card_of_nodup hnodup]
      exact Finset.card_le_card (fun x hx => hsub x (List.mem_toFinset.mp hx))
    omega
  | succ n ih =>
    intro c visiting hc hnodup hsub hle
    have hlist : ∃ ds, topoListWith (fun d => topoComponent deps n d (visiting ++ [c]))
        (if c ∈ visiting then [] else deps c) = some ds := by
      by_cases hmem : c ∈ visiting
      · rw [if_pos hmem]
        exact ⟨_, rfl⟩
      · rw [if_neg hmem]
        apply exists_topoListWith
        intro d hd
        apply ih (hU c hc d hd)
        · refine List.nodup_append.mpr ⟨hnodup, List.nodup_singleton c, ?_⟩
          rintro a ha b hb rfl
          exact hmem (List.mem_singleton.mp hb ▸ ha)
        · intro x hx
          rcases List.mem_append.mp hx with hx | hx
          · exact hsub x hx
          · exact List.mem_singleton.mp hx ▸ hc
        · rw [List.length_append, List.length_singleton]
          omega
    obtain ⟨ds, hds⟩ := hlist
    exact ⟨_, topoComponent_succ.mpr ⟨ds, hds, rfl⟩⟩

/-- An assertion that fires has found a cycle: all of the path leads to the component. -/
theorem exists_cycle_of_asserted {n : ℕ} : ∀ {c : α} {visiting : List α} {r : Sorted α},
    topoComponent deps n c visiting = some r → (∀ x ∈ visiting, TransGen (Dep deps) x c) →
    r.asserted = true →
    ∃ x, ReflTransGen (Dep deps) c x ∧ TransGen (Dep deps) x x := by
  induction n with
  | zero =>
    intro c visiting r h
    cases h
  | succ n ih =>
    intro c visiting r h hpath hr
    obtain ⟨ds, hds, rfl⟩ := topoComponent_succ.mp h
    by_cases hmem : c ∈ visiting
    · exact ⟨c, .refl, hpath c hmem⟩
    · rw [if_neg hmem] at hds
      simp only [hmem, decide_false, Bool.false_or] at hr
      obtain ⟨d, hd, rd, hrun, hrd⟩ := (topoListWith_spec deps hds).2.1.mp hr
      have hpath' : ∀ x ∈ visiting ++ [c], TransGen (Dep deps) x d := by
        intro x hx
        rcases List.mem_append.mp hx with hx | hx
        · exact (hpath x hx).tail hd
        · rw [List.mem_singleton.mp hx]
          exact .single hd
      obtain ⟨x, hdx, hxx⟩ := ih hrun hpath' hrd
      exact ⟨x, .head hd hdx, hxx⟩

/-- If no assertion fires, nothing below the component is on the path or on a cycle. -/
theorem not_cycle_of_not_asserted {n : ℕ} : ∀ {c : α} {visiting : List α} {r : Sorted α},
    topoComponent deps n c visiting = some r → r.asserted = false →
    ∀ x, ReflTransGen (Dep deps) c x → x ∉ visiting ∧ ¬ TransGen (Dep deps) x x := by
  induction n with
  | zero =>
    intro c visiting r h
    cases h
  | succ n ih =>
    intro c visiting r h hr x hcx
    obtain ⟨ds, hds, rfl⟩ := topoComponent_succ.mp h
    obtain ⟨hc, hdsr⟩ := Bool.or_eq_false_iff.mp hr
    have hmem : c ∉ visiting := of_decide_eq_false hc
    rw [if_neg hmem] at hds
    obtain ⟨hsome, hassert, -⟩ := topoListWith_spec deps hds
    -- the same for each dependency, with `c` on the path
    have hdep : ∀ d ∈ deps c, ∀ y, ReflTransGen (Dep deps) d y →
        y ∉ visiting ++ [c] ∧ ¬ TransGen (Dep deps) y y := by
      intro d hd
      obtain ⟨rd, hrun⟩ := hsome d hd
      apply ih hrun
      refine Bool.eq_false_of_not_eq_true (fun hrd => ?_)
      rw [hassert.mpr ⟨d, hd, rd, hrun, hrd⟩] at hdsr
      cases hdsr
    rcases ReflTransGen.cases_head hcx with rfl | ⟨d, hd, hdx⟩
    · refine ⟨hmem, fun hcc => ?_⟩
      obtain ⟨d, hd, hdc⟩ := TransGen.head'_iff.mp hcc
      exact (hdep d hd c hdc).1 (List.mem_append_right _ (List.mem_singleton_self c))
    · obtain ⟨hnot, hcyc⟩ := hdep d hd x hdx
      exact ⟨fun hx => hnot (List.mem_append_left _ hx), hcyc⟩

/-- If no assertion fires, the result is in order and holds what the component needs. -/
theorem ordered_of_not_asserted {n : ℕ} : ∀ {c : α} {visiting : List α} {r : Sorted α},
    topoComponent deps n c visiting = some r → r.asserted = false →
    Ordered deps r.components ∧ ∀ x, x ∈ r.components ↔ ReflTransGen (Dep deps) c x := by
  induction n with
  | zero =>
    intro c visiting r h
    cases h
  | succ n ih =>
    intro c visiting r h hr
    obtain ⟨ds, hds, rfl⟩ := topoComponent_succ.mp h
    obtain ⟨hc, hdsr⟩ := Bool.or_eq_false_iff.mp hr
    have hmem : c ∉ visiting := of_decide_eq_false hc
    rw [if_neg hmem] at hds
    obtain ⟨hsome, hassert, hcomp, hord⟩ := topoListWith_spec deps hds
    have hdep : ∀ d ∈ deps c, ∀ rd, topoComponent deps n d (visiting ++ [c]) = some rd →
        Ordered deps rd.components ∧
          ∀ x, x ∈ rd.components ↔ ReflTransGen (Dep deps) d x := by
      intro d hd rd hrun
      apply ih hrun
      refine Bool.eq_false_of_not_eq_true (fun hrd => ?_)
      rw [hassert.mpr ⟨d, hd, rd, hrun, hrd⟩] at hdsr
      cases hdsr
    have hall : ∀ x, x ∈ ds.components ↔ ∃ d ∈ deps c, ReflTransGen (Dep deps) d x := by
      intro x
      rw [hcomp x]
      constructor
      · rintro ⟨d, hd, rd, hrun, hx⟩
        exact ⟨d, hd, ((hdep d hd rd hrun).2 x).mp hx⟩
      · rintro ⟨d, hd, hx⟩
        obtain ⟨rd, hrun⟩ := hsome d hd
        exact ⟨d, hd, rd, hrun, ((hdep d hd rd hrun).2 x).mpr hx⟩
    constructor
    · apply (hord (fun d hd rd hrun => (hdep d hd rd hrun).1)).appendUnique
      intro d hd
      exact (hall d).mpr ⟨d, hd, .refl⟩
    · intro x
      rw [mem_listAppendUnique, hall x]
      constructor
      · rintro (⟨d, hd, hdx⟩ | rfl)
        · exact .head hd hdx
        · exact .refl
      · intro hcx
        rcases ReflTransGen.cases_head hcx with rfl | ⟨d, hd, hdx⟩
        · exact Or.inr rfl
        · exact Or.inl ⟨d, hd, hdx⟩

end Component

/-! ## What a run calls -/

section Calls

variable {σ : Type}

/-- The calls of a run over `l`: a first part of `l` in its order, up to the first that
fails. -/
structure CallsOf (l : List α) (calls : List (α × Except InitError Unit)) (result : Bool) :
    Prop where
  listed : ∃ rest, l = calls.map Prod.fst ++ rest
  succeeded : ∀ front x back, calls = front ++ x :: back → ∀ y ∈ front, y.2 = .ok ()
  result_iff : result = true ↔ calls = l.map (fun c => (c, .ok ()))

omit [DecidableEq α] in
/-- A run over a list, when each step makes one call and goes on if that returned Ok. -/
theorem callsOf_runAll {run : α → World σ α → Bool × World σ α}
    (hrun : ∀ c w, ∃ outcome, (run c w).2.calls = w.calls ++ [(c, outcome)] ∧
      ((run c w).1 = true ↔ outcome = .ok ())) :
    ∀ (l : List α) (w : World σ α), ∃ calls, (runAll run l w).2.calls = w.calls ++ calls ∧
      CallsOf l calls (runAll run l w).1 := by
  intro l
  induction l with
  | nil =>
    intro w
    refine ⟨[], (List.append_nil _).symm, ⟨[], rfl⟩, fun front x back h => ?_, by simp [runAll]⟩
    exact absurd h.symm (List.append_ne_nil_of_right_ne_nil _ (List.cons_ne_nil _ _))
  | cons c cs ih =>
    intro w
    obtain ⟨outcome, hcalls, hok⟩ := hrun c w
    rw [runAll]
    rcases hc : run c w with ⟨b, w'⟩
    rw [hc] at hcalls hok
    cases b with
    | false =>
      have hout : outcome ≠ .ok () := fun h => Bool.false_ne_true (hok.mpr h)
      refine ⟨[(c, outcome)], hcalls, ⟨cs, rfl⟩, fun front x back h y hy => ?_, ?_⟩
      · -- nothing comes before the only call
        cases front with
        | nil => cases hy
        | cons z front =>
          have htail := (List.cons.inj h).2
          exact absurd htail.symm (List.append_ne_nil_of_right_ne_nil _ (List.cons_ne_nil _ _))
      · constructor
        · intro h
          cases h
        · intro h
          rw [List.map_cons] at h
          exact absurd (Prod.mk.inj (List.cons.inj h).1).2 hout
    | true =>
      obtain rfl : outcome = .ok () := hok.mp rfl
      obtain ⟨calls, hcalls', H⟩ := ih w'
      obtain ⟨rest, hrest⟩ := H.listed
      refine ⟨(c, .ok ()) :: calls, ?_, ⟨rest, ?_⟩, fun front x back h y hy => ?_, ?_⟩
      · show (runAll run cs w').2.calls = _
        rw [hcalls', hcalls, List.append_assoc, List.singleton_append]
      · rw [List.map_cons, List.cons_append, ← hrest]
      · cases front with
        | nil => cases hy
        | cons z front =>
          obtain ⟨hz, htail⟩ := List.cons.inj h
          rcases List.mem_cons.mp hy with rfl | hy
          · rw [← hz]
          · exact H.succeeded front x back htail y hy
      · show (runAll run cs w').1 = true ↔ _
        rw [H.result_iff, List.map_cons, List.cons.injEq]
        exact ⟨fun h => ⟨rfl, h⟩, fun h => h.2⟩

omit [DecidableEq α] in
theorem callsOf_runSilent (init : α → σ → Except InitError Unit × σ) (l : List α) (s : σ) :
    CallsOf l (runSilent init l ⟨s, []⟩).2.calls (runSilent init l ⟨s, []⟩).1 := by
  have hstep : ∀ c w, ∃ outcome,
      (runComponentSilent init c w).2.calls = w.calls ++ [(c, outcome)] ∧
      ((runComponentSilent init c w).1 = true ↔ outcome = .ok ()) := by
    intro c w
    unfold runComponentSilent callInit
    rcases init c w.state with ⟨outcome, s'⟩
    cases outcome with
    | ok u => exact ⟨.ok u, rfl, by simp⟩
    | error e => exact ⟨.error e, rfl, by simp⟩
  obtain ⟨calls, hcalls, H⟩ := callsOf_runAll hstep l ⟨s, []⟩
  rw [List.nil_append] at hcalls
  unfold runSilent
  rw [hcalls]
  exact H

omit [DecidableEq α] in
theorem callsOf_runLogged (init : α → σ → Except InitError Unit × σ) (logger : Logger σ α)
    (l : List α) (s : σ) :
    CallsOf l (runLogged init logger l ⟨s, []⟩).2.calls (runLogged init logger l ⟨s, []⟩).1 := by
  have hstep : ∀ c w, ∃ outcome,
      (runComponentLogged init logger c w).2.calls = w.calls ++ [(c, outcome)] ∧
      ((runComponentLogged init logger c w).1 = true ↔ outcome = .ok ()) := by
    intro c w
    unfold runComponentLogged callInit
    dsimp only
    rcases init c (logger.begin c w.state) with ⟨outcome, s'⟩
    cases outcome with
    | ok u => exact ⟨.ok u, rfl, by simp⟩
    | error e => exact ⟨.error e, rfl, by simp⟩
  obtain ⟨calls, hcalls, H⟩ := callsOf_runAll hstep l ⟨s, []⟩
  rw [List.nil_append] at hcalls
  unfold runLogged
  rw [hcalls]
  exact H

/-- When a component is initialised, each of its dependencies has been, once and with
success; and nothing is initialised after a failure. -/
def InOrder (deps : α → List α) (calls : List (α × Except InitError Unit)) : Prop :=
  (∀ front c outcome back, calls = front ++ (c, outcome) :: back → ∀ d ∈ deps c,
    (front.map Prod.fst).count d = 1 ∧ (d, .ok ()) ∈ front) ∧
  ∀ front c e back, calls = front ++ (c, .error e) :: back → back = []

/-- A run over an ordered list initialises in order. -/
theorem Ordered.inOrder {deps : α → List α} {l : List α} (h : Ordered deps l)
    {calls : List (α × Except InitError Unit)} {result : Bool} (H : CallsOf l calls result) :
    InOrder deps calls := by
  obtain ⟨rest, hrest⟩ := H.listed
  refine ⟨fun front c outcome back heq d hd => ?_, fun front c e back heq => ?_⟩
  · have hl : l = front.map Prod.fst ++ c :: (back.map Prod.fst ++ rest) := by
      rw [hrest, heq, List.map_append, List.map_cons, List.append_assoc, List.cons_append]
    have hmem := h.before _ c _ hl d hd
    have hnodup : (front.map Prod.fst).Nodup := by
      have hn := h.nodup
      rw [hl] at hn
      exact (List.nodup_append.mp hn).1
    refine ⟨List.count_eq_one_of_mem hnodup hmem, ?_⟩
    obtain ⟨⟨b, outcome'⟩, hb, rfl⟩ := List.mem_map.mp hmem
    have hok := H.succeeded front (c, outcome) back heq _ hb
    simp only at hok
    rw [hok] at hb
    exact hb
  · cases back with
    | nil => rfl
    | cons x back =>
      have hsplit : calls = (front ++ [(c, .error e)]) ++ x :: back := by
        rw [heq, List.append_assoc, List.singleton_append]
      have hok := H.succeeded _ x back hsplit (c, .error e)
        (List.mem_append_right _ (List.mem_singleton_self _))
      cases hok

end Calls

/-! ## The graph of some roots -/

/-- What the roots need: all that can be reached from one of them. -/
def Needed (deps : α → List α) (roots : List α) (c : α) : Prop :=
  ∃ root ∈ roots, ReflTransGen (Dep deps) root c

/-- Sorting the roots ends, asserts exactly when they need a component on a cycle, and else
yields what they need in order. -/
theorem topoList_sorts (deps : α → List α) (roots : List α)
    (hfin : {c | Needed deps roots c}.Finite) :
    ∃ r, (∃ n, ∀ fuel ≥ n, topoList deps fuel roots [] = some r) ∧
      (r.asserted = true ↔ ∃ c, Needed deps roots c ∧ TransGen (Dep deps) c c) ∧
      (r.asserted = false →
        Ordered deps r.components ∧ ∀ c, c ∈ r.components ↔ Needed deps roots c) := by
  have hclosed : ∀ a ∈ hfin.toFinset, ∀ d ∈ deps a, d ∈ hfin.toFinset := by
    intro a ha d hd
    obtain ⟨root, hroot, hreach⟩ := (Set.Finite.mem_toFinset hfin).mp ha
    exact (Set.Finite.mem_toFinset hfin).mpr ⟨root, hroot, hreach.tail hd⟩
  have hall : ∀ c ∈ roots, ∃ rc,
      topoComponent deps (hfin.toFinset.card + 1) c [] = some rc := by
    intro c hc
    exact exists_topoComponent hclosed _
      ((Set.Finite.mem_toFinset hfin).mpr ⟨c, hc, .refl⟩) List.nodup_nil
      (fun x hx => absurd hx List.not_mem_nil) le_rfl
  obtain ⟨r, hr⟩ := exists_topoListWith hall
  obtain ⟨-, hassert, hcomp, hord⟩ := topoListWith_spec deps hr
  have hcycle : ∀ c ∈ roots, ∀ rc,
      topoComponent deps (hfin.toFinset.card + 1) c [] = some rc →
      (rc.asserted = true ↔ ∃ x, ReflTransGen (Dep deps) c x ∧ TransGen (Dep deps) x x) := by
    intro c hc rc hrc
    constructor
    · exact exists_cycle_of_asserted hrc (fun x hx => absurd hx List.not_mem_nil)
    · rintro ⟨x, hcx, hxx⟩
      refine Bool.eq_true_of_not_eq_false (fun hf => ?_)
      exact (not_cycle_of_not_asserted hrc hf x hcx).2 hxx
  refine ⟨r, ⟨_, fun fuel hfuel => topoList_mono hfuel hr⟩, ?_, fun hf => ?_⟩
  · rw [hassert]
    constructor
    · rintro ⟨c, hc, rc, hrc, hasserted⟩
      obtain ⟨x, hcx, hxx⟩ := (hcycle c hc rc hrc).mp hasserted
      exact ⟨x, ⟨c, hc, hcx⟩, hxx⟩
    · rintro ⟨x, ⟨c, hc, hcx⟩, hxx⟩
      obtain ⟨rc, hrc⟩ := hall c hc
      exact ⟨c, hc, rc, hrc, (hcycle c hc rc hrc).mpr ⟨x, hcx, hxx⟩⟩
  · have hnot : ∀ c ∈ roots, ∀ rc,
        topoComponent deps (hfin.toFinset.card + 1) c [] = some rc → rc.asserted = false := by
      intro c hc rc hrc
      refine Bool.eq_false_of_not_eq_true (fun ht => ?_)
      rw [hassert.mpr ⟨c, hc, rc, hrc, ht⟩] at hf
      cases hf
    refine ⟨hord (fun c hc rc hrc => (ordered_of_not_asserted hrc (hnot c hc rc hrc)).1),
      fun x => ?_⟩
    rw [hcomp x]
    constructor
    · rintro ⟨c, hc, rc, hrc, hx⟩
      exact ⟨c, hc, ((ordered_of_not_asserted hrc (hnot c hc rc hrc)).2 x).mp hx⟩
    · rintro ⟨c, hc, hcx⟩
      obtain ⟨rc, hrc⟩ := hall c hc
      exact ⟨c, hc, rc, hrc, ((ordered_of_not_asserted hrc (hnot c hc rc hrc)).2 x).mpr hcx⟩

/-- **The init graph is a topological sort.**  For every dependency relation under which
the roots need finitely many components, the recursion ends.  The assertion fires
exactly when the roots need a component that lies on a cycle; else
`sorted_components` holds what the roots need, each component once and behind all its
dependencies.  A run over it then initialises a component only after each of its
dependencies was initialised once and returned Ok, and initialises nothing after the
first failure. -/
theorem init_graph_sorts (deps : α → List α) (roots : List α)
    (hfin : {c | Needed deps roots c}.Finite) :
    ∃ r, (∃ n, ∀ fuel ≥ n, topoList deps fuel roots [] = some r) ∧
      (r.asserted = true ↔ ∃ c, Needed deps roots c ∧ TransGen (Dep deps) c c) ∧
      (r.asserted = false →
        r.components.Nodup ∧ (∀ c, c ∈ r.components ↔ Needed deps roots c) ∧
        (∀ front c back, r.components = front ++ c :: back → ∀ d ∈ deps c, d ∈ front) ∧
        ∀ (σ : Type) (init : α → σ → Except InitError Unit × σ) (s : σ),
          (InOrder deps (runSilent init r.components ⟨s, []⟩).2.calls ∧
            ((runSilent init r.components ⟨s, []⟩).1 = true ↔
              (runSilent init r.components ⟨s, []⟩).2.calls
                = r.components.map (fun c => (c, .ok ())))) ∧
          ∀ logger : Logger σ α,
            InOrder deps (runLogged init logger r.components ⟨s, []⟩).2.calls ∧
            ((runLogged init logger r.components ⟨s, []⟩).1 = true ↔
              (runLogged init logger r.components ⟨s, []⟩).2.calls
                = r.components.map (fun c => (c, .ok ())))) := by
  obtain ⟨r, hsome, hassert, hsorted⟩ := topoList_sorts deps roots hfin
  refine ⟨r, hsome, hassert, fun hf => ?_⟩
  obtain ⟨H, hmem⟩ := hsorted hf
  refine ⟨H.nodup, hmem, H.before, fun σ init s => ⟨⟨?_, ?_⟩, fun logger => ⟨?_, ?_⟩⟩⟩
  · exact H.inOrder (callsOf_runSilent init r.components s)
  · exact (callsOf_runSilent init r.components s).result_iff
  · exact H.inOrder (callsOf_runLogged init logger r.components s)
  · exact (callsOf_runLogged init logger r.components s).result_iff

/-- A diamond: 3 and 2 are needed along two paths, which is no cycle. -/
theorem init_graph_sorts_diamond :
    let deps : Fin 5 → List (Fin 5) := ![[1, 2], [3], [3, 1], [], [4]]
    ({c | Needed deps [0, 2] c}.Finite ∧
      ∃ r, (∃ n, ∀ fuel ≥ n, topoList deps fuel [0, 2] [] = some r) ∧
        (r.asserted = true ↔ ∃ c, Needed deps [0, 2] c ∧ TransGen (Dep deps) c c)) ∧
      topoList deps 9 [0, 2] [] = some ⟨[3, 1, 2, 0], false⟩ ∧
      (topoList deps 9 [4] []).map Sorted.asserted = some true := by
  intro deps
  have hfin : {c | Needed deps [0, 2] c}.Finite := Set.toFinite _
  obtain ⟨r, hr, hassert, -⟩ := init_graph_sorts deps [0, 2] hfin
  exact ⟨⟨hfin, r, hr, hassert⟩, by decide, by decide⟩

end InitGraph

end DoomOs
