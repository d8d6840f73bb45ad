/-
# The init graph after another

The second half of `kernel/init/init_graph.hpp`.  The early components of a core are
initialised by one graph and the late ones by `init_graph_after`, which sorts what its
roots need and leaves out what the satisfied roots need, since that has been run.

What some roots need is closed downward, so nothing that is left out depends on
anything that is kept; that is why a filtered list is still in order.
-/
import DoomOs.InitGraph

namespace DoomOs

namespace InitGraph

open Relation

variable {α : Type} [DecidableEq α]

/-- `list_filter_out_accum`. -/
def listFilterOutAccum (excluded : List α) : List α → (accum : List α) → List α
  | [], accum => accum
  | head :: tail, accum =>
    let withHead := if listContains head excluded then accum else listAppend accum head
    listFilterOutAccum excluded tail withHead

/-- `list_filter_out`. -/
def listFilterOut (list excluded : List α) : List α := listFilterOutAccum excluded list []

/-- `init_graph_after::runnable_components`, to a depth of `fuel`; with whether an
assertion fired in one of the two sorts. -/
def runnableComponents (deps : α → List α) (fuel : ℕ) (roots satisfiedRoots : List α) :
    Option (Sorted α) := do
  let sortedComponents ← topoList deps fuel roots []
  let satisfiedComponents ← topoList deps fuel satisfiedRoots []
  pure ⟨listFilterOut sortedComponents.components satisfiedComponents.components,
    sortedComponents.asserted || satisfiedComponents.asserted⟩

/-! ## Leaving out -/

theorem listFilterOutAccum_eq (excluded : List α) : ∀ list accum,
    listFilterOutAccum excluded list accum
      = accum ++ list.filter (fun c => decide (c ∉ excluded)) := by
  intro list
  induction list with
  | nil => exact fun accum => (List.append_nil accum).symm
  | cons head tail ih =>
    intro accum
    rw [listFilterOutAccum, ih]
    by_cases hmem : head ∈ excluded
    · rw [if_pos ((listContains_iff head excluded).mpr hmem),
        List.filter_cons_of_neg (by simpa using hmem)]
    · rw [if_neg (fun h => hmem ((listContains_iff head excluded).mp h)),
        List.filter_cons_of_pos (by simpa using hmem), listAppend, List.append_assoc,
        List.singleton_append]

theorem listFilterOut_eq (list excluded : List α) :
    listFilterOut list excluded = list.filter (fun c => decide (c ∉ excluded)) := by
  rw [listFilterOut, listFilterOutAccum_eq, List.nil_append]

theorem mem_listFilterOut {list excluded : List α} {c : α} :
    c ∈ listFilterOut list excluded ↔ c ∈ list ∧ c ∉ excluded := by
  rw [listFilterOut_eq, List.mem_filter, decide_eq_true_eq]

/-- What is left of an ordered list is in order up to what was left out. -/
theorem Ordered.filterOut_before {deps : α → List α} {list : List α} (H : Ordered deps list)
    (excluded : List α) (front : List α) (c : α) (back : List α)
    (heq : listFilterOut list excluded = front ++ c :: back) :
    ∀ d ∈ deps c, d ∈ excluded ∨ d ∈ front := by
  intro d hd
  rw [listFilterOut_eq, List.filter_eq_append_iff] at heq
  obtain ⟨list₁, list₂, rfl, hfront, hback⟩ := heq
  obtain ⟨skipped, rest, rfl, hskipped, -, -⟩ := List.filter_eq_cons_iff.mp hback
  have hbefore : d ∈ list₁ ++ skipped :=
    H.before (list₁ ++ skipped) c rest (by rw [List.append_assoc]) d hd
  by_cases hexcl : d ∈ excluded
  · exact Or.inl hexcl
  · right
    rcases List.mem_append.mp hbefore with hmem | hmem
    · rw [← hfront]
      exact List.mem_filter.mpr ⟨hmem, decide_eq_true hexcl⟩
    · exact absurd (decide_eq_true hexcl) (hskipped d hmem)

/-! ## A run in which all succeed -/

section Running

variable {σ : Type}

/-- One of the two ways to run a list. -/
def IsRun (init : α → σ → Except InitError Unit × σ)
    (run : List α → World σ α → Bool × World σ α) : Prop :=
  run = runSilent init ∨ ∃ logger, run = runLogged init logger

omit [DecidableEq α] in
theorem runAll_succeeds {run : α → World σ α → Bool × World σ α} {l : List α}
    (hrun : ∀ c ∈ l, ∀ w, (run c w).1 = true ∧
      (run c w).2.calls = w.calls ++ [(c, .ok ())]) :
    ∀ w, (runAll run l w).1 = true ∧
      (runAll run l w).2.calls = w.calls ++ l.map (fun c => (c, .ok ())) := by
  induction l with
  | nil => exact fun w => ⟨rfl, (List.append_nil _).symm⟩
  | cons c cs ih =>
    intro w
    obtain ⟨htrue, hcalls⟩ := hrun c List.mem_cons_self w
    rw [runAll]
    rcases hc : run c w with ⟨b, w'⟩
    rw [hc] at htrue hcalls
    obtain rfl : b = true := htrue
    obtain ⟨htrue', hcalls'⟩ := ih (fun d hd => hrun d (List.mem_cons_of_mem c hd)) w'
    refine ⟨htrue', ?_⟩
    show (runAll run cs w').2.calls = _
    rw [hcalls', hcalls, List.append_assoc, List.singleton_append, List.map_cons]

omit [DecidableEq α] in
/-- With every `init` of the list returning Ok, each is called once in the list's order. -/
theorem IsRun.succeeds {init : α → σ → Except InitError Unit × σ}
    {run : List α → World σ α → Bool × World σ α} (hrun : IsRun init run) {l : List α}
    (hok : ∀ c ∈ l, ∀ s, (init c s).1 = .ok ()) (w : World σ α) :
    (run l w).1 = true ∧ (run l w).2.calls = w.calls ++ l.map (fun c => (c, .ok ())) := by
  rcases hrun with rfl | ⟨logger, rfl⟩
  · apply runAll_succeeds
    intro c hc w
    have hinit := hok c hc w.state
    unfold runComponentSilent callInit
    rcases hr : init c w.state with ⟨outcome, s'⟩
    rw [hr] at hinit
    obtain rfl : outcome = .ok () := hinit
    exact ⟨rfl, rfl⟩
  · apply runAll_succeeds
    intro c hc w
    have hinit := hok c hc (logger.begin c w.state)
    unfold runComponentLogged callInit
    dsimp only
    rcases hr : init c (logger.begin c w.state) with ⟨outcome, s'⟩
    rw [hr] at hinit
    obtain rfl : outcome = .ok () := hinit
    exact ⟨rfl, rfl⟩

end Running

/-! ## The missing part -/

/-- **`init_graph_after` runs what is missing.**  For every acyclic dependency relation
under which both lists of roots need finitely many components, both sorts end without an
assertion.  The runnable components are those that the roots need and the satisfied
roots do not, each once, and each dependency of one of them is needed by the satisfied
roots or stands before it.  When every `init` returns Ok, running the graph of the
satisfied roots and then this one initialises each component that either list needs once
and no other. -/
theorem init_graph_after_runs_missing (deps : α → List α) (roots satisfiedRoots : List α)
    (hroots : {c | Needed deps roots c}.Finite)
    (hsatisfied : {c | Needed deps satisfiedRoots c}.Finite)
    (hacyclic : ∀ c, Needed deps roots c ∨ Needed deps satisfiedRoots c →
      ¬ TransGen (Dep deps) c c) :
    ∃ satisfied runnable n,
      (∀ fuel ≥ n, topoList deps fuel satisfiedRoots [] = some ⟨satisfied, false⟩ ∧
        runnableComponents deps fuel roots satisfiedRoots = some ⟨runnable, false⟩) ∧
      runnable.Nodup ∧
      (∀ c, c ∈ runnable ↔ Needed deps roots c ∧ ¬ Needed deps satisfiedRoots c) ∧
      (∀ front c back, runnable = front ++ c :: back → ∀ d ∈ deps c,
        Needed deps satisfiedRoots d ∨ d ∈ front) ∧
      ∀ (σ : Type) (init : α → σ → Except InitError Unit × σ)
        (run runAfter : List α → World σ α → Bool × World σ α),
        IsRun init run → IsRun init runAfter →
        (∀ c, Needed deps roots c ∨ Needed deps satisfiedRoots c →
          ∀ s, (init c s).1 = .ok ()) →
        ∀ s, (run satisfied ⟨s, []⟩).1 = true ∧
          (runAfter runnable (run satisfied ⟨s, []⟩).2).1 = true ∧
          ∀ c,
            (Needed deps roots c ∨ Needed deps satisfiedRoots c →
              ((runAfter runnable (run satisfied ⟨s, []⟩).2).2.calls.map Prod.fst).count c
                = 1) ∧
            (¬ (Needed deps roots c ∨ Needed deps satisfiedRoots c) →
              c ∉ (runAfter runnable (run satisfied ⟨s, []⟩).2).2.calls.map Prod.fst) := by
  obtain ⟨r, ⟨n, hn⟩, hassert, hsorted⟩ := topoList_sorts deps roots hroots
  obtain ⟨r', ⟨n', hn'⟩, hassert', hsorted'⟩ := topoList_sorts deps satisfiedRoots hsatisfied
  have hr : r.asserted = false := by
    refine Bool.eq_false_of_not_eq_true (fun h => ?_)
    obtain ⟨c, hc, hcycle⟩ := hassert.mp h
    exact hacyclic c (Or.inl hc) hcycle
  have hr' : r'.asserted = false := by
    refine Bool.eq_false_of_not_eq_true (fun h => ?_)
    obtain ⟨c, hc, hcycle⟩ := hassert'.mp h
    exact hacyclic c (Or.inr hc) hcycle
  obtain ⟨H, hmem⟩ := hsorted hr
  obtain ⟨H', hmem'⟩ := hsorted' hr'
  rcases r with ⟨sorted, b⟩
  rcases r' with ⟨satisfied, b'⟩
  obtain rfl : b = false := hr
  obtain rfl : b' = false := hr'
  have hrunnable : ∀ c, c ∈ listFilterOut sorted satisfied ↔
      Needed deps roots c ∧ ¬ Needed deps satisfiedRoots c := by
    intro c
    rw [mem_listFilterOut, hmem c, hmem' c]
  have hnodup : (listFilterOut sorted satisfied).Nodup := by
    rw [listFilterOut_eq]
    exact H.nodup.filter _
  refine ⟨satisfied, listFilterOut sorted satisfied, max n n', ?_, hnodup, hrunnable, ?_, ?_⟩
  · intro fuel hfuel
    have hsat := hn' fuel (le_trans (le_max_right n n') hfuel)
    refine ⟨hsat, ?_⟩
    rw [runnableComponents, hn fuel (le_trans (le_max_left n n') hfuel), hsat]
    rfl
  · intro front c back heq d hd
    rcases H.filterOut_before satisfied front c back heq d hd with h | h
    · exact Or.inl ((hmem' d).mp h)
    · exact Or.inr h
  · intro σ init run runAfter hrun hrunAfter hok s
    obtain ⟨htrue, hcalls⟩ := hrun.succeeds
      (fun c hc => hok c (Or.inr ((hmem' c).mp hc))) ⟨s, []⟩
    obtain ⟨htrueAfter, hcallsAfter⟩ := hrunAfter.succeeds
      (fun c hc => hok c (Or.inl ((hrunnable c).mp hc).1)) (run satisfied ⟨s, []⟩).2
    have hall : (runAfter (listFilterOut sorted satisfied)
        (run satisfied ⟨s, []⟩).2).2.calls.map Prod.fst
          = satisfied ++ listFilterOut sorted satisfied := by
      have hfst : (Prod.fst ∘ fun c : α => (c, (.ok () : Except InitError Unit))) = id := by
        funext c
        rfl
      rw [hcallsAfter, hcalls, List.nil_append, List.map_append, List.map_map, List.map_map,
        hfst, List.map_id, List.map_id]
    have hcallsNodup : (satisfied ++ listFilterOut sorted satisfied).Nodup := by
      refine List.nodup_append.mpr ⟨H'.nodup, hnodup, ?_⟩
      rintro a ha b hb rfl
      exact ((hrunnable a).mp hb).2 ((hmem' a).mp ha)
    have hcalled : ∀ c, c ∈ satisfied ++ listFilterOut sorted satisfied ↔
        Needed deps roots c ∨ Needed deps satisfiedRoots c := by
      intro c
      rw [List.mem_append, hmem' c, hrunnable c]
      tauto
    refine ⟨htrue, htrueAfter, fun c => ?_⟩
    rw [hall]
    constructor
    · intro hc
      exact List.count_eq_one_of_mem hcallsNodup ((hcalled c).mpr hc)
    · intro hc hmemc
      exact hc ((hcalled c).mp hmemc)

/-- Early roots 3 and 1 share component 3 with the late root 0; what is left is 2 and 0. -/
theorem init_graph_after_runs_missing_shared :
    let deps : Fin 5 → List (Fin 5) := ![[1, 2], [3], [3, 1], [], [2]]
    (∃ satisfied runnable n,
      (∀ fuel ≥ n, topoList deps fuel [3, 1] [] = some ⟨satisfied, false⟩ ∧
        runnableComponents deps fuel [0] [3, 1] = some ⟨runnable, false⟩) ∧
      runnable.Nodup) ∧
      runnableComponents deps 9 [0] [3, 1] = some ⟨[2, 0], false⟩ := by
  intro deps
  -- a dependency always comes later in this order of the numbers
  let rank : Fin 5 → ℕ := ![3, 1, 2, 0, 4]
  have hrank : ∀ a b, Dep deps a b → rank b < rank a := by
    unfold Dep
    decide
  have hacyclic : ∀ c, ¬ TransGen (Dep deps) c c := by
    have hlt : ∀ a b, TransGen (Dep deps) a b → rank b < rank a := by
      intro a b hab
      induction hab with
      | single h => exact hrank _ _ h
      | tail _ h ih => exact lt_trans (hrank _ _ h) ih
    exact fun c hc => lt_irrefl _ (hlt c c hc)
  obtain ⟨satisfied, runnable, n, hsorts, hnodup, -⟩ := init_graph_after_runs_missing deps
    [0] [3, 1] (Set.toFinite _) (Set.toFinite _) (fun c _ => hacyclic c)
  exact ⟨⟨satisfied, runnable, n, hsorts, hnodup⟩, by decide⟩

end InitGraph

end DoomOs
