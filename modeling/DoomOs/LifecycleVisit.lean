/-
# Visiting the drivers

`visit` walks the dependencies of a driver depth first and brings the driver up once they
are up.  `Grows` says what a visit does to the marks: nodes that are being visited stay so,
and what is visited stays visited, also when the visit fails.  A visited driver is taken to be
up without a look at it, so entry points are called in order from a state where every visited
driver is up, and then it stays so.

The number of nodes not visited yet bounds the depth of the recursion, so `visit` always
returns.
-/
import DoomOs.LifecycleInvariant

namespace DoomOs

open Comp

namespace Lifecycle

variable {reg : Registry} {env : DriverEnv} {s s' s'' : Lifecycle} {i j : ℕ}

/-! ## What a visit does to the marks -/

/-- What a visit does to the marks. -/
structure Grows (s s' : Lifecycle) : Prop where
  same : SameNodes s s'
  visited : ∀ i, s.mark i = .visited → s'.mark i = .visited
  visiting : ∀ i, s'.mark i = .visiting ↔ s.mark i = .visiting
  fresh : ∀ i ∈ s'.initialized, i ∈ s.initialized ∨ s.mark i = .notVisited

theorem Grows.refl (s : Lifecycle) : Grows s s :=
  ⟨SameNodes.refl s, fun _ h => h, fun _ => Iff.rfl, fun _ h => Or.inl h⟩

theorem Grows.notVisited (h : Grows s s') (hi : s'.mark i = .notVisited) :
    s.mark i = .notVisited := by
  cases hm : s.mark i with
  | notVisited => rfl
  | visiting =>
    rw [(h.visiting i).mpr hm] at hi
    cases hi
  | visited =>
    rw [h.visited i hm] at hi
    cases hi

theorem Grows.trans (h : Grows s s') (h' : Grows s' s'') : Grows s s'' := by
  refine ⟨h.same.trans h'.same, fun i hi => h'.visited i (h.visited i hi),
    fun i => (h'.visiting i).trans (h.visiting i), fun i hi => ?_⟩
  rcases h'.fresh i hi with hin | hnot
  · exact h.fresh i hin
  · exact Or.inr (h.notVisited hnot)

/-- The nodes that have not been visited. -/
def unvisited (s : Lifecycle) : Finset ℕ :=
  (Finset.range s.nodeCount).filter fun i => s.mark i = .notVisited

theorem mem_unvisited : i ∈ s.unvisited ↔ i < s.nodeCount ∧ s.mark i = .notVisited := by
  rw [unvisited, Finset.mem_filter, Finset.mem_range]

theorem Grows.card_le (h : Grows s s') : s'.unvisited.card ≤ s.unvisited.card := by
  refine Finset.card_le_card (fun i hi => ?_)
  rw [mem_unvisited] at hi ⊢
  exact ⟨h.same.count ▸ hi.1, h.notVisited hi.2⟩

/-! ## The walk -/

/-- What every part of the walk does, also when it fails. -/
structure Walked (reg : Registry) (env : DriverEnv) (s s' : Lifecycle) : Prop where
  good : Good reg env s'
  grows : Grows s s'
  settled : Settled s → Settled s'
  ordered : Ordered reg s s'

theorem Walked.refl (H : Good reg env s) : Walked reg env s s :=
  ⟨H, Grows.refl s, fun hs => hs, ordered_of_eq rfl⟩

theorem Walked.trans (h : Walked reg env s s') (h' : Walked reg env s' s'') :
    Walked reg env s s'' :=
  ⟨h'.good, h.grows.trans h'.grows, fun hs => h'.settled (h.settled hs),
    h.ordered.trans h.settled h'.ordered⟩

/-- A driver of this name has been visited. -/
def Up (s : Lifecycle) (n : Option String) : Prop :=
  ∃ j < s.nodeCount, s.name j = n ∧ s.mark j = .visited

theorem Up.grows {n : Option String} (h : Up s n) (hg : Grows s s') : Up s' n := by
  obtain ⟨j, hj, hname, hmark⟩ := h
  exact ⟨j, hg.same.count ▸ hj, (hg.same.name j).trans hname, hg.visited j hmark⟩

/-- What `visit` promises while fewer than `n` nodes have not been visited. -/
def Visits (reg : Registry) (env : DriverEnv) (n : ℕ)
    (visit : ℕ → Comp LifecycleFault DriverError Lifecycle Unit) : Prop :=
  ∀ s i, Good reg env s → s.built = true → i < s.nodeCount →
    s.unvisited.card < n → ((visit i).run s).Sat
      (fun _ s' => Walked reg env s s' ∧ s'.mark i = .visited) (fun _ s' => Walked reg env s s')

/-- All providers of a capability are up, and there is one. -/
def ProvidersUp (reg : Registry) (s : Lifecycle) (key : Option CapabilityKey) : Prop :=
  (∀ p ∈ reg.provideRecords, sameCapability p.capability (capabilityName key) = true →
    Up s (driverName p.driver)) ∧
  ∃ p ∈ reg.provideRecords, sameCapability p.capability (capabilityName key) = true

section Loops

variable {n : ℕ} {visit : ℕ → Comp LifecycleFault DriverError Lifecycle Unit}
  (hvisit : Visits reg env n visit) (H : Good reg env s) (hb : s.built = true)
  (hcard : s.unvisited.card < n)
include hvisit H hb hcard

/-- Looking up one node after the other and visiting it. -/
theorem visitEach_sat {ι : Type} (key : ι → Option String) (er : DriverError) (xs : List ι) :
    ((forEach (fun x => do
      match ← gets fun s => s.findNode (key x) with
      | none => fail er
      | some j => visit j) xs : Comp LifecycleFault DriverError Lifecycle Unit).run s).Sat
      (fun _ s' => Walked reg env s s' ∧ ∀ x ∈ xs, Up s' (key x))
      (fun _ s' => Walked reg env s s') := by
  refine sat_forEach (I := fun front s' => Walked reg env s s' ∧ ∀ x ∈ front, Up s' (key x))
    (fun front x back s₁ _ hI => ?_) ⟨Walked.refl H, fun x hx => by cases hx⟩
  obtain ⟨hw, hup⟩ := hI
  rw [run_gets_bind]
  cases hfind : s₁.findNode (key x) with
  | none => exact hw
  | some j =>
    obtain ⟨hj, hname⟩ := findNode_some hfind
    refine (hvisit s₁ j hw.good (hw.grows.same.built.trans hb) hj
      (lt_of_le_of_lt hw.grows.card_le hcard)).mono (fun _ s₂ h₂ => ?_) (fun _ s₂ h₂ => hw.trans h₂)
    obtain ⟨hw₂, hmark⟩ := h₂
    refine ⟨hw.trans hw₂, fun y hy => ?_⟩
    rcases List.mem_append.mp hy with hy | hy
    · exact (hup y hy).grows hw₂.grows
    · rw [List.mem_singleton.mp hy]
      exact ⟨j, hw₂.grows.same.count ▸ hj, (hw₂.grows.same.name j).trans hname, hmark⟩

theorem visitCapabilityProviders_sat (key : Option CapabilityKey) :
    ((visitCapabilityProviders reg visit key).run s).Sat
      (fun _ s' => Walked reg env s s' ∧ ProvidersUp reg s' key)
      (fun _ s' => Walked reg env s s') := by
  rw [visitCapabilityProviders, sat_bind, validateProviderCount]
  by_cases hmany : key.map CapabilityKey.multiplicity = some .single ∧
    providerRecordCount reg key > 1
  · rw [if_pos hmany]
    exact Walked.refl H
  rw [if_neg hmany, Comp.run_pure, Outcome.sat_ok, sat_bind]
  refine (visitEach_sat hvisit H hb hcard (fun p : ProvideRecord => driverName p.driver)
    .unknownDriver _).mono (fun _ s₁ h₁ => ?_) (fun _ _ h => h)
  obtain ⟨hw, hup⟩ := h₁
  by_cases hnone : providerRecordCount reg key = 0
  · rw [if_pos hnone]
    exact hw
  · rw [if_neg hnone]
    refine ⟨hw, fun p hp hsame => hup p (List.mem_filter.mpr ⟨hp, hsame⟩), ?_⟩
    rw [providerRecordCount, List.countP_eq_zero] at hnone
    simp only [not_forall, not_not] at hnone
    obtain ⟨p, hp, hsame⟩ := hnone
    exact ⟨p, hp, hsame⟩

theorem visitDriverDependencies_sat (i : ℕ) :
    ((visitDriverDependencies reg visit i).run s).Sat
      (fun _ s' => Walked reg env s s' ∧ ∀ r ∈ reg.requireDriverRecords,
        driverName r.driver = s.name i → Up s' r.dependencyName)
      (fun _ s' => Walked reg env s s') := by
  rw [visitDriverDependencies, run_gets_bind]
  refine (visitEach_sat hvisit H hb hcard (fun r : RequireDriverRecord => r.dependencyName)
    .unknownDriverDependency _).mono (fun _ s₁ h₁ => ⟨h₁.1, fun r hr hname => ?_⟩) (fun _ _ h => h)
  exact h₁.2 r (List.mem_filter.mpr ⟨hr, decide_eq_true hname⟩)

theorem visitCapabilityDependencies_sat (i : ℕ) :
    ((visitCapabilityDependencies reg visit i).run s).Sat
      (fun _ s' => Walked reg env s s' ∧ ∀ r ∈ reg.requireCapabilityRecords,
        driverName r.driver = s.name i → ProvidersUp reg s' r.capability)
      (fun _ s' => Walked reg env s s') := by
  rw [visitCapabilityDependencies, run_gets_bind]
  refine Outcome.Sat.mono (sat_forEach (I := fun front s' => Walked reg env s s' ∧
    ∀ r ∈ front, ProvidersUp reg s' r.capability) (E := fun _ s' => Walked reg env s s')
    (fun front r back s₁ _ hI => ?_) ⟨Walked.refl H, fun r hr => by cases hr⟩)
    (fun _ s₁ h₁ => ⟨h₁.1, fun r hr hname => ?_⟩) (fun _ _ h => h)
  · obtain ⟨hw, hup⟩ := hI
    refine (visitCapabilityProviders_sat hvisit hw.good (hw.grows.same.built.trans hb)
      (lt_of_le_of_lt hw.grows.card_le hcard) r.capability).mono (fun _ s₂ h₂ => ?_)
      (fun _ s₂ h₂ => hw.trans h₂)
    obtain ⟨hw₂, hproviders⟩ := h₂
    refine ⟨hw.trans hw₂, fun r' hr' => ?_⟩
    rcases List.mem_append.mp hr' with hr' | hr'
    · obtain ⟨hall, hone⟩ := hup r' hr'
      exact ⟨fun p hp hsame => (hall p hp hsame).grows hw₂.grows, hone⟩
    · rw [List.mem_singleton.mp hr']
      exact hproviders
  · exact h₁.2 r (List.mem_filter.mpr ⟨hr, decide_eq_true hname⟩)

end Loops

/-- Once the dependencies have been visited, the driver can be run. -/
theorem ready_of_up (H : Good reg env s) (hs : Settled s)
    (hdrivers : ∀ r ∈ reg.requireDriverRecords, driverName r.driver = s.name i →
      Up s r.dependencyName)
    (hproviders : ∀ r ∈ reg.requireCapabilityRecords, driverName r.driver = s.name i →
      ProvidersUp reg s r.capability) : Ready reg s i := by
  have hup : ∀ n, Up s n → ∃ j ∈ s.initialized, s.name j = n := by
    rintro n ⟨j, hj, hname, hmark⟩
    exact ⟨j, (H.flag j).mp (hs j hj hmark), hname⟩
  refine ⟨fun r hr hd => hup _ (hdrivers r hr hd),
    fun r hr hd p hp hc => hup _ ((hproviders r hr hd).1 p hp hc), fun r hr hd => ?_⟩
  -- a provider is up, so its records are registered
  obtain ⟨hall, p, hp, hsame⟩ := hproviders r hr hd
  obtain ⟨j, hj, hname⟩ := hup _ (hall p hp hsame)
  obtain ⟨c, hc, hkey⟩ := H.covered j hj p hp hname.symm
  rw [findCapability, ne_eq, Option.map_eq_none_iff, List.find?_eq_none]
  intro hno
  refine hno c hc ?_
  rw [hkey]
  exact hsame

/-- When both kinds of dependencies have been visited, one after the other, the driver can be
run. -/
theorem Walked.ready {s₁ s₂ : Lifecycle} (h₁ : Walked reg env s s₁) (h₂ : Walked reg env s₁ s₂)
    (hdrivers : ∀ r ∈ reg.requireDriverRecords, driverName r.driver = s.name i →
      Up s₁ r.dependencyName)
    (hproviders : ∀ r ∈ reg.requireCapabilityRecords, driverName r.driver = s₁.name i →
      ProvidersUp reg s₂ r.capability) (hs : Settled s₂) : Ready reg s₂ i := by
  have hname₁ := h₁.grows.same.name i
  have hname₂ := (h₁.trans h₂).grows.same.name i
  refine ready_of_up h₂.good hs (fun r hr hd => ?_) (fun r hr hd => ?_)
  · exact (hdrivers r hr (hd.trans hname₂)).grows h₂.grows
  · exact hproviders r hr (hd.trans (hname₂.trans hname₁.symm))

/-! ## Visiting a node -/

theorem Ran.refl (s : Lifecycle) : Ran s s [] :=
  ⟨SameNodes.refl s, fun _ => rfl, (List.append_nil _).symm⟩

theorem orUnmark_sat {x : Comp LifecycleFault DriverError Lifecycle Unit}
    {Q : Unit → Lifecycle → Prop} {E : DriverError → Lifecycle → Prop} :
    ((orUnmark i x).run s).Sat Q E ↔
      (x.run s).Sat Q (fun e s' => E e (s'.withMark i .notVisited)) := by
  rw [orUnmark, sat_bind, sat_attempt]
  rfl

/-- Between taking up a node and leaving it, nothing but its own mark is lost sight of. -/
theorem Grows.leave {up : List ℕ} {v : VisitState} (hi : s.mark i = .notVisited)
    (h : Grows (s.withMark i .visiting) s') (hran : Ran s' s'' up) (hup : ∀ j ∈ up, j = i)
    (hv : v ≠ .visiting) : Grows s (s''.withMark i v) := by
  have hmark : ∀ j, j ≠ i → (s''.withMark i v).mark j = s'.mark j := by
    intro j hne
    rw [mark_withMark, if_neg hne, hran.mark]
  have hmark₀ : ∀ j, j ≠ i → (s.withMark i .visiting).mark j = s.mark j := by
    intro j hne
    rw [mark_withMark, if_neg hne]
  refine ⟨(((sameNodes_withMark s i _).trans h.same).trans hran.same).trans
    (sameNodes_withMark s'' i v), fun j hj => ?_, fun j => ?_, fun j hj => ?_⟩
  · have hne : j ≠ i := by
      rintro rfl
      rw [hi] at hj
      cases hj
    rw [hmark j hne]
    exact h.visited j ((hmark₀ j hne).trans hj)
  · rcases eq_or_ne j i with rfl | hne
    · rw [mark_withMark, if_pos rfl, hi]
      exact ⟨fun heq => absurd heq hv, fun heq => by cases heq⟩
    · rw [hmark j hne, h.visiting, hmark₀ j hne]
  · rcases eq_or_ne j i with rfl | hne
    · exact Or.inr hi
    · have hj' : j ∈ s'.initialized := by
        have hmem : j ∈ s''.initialized := hj
        rw [hran.initialized] at hmem
        rcases List.mem_append.mp hmem with hmem | hmem
        · exact hmem
        · exact absurd (hup j hmem) hne
      rcases h.fresh j hj' with hin | hnot
      · exact Or.inl hin
      · exact Or.inr ((hmark₀ j hne).symm.trans hnot)

/-- Leaving a node with the mark that says whether its driver is up. -/
theorem Walked.leave {up : List ℕ} {v : VisitState} (hb : s.built = true)
    (hi : s.mark i = .notVisited) (h : Walked reg env (s.withMark i .visiting) s')
    (hran : Ran s' s'' up) (hup : ∀ j ∈ up, j = i) (H : Good reg env s'')
    (hord : Ordered reg s' s'') (hv : v ≠ .visiting) (hin : i ∈ s''.initialized ↔ v = .visited) :
    Walked reg env s (s''.withMark i v) := by
  have hb' : s''.built = true :=
    (hran.same.built.trans h.grows.same.built).trans hb
  have hset : Settled s → Settled (s.withMark i .visiting) :=
    fun hs => hs.withMark (fun heq => by cases heq)
  have hmark : i ∈ s''.initialized → v ≠ .notVisited := by
    intro hmem
    rw [hin.mp hmem]
    exact fun heq => by cases heq
  refine ⟨H.withMark hb' hmark, h.grows.leave hi hran hup hv, fun hs => ?_, fun hs c hc => ?_⟩
  · exact ((h.settled (hset hs)).ran h.good H hran).withMark
      (fun heq => (H.flag i).mpr (hin.mpr heq))
  · exact (h.ordered.trans h.settled hord) (hset hs) c hc

/-- Taking the mark back after a failure. -/
theorem Walked.unmark (hb : s.built = true) (hi : s.mark i = .notVisited)
    (h : Walked reg env (s.withMark i .visiting) s') (hran : Ran s' s'' [])
    (H : Good reg env s'') (hord : Ordered reg s' s'') (hnot : i ∉ s'.initialized) :
    Walked reg env s (s''.withMark i .notVisited) := by
  refine h.leave hb hi hran (fun j hj => by cases hj) H hord (fun heq => by cases heq)
    ⟨fun hmem => ?_, fun heq => by cases heq⟩
  rw [hran.initialized, List.append_nil] at hmem
  exact absurd hmem hnot

/-- A node that is being visited is not brought up meanwhile. -/
theorem Grows.not_mem_of_visiting (h : Grows (s.withMark i .visiting) s')
    (hnot : i ∉ s.initialized) : i ∉ s'.initialized := by
  intro hin
  rcases h.fresh i hin with hin | hmark
  · exact hnot hin
  · rw [mark_withMark, if_pos rfl] at hmark
    cases hmark

theorem card_unvisited_withMark (hi : i < s.nodeCount) (hm : s.mark i = .notVisited) :
    (s.withMark i .visiting).unvisited.card + 1 = s.unvisited.card := by
  have herase : (s.withMark i .visiting).unvisited = s.unvisited.erase i := by
    ext j
    rw [Finset.mem_erase, mem_unvisited, mem_unvisited, mark_withMark]
    rcases eq_or_ne j i with rfl | hne
    · simp
    · rw [if_neg hne]
      exact ⟨fun h => ⟨hne, h⟩, fun h => h.2⟩
  rw [herase]
  exact Finset.card_erase_add_one (mem_unvisited.mpr ⟨hi, hm⟩)

/-- **The body of `visit`** keeps the promise for one more node, when the visits of the
dependencies keep it. -/
theorem visitNode_visits {n : ℕ} {visit : ℕ → Comp LifecycleFault DriverError Lifecycle Unit}
    (hvisit : Visits reg env n visit) : Visits reg env (n + 1) (visitNode reg env visit) := by
  intro s i H hb hi hcard
  rw [visitNode, run_gets_bind]
  cases hm : s.mark i with
  | visited =>
    rw [show (s.nodes i).visit = .visited from hm]
    exact ⟨Walked.refl H, hm⟩
  | visiting =>
    rw [show (s.nodes i).visit = .visiting from hm]
    exact Walked.refl H
  | notVisited =>
    have hnot : i ∉ s.initialized := fun hin => H.marked i hin hm
    have H₀ : Good reg env (s.withMark i .visiting) :=
      H.withMark hb (fun _ heq => by cases heq)
    have hcard₀ : (s.withMark i .visiting).unvisited.card < n := by
      have := card_unvisited_withMark hi hm
      omega
    rw [show (s.nodes i).visit = .notVisited from hm]
    dsimp only
    rw [sat_bind, setVisit_run, Outcome.sat_ok, sat_bind, orUnmark_sat]
    refine (visitDriverDependencies_sat hvisit H₀ hb hcard₀ i).mono (fun _ s₁ h₁ => ?_)
      (fun _ s₁ h₁ => h₁.unmark hb hm (Ran.refl s₁) h₁.good (ordered_of_eq rfl)
        (h₁.grows.not_mem_of_visiting hnot))
    obtain ⟨hw₁, hdrivers⟩ := h₁
    rw [sat_bind, orUnmark_sat]
    refine (visitCapabilityDependencies_sat hvisit hw₁.good (hw₁.grows.same.built.trans hb)
      (lt_of_le_of_lt hw₁.grows.card_le hcard₀) i).mono (fun _ s₂ h₂ => ?_) (fun _ s₂ h₂ => ?_)
    · -- the dependencies have been visited, and the node is still being visited
      obtain ⟨hw₂, hproviders⟩ := h₂
      have hw := hw₁.trans hw₂
      have hnot₂ := hw.grows.not_mem_of_visiting hnot
      have hmark₂ : s₂.mark i = .visiting := by
        rw [hw.grows.visiting, mark_withMark, if_pos rfl]
      have hready : Settled s₂ → Ready reg s₂ i := hw₁.ready hw₂ hdrivers hproviders
      have hi₂ : i < s₂.nodeCount := hw.grows.same.count ▸ hi
      rw [sat_bind, orUnmark_sat]
      refine (runDriver_sat hw₂.good (hw.grows.same.built.trans hb) hi₂ hnot₂
        (fun heq => by rw [hmark₂] at heq; cases heq) hready).mono (fun _ s₃ h₃ => ?_)
        (fun _ s₃ h₃ => hw.unmark hb hm h₃.2.1 h₃.1 h₃.2.2 hnot₂)
      obtain ⟨H₃, hran, hord⟩ := h₃
      have hin : i ∈ s₃.initialized := by
        rw [hran.initialized]
        exact List.mem_append_right _ (List.mem_singleton_self i)
      rw [setVisit_run, Outcome.sat_ok]
      refine ⟨hw.leave hb hm hran (fun j hj => List.mem_singleton.mp hj) H₃ hord
        (fun heq => by cases heq) ⟨fun _ => rfl, fun _ => hin⟩, ?_⟩
      rw [mark_withMark, if_pos rfl]
    · have hw := hw₁.trans h₂
      exact hw.unmark hb hm (Ran.refl s₂) h₂.good (ordered_of_eq rfl)
        (hw.grows.not_mem_of_visiting hnot)

/-- **Visits terminate** within the number of unvisited nodes, and bring a driver up only
after what it depends on. -/
theorem visit_visits : ∀ n, Visits reg env n (visit reg env n)
  | 0 => fun _ _ _ _ _ hcard => absurd hcard (Nat.not_lt_zero _)
  | n + 1 => visitNode_visits (visit_visits n)

end Lifecycle

end DoomOs
