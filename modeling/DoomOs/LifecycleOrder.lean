/-
# The order of the drivers

`visit` carries no list of what it is in the middle of: the marks on the nodes are all there
is.  `PathTo` says what they mean, that every node being visited depends on the driver asked
for, so that meeting one of them again closes a cycle.  `Ranked` says what the walk leaves
behind, the drivers that are up in an order in which dependencies come first, also after a
walk that failed.

The two together decide when `init_all` reports a cycle, and in what order `exit_all` takes
the drivers down.
-/
import DoomOs.Arranged
import DoomOs.LifecycleRegistry

namespace DoomOs

open Comp Relation

/-- One driver depends on another: by name, or because it needs a capability that the other
provides. -/
def Registry.DependsOn (reg : Registry) (a b : Option String) : Prop :=
  (∃ r ∈ reg.requireDriverRecords, driverName r.driver = a ∧ r.dependencyName = b) ∨
    ∃ r ∈ reg.requireCapabilityRecords, driverName r.driver = a ∧
      ∃ p ∈ reg.provideRecords,
        sameCapability p.capability (capabilityName r.capability) = true ∧ driverName p.driver = b

namespace Lifecycle

variable {reg : Registry} {env : DriverEnv} {s s' s'' : Lifecycle} {i j : ℕ}

/-! ## What is up -/

/-- The drivers that are up come after all they depend on. -/
def Ranked (reg : Registry) (s : Lifecycle) : Prop :=
  Arranged reg.DependsOn (s.initialized.map s.name)

theorem SameNodes.names (hs : SameNodes s s') (hi : s'.initialized = s.initialized) :
    s'.initialized.map s'.name = s.initialized.map s.name := by
  rw [hi]
  exact List.map_congr_left fun j _ => hs.name j

theorem Ranked.congr (h : Ranked reg s) (hs : SameNodes s s')
    (hi : s'.initialized = s.initialized) : Ranked reg s' := by
  rw [Ranked, hs.names hi]
  exact h

theorem Ready.dependsOn (h : Ready reg s i) {n : Option String}
    (hn : reg.DependsOn (s.name i) n) : n ∈ s.initialized.map s.name := by
  rcases hn with ⟨r, hr, hd, rfl⟩ | ⟨r, hr, hd, p, hp, hsame, rfl⟩
  · obtain ⟨j, hj, hname⟩ := h.drivers r hr hd
    exact List.mem_map.mpr ⟨j, hj, hname⟩
  · obtain ⟨j, hj, hname⟩ := h.providers r hr hd p hp hsame
    exact List.mem_map.mpr ⟨j, hj, hname⟩

/-- A driver that comes up when what it needs is up keeps the order. -/
theorem Ranked.bringUp (h : Ranked reg s)
    (hneeds : ∀ n, reg.DependsOn (s.name i) n → n ∈ s.initialized.map s.name) :
    Ranked reg (s.bringUp i) := by
  have hmap : (s.bringUp i).initialized.map (s.bringUp i).name
      = s.initialized.map s.name ++ [s.name i] := by
    rw [show (s.bringUp i).initialized = s.initialized ++ [i] from rfl, List.map_append,
      List.map_singleton, (sameNodes_bringUp s i).name]
    congr 1
    exact List.map_congr_left fun j _ => (sameNodes_bringUp s i).name j
  rw [Ranked, hmap]
  exact h.snoc hneeds

/-- The names of the drivers that are up are different. -/
theorem Good.names_nodup (H : Good reg env s) : (s.initialized.map s.name).Nodup := by
  refine H.nodup.map_on (fun i hi j hj heq => ?_)
  cases hb : s.built with
  | false => exact absurd (H.blank hb i) (H.marked i hi)
  | true => exact (H.valid hb).distinct i (H.lt i hi) j (H.lt j hj) heq

/-! ## Walks on which nothing else goes wrong -/

/-- Nothing but a cycle can stop the walk: the registry is accepted, entry points and resolvers
succeed, and there is room for all capabilities. -/
structure Healthy (reg : Registry) (env : DriverEnv) (s : Lifecycle) : Prop where
  accepted : reg.Accepted
  inits : ∀ i f, (s.nodes i).init = some f → ∀ k, env.init f k = .ok ()
  resolves : ∀ r ∈ reg.provideRecords, ∀ f, r.resolve = some f → ∀ k, env.resolve f k ≠ none
  room : reg.provideRecords.length ≤ maxRegisteredCapabilities
  belongs : Belongs s

theorem Healthy.congr (h : Healthy reg env s)
    (hinit : ∀ j, (s'.nodes j).init = (s.nodes j).init) (hbel : Belongs s') :
    Healthy reg env s' :=
  ⟨h.accepted, fun j f hf => h.inits j f ((hinit j).symm.trans hf), h.resolves, h.room, hbel⟩

theorem Healthy.withMark (h : Healthy reg env s) (i : ℕ) (v : VisitState) :
    Healthy reg env (s.withMark i v) := by
  refine h.congr (fun j => ?_) ((belongs_congr (sameNodes_withMark s i v) rfl rfl).mpr h.belongs)
  exact field_setNode DriverNode.init s i { s.nodes i with visit := v } rfl j

section Run

variable (H : Good reg env s) (hb : s.built = true) (hi : i < s.nodeCount)
  (hnot : i ∉ s.initialized)
include H hb hi hnot

/-- There are at least as many records as there are entries in the table and records still to
be registered for a driver. -/
theorem Good.length_records_le (hbel : Belongs s) :
    s.capabilities.length + (recordsOf reg (s.name i)).length ≤ reg.provideRecords.length := by
  have hsub : s.capabilities.map RegisteredCapability.record
      ++ (recordsOf reg (s.name i)).map Prod.snd ⊆ List.range reg.provideRecords.length := by
    intro k hk
    rw [List.mem_range]
    rcases List.mem_append.mp hk with hk | hk
    · obtain ⟨c, hc, rfl⟩ := List.mem_map.mp hk
      obtain ⟨r, hget, -⟩ := H.source c hc
      exact (List.getElem?_eq_some_iff.mp hget).1
    · obtain ⟨r, hr, rfl⟩ := List.mem_map.mp hk
      exact (List.getElem?_eq_some_iff.mp (mem_recordsOf.mp hr).1).1
  have hle := ((H.records_nodup hb hi hnot hbel).subperm hsub).length_le
  rw [List.length_append, List.length_map, List.length_map, List.length_range] at hle
  exact hle

/-- No record of the driver fails to be registered. -/
theorem Healthy.registers (h : Healthy reg env s) {front back : List (ProvideRecord × ℕ)}
    {x : ProvideRecord × ℕ} (hsplit : recordsOf reg (s.name i) = front ++ x :: back)
    (calls : ℕ) : Registers env x calls (s.capabilities.length + front.length) := by
  have hx : x.1 ∈ reg.provideRecords := by
    have hmem : x ∈ recordsOf reg (s.name i) := by
      rw [hsplit]
      exact List.mem_append_right _ List.mem_cons_self
    exact List.mem_of_getElem? (mem_recordsOf.mp hmem).1
  refine ⟨?_, ?_⟩
  · obtain ⟨f, hf⟩ := Option.ne_none_iff_exists'.mp (h.accepted.provides x.1 hx).resolve
    rw [hf, Option.bind_some]
    exact h.resolves x.1 hx f hf calls
  · have hle := H.length_records_le hb hi hnot h.belongs
    rw [hsplit, List.length_append, List.length_cons] at hle
    have hroom := h.room
    omega

theorem registerCapabilities_fails :
    ((registerCapabilities reg env i).run s).Sat (fun _ _ => True)
      (fun _ _ => ¬ Healthy reg env s) := by
  rw [registerCapabilities, run_gets_bind, run_modify_bind]
  refine (registerAll_sat _ _ _).mono (fun _ _ _ => trivial) (fun _ s₁ h₁ hhealthy => ?_)
  obtain ⟨front, x, back, entries, hsplit, -, -, -, hfail⟩ := h₁
  exact hfail (hhealthy.registers H hb hi hnot hsplit _)

/-- Registering the capabilities of a driver and bringing it up, in order. -/
theorem register_follows (hready : Ready reg s i) (hranked : Ranked reg s) :
    ((registerCapabilities reg env i >>= fun _ => markInitialized i).run s).Sat
      (fun _ s' => Ranked reg s' ∧ (Healthy reg env s → Healthy reg env s'))
      (fun _ s' => Ranked reg s' ∧ ¬ Healthy reg env s) := by
  rw [sat_bind]
  refine ((registerCapabilities_sat i s).and
    (registerCapabilities_fails H hb hi hnot)).mono (fun _ s₁ h₁ => ?_) (fun _ s₁ h₁ => ?_)
  · obtain ⟨⟨entries, hentries, hreg, -⟩, -⟩ := h₁
    have hroom : s₁.initialized.length < maxDrivers := by
      rw [hreg.initialized]
      exact H.length_lt hb hi hnot
    rw [markInitialized_run hroom]
    refine ⟨(hranked.congr hreg.sameNodes hreg.initialized).bringUp (fun n hn => ?_),
      fun h => h.congr (fun j => ?_) ((belongs_bringUp H hb hi hnot hentries hreg).mpr h.belongs)⟩
    · rw [hreg.sameNodes.name] at hn
      rw [hreg.sameNodes.names hreg.initialized]
      exact hready.dependsOn hn
    · have hfield := field_setNode DriverNode.init s₁ i
        { s₁.nodes i with initialized := true } rfl j
      rw [← hreg.nodes]
      exact hfield
  · obtain ⟨⟨front, entries, -, -, hreg, -⟩, hfails⟩ := h₁
    exact ⟨hranked.congr hreg.sameNodes hreg.initialized, hfails⟩

/-- **Running a driver**, in order. -/
theorem runDriver_follows (hready : Ready reg s i) (hranked : Ranked reg s) :
    ((runDriver reg env i).run s).Sat
      (fun _ s' => Ranked reg s' ∧ (Healthy reg env s → Healthy reg env s'))
      (fun _ s' => Ranked reg s' ∧ ¬ Healthy reg env s) := by
  rw [runDriver, run_gets_bind]
  cases hinit : (s.nodes i).init with
  | none => exact register_follows H hb hi hnot hready hranked
  | some f =>
    have hsame : SameNodes s (s.recordCall i) := ⟨rfl, rfl, rfl, fun _ => rfl⟩
    have hranked₁ : Ranked reg (s.recordCall i) := hranked.congr hsame rfl
    have hhealthy : Healthy reg env s → Healthy reg env (s.recordCall i) := fun h =>
      h.congr (fun _ => rfl) ((belongs_congr hsame rfl rfl).mpr h.belongs)
    dsimp only
    rw [sat_bind, callInit, run_gets_bind, run_modify_bind]
    cases henv : env.init f s.calls with
    | error e =>
      refine ⟨hranked₁, fun h => ?_⟩
      rw [h.inits i f hinit] at henv
      cases henv
    | ok _ =>
      refine (register_follows (H.recordCall i) hb hi hnot hready hranked₁).mono
        (fun _ _ h => ⟨h.1, fun hs => h.2 (hhealthy hs)⟩)
        (fun _ _ h => ⟨h.1, fun hs => h.2 (hhealthy hs)⟩)

end Run

/-! ## Paths -/

/-- All that is being visited depends on this driver. -/
def PathTo (reg : Registry) (s : Lifecycle) (n : Option String) : Prop :=
  ∀ j, s.mark j = .visiting → TransGen reg.DependsOn (s.name j) n

theorem PathTo.grows {n : Option String} (h : PathTo reg s n) (hg : Grows s s') :
    PathTo reg s' n := by
  intro j hj
  rw [hg.same.name]
  exact h j ((hg.visiting j).mp hj)

/-- When a node is taken up, the paths to it go on to all it depends on. -/
theorem PathTo.enter {n : Option String} (h : PathTo reg s (s.name i))
    (hn : reg.DependsOn (s.name i) n) : PathTo reg (s.withMark i .visiting) n := by
  intro j hj
  rw [(sameNodes_withMark s i .visiting).name]
  rw [mark_withMark] at hj
  split_ifs at hj with heq
  · rw [heq]
    exact .single hn
  · exact (h j hj).tail hn

/-- The error reports a cycle, and there is one. -/
def Cyclic (reg : Registry) (e : DriverError) : Prop :=
  e = .dependencyCycle ∧ ∃ n, TransGen reg.DependsOn n n

/-- What the walk needs of a state, and leaves behind. -/
structure Steady (reg : Registry) (env : DriverEnv) (s : Lifecycle) : Prop where
  good : Good reg env s
  built : s.built = true
  settled : Settled s
  ranked : Ranked reg s

theorem Walked.steady (h : Walked reg env s s') (H : Steady reg env s) (hr : Ranked reg s') :
    Steady reg env s' :=
  ⟨h.good, h.grows.same.built.trans H.built, h.settled H.settled, hr⟩

/-- What a visit promises about order and cycles, while fewer than `n` nodes have not been
visited. -/
def Follows (reg : Registry) (env : DriverEnv) (n : ℕ)
    (visit : ℕ → Comp LifecycleFault DriverError Lifecycle Unit) : Prop :=
  ∀ s i, Steady reg env s → i < s.nodeCount → s.unvisited.card < n → ((visit i).run s).Sat
    (fun _ s' => Ranked reg s' ∧ (Healthy reg env s → Healthy reg env s'))
    (fun e s' => Ranked reg s' ∧
      (Healthy reg env s → PathTo reg s (s.name i) → Cyclic reg e))

section Loops

variable {n : ℕ} {visit : ℕ → Comp LifecycleFault DriverError Lifecycle Unit}
  (hvisit : Visits reg env n visit) (hfollows : Follows reg env n visit)
  (H : Steady reg env s) (hcard : s.unvisited.card < n)
include hvisit hfollows H hcard

/-- Looking up one node after the other and visiting it. -/
theorem visitEach_follows {ι : Type} (key : ι → Option String) (er : DriverError) (xs : List ι) :
    ((forEach (fun x => do
      match ← gets fun s => s.findNode (key x) with
      | none => fail er
      | some j => visit j) xs : Comp LifecycleFault DriverError Lifecycle Unit).run s).Sat
      (fun _ s' => Ranked reg s' ∧ (Healthy reg env s → Healthy reg env s'))
      (fun e s' => Ranked reg s' ∧ (Healthy reg env s →
        (∀ x ∈ xs, reg.Known (key x) ∧ PathTo reg s (key x)) → Cyclic reg e)) := by
  refine Outcome.Sat.mono (sat_forEach (I := fun front s' => Walked reg env s s' ∧ Ranked reg s' ∧
    (Healthy reg env s → Healthy reg env s')) (fun front x back s₁ hsplit hI => ?_)
    ⟨Walked.refl H.good, H.ranked, fun h => h⟩) (fun _ _ h => h.2) (fun _ _ h => h)
  obtain ⟨hw, hranked, hhealthy⟩ := hI
  have hmem : x ∈ xs := by
    rw [hsplit]
    exact List.mem_append_right _ List.mem_cons_self
  have H₁ := hw.steady H hranked
  rw [run_gets_bind]
  cases hfind : s₁.findNode (key x) with
  | none =>
    refine ⟨hranked, fun h hpath => ?_⟩
    exact absurd hfind
      (findNode_of_known h.accepted (H₁.good.valid H₁.built).drivers (hpath x hmem).1)
  | some j =>
    obtain ⟨hj, hname⟩ := findNode_some hfind
    have hcard₁ := lt_of_le_of_lt hw.grows.card_le hcard
    refine ((hvisit s₁ j hw.good H₁.built hj hcard₁).and (hfollows s₁ j H₁ hj hcard₁)).mono
      (fun _ s₂ h₂ => ?_) (fun e s₂ h₂ => ?_)
    · exact ⟨hw.trans h₂.1.1, h₂.2.1, fun h => h₂.2.2 (hhealthy h)⟩
    · refine ⟨h₂.2.1, fun h hpath => h₂.2.2 (hhealthy h) ?_⟩
      rw [hname]
      exact (hpath x hmem).2.grows hw.grows

theorem visitCapabilityProviders_follows {r : RequireCapabilityRecord}
    (hr : r ∈ reg.requireCapabilityRecords) :
    ((visitCapabilityProviders reg visit r.capability).run s).Sat
      (fun _ s' => Ranked reg s' ∧ (Healthy reg env s → Healthy reg env s'))
      (fun e s' => Ranked reg s' ∧ (Healthy reg env s → (∀ p ∈ reg.provideRecords,
        sameCapability p.capability (capabilityName r.capability) = true →
          PathTo reg s (driverName p.driver)) → Cyclic reg e)) := by
  rw [visitCapabilityProviders, sat_bind]
  refine (validateProviderCount_accepts r.capability s).mono ?_ ?_
  · rintro - s₁ ⟨rfl, -⟩
    rw [sat_bind]
    refine (visitEach_follows hvisit hfollows H hcard
      (fun p : ProvideRecord => driverName p.driver) .unknownDriver _).mono
      (fun _ s₂ h₂ => ?_) (fun e s₂ h₂ => ⟨h₂.1, fun h hpath => h₂.2 h (fun p hp => ?_)⟩)
    · split_ifs with hnone
      · refine ⟨h₂.1, fun h _ => ?_⟩
        obtain ⟨p, hp, hsame⟩ := (h.accepted.requireCapabilities r hr).exists_provider
        rw [providerRecordCount, List.countP_eq_zero] at hnone
        exact absurd hsame (hnone p hp)
      · exact h₂
    · obtain ⟨hp, hsame⟩ := List.mem_filter.mp hp
      exact ⟨(h.accepted.provides p hp).known, hpath p hp hsame⟩
  · rintro e s₁ ⟨rfl, hmany⟩
    exact ⟨H.ranked, fun h _ => absurd ((singleOk_iff.mpr h.accepted.singles).2 r hr) hmany⟩

theorem visitDriverDependencies_follows (i : ℕ) :
    ((visitDriverDependencies reg visit i).run s).Sat
      (fun _ s' => Ranked reg s' ∧ (Healthy reg env s → Healthy reg env s'))
      (fun e s' => Ranked reg s' ∧ (Healthy reg env s →
        (∀ n, reg.DependsOn (s.name i) n → PathTo reg s n) → Cyclic reg e)) := by
  rw [visitDriverDependencies, run_gets_bind]
  refine (visitEach_follows hvisit hfollows H hcard
    (fun r : RequireDriverRecord => r.dependencyName) .unknownDriverDependency _).mono
    (fun _ _ h => h) (fun e s₁ h₁ => ⟨h₁.1, fun h hpath => h₁.2 h (fun r hr => ?_)⟩)
  obtain ⟨hr, hname⟩ := List.mem_filter.mp hr
  exact ⟨(h.accepted.requireDrivers r hr).exists_dependency,
    hpath _ (Or.inl ⟨r, hr, of_decide_eq_true hname, rfl⟩)⟩

theorem visitCapabilityDependencies_follows (i : ℕ) :
    ((visitCapabilityDependencies reg visit i).run s).Sat
      (fun _ s' => Ranked reg s' ∧ (Healthy reg env s → Healthy reg env s'))
      (fun e s' => Ranked reg s' ∧ (Healthy reg env s →
        (∀ n, reg.DependsOn (s.name i) n → PathTo reg s n) → Cyclic reg e)) := by
  rw [visitCapabilityDependencies, run_gets_bind]
  refine Outcome.Sat.mono (sat_forEach (I := fun _ s' => Walked reg env s s' ∧ Ranked reg s' ∧
    (Healthy reg env s → Healthy reg env s')) (fun front r back s₁ hsplit hI => ?_)
    ⟨Walked.refl H.good, H.ranked, fun h => h⟩) (fun _ _ h => h.2) (fun _ _ h => h)
  obtain ⟨hw, hranked, hhealthy⟩ := hI
  have hmem : r ∈ reg.requireCapabilityRecords.filter
      fun record => stringEqual (driverName record.driver) (s.nodes i).id.name := by
    rw [hsplit]
    exact List.mem_append_right _ List.mem_cons_self
  obtain ⟨hr, hname⟩ := List.mem_filter.mp hmem
  have H₁ := hw.steady H hranked
  have hcard₁ := lt_of_le_of_lt hw.grows.card_le hcard
  refine ((visitCapabilityProviders_sat hvisit hw.good H₁.built hcard₁ r.capability).and
    (visitCapabilityProviders_follows hvisit hfollows H₁ hcard₁ hr)).mono
    (fun _ s₂ h₂ => ?_) (fun e s₂ h₂ => ?_)
  · exact ⟨hw.trans h₂.1.1, h₂.2.1, fun h => h₂.2.2 (hhealthy h)⟩
  · refine ⟨h₂.2.1, fun h hpath => h₂.2.2 (hhealthy h) (fun p hp hsame => ?_)⟩
    exact (hpath _ (Or.inr ⟨r, hr, of_decide_eq_true hname, p, hp, hsame, rfl⟩)).grows hw.grows

end Loops

/-- **The body of `visit`** keeps the promise for one more node. -/
theorem visitNode_follows {n : ℕ} {visit : ℕ → Comp LifecycleFault DriverError Lifecycle Unit}
    (hvisit : Visits reg env n visit) (hfollows : Follows reg env n visit) :
    Follows reg env (n + 1) (visitNode reg env visit) := by
  intro s i H hi hcard
  rw [visitNode, run_gets_bind]
  cases hm : s.mark i with
  | visited =>
    rw [show (s.nodes i).visit = .visited from hm]
    exact ⟨H.ranked, fun h => h⟩
  | visiting =>
    rw [show (s.nodes i).visit = .visiting from hm]
    exact ⟨H.ranked, fun _ hpath => ⟨rfl, s.name i, hpath i hm⟩⟩
  | notVisited =>
    have hnot : i ∉ s.initialized := fun hin => H.good.marked i hin hm
    have H₀ : Steady reg env (s.withMark i .visiting) :=
      ⟨H.good.withMark H.built (fun _ heq => by cases heq), H.built,
        H.settled.withMark (fun heq => by cases heq),
        H.ranked.congr (sameNodes_withMark s i .visiting) rfl⟩
    have hcard₀ : (s.withMark i .visiting).unvisited.card < n := by
      have := card_unvisited_withMark hi hm
      omega
    have hpath₀ : PathTo reg s (s.name i) → ∀ n,
        reg.DependsOn ((s.withMark i .visiting).name i) n →
          PathTo reg (s.withMark i .visiting) n := by
      intro hpath n hn
      rw [(sameNodes_withMark s i .visiting).name] at hn
      exact hpath.enter hn
    rw [show (s.nodes i).visit = .notVisited from hm]
    dsimp only
    rw [sat_bind, setVisit_run, Outcome.sat_ok, sat_bind, orUnmark_sat]
    refine ((visitDriverDependencies_sat hvisit H₀.good H₀.built hcard₀ i).and
      (visitDriverDependencies_follows hvisit hfollows H₀ hcard₀ i)).mono (fun _ s₁ h₁ => ?_)
      (fun e s₁ h₁ => ⟨h₁.2.1.congr (sameNodes_withMark s₁ i .notVisited) rfl,
        fun h hpath => h₁.2.2 (h.withMark i .visiting) (hpath₀ hpath)⟩)
    obtain ⟨⟨hw₁, hdrivers⟩, hranked₁, hhealthy₁⟩ := h₁
    have H₁ := hw₁.steady H₀ hranked₁
    have hcard₁ := lt_of_le_of_lt hw₁.grows.card_le hcard₀
    have hpath₁ : PathTo reg s (s.name i) → ∀ n, reg.DependsOn (s₁.name i) n →
        PathTo reg s₁ n := by
      intro hpath n hn
      rw [hw₁.grows.same.name] at hn
      exact (hpath₀ hpath n hn).grows hw₁.grows
    rw [sat_bind, orUnmark_sat]
    refine ((visitCapabilityDependencies_sat hvisit H₁.good H₁.built hcard₁ i).and
      (visitCapabilityDependencies_follows hvisit hfollows H₁ hcard₁ i)).mono (fun _ s₂ h₂ => ?_)
      (fun e s₂ h₂ => ⟨h₂.2.1.congr (sameNodes_withMark s₂ i .notVisited) rfl,
        fun h hpath => h₂.2.2 (hhealthy₁ (h.withMark i .visiting)) (hpath₁ hpath)⟩)
    -- the dependencies are up, so the driver takes its place behind them
    obtain ⟨⟨hw₂, hproviders⟩, hranked₂, hhealthy₂⟩ := h₂
    have hw := hw₁.trans hw₂
    have H₂ := hw.steady H₀ hranked₂
    have hready : Ready reg s₂ i := hw₁.ready hw₂ hdrivers hproviders H₂.settled
    rw [sat_bind, orUnmark_sat]
    refine (runDriver_follows H₂.good H₂.built (hw.grows.same.count ▸ hi)
      (hw.grows.not_mem_of_visiting hnot) hready hranked₂).mono (fun _ s₃ h₃ => ?_)
      (fun e s₃ h₃ => ?_)
    · rw [setVisit_run, Outcome.sat_ok]
      exact ⟨h₃.1.congr (sameNodes_withMark s₃ i .visited) rfl, fun h =>
        (h₃.2 (hhealthy₂ (hhealthy₁ (h.withMark i .visiting)))).withMark i .visited⟩
    · exact ⟨h₃.1.congr (sameNodes_withMark s₃ i .notVisited) rfl, fun h _ =>
        absurd (hhealthy₂ (hhealthy₁ (h.withMark i .visiting))) h₃.2⟩

/-- **Visits keep the order**, and report a cycle when there is one and nothing else is wrong. -/
theorem visit_follows : ∀ n, Follows reg env n (visit reg env n)
  | 0 => fun _ _ _ _ hcard => absurd hcard (Nat.not_lt_zero _)
  | n + 1 => visitNode_follows (visit_visits n) (visit_follows n)

/-- The loop of `init_all`. -/
theorem visitAll_follows (H : Steady reg env s) (hrest : ∀ j, s.mark j ≠ .visiting) :
    ((forRange s.nodeCount fun i => visit reg env (s.nodeCount + 1) i).run s).Sat
      (fun _ s' => Ranked reg s')
      (fun e s' => Ranked reg s' ∧ (Healthy reg env s → Cyclic reg e)) := by
  refine (sat_forRange (I := fun _ s' => Walked reg env s s' ∧ Ranked reg s' ∧
    (Healthy reg env s → Healthy reg env s')) (fun k s₁ hk h₁ => ?_)
    ⟨Walked.refl H.good, H.ranked, fun h => h⟩).mono (fun _ _ h => h.2.1) (fun _ _ h => h)
  obtain ⟨hw, hranked, hhealthy⟩ := h₁
  have H₁ := hw.steady H hranked
  have hcard : s₁.unvisited.card < s.nodeCount + 1 := by
    have := hw.grows.card_le
    have := card_unvisited_le s
    omega
  have hk₁ : k < s₁.nodeCount := hw.grows.same.count ▸ hk
  refine ((visit_visits _ s₁ k hw.good H₁.built hk₁ hcard).and
    (visit_follows _ s₁ k H₁ hk₁ hcard)).mono (fun _ s₂ h₂ => ?_) (fun e s₂ h₂ => ?_)
  · exact ⟨hw.trans h₂.1.1, h₂.2.1, fun h => h₂.2.2 (hhealthy h)⟩
  · refine ⟨h₂.2.1, fun h => h₂.2.2 (hhealthy h) (fun j hj => ?_)⟩
    exact absurd ((hw.grows.visiting j).mp hj) (hrest j)

/-! ## Runs -/

theorem Blank.ranked (h : Blank s s') (heq : s''.initialized = s'.initialized) :
    Ranked reg s'' := by
  rw [Ranked, heq, h.initialized]
  exact arranged_nil

/-- **`init_all`** keeps the order, also when it fails. -/
theorem initAll_ranked (H : Idle reg env s) (hset : Settled s) (hr : Ranked reg s) :
    ((initAll reg env).run s).Sat (fun _ s' => Ranked reg s') (fun _ s' => Ranked reg s') := by
  rw [initAll, run_gets_bind]
  cases hall : s.initializedAll with
  | true =>
    rw [if_pos rfl]
    exact hr
  | false =>
    have hbuild : ((buildRegistry reg).run s).Sat (fun _ s' => Ranked reg s')
        (fun _ s' => Ranked reg s') := by
      cases hb : s.built with
      | true =>
        rw [buildRegistry, run_gets_bind, hb, if_pos rfl]
        exact hr
      | false =>
        refine (buildRegistry_sat hb).mono (fun _ s' h => ?_) (fun _ s' h => h.ranked rfl)
        obtain ⟨s₁, hblank, rfl, -⟩ := h
        exact hblank.ranked rfl
    rw [if_neg Bool.false_ne_true, sat_bind]
    refine (hbuild.and (buildRegistry_stepped H hall)).mono (fun _ s₁ h₁ => ?_)
      (fun _ _ h => h.1)
    obtain ⟨hr₁, H₁, hstep, hb₁, -⟩ := h₁
    rw [run_gets_bind, sat_bind]
    refine (visitAll_follows ⟨H₁.good, hb₁, hstep.settled.mpr hset, hr₁⟩ H₁.rest).mono
      (fun _ s₂ h₂ => ?_) (fun _ _ h => h.1)
    rw [run_modify, Outcome.sat_ok]
    exact h₂

/-- When only `init_all` is called, what is up stays in order. -/
theorem Reachable.ranked (h : Reachable reg env (fun _ c => c = .init) s) : Ranked reg s := by
  induction h with
  | start => exact arranged_nil
  | @call t t' c hreach hok hrun ih =>
    subst hok
    exact (initAll_ranked hreach.idle hreach.settled ih).of_state? hrun

/-- A driver on a cycle is a driver of the registry. -/
theorem known_of_dependsOn (hacc : reg.Accepted) {n m : Option String}
    (h : reg.DependsOn n m) : reg.Known n := by
  rcases h with ⟨r, hr, rfl, -⟩ | ⟨r, hr, rfl, -⟩
  · exact (hacc.requireDrivers r hr).known
  · exact (hacc.requireCapabilities r hr).known

/-- When every driver is up, in order, there is no cycle. -/
theorem Idle.acyclic (H : Idle reg env s) (hall : s.initializedAll = true) (hset : Settled s)
    (hr : Ranked reg s) (hacc : reg.Accepted) (n : Option String) :
    ¬ TransGen reg.DependsOn n n := by
  intro hn
  obtain ⟨hb, hvisited⟩ := H.all hall
  obtain ⟨m, hm, -⟩ := TransGen.head'_iff.mp hn
  obtain ⟨id, hid, rfl⟩ := known_of_dependsOn hacc hm
  rw [← (H.good.valid hb).drivers] at hid
  obtain ⟨i, hi, rfl⟩ := List.mem_map.mp hid
  have hi' := List.mem_range.mp hi
  have hup := (H.good.flag i).mp (hset i hi' (hvisited i hi'))
  exact hr.not_transGen_self H.good.names_nodup (List.mem_map_of_mem hup) hn

/-- What `build_registry` leaves behind for `init_all`. -/
structure Fresh (reg : Registry) (env : DriverEnv) (s : Lifecycle) : Prop where
  idle : Idle reg env s
  steady : Steady reg env s
  initializedAll : s.initializedAll = false
  belongs : Belongs s

theorem fresh_of_buildRegistry (hb : s.built = false)
    (hbuilt : (buildRegistry reg).run s = .ok () s') : Fresh reg env s' := by
  obtain ⟨s₁, hblank, rfl, hvalid⟩ := (buildRegistry_sat hb).of_ok hbuilt
  have hgood : Good reg env { s₁ with built := true } := hblank.good (fun _ => hvalid) rfl
  have hmark : ∀ i, ({ s₁ with built := true } : Lifecycle).mark i ≠ .visiting := by
    intro i hi
    rw [show ({ s₁ with built := true } : Lifecycle).mark i = .notVisited from hblank.mark i] at hi
    cases hi
  refine ⟨⟨hgood, hmark, fun hall => ?_⟩, ⟨hgood, rfl, hblank.settled rfl, hblank.ranked rfl⟩,
    hblank.initializedAll, hgood.belongs.mpr (fun r hr => ?_)⟩
  · rw [show ({ s₁ with built := true } : Lifecycle).initializedAll = false from
      hblank.initializedAll] at hall
    cases hall
  · rw [show ({ s₁ with built := true } : Lifecycle).registrations = [] from
      hblank.registrations] at hr
    cases hr

/-- From a fresh registry on which nothing else goes wrong, `init_all` fails only with a
cycle. -/
theorem Fresh.initAll (H : Fresh reg env s) (hhealthy : Healthy reg env s) :
    ((initAll reg env).run s).Sat (fun _ _ => ∀ n, ¬ TransGen reg.DependsOn n n)
      (fun e _ => Cyclic reg e) := by
  have hloop : ((Lifecycle.initAll reg env).run s).Sat (fun _ _ => True)
      (fun e _ => Cyclic reg e) := by
    rw [Lifecycle.initAll, run_gets_bind, H.initializedAll, if_neg Bool.false_ne_true,
      sat_bind, buildRegistry, run_gets_bind, H.steady.built, if_pos rfl]
    rw [run_pure, Outcome.sat_ok, run_gets_bind, sat_bind]
    exact (visitAll_follows H.steady H.idle.rest).mono (fun _ _ _ => trivial)
      (fun _ _ h => h.2 hhealthy)
  refine ((hloop.and (initAll_sat H.idle)).and
    (initAll_ranked H.idle H.steady.settled H.steady.ranked)).mono (fun _ s' h => ?_)
    (fun _ _ h => h.1.1)
  obtain ⟨⟨-, ⟨hidle, hstep⟩, hall⟩, hranked⟩ := h
  exact hidle.acyclic hall (hstep.settled.mpr H.steady.settled) hranked hhealthy.accepted

/-- **Cycles are detected exactly.**  For an accepted registry with room for its capabilities,
whose entry points and resolvers succeed, `init_all` returns from the state that
`build_registry` leaves behind: with success when no driver depends on itself, however
indirectly, and otherwise with the report of a cycle. -/
theorem init_all_ok_iff_acyclic (hb : s.built = false)
    (hbuilt : (buildRegistry reg).run s = .ok () s') (hroom : reg.provideRecords.length ≤ 256)
    (hinit : ∀ r ∈ reg.initRecords, ∀ f, r.function = some f → ∀ k, env.init f k = .ok ())
    (hresolve : ∀ r ∈ reg.provideRecords, ∀ f, r.resolve = some f → ∀ k,
      env.resolve f k ≠ none) :
    ((∃ t, (initAll reg env).run s' = .ok () t) ↔ ∀ n, ¬ TransGen reg.DependsOn n n) ∧
      ((∃ n, TransGen reg.DependsOn n n) →
        ∃ t, (initAll reg env).run s' = .err .dependencyCycle t) := by
  obtain ⟨hacc, hsource⟩ := (buildRegistry_accepts hb).of_ok hbuilt
  have hfresh : Fresh reg env s' := fresh_of_buildRegistry hb hbuilt
  have hhealthy : Healthy reg env s' := by
    refine ⟨hacc, fun i f hf => ?_, hresolve, hroom, hfresh.belongs⟩
    obtain ⟨r, hr, hrf⟩ := hsource i f hf
    exact hinit r hr f hrf
  have hsat := hfresh.initAll hhealthy
  refine ⟨⟨?_, fun hacyclic => ?_⟩, ?_⟩
  · rintro ⟨t, hrun⟩
    exact hsat.of_ok hrun
  · obtain ⟨_, t, hrun, -⟩ := hsat.exists_ok (fun e _ hcyclic => by
      obtain ⟨-, n, hn⟩ := hcyclic
      exact hacyclic n hn)
    exact ⟨t, hrun⟩
  · rintro ⟨n, hn⟩
    obtain ⟨e, t, hrun, he, -⟩ := hsat.exists_err (fun _ _ hacyclic => hacyclic n hn)
    exact ⟨t, he ▸ hrun⟩

theorem acyclic_small (n : Option String) : ¬TransGen smallRegistry.DependsOn n n := by
  have hedge : ∀ a b, smallRegistry.DependsOn a b → a = some "tty" ∧ b = some "fb" := by
    rintro a b (⟨r, hr, rfl, rfl⟩ | ⟨r, hr, -⟩)
    · rw [List.mem_singleton.mp hr]
      exact ⟨rfl, rfl⟩
    · cases hr
  have hpath : ∀ a b, TransGen smallRegistry.DependsOn a b → a = some "tty" ∧ b = some "fb" := by
    intro a b h
    induction h with
    | single hab => exact hedge _ _ hab
    | tail _ hcd ih => exact ⟨ih.1, (hedge _ _ hcd).2⟩
  intro hn
  obtain ⟨hfb, htty⟩ := hpath n n hn
  rw [hfb] at htty
  exact absurd htty (by decide)

/-- The first driver needs the capability that the second one provides. -/
def cyclicRegistry : Registry := { smallRegistry with
  requireCapabilityRecords := [⟨some ⟨some "fb"⟩, some ⟨some "console", .single⟩⟩] }

theorem accepted_cyclic : cyclicRegistry.Accepted where
  drivers := ⟨by decide, by decide, by decide⟩
  inits := ⟨by decide, by decide, by decide, by decide⟩
  exits := ⟨by decide, by decide, by decide, by decide⟩
  provides r hr := by
    rw [List.mem_singleton.mp hr]
    exact ⟨by decide, by decide, by decide, by decide, by decide⟩
  requireDrivers r hr := by
    rw [List.mem_singleton.mp hr]
    exact ⟨by decide, by decide, by decide, by decide⟩
  requireCapabilities r hr := by
    rw [List.mem_singleton.mp hr]
    exact ⟨by decide, by decide, by decide, by decide, by decide⟩
  singles _ _ _ := List.countP_le_length

theorem cycle_cyclic : TransGen cyclicRegistry.DependsOn (some "fb") (some "fb") := by
  have hneeds : cyclicRegistry.DependsOn (some "fb") (some "tty") :=
    Or.inr ⟨_, List.mem_singleton.mpr rfl, rfl, _, List.mem_singleton.mpr rfl, by decide, rfl⟩
  have hback : cyclicRegistry.DependsOn (some "tty") (some "fb") :=
    Or.inl ⟨_, List.mem_singleton.mpr rfl, rfl, rfl⟩
  exact .tail (.single hneeds) hback

theorem init_all_ok_iff_acyclic_small :
    (∃ s t, (buildRegistry smallRegistry).run {} = .ok () s ∧
      (initAll smallRegistry smallEnv).run s = .ok () t) ∧
    ∃ s t, (buildRegistry cyclicRegistry).run {} = .ok () s ∧
      (initAll cyclicRegistry smallEnv).run s = .err .dependencyCycle t := by
  constructor
  · obtain ⟨_, s, hbuilt, -⟩ := (buildRegistry_accepts rfl :
      ((buildRegistry smallRegistry).run {}).Sat _ _).exists_ok (fun _ _ h => h accepted_small)
    obtain ⟨t, ht⟩ := (init_all_ok_iff_acyclic rfl hbuilt (by decide) (fun _ _ _ _ _ => rfl)
      (fun _ _ f _ k => Option.some_ne_none 7) :
        ((∃ t, (initAll smallRegistry smallEnv).run s = .ok () t) ↔ _) ∧ _).1.mpr acyclic_small
    exact ⟨s, t, hbuilt, ht⟩
  · obtain ⟨_, s, hbuilt, -⟩ := (buildRegistry_accepts rfl :
      ((buildRegistry cyclicRegistry).run {}).Sat _ _).exists_ok (fun _ _ h => h accepted_cyclic)
    obtain ⟨t, ht⟩ := (init_all_ok_iff_acyclic rfl hbuilt (by decide) (fun _ _ _ _ _ => rfl)
      (fun _ _ f _ k => Option.some_ne_none 7) :
        _ ∧ (_ → ∃ t, (initAll cyclicRegistry smallEnv).run s = .err .dependencyCycle t)).2
          ⟨_, cycle_cyclic⟩
    exact ⟨s, t, hbuilt, ht⟩

/-! ## Taking the drivers down -/

/-- The exit points called while the drivers `down` were taken down. -/
structure Exited (s : Lifecycle) (down : List ℕ) (s' : Lifecycle) : Prop where
  exiting : Exiting s down s'
  exit : ∀ i, (s'.nodes i).exit = (s.nodes i).exit
  exitCalls : s'.exitCalls = s.exitCalls ++ down.filter fun i => (s.nodes i).exit ≠ none

theorem exitNode_exited {down : List ℕ} (H : Exited s down s')
    (hup : (s.nodes i).initialized = true) (hnot : i ∉ down) :
    ((exitNode i).run s').Sat (fun _ s'' => Exited s (down ++ [i]) s'') (fun _ _ => False) := by
  have hflag : (s'.nodes i).initialized = true := (H.exiting.flag i).mpr ⟨hup, hnot⟩
  have hdown : ∀ s₁ : Lifecycle, s₁.nodes = s'.nodes →
      s₁.exitCalls = s.exitCalls ++ (down ++ [i]).filter (fun i => (s.nodes i).exit ≠ none) →
      (∀ j, ((s₁.setNode i { s₁.nodes i with initialized := false }).nodes j).exit
          = (s.nodes j).exit) ∧
        (s₁.setNode i { s₁.nodes i with initialized := false }).exitCalls
          = s.exitCalls ++ (down ++ [i]).filter fun i => (s.nodes i).exit ≠ none := by
    intro s₁ hnodes hcalls
    refine ⟨fun j => ?_, hcalls⟩
    have hfield := field_setNode DriverNode.exit s₁ i
      { s₁.nodes i with initialized := false } rfl j
    rw [hfield, hnodes]
    exact H.exit j
  have hcalls : ((exitNode i).run s').Sat
      (fun _ s'' => (∀ j, (s''.nodes j).exit = (s.nodes j).exit) ∧ s''.exitCalls
        = s.exitCalls ++ (down ++ [i]).filter fun i => (s.nodes i).exit ≠ none)
      (fun _ _ => False) := by
    rw [exitNode, run_gets_bind, hflag, if_neg (by decide : ¬(!true) = true)]
    by_cases hexit : (s'.nodes i).exit ≠ none
    · rw [if_pos hexit]
      refine hdown { s' with calls := s'.calls + 1, exitCalls := s'.exitCalls ++ [i] } rfl ?_
      rw [H.exit] at hexit
      rw [List.filter_append, List.filter_singleton, decide_eq_true hexit, cond_true,
        ← List.append_assoc, ← H.exitCalls]
    · rw [if_neg hexit]
      refine hdown s' rfl ?_
      rw [H.exit] at hexit
      rw [List.filter_append, List.filter_singleton, decide_eq_false hexit, cond_false,
        List.append_nil, ← H.exitCalls]
  exact ((exitNode_sat H.exiting i).and hcalls).mono
    (fun _ _ h => ⟨h.1, h.2.1, h.2.2⟩) (fun _ _ h => h.1)

/-- **`exit_all`** calls the exit points of the drivers that are up, the last one first. -/
theorem exitAll_exits (H : Idle reg env s) :
    ((exitAll).run s).Sat
      (fun _ s' => s'.initialized = [] ∧ s'.capabilities = [] ∧ s'.exitCalls
        = s.exitCalls ++ s.initialized.reverse.filter fun i => (s.nodes i).exit ≠ none)
      (fun _ _ => False) := by
  have hnodup := List.nodup_reverse.mpr H.good.nodup
  rw [exitAll, run_gets_bind, sat_bind]
  refine (sat_forEach (I := fun front s' => Exited s front s') (E := fun _ _ => False)
    (fun front i back s₁ hsplit h₁ => ?_) ?_).mono (fun _ s₁ h₁ => ⟨rfl, rfl, h₁.exitCalls⟩)
    (fun _ _ h => h)
  · have hmem : i ∈ s.initialized := by
      rw [← List.mem_reverse, hsplit]
      exact List.mem_append_right _ List.mem_cons_self
    rw [hsplit] at hnodup
    exact exitNode_exited h₁ ((H.good.flag i).mpr hmem) fun hin =>
      (List.nodup_append.mp hnodup).2.2 i hin i List.mem_cons_self rfl
  · refine ⟨⟨SameNodes.refl s, rfl, fun _ => rfl, fun i => ?_⟩, fun _ => rfl, ?_⟩
    · exact (and_iff_left List.not_mem_nil).symm
    · rw [List.filter_nil, List.append_nil]

/-- **Drivers go down in reverse order, once.**  After any calls of `init_all`, `exit_all` calls
the exit points of the drivers that are up and have one, each once and the last that came up
first; none is called after that of a driver it depends on.  Then no capability is found, and
calling `exit_all` again calls no exit point. -/
theorem exit_all_unwinds (h : Reachable reg env (fun _ c => c = .init) s) :
    ∃ s', (exitAll).run s = .ok () s' ∧ ∃ exits, s'.exitCalls = s.exitCalls ++ exits ∧
      exits = (s.initialized.filter fun i => (s.nodes i).exit ≠ none).reverse ∧ exits.Nodup ∧
      exits.Pairwise (fun a b => ¬ TransGen reg.DependsOn (s.name b) (s.name a)) ∧
      (∀ key, findCapability s'.capabilities key = none) ∧
      ∃ s'', (exitAll).run s' = .ok () s'' ∧ s''.exitCalls = s'.exitCalls := by
  have H := h.idle
  obtain ⟨_, s', hrun, ⟨hidle, -, -⟩, hinit, hcaps, hcalls⟩ :=
    ((exitAll_sat H).and (exitAll_exits H)).exists_ok (fun _ _ h => h.1)
  obtain ⟨_, s'', hrun', -, -, hcalls'⟩ := (exitAll_exits hidle).exists_ok (fun _ _ h => h)
  have hpairwise : s.initialized.reverse.Pairwise
      (fun a b => ¬ TransGen reg.DependsOn (s.name b) (s.name a)) := by
    rw [List.pairwise_reverse]
    exact List.pairwise_map.mp (h.ranked.pairwise H.good.names_nodup)
  refine ⟨s', hrun, _, hcalls, List.filter_reverse, ?_, ?_, fun key => ?_, s'', hrun', ?_⟩
  · exact (List.nodup_reverse.mpr H.good.nodup).filter _
  · exact hpairwise.filter _
  · rw [hcaps]
    rfl
  · rw [hcalls', hinit, List.reverse_nil, List.filter_nil, List.append_nil]

/-- Both drivers have an exit point. -/
def exitRegistry : Registry := { smallRegistry with
  exitRecords := [⟨some ⟨some "fb"⟩, some 3⟩, ⟨some ⟨some "tty"⟩, some 4⟩] }

theorem exit_all_unwinds_both :
    ∃ s s', Reachable exitRegistry smallEnv (fun _ c => c = .init) s ∧ s.initialized = [0, 1] ∧
      (exitAll).run s = .ok () s' ∧ s'.exitCalls = [1, 0] := by
  have h : Reachable exitRegistry smallEnv (fun _ c => c = .init)
      (({} : Lifecycle).after exitRegistry smallEnv .init) := Reachable.start.after rfl
  obtain ⟨s', hrun, exits, hcalls, rfl, -⟩ := exit_all_unwinds h
  refine ⟨_, s', h, by decide +kernel, hrun, hcalls.trans ?_⟩
  decide +kernel

end Lifecycle

end DoomOs
