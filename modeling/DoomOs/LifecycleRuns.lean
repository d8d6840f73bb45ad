/-
# Runs of the driver lifecycle

`build_registry` starts from a blank state, so what holds of a lifecycle before the first
visit is soon said.  `Idle` is what holds between two calls: no node is being visited, and
once `init_all` has returned every node is visited.  `exit_all` takes every driver down and
leaves the marks alone, so afterwards a driver is visited and not up, and stays so: whether
every visited driver is up is what decides whether `init_all` does what it says.

The results are about runs of `init_all` and `exit_all` with any outcome of the functions of
the drivers.
-/
import DoomOs.LifecycleVisit

namespace DoomOs

open Comp

namespace Lifecycle

variable {reg : Registry} {env : DriverEnv} {s s' s'' : Lifecycle} {i j : ℕ}

/-! ## Building the registry -/

/-- No driver has been visited, let alone brought up, since `build_registry` began in `s`. -/
structure Blank (s s' : Lifecycle) : Prop where
  built : s'.built = false
  initializedAll : s'.initializedAll = false
  initialized : s'.initialized = []
  capabilities : s'.capabilities = []
  registrations : s'.registrations = []
  initCalls : s'.initCalls = s.initCalls
  mark : ∀ i, s'.mark i = .notVisited
  flag : ∀ i, (s'.nodes i).initialized = false

theorem blank_reset (s : Lifecycle) : Blank s s.reset :=
  ⟨rfl, rfl, rfl, rfl, rfl, rfl, fun _ => rfl, fun _ => rfl⟩

/-- A node may be given another identity and other functions. -/
theorem Blank.setNode (h : Blank s s') (i : ℕ) (node : DriverNode)
    (hv : node.visit = .notVisited) (hi : node.initialized = false) :
    Blank s (s'.setNode i node) := by
  refine ⟨h.built, h.initializedAll, h.initialized, h.capabilities, h.registrations, h.initCalls,
    fun j => ?_, fun j => ?_⟩
  · exact (field_setNode DriverNode.visit s' i node (hv.trans (h.mark i).symm) j).trans (h.mark j)
  · exact (field_setNode DriverNode.initialized s' i node
      (hi.trans (h.flag i).symm) j).trans (h.flag j)

/-- In a blank state there is nothing to keep, whatever the nodes are. -/
theorem Blank.good (h : Blank s s') (hvalid : s''.built = true → Valid reg s'')
    (heq : s'' = { s' with built := s''.built }) : Good reg env s'' := by
  have hnone : ∀ i, i ∉ s''.initialized := by
    intro i hi
    rw [heq] at hi
    have hi' : i ∈ s'.initialized := hi
    rw [h.initialized] at hi'
    cases hi'
  have hcaps : ∀ c, c ∉ s''.capabilities := by
    intro c hc
    rw [heq] at hc
    have hc' : c ∈ s'.capabilities := hc
    rw [h.capabilities] at hc'
    cases hc'
  have hmark : ∀ i, s''.mark i = .notVisited := by
    intro i
    rw [heq]
    exact h.mark i
  refine ⟨hvalid, fun _ => hmark, ?_, fun i hi => absurd hi (hnone i), fun i => ?_,
    fun i hi => absurd hi (hnone i), fun i hi => absurd hi (hnone i),
    fun c hc => absurd hc (hcaps c), ?_⟩
  · rw [List.eq_nil_iff_forall_not_mem.mpr hnone]
    exact List.nodup_nil
  · refine ⟨fun hflag => ?_, fun hi => absurd hi (hnone i)⟩
    rw [heq] at hflag
    have hflag' : (s'.nodes i).initialized = true := hflag
    rw [h.flag i] at hflag'
    cases hflag'
  · have hregs : s''.registrations = [] := by
      rw [heq]
      exact h.registrations
    refine ⟨fun _ r hr => ?_, fun _ => ⟨fun c hc => absurd hc (hcaps c), ?_⟩⟩
    · rw [hregs] at hr
      cases hr
    · rw [List.eq_nil_iff_forall_not_mem.mpr hcaps]
      exact List.nodup_nil

/-- The nodes made so far are those of the drivers `ids`. -/
structure Added (s : Lifecycle) (ids : List DriverId) (s' : Lifecycle) : Prop where
  blank : Blank s s'
  count_le : s'.nodeCount ≤ maxDrivers
  drivers : s'.drivers = ids
  distinct : ∀ i < s'.nodeCount, ∀ j < s'.nodeCount, s'.name i = s'.name j → i = j

theorem addDriver_sat {ids : List DriverId} (H : Added s ids s') (id : DriverId) :
    ((addDriver id).run s').Sat (fun _ s'' => Added s (ids ++ [id]) s'')
      (fun _ s'' => Blank s s'') := by
  rw [addDriver]
  by_cases hname : id.name = none
  · rw [if_pos hname]
    exact H.blank
  rw [if_neg hname, run_gets_bind]
  by_cases hfind : s'.findNode id.name ≠ none
  · rw [if_pos hfind]
    exact H.blank
  rw [if_neg hfind, run_gets_bind]
  rw [not_not] at hfind
  by_cases hfull : s'.nodeCount = maxDrivers
  · rw [if_pos hfull]
    exact H.blank
  rw [if_neg hfull, run_modify, Outcome.sat_ok]
  have hid : ∀ j, ((s'.setNode s'.nodeCount { id := id }).nodes j).id
      = if j = s'.nodeCount then id else (s'.nodes j).id := by
    intro j
    rw [nodes_setNode]
    split_ifs
    · rfl
    · rfl
  have hold : ∀ j < s'.nodeCount, ((s'.setNode s'.nodeCount { id := id }).nodes j).id
      = (s'.nodes j).id := fun j hj => by rw [hid, if_neg (by omega)]
  have hnew : ((s'.setNode s'.nodeCount { id := id }).nodes s'.nodeCount).id = id := by
    rw [hid, if_pos rfl]
  refine ⟨?_, ?_, ?_, fun i hi j hj heq => ?_⟩
  · have hblank := H.blank.setNode s'.nodeCount { id := id } rfl rfl
    exact ⟨hblank.built, hblank.initializedAll, hblank.initialized, hblank.capabilities,
      hblank.registrations, hblank.initCalls, hblank.mark, hblank.flag⟩
  · have := H.count_le
    show s'.nodeCount + 1 ≤ maxDrivers
    omega
  · show (List.range (s'.nodeCount + 1)).map
      (fun i => ((s'.setNode s'.nodeCount { id := id }).nodes i).id) = ids ++ [id]
    rw [List.range_succ, List.map_append, List.map_singleton, hnew, ← H.drivers]
    congr 1
    exact List.map_congr_left (fun j hj => hold j (List.mem_range.mp hj))
  · -- the name of the new driver is not among the earlier ones
    have hfresh : ∀ k < s'.nodeCount, (s'.nodes k).id.name ≠ id.name := fun k hk =>
      findNode_none hname hfind hk
    have hi' : i < s'.nodeCount + 1 := hi
    have hj' : j < s'.nodeCount + 1 := hj
    change ((s'.setNode s'.nodeCount { id := id }).nodes i).id.name
      = ((s'.setNode s'.nodeCount { id := id }).nodes j).id.name at heq
    rw [hid, hid] at heq
    split_ifs at heq with hin hjn hjn
    · rw [hin, hjn]
    · exact absurd heq.symm (hfresh j (by omega))
    · exact absurd heq (hfresh i (by omega))
    · exact H.distinct i (by omega) j (by omega) heq

/-- Attaching functions leaves the identities of the nodes alone. -/
theorem Added.same {ids : List DriverId} (H : Added s ids s') (hs : SameNodes s' s'')
    (hb : Blank s s'') : Added s ids s'' := by
  refine ⟨hb, hs.count ▸ H.count_le, ?_, fun i hi j hj heq => ?_⟩
  · rw [Lifecycle.drivers, hs.count, ← H.drivers]
    exact List.map_congr_left (fun i _ => hs.id i)
  · rw [hs.name, hs.name] at heq
    rw [hs.count] at hi hj
    exact H.distinct i hi j hj heq

/-- The loops of `attach_init_records` and `attach_exit_records`. -/
theorem attachRecords_sat {ids : List DriverId} (H : Added s ids s')
    (get : DriverNode → Option FunctionPtr) (put : DriverNode → Option FunctionPtr → DriverNode)
    (hid : ∀ node f, (put node f).id = node.id) (hvisit : ∀ node f, (put node f).visit = node.visit)
    (hflag : ∀ node f, (put node f).initialized = node.initialized) (duplicate : DriverError)
    (records : List EntryRecord) :
    ((forEach (attachRecord get put duplicate) records).run s').Sat
      (fun _ s'' => Added s ids s'') (fun _ s'' => Blank s s'') := by
  refine sat_forEach (I := fun _ s'' => Added s ids s'') (fun _ record _ s₁ _ h₁ => ?_) H
  rw [attachRecord]
  by_cases hnull : record.driver = none ∨ record.function = none
  · rw [if_pos hnull]
    exact h₁.blank
  rw [if_neg hnull, run_gets_bind]
  cases s₁.findNode (driverName record.driver) with
  | none => exact h₁.blank
  | some i =>
    dsimp only
    rw [run_gets_bind]
    by_cases htwice : get (s₁.nodes i) ≠ none
    · rw [if_pos htwice]
      exact h₁.blank
    · rw [if_neg htwice, run_modify, Outcome.sat_ok]
      refine h₁.same ⟨rfl, rfl, rfl, fun j => ?_⟩ (h₁.blank.setNode i _ ?_ ?_)
      · exact field_setNode DriverNode.id s₁ i (put (s₁.nodes i) record.function) (hid _ _) j
      · exact (hvisit _ _).trans (h₁.blank.mark i)
      · exact (hflag _ _).trans (h₁.blank.flag i)

theorem validateProviderCount_sat (key : Option CapabilityKey) (s : Lifecycle) :
    ((validateProviderCount reg key).run s).Sat (fun _ s' => s' = s) (fun _ s' => s' = s) := by
  rw [validateProviderCount]
  split_ifs
  · exact rfl
  · exact rfl

theorem validateProviderRecords_sat (s : Lifecycle) :
    ((validateProviderRecords reg).run s).Sat
      (fun _ s' => s' = s ∧ ∀ r ∈ reg.provideRecords, r.capability ≠ none ∧
        ∃ i < s.nodeCount, s.name i = driverName r.driver)
      (fun _ s' => s' = s) := by
  refine sat_forEach (I := fun (front : List ProvideRecord) s' => s' = s ∧
    ∀ r ∈ front, r.capability ≠ none ∧
      ∃ i < s.nodeCount, s.name i = driverName r.driver) (fun front r back s₁ _ hI => ?_)
    ⟨rfl, fun r hr => by cases hr⟩
  obtain ⟨rfl, hdone⟩ := hI
  rw [validateProviderRecord]
  by_cases hnull : r.driver = none ∨ r.capability = none ∨ capabilityName r.capability = none ∨
      r.resolve = none
  · rw [if_pos hnull]
    exact rfl
  rw [if_neg hnull, run_gets_bind]
  cases hfind : s₁.findNode (driverName r.driver) with
  | none => exact rfl
  | some i =>
    rw [if_neg (Option.some_ne_none i)]
    refine (validateProviderCount_sat r.capability s₁).mono (fun _ s₂ h₂ => ⟨h₂, fun r' hr' => ?_⟩)
      (fun _ _ h => h)
    rcases List.mem_append.mp hr' with hr' | hr'
    · exact hdone r' hr'
    · rw [List.mem_singleton.mp hr']
      exact ⟨fun hcap => hnull (Or.inr (Or.inl hcap)), i, findNode_some hfind⟩

theorem validateDependencyRecords_sat (s : Lifecycle) :
    ((validateDependencyRecords reg).run s).Sat (fun _ s' => s' = s) (fun _ s' => s' = s) := by
  rw [validateDependencyRecords, sat_bind]
  refine (sat_forEach (I := fun _ s' => s' = s) (E := fun _ s' => s' = s)
    (fun _ r _ s₁ _ h₁ => ?_) rfl).mono (fun _ s₁ h₁ => ?_) (fun _ _ h => h)
  · subst h₁
    rw [validateRequireDriver]
    split_ifs
    · exact rfl
    rw [run_gets_bind]
    split_ifs
    · exact rfl
    rw [run_gets_bind]
    split_ifs
    · exact rfl
    · exact rfl
  · subst h₁
    refine sat_forEach (I := fun _ s' => s' = s₁) (fun _ r _ s₂ _ h₂ => ?_) rfl
    subst h₂
    rw [validateRequireCapability]
    by_cases hnull : r.driver = none ∨ r.capability = none ∨ capabilityName r.capability = none
    · rw [if_pos hnull]
      exact rfl
    rw [if_neg hnull, run_gets_bind]
    by_cases hfind : s₂.findNode (driverName r.driver) = none
    · rw [if_pos hfind]
      exact rfl
    rw [if_neg hfind, sat_bind]
    refine (validateProviderCount_sat r.capability s₂).mono (fun _ s₃ h₃ => ?_) (fun _ _ h => h)
    subst h₃
    split_ifs
    · exact rfl
    · exact rfl

/-- **Building the registry** makes one node of each driver, or fails with nothing begun. -/
theorem buildRegistry_sat (hb : s.built = false) :
    ((buildRegistry reg).run s).Sat
      (fun _ s' => ∃ s₁, Blank s s₁ ∧ s' = { s₁ with built := true } ∧ Valid reg s')
      (fun _ s' => Blank s s') := by
  have hstart : Added s [] s.reset :=
    ⟨blank_reset s, Nat.zero_le _, rfl, fun i hi => absurd hi (Nat.not_lt_zero i)⟩
  rw [buildRegistry, run_gets_bind, hb]
  rw [if_neg Bool.false_ne_true, run_modify_bind, sat_bind]
  refine (sat_forEach (I := fun front s' => Added s front s') (E := fun _ s' => Blank s s')
    (fun front id back s₁ _ h₁ => addDriver_sat h₁ id) hstart).mono (fun _ s₁ h₁ => ?_)
    (fun _ _ h => h)
  rw [sat_bind, attachInitRecords]
  refine (attachRecords_sat h₁ DriverNode.init (fun node f => { node with init := f })
    (fun _ _ => rfl) (fun _ _ => rfl) (fun _ _ => rfl) _ _).mono
    (fun _ s₂ h₂ => ?_) (fun _ _ h => h)
  rw [sat_bind, attachExitRecords]
  refine (attachRecords_sat h₂ DriverNode.exit (fun node f => { node with exit := f })
    (fun _ _ => rfl) (fun _ _ => rfl) (fun _ _ => rfl) _ _).mono
    (fun _ s₃ h₃ => ?_) (fun _ _ h => h)
  rw [sat_bind]
  refine (validateProviderRecords_sat s₃).mono (fun _ s₄ h₄ => ?_) (fun _ s₄ h₄ => h₄ ▸ h₃.blank)
  obtain ⟨rfl, hproviders⟩ := h₄
  rw [sat_bind]
  refine (validateDependencyRecords_sat s₄).mono (fun _ s₅ h₅ => ?_) (fun _ s₅ h₅ => h₅ ▸ h₃.blank)
  subst h₅
  exact ⟨s₅, h₃.blank, rfl, h₃.count_le, h₃.drivers, h₃.distinct, hproviders⟩

/-! ## The calls -/

/-- What holds between two calls. -/
structure Idle (reg : Registry) (env : DriverEnv) (s : Lifecycle) : Prop where
  good : Good reg env s
  rest : ∀ i, s.mark i ≠ .visiting
  all : s.initializedAll = true → s.built = true ∧ ∀ i < s.nodeCount, s.mark i = .visited

/-- What a call of `init_all` keeps, also when it fails: whether every visited driver is up, and
then the order in which entry points are called. -/
structure Stepped (reg : Registry) (s s' : Lifecycle) : Prop where
  settled : Settled s' ↔ Settled s
  ordered : Ordered reg s s'

theorem Stepped.refl (s : Lifecycle) : Stepped reg s s := ⟨Iff.rfl, ordered_of_eq rfl⟩

/-- A driver that is visited and not up stays so during a visit. -/
theorem Walked.stepped (h : Walked reg env s s') (H : Good reg env s) : Stepped reg s s' := by
  refine ⟨⟨fun hs i hi hm => ?_, h.settled⟩, h.ordered⟩
  have hup := hs i (h.grows.same.count ▸ hi) (h.grows.visited i hm)
  rcases h.grows.fresh i ((h.good.flag i).mp hup) with hin | hnot
  · exact (H.flag i).mpr hin
  · rw [hm] at hnot
    cases hnot

theorem Blank.settled (h : Blank s s') (heq : s''.nodes = s'.nodes) : Settled s'' := by
  intro i _ hm
  rw [Lifecycle.mark, heq] at hm
  rw [show (s'.nodes i).visit = .notVisited from h.mark i] at hm
  cases hm

/-- Before the registry is built nothing is visited. -/
theorem Good.settled_of_not_built (H : Good reg env s) (hb : s.built = false) : Settled s := by
  intro i _ hm
  rw [H.blank hb i] at hm
  cases hm

theorem Blank.stepped (h : Blank s s') (H : Good reg env s) (hb : s.built = false)
    (heq : s''.nodes = s'.nodes) (hcalls : s''.initCalls = s'.initCalls) : Stepped reg s s'' :=
  ⟨iff_of_true (h.settled heq) (H.settled_of_not_built hb),
    ordered_of_eq (hcalls.trans h.initCalls)⟩

/-- The first part of `init_all`. -/
theorem buildRegistry_stepped (H : Idle reg env s) (hall : s.initializedAll = false) :
    ((buildRegistry reg).run s).Sat
      (fun _ s' => Idle reg env s' ∧ Stepped reg s s' ∧ s'.built = true ∧
        s'.initializedAll = false)
      (fun _ s' => Idle reg env s' ∧ Stepped reg s s') := by
  cases hb : s.built with
  | true =>
    rw [buildRegistry, run_gets_bind, hb, if_pos rfl]
    exact ⟨H, Stepped.refl s, hb, hall⟩
  | false =>
    refine (buildRegistry_sat hb).mono (fun _ s' h => ?_) (fun _ s' h => ?_)
    · obtain ⟨s₁, hblank, rfl, hvalid⟩ := h
      refine ⟨⟨hblank.good (fun _ => hvalid) rfl, fun i hm => ?_, fun htrue => ?_⟩,
        hblank.stepped H.good hb rfl rfl, rfl, hblank.initializedAll⟩
      · have hm' : s₁.mark i = .visiting := hm
        rw [hblank.mark i] at hm'
        cases hm'
      · have htrue' : s₁.initializedAll = true := htrue
        rw [hblank.initializedAll] at htrue'
        cases htrue'
    · refine ⟨⟨h.good (fun htrue => ?_) rfl, fun i hm => ?_, fun htrue => ?_⟩,
        h.stepped H.good hb rfl rfl⟩
      · rw [h.built] at htrue
        cases htrue
      · rw [h.mark i] at hm
        cases hm
      · rw [h.initializedAll] at htrue
        cases htrue

theorem Stepped.trans (h : Stepped reg s s') (h' : Stepped reg s' s'') : Stepped reg s s'' :=
  ⟨h'.settled.trans h.settled, h.ordered.trans h.settled.mpr h'.ordered⟩

theorem card_unvisited_le (s : Lifecycle) : s.unvisited.card ≤ s.nodeCount := by
  have h := Finset.card_filter_le (Finset.range s.nodeCount) (fun i => s.mark i = .notVisited)
  rw [Finset.card_range] at h
  exact h

/-- The loop of `init_all`. -/
theorem visitAll_sat (H : Good reg env s) (hb : s.built = true) :
    ((forRange s.nodeCount fun i => visit reg env (s.nodeCount + 1) i).run s).Sat
      (fun _ s' => Walked reg env s s' ∧ ∀ i < s.nodeCount, s'.mark i = .visited)
      (fun _ s' => Walked reg env s s') := by
  refine sat_forRange (I := fun n s' => Walked reg env s s' ∧ ∀ i < n, s'.mark i = .visited)
    (fun n s₁ hn h₁ => ?_) ⟨Walked.refl H, fun i hi => absurd hi (Nat.not_lt_zero i)⟩
  obtain ⟨hw, hdone⟩ := h₁
  have hcard : s₁.unvisited.card < s.nodeCount + 1 := by
    have := hw.grows.card_le
    have := card_unvisited_le s
    omega
  refine (visit_visits (s.nodeCount + 1) s₁ n hw.good (hw.grows.same.built.trans hb)
    (hw.grows.same.count ▸ hn) hcard).mono (fun _ s₂ h₂ => ?_) (fun _ s₂ h₂ => hw.trans h₂)
  refine ⟨hw.trans h₂.1, fun i hi => ?_⟩
  rcases Nat.lt_succ_iff_lt_or_eq.mp hi with hlt | rfl
  · exact h₂.1.grows.visited i (hdone i hlt)
  · exact h₂.2

theorem Walked.idle (h : Walked reg env s s') (H : Idle reg env s)
    (hall : s.initializedAll = false) : Idle reg env s' := by
  refine ⟨h.good, fun i hm => H.rest i ((h.grows.visiting i).mp hm), fun htrue => ?_⟩
  rw [h.grows.same.initializedAll, hall] at htrue
  cases htrue

/-- Raising `initialized_all` when everything is visited. -/
theorem Idle.raise (H : Idle reg env s) (hb : s.built = true)
    (hvisited : ∀ i < s.nodeCount, s.mark i = .visited) :
    Idle reg env { s with initializedAll := true } := by
  have G := H.good
  have hbelongs : Belongs { s with initializedAll := true } ↔ Belongs s :=
    ⟨fun h => ⟨h.live, h.once⟩, fun h => ⟨h.live, h.once⟩⟩
  have hvalid : Valid reg { s with initializedAll := true } :=
    ⟨(G.valid hb).count_le, (G.valid hb).drivers, (G.valid hb).distinct, (G.valid hb).providers⟩
  exact ⟨⟨fun _ => hvalid, G.blank, G.nodup, G.lt, G.flag, G.marked, G.covered, G.source,
    hbelongs.trans G.belongs⟩, H.rest, fun _ => ⟨hb, hvisited⟩⟩

/-- **`init_all`** returns, keeps what holds between calls, and leaves every node visited when
it succeeds. -/
theorem initAll_sat (H : Idle reg env s) :
    ((initAll reg env).run s).Sat
      (fun _ s' => (Idle reg env s' ∧ Stepped reg s s') ∧ s'.initializedAll = true)
      (fun _ s' => Idle reg env s' ∧ Stepped reg s s') := by
  rw [initAll, run_gets_bind]
  cases hall : s.initializedAll with
  | true =>
    rw [if_pos rfl]
    exact ⟨⟨H, Stepped.refl s⟩, hall⟩
  | false =>
    rw [if_neg Bool.false_ne_true, sat_bind]
    refine (buildRegistry_stepped H hall).mono (fun _ s₁ h₁ => ?_) (fun _ _ h => h)
    obtain ⟨H₁, hstep, hb, hall₁⟩ := h₁
    rw [run_gets_bind, sat_bind]
    refine (visitAll_sat H₁.good hb).mono (fun _ s₂ h₂ => ?_)
      (fun _ s₂ hw => ⟨hw.idle H₁ hall₁, hstep.trans (hw.stepped H₁.good)⟩)
    obtain ⟨hw, hvisited⟩ := h₂
    rw [run_modify, Outcome.sat_ok]
    refine ⟨⟨(hw.idle H₁ hall₁).raise (hw.grows.same.built.trans hb) (fun i hi => ?_), ?_⟩, rfl⟩
    · exact hvisited i (hw.grows.same.count ▸ hi)
    · obtain ⟨hset, hord⟩ := hstep.trans (hw.stepped H₁.good)
      exact ⟨hset, hord⟩

/-- What `exit_all` has done when it has taken the drivers `down` down. -/
structure Exiting (s : Lifecycle) (down : List ℕ) (s' : Lifecycle) : Prop where
  same : SameNodes s s'
  initCalls : s'.initCalls = s.initCalls
  mark : ∀ i, s'.mark i = s.mark i
  flag : ∀ i, (s'.nodes i).initialized = true ↔ (s.nodes i).initialized = true ∧ i ∉ down

theorem exitNode_sat {down : List ℕ} (H : Exiting s down s') (i : ℕ) :
    ((exitNode i).run s').Sat (fun _ s'' => Exiting s (down ++ [i]) s'')
      (fun _ _ => False) := by
  have hmem : ∀ j, j ∉ down ++ [i] ↔ j ∉ down ∧ j ≠ i := by
    intro j
    rw [List.mem_append, List.mem_singleton, not_or]
  rw [exitNode, run_gets_bind]
  cases hflag : (s'.nodes i).initialized with
  | false =>
    refine ⟨H.same, H.initCalls, H.mark, fun j => ?_⟩
    rw [hmem, H.flag, ← and_assoc]
    refine ⟨fun h => ⟨h, ?_⟩, fun h => h.1⟩
    rintro rfl
    rw [(H.flag j).mpr h] at hflag
    cases hflag
  | true =>
    have hdown : ∀ s₁ : Lifecycle, Exiting s down s₁ →
        Exiting s (down ++ [i]) (s₁.setNode i { s₁.nodes i with initialized := false }) := by
      intro s₁ H₁
      refine ⟨H₁.same.trans ⟨rfl, rfl, rfl, fun j => ?_⟩, H₁.initCalls, fun j => ?_, fun j => ?_⟩
      · exact field_setNode DriverNode.id s₁ i { s₁.nodes i with initialized := false } rfl j
      · exact (field_setNode DriverNode.visit s₁ i { s₁.nodes i with initialized := false }
          rfl j).trans (H₁.mark j)
      · rw [nodes_setNode, hmem]
        split_ifs with heq
        · exact ⟨fun h => (by cases h), fun h => absurd heq h.2.2⟩
        · rw [H₁.flag j, ← and_assoc]
          exact (and_iff_left heq).symm
    rw [if_neg (by decide : ¬(!true) = true)]
    by_cases hexit : (s'.nodes i).exit ≠ none
    · rw [if_pos hexit]
      exact hdown { s' with calls := s'.calls + 1, exitCalls := s'.exitCalls ++ [i] }
        ⟨⟨H.same.count, H.same.built, H.same.initializedAll, H.same.id⟩, H.initCalls,
          H.mark, H.flag⟩
    · rw [if_neg hexit]
      exact hdown s' H

/-- **`exit_all`** takes every driver down and leaves the marks alone. -/
theorem exitAll_sat (H : Idle reg env s) :
    ((exitAll).run s).Sat
      (fun _ s' => Idle reg env s' ∧ s'.initCalls = s.initCalls ∧ s'.built = s.built)
      (fun _ _ => False) := by
  rw [exitAll, run_gets_bind, sat_bind]
  refine (sat_forEach (I := fun front s' => Exiting s front s') (E := fun _ _ => False)
    (fun front i back s₁ _ h₁ => exitNode_sat h₁ i)
    ⟨SameNodes.refl s, rfl, fun _ => rfl, fun i => ?_⟩).mono (fun _ s₁ h₁ => ?_) (fun _ _ h => h)
  · exact (and_iff_left List.not_mem_nil).symm
  rw [run_modify, Outcome.sat_ok]
  have hflag : ∀ i, (s₁.nodes i).initialized ≠ true := by
    intro i hup
    obtain ⟨hup, hnot⟩ := (h₁.flag i).mp hup
    exact hnot (List.mem_reverse.mpr ((H.good.flag i).mp hup))
  refine ⟨⟨⟨fun hb => ?_, fun hb i => ?_, List.nodup_nil, fun i hi => (by cases hi), fun i => ?_,
    fun i hi => (by cases hi), fun i hi => (by cases hi), fun c hc => (by cases hc), ?_⟩,
    fun i hm => H.rest i ((h₁.mark i).symm.trans hm), fun h => by cases h⟩, h₁.initCalls,
    h₁.same.built⟩
  · have hvalid := (H.good.valid (h₁.same.built.symm.trans hb)).same h₁.same
    exact ⟨hvalid.count_le, hvalid.drivers, hvalid.distinct, hvalid.providers⟩
  · exact (h₁.mark i).trans (H.good.blank (h₁.same.built.symm.trans hb) i)
  · exact ⟨fun h => absurd h (hflag i), fun h => by cases h⟩
  · exact ⟨fun _ r hr => (by cases hr), fun _ => ⟨fun c hc => (by cases hc), List.nodup_nil⟩⟩

/-! ## Runs -/

theorem idle_start : Idle reg env {} := by
  have hnone : ∀ i, i ∉ ([] : List ℕ) := fun _ => List.not_mem_nil
  refine ⟨⟨fun h => (by cases h), fun _ _ => rfl, List.nodup_nil, fun i hi => absurd hi (hnone i),
    fun i => ⟨fun h => (by cases h), fun h => absurd h (hnone i)⟩, fun i hi => absurd hi (hnone i),
    fun i hi => absurd hi (hnone i), fun c hc => absurd hc List.not_mem_nil, ?_⟩,
    fun i h => (by cases h), fun h => by cases h⟩
  exact ⟨fun _ r hr => absurd hr List.not_mem_nil,
    fun _ => ⟨fun c hc => absurd hc List.not_mem_nil, List.nodup_nil⟩⟩

/-- A run is one under another restriction that its calls meet. -/
theorem Reachable.mono {allowed allowed' : Lifecycle → Call → Prop}
    (h : Reachable reg env allowed s)
    (hmono : ∀ t c, Reachable reg env allowed t → allowed t c → allowed' t c) :
    Reachable reg env allowed' s := by
  induction h with
  | start => exact .start
  | call c hreach hok hrun ih => exact .call c ih (hmono _ c hreach hok) hrun

/-- What holds between calls holds in every run. -/
theorem Reachable.idle {allowed : Lifecycle → Call → Prop} (h : Reachable reg env allowed s) :
    Idle reg env s := by
  induction h with
  | start => exact idle_start
  | @call t t' c _ _ hrun ih =>
    cases c with
    | init =>
      exact ((initAll_sat ih).mono (fun _ _ h => h.1.1) (fun _ _ h => h.1)).of_state? hrun
    | exit =>
      exact ((exitAll_sat ih).mono (fun _ _ h => h.1) (fun _ _ h => h.elim)).of_state? hrun

/-- Entry points are called in order as long as `init_all` is called with every visited driver
up. -/
theorem Reachable.inOrder {allowed : Lifecycle → Call → Prop}
    (hallowed : ∀ t, allowed t .init → Settled t) (h : Reachable reg env allowed s) :
    ∀ c ∈ s.initCalls, InOrder reg c := by
  induction h with
  | start =>
    intro c hc
    cases hc
  | @call t t' c hreach hok hrun ih =>
    intro call hcall
    cases c with
    | init =>
      have hstep : Stepped reg t t' :=
        ((initAll_sat hreach.idle).mono (fun _ _ h => h.1.2) (fun _ _ h => h.2)).of_state? hrun
      rcases hstep.ordered (hallowed t hok) call hcall with hold | hin
      · exact ih call hold
      · exact hin
    | exit =>
      have hcalls : t'.initCalls = t.initCalls :=
        ((exitAll_sat hreach.idle).mono (fun _ _ h => h.2.1) (fun _ _ h => h.elim)).of_state? hrun
      exact ih call (hcalls ▸ hcall)

/-- When only `init_all` is called, every visited driver stays up. -/
theorem Reachable.settled (h : Reachable reg env (fun _ c => c = .init) s) : Settled s := by
  induction h with
  | start =>
    intro i hi
    exact absurd hi (Nat.not_lt_zero i)
  | @call t t' c hreach hok hrun ih =>
    subst hok
    have hstep : Stepped reg t t' :=
      ((initAll_sat hreach.idle).mono (fun _ _ h => h.1.2) (fun _ _ h => h.2)).of_state? hrun
    exact hstep.settled.mpr ih

/-- Every call returns. -/
theorem Idle.exists_call (H : Idle reg env s) (c : Call) :
    ∃ s', ((exec reg env c).run s).state? = some s' := by
  cases c with
  | init => exact (initAll_sat H).exists_state?
  | exit => exact (exitAll_sat H).exists_state?

/-- The state a call leaves behind. -/
def after (reg : Registry) (env : DriverEnv) (s : Lifecycle) (c : Call) : Lifecycle :=
  ((exec reg env c).run s).state?.getD s

theorem Reachable.after {allowed : Lifecycle → Call → Prop} (h : Reachable reg env allowed s)
    {c : Call} (hok : allowed s c) : Reachable reg env allowed (s.after reg env c) := by
  obtain ⟨s', hs'⟩ := h.idle.exists_call c
  have heq : s.after reg env c = s' := by
    rw [Lifecycle.after, hs', Option.getD_some]
  rw [heq]
  exact .call c h hok hs'

/-- Every driver is up, and every capability that is provided can be found. -/
structure AllUp (reg : Registry) (s : Lifecycle) : Prop where
  drivers : ∀ id ∈ reg.drivers,
    ∃ i < s.nodeCount, (s.nodes i).id = id ∧ (s.nodes i).initialized = true
  capabilities : ∀ r ∈ reg.provideRecords,
    findCapability s.capabilities (capabilityName r.capability) ≠ none

theorem mem_drivers (hi : i < s.nodeCount) : (s.nodes i).id ∈ s.drivers :=
  List.mem_map.mpr ⟨i, List.mem_range.mpr hi, rfl⟩

/-- An entry under the key of a record is found under the name of the key. -/
theorem findCapability_ne_none {caps : List RegisteredCapability} {c : RegisteredCapability}
    {key : Option CapabilityKey} (hc : c ∈ caps) (hkey : c.key = key) (hsome : key ≠ none) :
    findCapability caps (capabilityName key) ≠ none := by
  rw [findCapability, ne_eq, Option.map_eq_none_iff, List.find?_eq_none]
  intro hno
  refine hno c hc ?_
  rw [hkey, sameCapability, Option.isSome_iff_ne_none.mpr hsome, Bool.true_and, stringEqual]
  exact decide_eq_true rfl

/-- After a successful `init_all` everything is up exactly when every visited driver is. -/
theorem Idle.allUp_iff (H : Idle reg env s) (hall : s.initializedAll = true) :
    AllUp reg s ↔ Settled s := by
  obtain ⟨hb, hvisited⟩ := H.all hall
  have hvalid := H.good.valid hb
  constructor
  · intro hup i hi _
    obtain ⟨j, hj, hid, hflag⟩ := hup.drivers (s.nodes i).id (hvalid.drivers ▸ mem_drivers hi)
    rw [hvalid.distinct i hi j hj (congrArg DriverId.name hid.symm)]
    exact hflag
  · intro hset
    refine ⟨fun id hid => ?_, fun r hr => ?_⟩
    · rw [← hvalid.drivers] at hid
      obtain ⟨i, hi, hid⟩ := List.mem_map.mp hid
      rw [List.mem_range] at hi
      exact ⟨i, hi, hid, hset i hi (hvisited i hi)⟩
    · obtain ⟨hcap, i, hi, hname⟩ := hvalid.providers r hr
      have hup := (H.good.flag i).mp (hset i hi (hvisited i hi))
      obtain ⟨c, hc, hkey⟩ := H.good.covered i hup r hr hname.symm
      exact findCapability_ne_none hc hkey hcap

/-- When every node is up, `initialized` lists the drivers. -/
theorem Idle.initialized_perm (H : Idle reg env s) (hall : s.initializedAll = true)
    (hset : Settled s) : (s.initialized.map fun i => (s.nodes i).id).Perm reg.drivers := by
  obtain ⟨hb, hvisited⟩ := H.all hall
  rw [← (H.good.valid hb).drivers, drivers]
  refine List.Perm.map _ ((List.perm_ext_iff_of_nodup H.good.nodup List.nodup_range).mpr ?_)
  intro i
  rw [List.mem_range]
  exact ⟨H.good.lt i, fun hi => (H.good.flag i).mp (hset i hi (hvisited i hi))⟩

/-- **Drivers come up in order.**  In a run of `init_all` alone, entry points are called once what
the driver needs is up and not again afterwards, no node is left in the middle of a visit, and
`init_all` returns, with every driver up when it succeeds. -/
theorem init_all_brings_up_in_order (h : Reachable reg env (fun _ c => c = .init) s) :
    (∀ c ∈ s.initCalls, InOrder reg c) ∧ s.initialized.Nodup ∧ (∀ i, s.mark i ≠ .visiting) ∧
      ((initAll reg env).run s).Sat
        (fun _ s' => (s'.initialized.map fun i => (s'.nodes i).id).Perm reg.drivers)
        (fun _ _ => True) := by
  have hsettled : Reachable reg env (fun s c => c = .init → Settled s) s :=
    h.mono (fun t c ht _ _ => ht.settled)
  refine ⟨hsettled.inOrder (fun t ht => ht rfl), h.idle.good.nodup, h.idle.rest, ?_⟩
  refine (initAll_sat h.idle).mono (fun _ s' hs' => ?_) (fun _ _ _ => trivial)
  obtain ⟨⟨H, hstep⟩, hall⟩ := hs'
  exact H.initialized_perm hall (hstep.settled.mpr h.settled)

/-- Two drivers, the second of which needs the first and provides a capability. -/
def smallRegistry : Registry where
  drivers := [⟨some "fb"⟩, ⟨some "tty"⟩]
  initRecords := [⟨some ⟨some "tty"⟩, some 1⟩]
  provideRecords := [⟨some ⟨some "tty"⟩, some ⟨some "console", .single⟩, some 2⟩]
  requireDriverRecords := [⟨some ⟨some "tty"⟩, some "fb"⟩]

/-- Every function succeeds. -/
def smallEnv : DriverEnv := ⟨fun _ _ => .ok (), fun _ _ => some 7⟩

theorem reachable_small : Reachable smallRegistry smallEnv (fun _ c => c = .init)
    (({} : Lifecycle).after smallRegistry smallEnv .init) := Reachable.start.after rfl

theorem init_all_brings_up_in_order_small :
    ∃ s, Reachable smallRegistry smallEnv (fun _ c => c = .init) s ∧ s.initialized = [0, 1] ∧
      s.initCalls.length = 1 ∧ (∀ c ∈ s.initCalls, InOrder smallRegistry c) ∧
      s.initialized.Nodup :=
  ⟨_, reachable_small, by decide +kernel, by decide +kernel,
    (init_all_brings_up_in_order reachable_small).1,
    (init_all_brings_up_in_order reachable_small).2.1⟩

/-- **Restarting the drivers.**  In a run that calls `init_all` only when every visited driver is
up, entry points are called in order.  A call of `init_all` that succeeds has then brought
everything up, and otherwise it has not: a visited driver is not looked at again. -/
theorem init_all_restarts_iff (h : Reachable reg env (fun s c => c = .init → Settled s) s) :
    (∀ c ∈ s.initCalls, InOrder reg c) ∧
      ∀ s', (initAll reg env).run s = .ok () s' → (AllUp reg s' ↔ Settled s) := by
  refine ⟨h.inOrder (fun t ht => ht rfl), fun s' hrun => ?_⟩
  obtain ⟨⟨H, hstep⟩, hall⟩ := (initAll_sat h.idle).of_ok hrun
  exact (H.allUp_iff hall).trans hstep.settled

theorem init_all_restarts_iff_small :
    ∃ s, Reachable smallRegistry smallEnv (fun s c => c = .init → Settled s) s ∧
      s.initialized = [0, 1] ∧ (∀ c ∈ s.initCalls, InOrder smallRegistry c) ∧
      ∀ s', (initAll smallRegistry smallEnv).run s = .ok () s' →
        (AllUp smallRegistry s' ↔ Settled s) := by
  have h := reachable_small.mono (fun t c ht _ (_ : c = .init) => ht.settled)
  exact ⟨_, h, by decide +kernel, init_all_restarts_iff h⟩

/-- Once `exit_all` has been called, `init_all` succeeds and brings nothing up. -/
theorem init_all_after_exit_all :
    ∃ s s', Reachable smallRegistry smallEnv (fun _ _ => True) s ∧
      (initAll smallRegistry smallEnv).run s = .ok () s' ∧ ¬AllUp smallRegistry s' := by
  have hrun : (match (initAll smallRegistry smallEnv).run
      ((({} : Lifecycle).after smallRegistry smallEnv .init).after
        smallRegistry smallEnv .exit) with
    | .ok _ s' => s'.capabilities.isEmpty
    | _ => false) = true := by decide +kernel
  cases hout : (initAll smallRegistry smallEnv).run
      ((({} : Lifecycle).after smallRegistry smallEnv .init).after
        smallRegistry smallEnv .exit) with
  | ok u s' =>
    rw [hout] at hrun
    refine ⟨_, s', (Reachable.start.after trivial).after trivial, hout, fun hup => ?_⟩
    have hfound := hup.capabilities _ (List.mem_singleton_self _)
    rw [List.isEmpty_iff.mp hrun] at hfound
    exact hfound rfl
  | err e s' =>
    rw [hout] at hrun
    cases hrun
  | halt f =>
    rw [hout] at hrun
    cases hrun

/-- **Capabilities of drivers that are up.**  The table holds only entries of drivers that are up,
and no record twice, exactly when every registration since the table was empty had all its
records registered or failed at the first. -/
theorem capabilities_live_iff {allowed : Lifecycle → Call → Prop}
    (h : Reachable reg env allowed s) :
    ((∀ c ∈ s.capabilities, ∃ i ∈ s.initialized,
        (s.nodes i).id = c.driver ∧ (s.nodes i).initialized = true) ∧
      (s.capabilities.map RegisteredCapability.record).Nodup) ↔
      ∀ r ∈ s.registrations, AllOrNothing reg env r := by
  have G := h.idle.good
  rw [← G.belongs]
  constructor
  · rintro ⟨hlive, honce⟩
    refine ⟨fun c hc => ?_, honce⟩
    obtain ⟨i, hi, hid, -⟩ := hlive c hc
    exact ⟨i, hi, hid⟩
  · intro hbelongs
    refine ⟨fun c hc => ?_, hbelongs.once⟩
    obtain ⟨i, hi, hid⟩ := hbelongs.live c hc
    exact ⟨i, hi, hid, (G.flag i).mpr hi⟩

/-- A driver with two capabilities. -/
def pairRegistry : Registry where
  drivers := [⟨some "fb"⟩]
  provideRecords := [⟨some ⟨some "fb"⟩, some ⟨some "console", .single⟩, some 1⟩,
    ⟨some ⟨some "fb"⟩, some ⟨some "raster", .single⟩, some 2⟩]

/-- The second capability cannot be resolved. -/
def pairEnv : DriverEnv := ⟨fun _ _ => .ok (), fun f _ => if f = 1 then some 7 else none⟩

theorem reachable_pair : Reachable pairRegistry pairEnv (fun _ c => c = .init)
    (({} : Lifecycle).after pairRegistry pairEnv .init) := Reachable.start.after rfl

theorem capabilities_live_iff_pair :
    ∃ s, Reachable pairRegistry pairEnv (fun _ c => c = .init) s ∧
      (((∀ c ∈ s.capabilities, ∃ i ∈ s.initialized,
          (s.nodes i).id = c.driver ∧ (s.nodes i).initialized = true) ∧
        (s.capabilities.map RegisteredCapability.record).Nodup) ↔
        ∀ r ∈ s.registrations, AllOrNothing pairRegistry pairEnv r) :=
  ⟨_, reachable_pair, capabilities_live_iff reachable_pair⟩

/-- The first capability of a driver that is not up is found. -/
theorem capability_of_failed_driver :
    ∃ s, Reachable pairRegistry pairEnv (fun _ c => c = .init) s ∧
      findCapability s.capabilities (some "console") = some 7 ∧
      ¬((∀ c ∈ s.capabilities, ∃ i ∈ s.initialized,
          (s.nodes i).id = c.driver ∧ (s.nodes i).initialized = true) ∧
        (s.capabilities.map RegisteredCapability.record).Nodup) := by
  refine ⟨_, reachable_pair, by decide +kernel, fun h => ?_⟩
  have hnone : (({} : Lifecycle).after pairRegistry pairEnv .init).initialized = [] := by
    decide +kernel
  have hentry : (({} : Lifecycle).after pairRegistry pairEnv .init).capabilities
      = [⟨some ⟨some "console", .single⟩, ⟨some "fb"⟩, 7, 0⟩] := by
    decide +kernel
  obtain ⟨i, hi, -⟩ := h.1 _ (hentry ▸ List.mem_singleton_self _)
  rw [hnone] at hi
  cases hi

end Lifecycle

end DoomOs
