/-
# What holds of the drivers

`Good` is what holds of the lifecycle between any two steps of bringing drivers up: what is in
`initialized`, what the table of capabilities covers, and when its entries belong to drivers
that are up.  `Settled` says that every visited driver is up, which `visit` relies on without
a look.  The module ends with `run_driver`: what it does to the state, and that an entry point
is called in order when what the driver needs is up.
-/
import DoomOs.Lifecycle

namespace DoomOs

open Comp

namespace Lifecycle

variable {reg : Registry} {env : DriverEnv} {s s' s'' : Lifecycle} {i j : ℕ}

/-! ## Names and dependencies -/

/-- The name of the driver at a node. -/
def name (s : Lifecycle) (i : ℕ) : Option String := (s.nodes i).id.name

/-- The mark of a node. -/
def mark (s : Lifecycle) (i : ℕ) : VisitState := (s.nodes i).visit

theorem findNode_some {n : Option String} (h : s.findNode n = some i) :
    i < s.nodeCount ∧ s.name i = n := by
  rw [findNode] at h
  split_ifs at h
  obtain ⟨hname, hmem, -⟩ := List.find?_range_eq_some.mp h
  exact ⟨List.mem_range.mp hmem, of_decide_eq_true hname⟩

theorem findNode_none {n : Option String} (hn : n ≠ none) (h : s.findNode n = none)
    (hi : i < s.nodeCount) : s.name i ≠ n := by
  rw [findNode, if_neg hn] at h
  have := List.find?_eq_none.mp h i (List.mem_range.mpr hi)
  simpa [stringEqual, name] using this

/-- What a driver needs before its entry point is called, in terms of the drivers that are
up and the capabilities that are registered. -/
structure Prepared (reg : Registry) (driver : Option String) (up : Option String → Prop)
    (capabilities : List RegisteredCapability) : Prop where
  drivers : ∀ r ∈ reg.requireDriverRecords, driverName r.driver = driver → up r.dependencyName
  providers : ∀ r ∈ reg.requireCapabilityRecords, driverName r.driver = driver →
    ∀ p ∈ reg.provideRecords, sameCapability p.capability (capabilityName r.capability) = true →
      up (driverName p.driver)
  capabilities : ∀ r ∈ reg.requireCapabilityRecords, driverName r.driver = driver →
    findCapability capabilities (capabilityName r.capability) ≠ none

theorem Prepared.mono {driver : Option String} {up up' : Option String → Prop}
    {caps : List RegisteredCapability} (h : Prepared reg driver up caps)
    (hup : ∀ n, up n → up' n) : Prepared reg driver up' caps :=
  ⟨fun r hr hd => hup _ (h.drivers r hr hd),
    fun r hr hd p hp hc => hup _ (h.providers r hr hd p hp hc), h.capabilities⟩

/-- An entry point was called in order: the driver was not up, and what it needs was. -/
structure InOrder (reg : Registry) (c : InitCall) : Prop where
  fresh : c.driver ∉ c.initialized
  prepared : Prepared reg (c.nodes c.driver).id.name
    (fun n => ∃ j ∈ c.initialized, (c.nodes j).id.name = n ∧ (c.nodes j).initialized = true)
    c.capabilities

/-! ## Registrations -/

/-- A record can be registered after so many calls of driver functions, when there are so many
entries in the table: its resolver gives an interface, and the table is not full. -/
def Registers (env : DriverEnv) (r : ProvideRecord × ℕ) (calls count : ℕ) : Prop :=
  r.1.resolve.bind (env.resolve · calls) ≠ none ∧ count ≠ maxRegisteredCapabilities

/-- All records of the driver are going to be registered, or the first one already fails. -/
def AllOrNothing (reg : Registry) (env : DriverEnv) (r : Registration) : Prop :=
  (∀ k x, (recordsOf reg r.driver.name)[k]? = some x →
    Registers env x (r.calls + k) (r.capabilityCount + k)) ∨
  ∃ x, (recordsOf reg r.driver.name)[0]? = some x ∧ ¬Registers env x r.calls r.capabilityCount

/-- Every capability in the table belongs to a driver that is up, and no record is in it
twice. -/
structure Belongs (s : Lifecycle) : Prop where
  live : ∀ c ∈ s.capabilities, ∃ i ∈ s.initialized, (s.nodes i).id = c.driver
  once : (s.capabilities.map RegisteredCapability.record).Nodup

/-! ## The invariant -/

/-- The drivers of the nodes. -/
def drivers (s : Lifecycle) : List DriverId :=
  (List.range s.nodeCount).map fun i => (s.nodes i).id

/-- What `build_registry` has checked. -/
structure Valid (reg : Registry) (s : Lifecycle) : Prop where
  count_le : s.nodeCount ≤ maxDrivers
  drivers : s.drivers = reg.drivers
  distinct : ∀ i < s.nodeCount, ∀ j < s.nodeCount, s.name i = s.name j → i = j
  providers : ∀ r ∈ reg.provideRecords, r.capability ≠ none ∧
    ∃ i < s.nodeCount, s.name i = driverName r.driver

/-- What holds between the steps of the walk, and between calls. -/
structure Good (reg : Registry) (env : DriverEnv) (s : Lifecycle) : Prop where
  valid : s.built = true → Valid reg s
  blank : s.built = false → ∀ i, s.mark i = .notVisited
  nodup : s.initialized.Nodup
  lt : ∀ i ∈ s.initialized, i < s.nodeCount
  flag : ∀ i, (s.nodes i).initialized = true ↔ i ∈ s.initialized
  marked : ∀ i ∈ s.initialized, s.mark i ≠ .notVisited
  covered : ∀ i ∈ s.initialized, ∀ r ∈ reg.provideRecords, driverName r.driver = s.name i →
    ∃ c ∈ s.capabilities, c.key = r.capability
  source : ∀ c ∈ s.capabilities, ∃ r, reg.provideRecords[c.record]? = some r ∧
    driverName r.driver = c.driver.name
  belongs : Belongs s ↔ ∀ r ∈ s.registrations, AllOrNothing reg env r

/-- Every driver that has been visited is up. -/
def Settled (s : Lifecycle) : Prop :=
  ∀ i < s.nodeCount, s.mark i = .visited → (s.nodes i).initialized = true

/-- The nodes and their names are the same, and so are the two flags. -/
structure SameNodes (s s' : Lifecycle) : Prop where
  count : s'.nodeCount = s.nodeCount
  built : s'.built = s.built
  initializedAll : s'.initializedAll = s.initializedAll
  id : ∀ i, (s'.nodes i).id = (s.nodes i).id

theorem SameNodes.refl (s : Lifecycle) : SameNodes s s := ⟨rfl, rfl, rfl, fun _ => rfl⟩

theorem SameNodes.trans (h : SameNodes s s') (h' : SameNodes s' s'') : SameNodes s s'' :=
  ⟨h'.count.trans h.count, h'.built.trans h.built, h'.initializedAll.trans h.initializedAll,
    fun i => (h'.id i).trans (h.id i)⟩

theorem SameNodes.name (h : SameNodes s s') (i : ℕ) : s'.name i = s.name i := by
  rw [Lifecycle.name, Lifecycle.name, h.id]

theorem belongs_congr (hs : SameNodes s s') (hi : s'.initialized = s.initialized)
    (hc : s'.capabilities = s.capabilities) : Belongs s' ↔ Belongs s := by
  constructor
  · intro h
    refine ⟨fun c hmem => ?_, hc ▸ h.once⟩
    obtain ⟨j, hj, hid⟩ := h.live c (hc ▸ hmem)
    exact ⟨j, hi ▸ hj, (hs.id j).symm.trans hid⟩
  · intro h
    refine ⟨fun c hmem => ?_, hc.symm ▸ h.once⟩
    obtain ⟨j, hj, hid⟩ := h.live c (hc ▸ hmem)
    exact ⟨j, hi.symm ▸ hj, (hs.id j).trans hid⟩

theorem Valid.same (h : Valid reg s) (hs : SameNodes s s') : Valid reg s' := by
  refine ⟨hs.count ▸ h.count_le, ?_, fun i hi j hj heq => ?_, fun r hr => ?_⟩
  · rw [Lifecycle.drivers, hs.count, ← h.drivers]
    exact List.map_congr_left (fun i _ => hs.id i)
  · rw [hs.name, hs.name] at heq
    rw [hs.count] at hi hj
    exact h.distinct i hi j hj heq
  · obtain ⟨hcap, i, hi, heq⟩ := h.providers r hr
    exact ⟨hcap, i, hs.count ▸ hi, (hs.name i).trans heq⟩

/-! ## Marks -/

theorem nodes_setNode (s : Lifecycle) (i : ℕ) (node : DriverNode) (j : ℕ) :
    (s.setNode i node).nodes j = if j = i then node else s.nodes j := by
  show Function.update s.nodes i node j = _
  split_ifs with h
  · rw [h, Function.update_self]
  · rw [Function.update_of_ne h]

/-- Setting a node to one with the same field leaves the field alone everywhere. -/
theorem field_setNode {α : Type} (field : DriverNode → α) (s : Lifecycle) (i : ℕ)
    (node : DriverNode) (h : field node = field (s.nodes i)) (j : ℕ) :
    field ((s.setNode i node).nodes j) = field (s.nodes j) := by
  rw [nodes_setNode]
  split_ifs with heq
  · rw [heq, h]
  · rfl

/-- The state with another mark at one node. -/
def withMark (s : Lifecycle) (i : ℕ) (v : VisitState) : Lifecycle :=
  s.setNode i { s.nodes i with visit := v }

theorem setVisit_run (s : Lifecycle) (i : ℕ) (v : VisitState) :
    (setVisit i v).run s = .ok () (s.withMark i v) := rfl

theorem mark_withMark (s : Lifecycle) (i : ℕ) (v : VisitState) (j : ℕ) :
    (s.withMark i v).mark j = if j = i then v else s.mark j := by
  rw [mark, withMark, nodes_setNode]
  split_ifs with h
  · rfl
  · rfl

theorem id_withMark (s : Lifecycle) (i : ℕ) (v : VisitState) (j : ℕ) :
    ((s.withMark i v).nodes j).id = (s.nodes j).id :=
  field_setNode DriverNode.id s i { s.nodes i with visit := v } rfl j

theorem flag_withMark (s : Lifecycle) (i : ℕ) (v : VisitState) (j : ℕ) :
    ((s.withMark i v).nodes j).initialized = (s.nodes j).initialized :=
  field_setNode DriverNode.initialized s i { s.nodes i with visit := v } rfl j

theorem sameNodes_withMark (s : Lifecycle) (i : ℕ) (v : VisitState) :
    SameNodes s (s.withMark i v) := ⟨rfl, rfl, rfl, id_withMark s i v⟩

/-- Only the drivers that are up have to keep their mark. -/
theorem Good.withMark (H : Good reg env s) (hb : s.built = true) {v : VisitState}
    (h : i ∈ s.initialized → v ≠ .notVisited) : Good reg env (s.withMark i v) where
  valid _ := (H.valid hb).same (sameNodes_withMark s i v)
  blank hb' := by
    rw [← (sameNodes_withMark s i v).built, hb'] at hb
    cases hb
  nodup := H.nodup
  lt := H.lt
  flag j := by
    rw [flag_withMark]
    exact H.flag j
  marked j hj := by
    rw [mark_withMark]
    split_ifs with heq
    · exact h (heq ▸ hj)
    · exact H.marked j hj
  covered j hj r hr hname := by
    rw [(sameNodes_withMark s i v).name] at hname
    exact H.covered j hj r hr hname
  source := H.source
  belongs := (belongs_congr (sameNodes_withMark s i v) rfl rfl).trans H.belongs

theorem Settled.withMark (H : Settled s) {v : VisitState}
    (h : v = .visited → (s.nodes i).initialized = true) : Settled (s.withMark i v) := by
  intro j hj hm
  rw [flag_withMark]
  rw [mark_withMark] at hm
  split_ifs at hm with heq
  · rw [heq]
    exact h hm
  · exact H j hj hm

/-! ## Registering capabilities -/

/-- The table entries are those of the records, for the driver `id`. -/
def EntriesOf (id : DriverId) (records : List (ProvideRecord × ℕ))
    (entries : List RegisteredCapability) : Prop :=
  entries.map (fun c => (c.key, c.driver, c.record))
    = records.map (fun r => (r.1.capability, id, r.2))

theorem EntriesOf.mem {id : DriverId} {records : List (ProvideRecord × ℕ)}
    {entries : List RegisteredCapability} (h : EntriesOf id records entries)
    {c : RegisteredCapability} (hc : c ∈ entries) :
    c.driver = id ∧ ∃ r, (r, c.record) ∈ records ∧ r.capability = c.key := by
  have hmem : (c.key, c.driver, c.record) ∈ records.map (fun r => (r.1.capability, id, r.2)) := by
    rw [← h]
    exact List.mem_map_of_mem hc
  obtain ⟨⟨r, n⟩, hr, heq⟩ := List.mem_map.mp hmem
  simp only [Prod.mk.injEq] at heq
  obtain ⟨hkey, rfl, rfl⟩ := heq
  exact ⟨rfl, r, hr, hkey⟩

theorem EntriesOf.exists_mem {id : DriverId} {records : List (ProvideRecord × ℕ)}
    {entries : List RegisteredCapability} (h : EntriesOf id records entries)
    {r : ProvideRecord × ℕ} (hr : r ∈ records) : ∃ c ∈ entries, c.key = r.1.capability := by
  have hmem : (r.1.capability, id, r.2) ∈ entries.map (fun c => (c.key, c.driver, c.record)) := by
    rw [h]
    exact List.mem_map_of_mem hr
  obtain ⟨c, hc, heq⟩ := List.mem_map.mp hmem
  simp only [Prod.mk.injEq] at heq
  exact ⟨c, hc, heq.1⟩

theorem EntriesOf.records {id : DriverId} {records : List (ProvideRecord × ℕ)}
    {entries : List RegisteredCapability} (h : EntriesOf id records entries) :
    entries.map RegisteredCapability.record = records.map Prod.snd := by
  have hmap := congrArg (List.map (fun t : Option CapabilityKey × DriverId × ℕ => t.2.2)) h
  rw [List.map_map, List.map_map] at hmap
  exact hmap

theorem mem_recordsOf {n : Option String} {r : ProvideRecord × ℕ} :
    r ∈ recordsOf reg n ↔ reg.provideRecords[r.2]? = some r.1 ∧ driverName r.1.driver = n := by
  rw [recordsOf, List.mem_filter, List.mem_zipIdx_iff_getElem?]
  simp only [stringEqual, decide_eq_true_eq]

theorem recordsOf_nodup (n : Option String) : ((recordsOf reg n).map Prod.snd).Nodup := by
  refine List.Nodup.sublist (List.filter_sublist.map _) ?_
  rw [List.zipIdx_map_snd]
  exact List.nodup_range'

/-- The loop of `register_capabilities`, with how far it got when it fails. -/
theorem registerAll_sat (id : DriverId) (records : List (ProvideRecord × ℕ)) (s : Lifecycle) :
    ((forEach (registerCapability env id) records).run s).Sat
      (fun _ s' => ∃ entries, EntriesOf id records entries ∧ (s' = { s with
        calls := s.calls + records.length, capabilities := s.capabilities ++ entries }) ∧
        ∀ k y, records[k]? = some y → Registers env y (s.calls + k) (s.capabilities.length + k))
      (fun _ s' => ∃ front x back entries, records = front ++ x :: back ∧
        EntriesOf id front entries ∧
        (s' = { s with
          calls := s.calls + front.length + 1, capabilities := s.capabilities ++ entries }) ∧
        (∀ k y, front[k]? = some y → Registers env y (s.calls + k) (s.capabilities.length + k)) ∧
        ¬Registers env x (s.calls + front.length) (s.capabilities.length + front.length)) := by
  refine sat_forEach (I := fun front s' => ∃ entries, EntriesOf id front entries ∧
    (s' = { s with
      calls := s.calls + front.length, capabilities := s.capabilities ++ entries }) ∧
    ∀ k y, front[k]? = some y → Registers env y (s.calls + k) (s.capabilities.length + k))
    (fun front x back s₁ hsplit hI => ?_)
    ⟨[], rfl, by rw [List.append_nil], fun k y h => by simp at h⟩
  obtain ⟨entries, hentries, rfl, hdone⟩ := hI
  have hlen : (s.capabilities ++ entries).length = s.capabilities.length + front.length := by
    have := congrArg List.length hentries
    simpa using this
  rw [registerCapability, run_gets_bind, run_modify_bind]
  dsimp only
  cases hres : x.1.resolve.bind (env.resolve · (s.calls + front.length)) with
  | none =>
    exact ⟨front, x, back, entries, hsplit, hentries, rfl, hdone, fun h => h.1 hres⟩
  | some api =>
    rw [run_gets_bind]
    dsimp only
    by_cases hfull : (s.capabilities ++ entries).length = maxRegisteredCapabilities
    · rw [if_pos hfull]
      rw [hlen] at hfull
      exact ⟨front, x, back, entries, hsplit, hentries, rfl, hdone, fun h => h.2 hfull⟩
    · rw [if_neg hfull, run_modify]
      rw [hlen] at hfull
      have hok : Registers env x (s.calls + front.length)
          (s.capabilities.length + front.length) := by
        refine ⟨?_, hfull⟩
        rw [hres]
        exact Option.some_ne_none api
      refine ⟨entries ++ [⟨x.1.capability, id, api, x.2⟩], ?_, ?_, fun k y hk => ?_⟩
      · rw [EntriesOf, List.map_append, List.map_append, hentries]
        rfl
      · simp only [List.length_append, List.length_singleton, List.append_assoc, Nat.add_assoc]
      · rw [List.getElem?_append] at hk
        split_ifs at hk with hlt
        · exact hdone k y hk
        · rw [List.getElem?_singleton] at hk
          split_ifs at hk with h0
          obtain rfl : x = y := Option.some.inj hk
          obtain rfl : k = front.length := by omega
          exact hok

/-- What a registration leaves alone, and what it does to the table. -/
structure Registered (i : ℕ) (s : Lifecycle) (entries : List RegisteredCapability)
    (s' : Lifecycle) : Prop where
  nodes : s'.nodes = s.nodes
  count : s'.nodeCount = s.nodeCount
  initialized : s'.initialized = s.initialized
  built : s'.built = s.built
  initializedAll : s'.initializedAll = s.initializedAll
  initCalls : s'.initCalls = s.initCalls
  capabilities : s'.capabilities = s.capabilities ++ entries
  registrations : s'.registrations
    = s.registrations ++ [⟨(s.nodes i).id, s.calls, s.capabilities.length⟩]

theorem registerCapabilities_sat (i : ℕ) (s : Lifecycle) :
    ((registerCapabilities reg env i).run s).Sat
      (fun _ s' => ∃ entries, EntriesOf (s.nodes i).id (recordsOf reg (s.name i)) entries ∧
        Registered i s entries s' ∧
        AllOrNothing reg env ⟨(s.nodes i).id, s.calls, s.capabilities.length⟩)
      (fun _ s' => ∃ front entries, front <+: recordsOf reg (s.name i) ∧
        EntriesOf (s.nodes i).id front entries ∧ Registered i s entries s' ∧
        (AllOrNothing reg env ⟨(s.nodes i).id, s.calls, s.capabilities.length⟩ ↔
          entries = [])) := by
  rw [registerCapabilities, run_gets_bind, run_modify_bind]
  refine (registerAll_sat _ _ _).mono (fun _ s' h => ?_) (fun _ s' h => ?_)
  · obtain ⟨entries, hentries, rfl, hall⟩ := h
    exact ⟨entries, hentries, ⟨rfl, rfl, rfl, rfl, rfl, rfl, rfl, rfl⟩, Or.inl hall⟩
  · obtain ⟨front, x, back, entries, hsplit, hentries, rfl, hdone, hfail⟩ := h
    refine ⟨front, entries, ⟨x :: back, hsplit.symm⟩, hentries,
      ⟨rfl, rfl, rfl, rfl, rfl, rfl, rfl, rfl⟩, ?_⟩
    have hfront : entries = [] ↔ front = [] := by
      have := congrArg List.length hentries
      rw [List.length_map, List.length_map] at this
      rw [← List.length_eq_zero_iff, this, List.length_eq_zero_iff]
    rw [hfront, AllOrNothing]
    dsimp only at hdone hfail hsplit ⊢
    rw [hsplit]
    cases front with
    | nil => exact ⟨fun _ => rfl, fun _ => Or.inr ⟨x, rfl, hfail⟩⟩
    | cons y ys =>
      refine ⟨fun h => ?_, fun h => by cases h⟩
      rcases h with hall | ⟨first, hfirst, hbad⟩
      · -- everything was going to be registered, so nothing failed
        exact absurd (hall (y :: ys).length x (by simp)) hfail
      · -- the first record failed, so it was not passed
        obtain rfl : y = first := Option.some.inj hfirst
        exact absurd (hdone 0 y rfl) hbad

/-! ## Running a driver -/

theorem Registered.sameNodes {entries : List RegisteredCapability} (h : Registered i s entries s') :
    SameNodes s s' := ⟨h.count, h.built, h.initializedAll, fun j => by rw [h.nodes]⟩

theorem Registered.mark {entries : List RegisteredCapability} (h : Registered i s entries s')
    (j : ℕ) : s'.mark j = s.mark j := by
  rw [Lifecycle.mark, Lifecycle.mark, h.nodes]

/-- The entries made of records of a driver come from these records. -/
theorem EntriesOf.source {id : DriverId} {front : List (ProvideRecord × ℕ)}
    {entries : List RegisteredCapability} (h : EntriesOf id front entries)
    (hfront : front ⊆ recordsOf reg id.name) {c : RegisteredCapability} (hc : c ∈ entries) :
    ∃ r, reg.provideRecords[c.record]? = some r ∧ driverName r.driver = c.driver.name := by
  obtain ⟨hid, r, hr, -⟩ := h.mem hc
  obtain ⟨hget, hname⟩ := mem_recordsOf.mp (hfront hr)
  exact ⟨r, hget, by rw [hid]; exact hname⟩

/-- An entry of the table comes from the records of its driver, and of no other. -/
theorem Good.record_mem_iff (H : Good reg env s) {c : RegisteredCapability}
    (hc : c ∈ s.capabilities) (n : Option String) :
    c.record ∈ (recordsOf reg n).map Prod.snd ↔ c.driver.name = n := by
  obtain ⟨r, hget, hname⟩ := H.source c hc
  constructor
  · intro hmem
    obtain ⟨⟨r', k⟩, hr', hk⟩ := List.mem_map.mp hmem
    obtain ⟨hget', hname'⟩ := mem_recordsOf.mp hr'
    dsimp only at hk hget' hname'
    rw [hk, hget] at hget'
    obtain rfl : r = r' := Option.some.inj hget'
    exact hname.symm.trans hname'
  · intro hn
    exact List.mem_map_of_mem
      (mem_recordsOf.mpr ⟨hget, hname.trans hn⟩ : (r, c.record) ∈ recordsOf reg n)

/-- No other driver that is up has the identity of a driver that is not. -/
theorem Good.not_up (H : Good reg env s) (hb : s.built = true) (hi : i < s.nodeCount)
    (hnot : i ∉ s.initialized) (hj : j ∈ s.initialized) : s.name j ≠ s.name i := by
  intro hname
  exact hnot ((H.valid hb).distinct j (H.lt j hj) i hi hname ▸ hj)

/-- As long as the table is in order, nothing in it comes from the records of a driver that is
not up. -/
theorem Good.records_nodup (H : Good reg env s) (hb : s.built = true) (hi : i < s.nodeCount)
    (hnot : i ∉ s.initialized) (hbel : Belongs s) :
    (s.capabilities.map RegisteredCapability.record
      ++ (recordsOf reg (s.name i)).map Prod.snd).Nodup := by
  rw [List.nodup_append]
  refine ⟨hbel.once, recordsOf_nodup _, fun a ha b hb' heq => ?_⟩
  subst heq
  obtain ⟨c, hc, rfl⟩ := List.mem_map.mp ha
  obtain ⟨j, hj, hid⟩ := hbel.live c hc
  refine H.not_up hb hi hnot hj ?_
  rw [Lifecycle.name, hid]
  exact (H.record_mem_iff hc _).mp hb'

section Register

variable (H : Good reg env s) (hb : s.built = true) (hi : i < s.nodeCount)
  (hnot : i ∉ s.initialized) {entries : List RegisteredCapability} (h : Registered i s entries s')
include H hb hi hnot h

/-- A registration that fails leaves its entries behind, and their driver is not up. -/
theorem belongs_registerFails {front : List (ProvideRecord × ℕ)}
    (hentries : EntriesOf (s.nodes i).id front entries) :
    Belongs s' ↔ Belongs s ∧ entries = [] := by
  have hcongr : entries = [] → (Belongs s' ↔ Belongs s) := by
    rintro rfl
    exact belongs_congr h.sameNodes h.initialized (h.capabilities.trans (List.append_nil _))
  refine ⟨fun hbel => ?_, fun hbel => (hcongr hbel.2).mpr hbel.1⟩
  have hnil : entries = [] := by
    refine List.eq_nil_iff_forall_not_mem.mpr (fun c hc => ?_)
    obtain ⟨j, hj, hid⟩ := hbel.live c (h.capabilities ▸ List.mem_append_right _ hc)
    rw [h.initialized] at hj
    rw [h.nodes, (hentries.mem hc).1] at hid
    exact H.not_up hb hi hnot hj (congrArg DriverId.name hid)
  exact ⟨(hcongr hnil).mp hbel, hnil⟩

/-- A registration that fails leaves a good state. -/
theorem Good.registerFails {front : List (ProvideRecord × ℕ)}
    (hfront : front <+: recordsOf reg (s.name i))
    (hentries : EntriesOf (s.nodes i).id front entries)
    (hnone : AllOrNothing reg env ⟨(s.nodes i).id, s.calls, s.capabilities.length⟩ ↔
      entries = []) : Good reg env s' where
  valid _ := (H.valid hb).same h.sameNodes
  blank hb' := by
    rw [← h.built, hb'] at hb
    cases hb
  nodup := h.initialized ▸ H.nodup
  lt j hj := by
    rw [h.count]
    exact H.lt j (h.initialized ▸ hj)
  flag j := by
    rw [h.nodes, h.initialized]
    exact H.flag j
  marked j hj := by
    rw [h.mark]
    exact H.marked j (h.initialized ▸ hj)
  covered j hj r hr hname := by
    rw [h.sameNodes.name] at hname
    obtain ⟨c, hc, hkey⟩ := H.covered j (h.initialized ▸ hj) r hr hname
    refine ⟨c, ?_, hkey⟩
    rw [h.capabilities]
    exact List.mem_append_left _ hc
  source c hc := by
    rw [h.capabilities, List.mem_append] at hc
    rcases hc with hc | hc
    · exact H.source c hc
    · exact hentries.source hfront.subset hc
  belongs := by
    rw [belongs_registerFails H hb hi hnot h hentries, H.belongs, h.registrations,
      List.forall_mem_append, List.forall_mem_singleton, hnone]

end Register

/-- The state after `node.initialized = true` and the append to `initialized`. -/
def bringUp (s : Lifecycle) (i : ℕ) : Lifecycle :=
  { s.setNode i { s.nodes i with initialized := true } with initialized := s.initialized ++ [i] }

theorem id_bringUp (s : Lifecycle) (i j : ℕ) : ((s.bringUp i).nodes j).id = (s.nodes j).id :=
  field_setNode DriverNode.id s i { s.nodes i with initialized := true } rfl j

theorem mark_bringUp (s : Lifecycle) (i j : ℕ) : (s.bringUp i).mark j = s.mark j :=
  field_setNode DriverNode.visit s i { s.nodes i with initialized := true } rfl j

theorem flag_bringUp (s : Lifecycle) (i j : ℕ) :
    ((s.bringUp i).nodes j).initialized = true ↔ j = i ∨ (s.nodes j).initialized = true := by
  show ((s.setNode i { s.nodes i with initialized := true }).nodes j).initialized = true ↔ _
  rw [nodes_setNode]
  split_ifs with h
  · exact ⟨fun _ => Or.inl h, fun _ => rfl⟩
  · exact (or_iff_right h).symm

theorem sameNodes_bringUp (s : Lifecycle) (i : ℕ) : SameNodes s (s.bringUp i) :=
  ⟨rfl, rfl, rfl, id_bringUp s i⟩

/-- There is room in `initialized` for a driver that is not up. -/
theorem Good.length_lt (H : Good reg env s) (hb : s.built = true) (hi : i < s.nodeCount)
    (hnot : i ∉ s.initialized) : s.initialized.length < maxDrivers := by
  have hnodup : (i :: s.initialized).Nodup := List.nodup_cons.mpr ⟨hnot, H.nodup⟩
  have hsub : (i :: s.initialized).toFinset ⊆ Finset.range s.nodeCount := by
    intro j hj
    rw [List.mem_toFinset, List.mem_cons] at hj
    rw [Finset.mem_range]
    rcases hj with rfl | hj
    · exact hi
    · exact H.lt j hj
  have hcard := Finset.card_le_card hsub
  rw [List.toFinset_card_of_nodup hnodup, Finset.card_range, List.length_cons] at hcard
  have := (H.valid hb).count_le
  omega

section BringUp

variable (H : Good reg env s) (hb : s.built = true) (hi : i < s.nodeCount)
  (hnot : i ∉ s.initialized) {entries : List RegisteredCapability}
  (hentries : EntriesOf (s.nodes i).id (recordsOf reg (s.name i)) entries)
  (h : Registered i s entries s')
include H hb hi hnot hentries h

/-- When a driver comes up, its entries are in order.  If an earlier attempt has left entries
of it behind, their records are now in the table twice. -/
theorem belongs_bringUp : Belongs (s'.bringUp i) ↔ Belongs s := by
  have hsame := h.sameNodes.trans (sameNodes_bringUp s' i)
  have hinit : ∀ j, j ∈ (s'.bringUp i).initialized ↔ j ∈ s.initialized ∨ j = i := by
    intro j
    rw [← h.initialized]
    exact List.mem_append.trans (or_congr Iff.rfl List.mem_singleton)
  have hcaps : (s'.bringUp i).capabilities = s.capabilities ++ entries := h.capabilities
  constructor
  · intro hbel
    have honce := hbel.once
    rw [hcaps, List.map_append, hentries.records] at honce
    refine ⟨fun c hc => ?_, (List.nodup_append.mp honce).1⟩
    obtain ⟨j, hj, hid⟩ := hbel.live c (hcaps ▸ List.mem_append_left _ hc)
    rw [hsame.id] at hid
    rcases (hinit j).mp hj with hj | rfl
    · exact ⟨j, hj, hid⟩
    · have hrecord := (H.record_mem_iff hc (s.name j)).mpr (congrArg DriverId.name hid.symm)
      exact absurd rfl ((List.nodup_append.mp honce).2.2 _ (List.mem_map_of_mem hc) _ hrecord)
  · intro hbel
    refine ⟨fun c hc => ?_, ?_⟩
    · rw [hcaps, List.mem_append] at hc
      rcases hc with hc | hc
      · obtain ⟨j, hj, hid⟩ := hbel.live c hc
        exact ⟨j, (hinit j).mpr (Or.inl hj), (hsame.id j).trans hid⟩
      · exact ⟨i, (hinit i).mpr (Or.inr rfl), (hsame.id i).trans (hentries.mem hc).1.symm⟩
    · -- the earlier entries come from records of other drivers
      rw [hcaps, List.map_append, hentries.records]
      exact H.records_nodup hb hi hnot hbel

/-- A driver whose records are all registered can be brought up. -/
theorem Good.bringUp (hmark : s.mark i ≠ .notVisited)
    (hall : AllOrNothing reg env ⟨(s.nodes i).id, s.calls, s.capabilities.length⟩) :
    Good reg env (s'.bringUp i) := by
  have hsame := h.sameNodes.trans (sameNodes_bringUp s' i)
  have hinit : (s'.bringUp i).initialized = s.initialized ++ [i] := by
    rw [← h.initialized]
    rfl
  have hmem : ∀ j, j ∈ s.initialized ++ [i] ↔ j ∈ s.initialized ∨ j = i := by
    intro j
    rw [List.mem_append, List.mem_singleton]
  have hcaps : (s'.bringUp i).capabilities = s.capabilities ++ entries := h.capabilities
  refine ⟨fun _ => (H.valid hb).same hsame, fun hb' => ?_, ?_, fun j hj => ?_, fun j => ?_,
    fun j hj => ?_, fun j hj r hr hname => ?_, fun c hc => ?_, ?_⟩
  · rw [← hsame.built, hb'] at hb
    cases hb
  · rw [hinit, List.nodup_append]
    refine ⟨H.nodup, List.nodup_singleton i, fun a ha b hb' heq => ?_⟩
    rw [List.mem_singleton] at hb'
    exact hnot (hb' ▸ heq ▸ ha)
  · rw [hinit, hmem] at hj
    rw [hsame.count]
    rcases hj with hj | rfl
    · exact H.lt j hj
    · exact hi
  · rw [flag_bringUp, hinit, hmem, h.nodes, H.flag, or_comm]
  · rw [hinit, hmem] at hj
    rw [mark_bringUp, h.mark]
    rcases hj with hj | rfl
    · exact H.marked j hj
    · exact hmark
  · rw [hinit, hmem] at hj
    rw [hsame.name] at hname
    rw [hcaps]
    rcases hj with hj | rfl
    · obtain ⟨c, hc, hkey⟩ := H.covered j hj r hr hname
      exact ⟨c, List.mem_append_left _ hc, hkey⟩
    · obtain ⟨n, hn⟩ := List.getElem?_of_mem hr
      obtain ⟨c, hc, hkey⟩ := hentries.exists_mem (mem_recordsOf.mpr ⟨hn, hname⟩ :
        (r, n) ∈ recordsOf reg (s.name j))
      exact ⟨c, List.mem_append_right _ hc, hkey⟩
  · rw [hcaps, List.mem_append] at hc
    rcases hc with hc | hc
    · exact H.source c hc
    · exact hentries.source (List.Subset.refl _) hc
  · have hregs : (s'.bringUp i).registrations = s'.registrations := rfl
    rw [belongs_bringUp H hb hi hnot hentries h, H.belongs, hregs, h.registrations,
      List.forall_mem_append, List.forall_mem_singleton]
    exact (and_iff_left hall).symm

end BringUp

/-- What a driver needs is up. -/
def Ready (reg : Registry) (s : Lifecycle) (i : ℕ) : Prop :=
  Prepared reg (s.name i) (fun n => ∃ j ∈ s.initialized, s.name j = n) s.capabilities

/-- The state after an entry point has been called. -/
def recordCall (s : Lifecycle) (i : ℕ) : Lifecycle :=
  { s with
    calls := s.calls + 1
    initCalls := s.initCalls ++ [⟨i, s.nodes, s.initialized, s.capabilities⟩] }

theorem Good.recordCall (H : Good reg env s) (i : ℕ) : Good reg env (s.recordCall i) := by
  have hsame : SameNodes s (s.recordCall i) := ⟨rfl, rfl, rfl, fun _ => rfl⟩
  have hbelongs : Belongs (s.recordCall i) ↔ Belongs s := belongs_congr hsame rfl rfl
  exact ⟨fun hb => (H.valid hb).same hsame, H.blank, H.nodup, H.lt, H.flag, H.marked, H.covered,
    H.source, hbelongs.trans H.belongs⟩

/-- The entry points called on the way from `s` to `s'` were called in order, given that every
visited driver was up in `s`. -/
def Ordered (reg : Registry) (s s' : Lifecycle) : Prop :=
  Settled s → ∀ c ∈ s'.initCalls, c ∈ s.initCalls ∨ InOrder reg c

theorem ordered_of_eq (h : s'.initCalls = s.initCalls) : Ordered reg s s' :=
  fun _ _ hc => Or.inl (h ▸ hc)

theorem Ordered.trans (h : Ordered reg s s') (hs : Settled s → Settled s')
    (h' : Ordered reg s' s'') : Ordered reg s s'' := by
  intro hset c hc
  rcases h' (hs hset) c hc with hc | hin
  · exact h hset c hc
  · exact Or.inr hin

theorem Good.ordered_recordCall (H : Good reg env s) (hnot : i ∉ s.initialized)
    (hready : Settled s → Ready reg s i) : Ordered reg s (s.recordCall i) := by
  intro hset c hc
  rcases List.mem_append.mp hc with hc | hc
  · exact Or.inl hc
  · rw [List.mem_singleton.mp hc]
    refine Or.inr ⟨hnot, (hready hset).mono (fun n hn => ?_)⟩
    obtain ⟨j, hj, hname⟩ := hn
    exact ⟨j, hj, hname, (H.flag j).mpr hj⟩

/-- What running a driver does: the marks stay, and the driver is up when it succeeds. -/
structure Ran (s s' : Lifecycle) (up : List ℕ) : Prop where
  same : SameNodes s s'
  mark : ∀ j, s'.mark j = s.mark j
  initialized : s'.initialized = s.initialized ++ up

theorem Settled.ran (H : Settled s) (G : Good reg env s) (G' : Good reg env s') {up : List ℕ}
    (h : Ran s s' up) : Settled s' := by
  intro j hj hm
  rw [G'.flag, h.initialized]
  rw [h.mark] at hm
  rw [h.same.count] at hj
  exact List.mem_append_left _ ((G.flag j).mp (H j hj hm))

/-- Where there is room a driver is brought up. -/
theorem markInitialized_run (hroom : s.initialized.length < maxDrivers) :
    (markInitialized i).run s = .ok () (s.bringUp i) := by
  rw [markInitialized, run_modify_bind, run_gets_bind]
  exact congrArg (fun x => Comp.run x _) (if_pos hroom)

/-- Registering the capabilities of a driver and bringing it up. -/
theorem register_sat (H : Good reg env s) (hb : s.built = true) (hi : i < s.nodeCount)
    (hnot : i ∉ s.initialized) (hmark : s.mark i ≠ .notVisited) :
    ((registerCapabilities reg env i >>= fun _ => markInitialized i).run s).Sat
      (fun _ s' => Good reg env s' ∧ Ran s s' [i] ∧ s'.initCalls = s.initCalls)
      (fun _ s' => Good reg env s' ∧ Ran s s' [] ∧ s'.initCalls = s.initCalls) := by
  rw [sat_bind]
  refine (registerCapabilities_sat i s).mono (fun _ s₁ h₁ => ?_) (fun _ s₁ h₁ => ?_)
  · obtain ⟨entries, hentries, hreg, hall⟩ := h₁
    have hroom : s₁.initialized.length < maxDrivers := by
      rw [hreg.initialized]
      exact H.length_lt hb hi hnot
    rw [markInitialized_run hroom]
    refine ⟨H.bringUp hb hi hnot hentries hreg hmark hall,
      ⟨hreg.sameNodes.trans (sameNodes_bringUp s₁ i),
        fun j => (mark_bringUp s₁ i j).trans (hreg.mark j), ?_⟩, hreg.initCalls⟩
    rw [← hreg.initialized]
    rfl
  · obtain ⟨front, entries, hfront, hentries, hreg, hnone⟩ := h₁
    refine ⟨H.registerFails hb hi hnot hreg hfront hentries hnone,
      ⟨hreg.sameNodes, hreg.mark, ?_⟩, hreg.initCalls⟩
    rw [hreg.initialized, List.append_nil]

/-- **Running a driver.** -/
theorem runDriver_sat (H : Good reg env s) (hb : s.built = true) (hi : i < s.nodeCount)
    (hnot : i ∉ s.initialized) (hmark : s.mark i ≠ .notVisited)
    (hready : Settled s → Ready reg s i) :
    ((runDriver reg env i).run s).Sat
      (fun _ s' => Good reg env s' ∧ Ran s s' [i] ∧ Ordered reg s s')
      (fun _ s' => Good reg env s' ∧ Ran s s' [] ∧ Ordered reg s s') := by
  rw [runDriver, run_gets_bind]
  cases hinit : (s.nodes i).init with
  | none =>
    exact (register_sat H hb hi hnot hmark).mono
      (fun _ _ h => ⟨h.1, h.2.1, ordered_of_eq h.2.2⟩)
      (fun _ _ h => ⟨h.1, h.2.1, ordered_of_eq h.2.2⟩)
  | some f =>
    have H₁ := H.recordCall i
    have hord := H.ordered_recordCall hnot hready
    have hran : ∀ {s' up}, Ran (s.recordCall i) s' up → Ran s s' up := fun h =>
      ⟨⟨h.same.count, h.same.built, h.same.initializedAll, h.same.id⟩, h.mark, h.initialized⟩
    have hcalls : ∀ {s'}, s'.initCalls = (s.recordCall i).initCalls → Ordered reg s s' :=
      fun h hset c hc => hord hset c (h ▸ hc)
    dsimp only
    rw [sat_bind, callInit, run_gets_bind, run_modify_bind]
    cases henv : env.init f s.calls with
    | error e =>
      exact ⟨H₁, ⟨⟨rfl, rfl, rfl, fun _ => rfl⟩, fun _ => rfl, (List.append_nil _).symm⟩, hord⟩
    | ok _ =>
      exact (register_sat H₁ hb hi hnot hmark).mono
        (fun _ _ h => ⟨h.1, hran h.2.1, hcalls h.2.2⟩)
        (fun _ _ h => ⟨h.1, hran h.2.1, hcalls h.2.2⟩)

end Lifecycle

end DoomOs
