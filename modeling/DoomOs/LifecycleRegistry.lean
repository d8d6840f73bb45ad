/-
# The driver registry

`build_registry` looks at the records in six passes before a driver is touched, and the
walk that brings drivers up relies on what these passes have seen: it follows pointers
and looks up names without a check of its own.

* `Accepted` says what a registry is that has nothing wrong with it, without the passes;
  `buildRegistry_accepts` shows that they let exactly these through.
* The second half of the module is about the walk.  In the model of `visit` a null pointer
  is a missing value; here it is a fault, and behind `build_registry` it never occurs.
-/
import DoomOs.LifecycleRuns

namespace DoomOs

open Comp

/-! ## Registries with nothing wrong -/

namespace Registry

variable (reg : Registry)

/-- A driver of this name is listed. -/
def Known (n : Option String) : Prop := ∃ id ∈ reg.drivers, id.name = n

instance (n : Option String) : Decidable (reg.Known n) :=
  inferInstanceAs (Decidable (∃ id ∈ reg.drivers, id.name = n))

/-- There are not too many drivers, and their names are there and different. -/
structure DriversAccepted : Prop where
  count : reg.drivers.length ≤ maxDrivers
  named : ∀ id ∈ reg.drivers, id.name ≠ none
  distinct : (reg.drivers.map DriverId.name).Nodup

/-- The records of entry points, or those of exit points, belong to known drivers, and to
no driver twice. -/
structure EntriesAccepted (records : List EntryRecord) : Prop where
  driver : ∀ r ∈ records, r.driver ≠ none
  function : ∀ r ∈ records, r.function ≠ none
  known : ∀ r ∈ records, reg.Known (driverName r.driver)
  once : (records.map fun r => driverName r.driver).Nodup

/-- A record that provides a capability has all its fields, for a known driver. -/
structure ProvideAccepted (r : ProvideRecord) : Prop where
  driver : r.driver ≠ none
  capability : r.capability ≠ none
  named : capabilityName r.capability ≠ none
  resolve : r.resolve ≠ none
  known : reg.Known (driverName r.driver)

/-- A dependency has all its fields, from a known driver on a known driver. -/
structure RequireDriverAccepted (r : RequireDriverRecord) : Prop where
  driver : r.driver ≠ none
  dependency : r.dependencyName ≠ none
  known : reg.Known (driverName r.driver)
  exists_dependency : reg.Known r.dependencyName

/-- A required capability has all its fields, for a known driver, and a provider. -/
structure RequireCapabilityAccepted (r : RequireCapabilityRecord) : Prop where
  driver : r.driver ≠ none
  capability : r.capability ≠ none
  named : capabilityName r.capability ≠ none
  known : reg.Known (driverName r.driver)
  exists_provider : ∃ p ∈ reg.provideRecords,
    sameCapability p.capability (capabilityName r.capability) = true

/-- Some provide or require record has this key. -/
def Marks (key : CapabilityKey) : Prop :=
  (∃ r ∈ reg.provideRecords, r.capability = some key) ∨
    ∃ r ∈ reg.requireCapabilityRecords, r.capability = some key

/-- **A registry with nothing wrong.** -/
structure Accepted : Prop where
  drivers : reg.DriversAccepted
  inits : reg.EntriesAccepted reg.initRecords
  exits : reg.EntriesAccepted reg.exitRecords
  provides : ∀ r ∈ reg.provideRecords, reg.ProvideAccepted r
  requireDrivers : ∀ r ∈ reg.requireDriverRecords, reg.RequireDriverAccepted r
  requireCapabilities : ∀ r ∈ reg.requireCapabilityRecords, reg.RequireCapabilityAccepted r
  singles : ∀ key, reg.Marks key → key.multiplicity = .single →
    Lifecycle.providerRecordCount reg (some key) ≤ 1

variable {reg} in
theorem EntriesAccepted.snoc {front : List EntryRecord} {r : EntryRecord}
    (h : reg.EntriesAccepted front) (hnull : ¬ (r.driver = none ∨ r.function = none))
    (hknown : reg.Known (driverName r.driver))
    (hfresh : ∀ q ∈ front, driverName q.driver ≠ driverName r.driver) :
    reg.EntriesAccepted (front ++ [r]) := by
  rw [not_or] at hnull
  have hall : ∀ {P : EntryRecord → Prop}, (∀ q ∈ front, P q) → P r →
      ∀ q ∈ front ++ [r], P q := by
    intro P hfront hlast q hq
    rcases List.mem_append.mp hq with hq | hq
    · exact hfront q hq
    · rw [List.mem_singleton.mp hq]
      exact hlast
  refine ⟨hall h.driver hnull.1, hall h.function hnull.2, hall h.known hknown, ?_⟩
  rw [List.map_append, List.map_singleton]
  refine List.nodup_append.mpr ⟨h.once, List.nodup_singleton _, ?_⟩
  rintro a ha b hb rfl
  obtain ⟨q, hq, hname⟩ := List.mem_map.mp ha
  exact hfresh q hq (hname.trans (List.mem_singleton.mp hb))

end Registry

namespace Lifecycle

variable {reg : Registry} {env : DriverEnv} {s s' s'' : Lifecycle} {i j : ℕ}

/-! ## Nodes -/

/-- The nodes made so far, none of which has a function. -/
structure Bare (s : Lifecycle) : Prop where
  init : ∀ i, (s.nodes i).init = none
  exit : ∀ i, (s.nodes i).exit = none

/-- A driver is found under its name, and nothing under any other. -/
theorem Added.findNode_ne_none {ids : List DriverId} (H : Added s ids s') {n : Option String}
    (hn : n ≠ none) : s'.findNode n ≠ none ↔ ∃ id ∈ ids, id.name = n := by
  constructor
  · intro hfind
    obtain ⟨i, hi⟩ := Option.ne_none_iff_exists'.mp hfind
    obtain ⟨hlt, hname⟩ := findNode_some hi
    exact ⟨(s'.nodes i).id, H.drivers ▸ mem_drivers hlt, hname⟩
  · rintro ⟨id, hid, hname⟩ hnone
    rw [← H.drivers] at hid
    obtain ⟨i, hi, rfl⟩ := List.mem_map.mp hid
    exact findNode_none hn hnone (List.mem_range.mp hi) hname

theorem Added.length_eq {ids : List DriverId} (H : Added s ids s') :
    ids.length = s'.nodeCount := by
  rw [← H.drivers, Lifecycle.drivers, List.length_map, List.length_range]

/-- The first pass goes on as long as the drivers are all right. -/
structure Listed (s : Lifecycle) (ids : List DriverId) (s' : Lifecycle) : Prop where
  added : Added s ids s'
  bare : Bare s'
  named : ∀ id ∈ ids, id.name ≠ none
  distinct : (ids.map DriverId.name).Nodup

theorem addDriver_listed {front back : List DriverId} {id : DriverId}
    (H : Listed s front s') (hreg : reg.drivers = front ++ id :: back) :
    ((addDriver id).run s').Sat (fun _ s'' => Listed s (front ++ [id]) s'')
      (fun _ _ => ¬ reg.DriversAccepted) := by
  have hmem : id ∈ reg.drivers := by
    rw [hreg]
    exact List.mem_append_right _ List.mem_cons_self
  have hadded := addDriver_sat H.added id
  rw [addDriver] at hadded ⊢
  by_cases hname : id.name = none
  · rw [if_pos hname]
    exact fun hacc => hacc.named id hmem hname
  rw [if_neg hname, run_gets_bind] at hadded ⊢
  by_cases hfind : s'.findNode id.name ≠ none
  · rw [if_pos hfind]
    intro hacc
    obtain ⟨id', hid', heq⟩ := (H.added.findNode_ne_none hname).mp hfind
    have hnodup := hacc.distinct
    rw [hreg, List.map_append, List.map_cons] at hnodup
    exact (List.nodup_append.mp hnodup).2.2 _ (List.mem_map_of_mem hid') _ List.mem_cons_self heq
  rw [if_neg hfind, run_gets_bind] at hadded ⊢
  by_cases hfull : s'.nodeCount = maxDrivers
  · rw [if_pos hfull]
    intro hacc
    have hcount := hacc.count
    rw [hreg, List.length_append, List.length_cons, H.added.length_eq] at hcount
    omega
  rw [if_neg hfull, run_modify, Outcome.sat_ok] at hadded ⊢
  refine ⟨hadded, ⟨fun j => ?_, fun j => ?_⟩, fun id' hid' => ?_, ?_⟩
  · exact (field_setNode DriverNode.init s' s'.nodeCount { id := id }
      (H.bare.init s'.nodeCount).symm j).trans (H.bare.init j)
  · exact (field_setNode DriverNode.exit s' s'.nodeCount { id := id }
      (H.bare.exit s'.nodeCount).symm j).trans (H.bare.exit j)
  · rcases List.mem_append.mp hid' with hid' | hid'
    · exact H.named id' hid'
    · rw [List.mem_singleton.mp hid']
      exact hname
  · rw [List.map_append, List.map_singleton]
    refine List.nodup_append.mpr ⟨H.distinct, List.nodup_singleton _, ?_⟩
    rintro a ha b hb rfl
    obtain ⟨id', hid', hname'⟩ := List.mem_map.mp ha
    refine hfind ((H.added.findNode_ne_none hname).mpr ⟨id', hid', ?_⟩)
    exact hname'.trans (List.mem_singleton.mp hb)

/-- **The first pass.** -/
theorem addDrivers_sat :
    ((forEach addDriver reg.drivers).run s.reset).Sat
      (fun _ s' => Added s reg.drivers s' ∧ Bare s' ∧ reg.DriversAccepted)
      (fun _ _ => ¬ reg.DriversAccepted) := by
  have hstart : Listed s [] s.reset :=
    ⟨⟨blank_reset s, Nat.zero_le _, rfl, fun i hi => absurd hi (Nat.not_lt_zero i)⟩,
      ⟨fun _ => rfl, fun _ => rfl⟩, fun _ h => absurd h List.not_mem_nil, List.nodup_nil⟩
  refine (sat_forEach (I := fun front s' => Listed s front s')
    (fun front id back s₁ hreg h₁ => addDriver_listed h₁ hreg) hstart).mono
    (fun _ s₁ h₁ => ⟨h₁.added, h₁.bare, ?_, h₁.named, h₁.distinct⟩) (fun _ _ h => h)
  rw [h₁.added.length_eq]
  exact h₁.added.count_le

/-! ## Entry and exit points -/

/-- Once the drivers are listed, looking up a name asks whether it is known. -/
theorem Added.findNode_known (H : Added s reg.drivers s') (hacc : reg.DriversAccepted)
    (n : Option String) : s'.findNode n ≠ none ↔ reg.Known n := by
  rcases eq_or_ne n none with rfl | hn
  · refine iff_of_false (fun h => h (if_pos rfl)) ?_
    rintro ⟨id, hid, hname⟩
    exact hacc.named id hid hname
  · exact H.findNode_ne_none hn

/-- The records so far are attached, each to the node of its driver. -/
structure Attached (reg : Registry) (get : DriverNode → Option FunctionPtr)
    (front : List EntryRecord) (s : Lifecycle) : Prop where
  accepted : reg.EntriesAccepted front
  attached_iff : ∀ i < s.nodeCount, get (s.nodes i) ≠ none ↔
    ∃ r ∈ front, driverName r.driver = s.name i
  source : ∀ i f, get (s.nodes i) = some f → ∃ r ∈ front, r.function = some f

/-- **The passes over the entry and exit points.**  They leave the other field of a node
alone. -/
theorem attachRecords_accepts (H : Added s reg.drivers s') (hacc : reg.DriversAccepted)
    (get other : DriverNode → Option FunctionPtr)
    (put : DriverNode → Option FunctionPtr → DriverNode)
    (hid : ∀ node f, (put node f).id = node.id) (hvisit : ∀ node f, (put node f).visit = node.visit)
    (hflag : ∀ node f, (put node f).initialized = node.initialized)
    (hget : ∀ node f, get (put node f) = f) (hother : ∀ node f, other (put node f) = other node)
    (hnone : ∀ i, get (s'.nodes i) = none) (duplicate : DriverError)
    (records : List EntryRecord) :
    ((forEach (attachRecord get put duplicate) records).run s').Sat
      (fun _ s'' => (Added s reg.drivers s'' ∧ ∀ i, other (s''.nodes i) = other (s'.nodes i)) ∧
        Attached reg get records s'')
      (fun _ _ => ¬ reg.EntriesAccepted records) := by
  refine (sat_forEach (I := fun front s'' => (Added s reg.drivers s'' ∧
      ∀ i, other (s''.nodes i) = other (s'.nodes i)) ∧ Attached reg get front s'') ?_ ?_).mono
    (fun _ _ h => h) (fun _ _ h => h)
  · rintro front record back s₁ hsplit ⟨⟨hadded, hkept⟩, hattached⟩
    have hmem : record ∈ records := by
      rw [hsplit]
      exact List.mem_append_right _ List.mem_cons_self
    rw [attachRecord]
    by_cases hnull : record.driver = none ∨ record.function = none
    · rw [if_pos hnull]
      intro hrec
      rcases hnull with hnull | hnull
      · exact hrec.driver record hmem hnull
      · exact hrec.function record hmem hnull
    rw [if_neg hnull, run_gets_bind]
    have hknown := hadded.findNode_known hacc (driverName record.driver)
    cases hfind : s₁.findNode (driverName record.driver) with
    | none =>
      intro hrec
      exact hknown.mpr (hrec.known record hmem) hfind
    | some i =>
      obtain ⟨hi, hname⟩ := findNode_some hfind
      dsimp only
      rw [run_gets_bind]
      by_cases htwice : get (s₁.nodes i) ≠ none
      · rw [if_pos htwice]
        intro hrec
        obtain ⟨q, hq, hqname⟩ := (hattached.attached_iff i hi).mp htwice
        have honce := hrec.once
        rw [hsplit, List.map_append, List.map_cons] at honce
        exact (List.nodup_append.mp honce).2.2 _ (List.mem_map_of_mem hq) _ List.mem_cons_self
          (hqname.trans hname)
      rw [if_neg htwice, run_modify, Outcome.sat_ok]
      have hidj : ∀ j, ((s₁.setNode i (put (s₁.nodes i) record.function)).nodes j).id
          = (s₁.nodes j).id := fun j => field_setNode DriverNode.id s₁ i _ (hid _ _) j
      have hsame : SameNodes s₁ (s₁.setNode i (put (s₁.nodes i) record.function)) :=
        ⟨rfl, rfl, rfl, hidj⟩
      refine ⟨⟨hadded.same hsame (hadded.blank.setNode i _ ?_ ?_), fun j => ?_⟩, ?_, ?_, ?_⟩
      · exact (hvisit _ _).trans (hadded.blank.mark i)
      · exact (hflag _ _).trans (hadded.blank.flag i)
      · exact (field_setNode other s₁ i _ (hother _ _) j).trans (hkept j)
      · refine hattached.accepted.snoc hnull (hknown.mp ?_) (fun q hq hqname => ?_)
        · rw [hfind]
          exact Option.some_ne_none i
        · exact htwice ((hattached.attached_iff i hi).mpr ⟨q, hq, hqname.trans hname.symm⟩)
      · intro j hj
        rw [hsame.name j, nodes_setNode]
        rw [hsame.count] at hj
        simp only [List.mem_append, List.mem_singleton, or_and_right, exists_or, exists_eq_left]
        split_ifs with heq
        · rw [hget, heq]
          rw [not_or] at hnull
          exact iff_of_true hnull.2 (Or.inr hname.symm)
        · rw [hattached.attached_iff j hj]
          refine (or_iff_left ?_).symm
          intro hjname
          exact heq (hadded.distinct j hj i hi (hjname.symm.trans hname.symm))
      · intro j f
        rw [nodes_setNode]
        split_ifs
        · rw [hget]
          exact fun hf => ⟨record, List.mem_append_right _ (List.mem_singleton_self record), hf⟩
        · intro hf
          obtain ⟨q, hq, hqf⟩ := hattached.source j f hf
          exact ⟨q, List.mem_append_left _ hq, hqf⟩
  · refine ⟨⟨H, fun _ => rfl⟩, ⟨?_, ?_, ?_, List.nodup_nil⟩, fun i _ => ?_, fun i f hf => ?_⟩
    · exact fun _ h => absurd h List.not_mem_nil
    · exact fun _ h => absurd h List.not_mem_nil
    · exact fun _ h => absurd h List.not_mem_nil
    · refine iff_of_false (fun h => h (hnone i)) ?_
      rintro ⟨r, hr, -⟩
      exact List.not_mem_nil hr
    · rw [hnone i] at hf
      cases hf

/-! ## Provided and required capabilities -/

/-- A pass that changes nothing accepts a list when it accepts each of the records. -/
theorem checkAll_sat {ι : Type} {body : ι → Comp LifecycleFault DriverError Lifecycle Unit}
    {check : ι → Prop} {xs : List ι}
    (hbody : ∀ x ∈ xs, ((body x).run s).Sat (fun _ s' => s' = s ∧ check x)
      (fun _ s' => s' = s ∧ ¬ check x)) :
    ((forEach body xs).run s).Sat (fun _ s' => s' = s ∧ ∀ x ∈ xs, check x)
      (fun _ s' => s' = s ∧ ¬ ∀ x ∈ xs, check x) := by
  refine sat_forEach (I := fun front s' => s' = s ∧ ∀ x ∈ front, check x) ?_
    ⟨rfl, fun _ h => absurd h List.not_mem_nil⟩
  rintro front x back s₁ hsplit ⟨rfl, hfront⟩
  have hmem : x ∈ xs := by
    rw [hsplit]
    exact List.mem_append_right _ List.mem_cons_self
  refine (hbody x hmem).mono ?_ ?_
  · rintro - s₂ ⟨rfl, hx⟩
    refine ⟨rfl, fun y hy => ?_⟩
    rcases List.mem_append.mp hy with hy | hy
    · exact hfront y hy
    · rw [List.mem_singleton.mp hy]
      exact hx
  · rintro - s₂ ⟨rfl, hx⟩
    exact ⟨rfl, fun hall => hx (hall x hmem)⟩

/-- There are not too many providers for the key of a record. -/
def SingleOk (reg : Registry) (key : Option CapabilityKey) : Prop :=
  ¬ (key.map CapabilityKey.multiplicity = some .single ∧ providerRecordCount reg key > 1)

theorem validateProviderCount_accepts (key : Option CapabilityKey) (s : Lifecycle) :
    ((validateProviderCount reg key).run s).Sat (fun _ s' => s' = s ∧ SingleOk reg key)
      (fun _ s' => s' = s ∧ ¬ SingleOk reg key) := by
  rw [validateProviderCount]
  split_ifs with h
  · exact ⟨rfl, fun hok => hok h⟩
  · exact ⟨rfl, h⟩

theorem validateProviderRecord_accepts (H : Added s reg.drivers s')
    (hacc : reg.DriversAccepted) (r : ProvideRecord) :
    ((validateProviderRecord reg r).run s').Sat
      (fun _ s'' => s'' = s' ∧ (reg.ProvideAccepted r ∧ SingleOk reg r.capability))
      (fun _ s'' => s'' = s' ∧ ¬ (reg.ProvideAccepted r ∧ SingleOk reg r.capability)) := by
  rw [validateProviderRecord]
  by_cases hnull : r.driver = none ∨ r.capability = none ∨ capabilityName r.capability = none ∨
      r.resolve = none
  · rw [if_pos hnull]
    refine ⟨rfl, fun h => ?_⟩
    rcases hnull with h' | h' | h' | h'
    · exact h.1.driver h'
    · exact h.1.capability h'
    · exact h.1.named h'
    · exact h.1.resolve h'
  rw [if_neg hnull, run_gets_bind]
  have hknown := H.findNode_known hacc (driverName r.driver)
  by_cases hfind : s'.findNode (driverName r.driver) = none
  · rw [if_pos hfind]
    exact ⟨rfl, fun h => hknown.mpr h.1.known hfind⟩
  rw [if_neg hfind]
  simp only [not_or] at hnull
  obtain ⟨hdriver, hcap, hnamed, hresolve⟩ := hnull
  refine (validateProviderCount_accepts r.capability s').mono ?_ ?_
  · rintro - s₁ ⟨rfl, hok⟩
    exact ⟨rfl, ⟨hdriver, hcap, hnamed, hresolve, hknown.mp hfind⟩, hok⟩
  · rintro - s₁ ⟨rfl, hnot⟩
    exact ⟨rfl, fun h => hnot h.2⟩

theorem validateRequireDriver_accepts (H : Added s reg.drivers s')
    (hacc : reg.DriversAccepted) (r : RequireDriverRecord) :
    ((validateRequireDriver r).run s').Sat
      (fun _ s'' => s'' = s' ∧ reg.RequireDriverAccepted r)
      (fun _ s'' => s'' = s' ∧ ¬ reg.RequireDriverAccepted r) := by
  rw [validateRequireDriver]
  by_cases hnull : r.driver = none ∨ r.dependencyName = none
  · rw [if_pos hnull]
    refine ⟨rfl, fun h => ?_⟩
    rcases hnull with h' | h'
    · exact h.driver h'
    · exact h.dependency h'
  rw [if_neg hnull, run_gets_bind]
  have hknown := H.findNode_known hacc (driverName r.driver)
  by_cases hfind : s'.findNode (driverName r.driver) = none
  · rw [if_pos hfind]
    exact ⟨rfl, fun h => hknown.mpr h.known hfind⟩
  rw [if_neg hfind, run_gets_bind]
  have hknown' := H.findNode_known hacc r.dependencyName
  by_cases hfind' : s'.findNode r.dependencyName = none
  · rw [if_pos hfind']
    exact ⟨rfl, fun h => hknown'.mpr h.exists_dependency hfind'⟩
  rw [if_neg hfind']
  rw [not_or] at hnull
  exact ⟨rfl, hnull.1, hnull.2, hknown.mp hfind, hknown'.mp hfind'⟩

theorem validateRequireCapability_accepts (H : Added s reg.drivers s')
    (hacc : reg.DriversAccepted) (r : RequireCapabilityRecord) :
    ((validateRequireCapability reg r).run s').Sat
      (fun _ s'' => s'' = s' ∧ (reg.RequireCapabilityAccepted r ∧ SingleOk reg r.capability))
      (fun _ s'' => s'' = s' ∧
        ¬ (reg.RequireCapabilityAccepted r ∧ SingleOk reg r.capability)) := by
  rw [validateRequireCapability]
  by_cases hnull : r.driver = none ∨ r.capability = none ∨ capabilityName r.capability = none
  · rw [if_pos hnull]
    refine ⟨rfl, fun h => ?_⟩
    rcases hnull with h' | h' | h'
    · exact h.1.driver h'
    · exact h.1.capability h'
    · exact h.1.named h'
  rw [if_neg hnull, run_gets_bind]
  have hknown := H.findNode_known hacc (driverName r.driver)
  by_cases hfind : s'.findNode (driverName r.driver) = none
  · rw [if_pos hfind]
    exact ⟨rfl, fun h => hknown.mpr h.1.known hfind⟩
  rw [if_neg hfind, sat_bind]
  simp only [not_or] at hnull
  obtain ⟨hdriver, hcap, hnamed⟩ := hnull
  refine (validateProviderCount_accepts r.capability s').mono ?_ ?_
  · rintro - s₁ ⟨rfl, hok⟩
    have hcount : providerRecordCount reg r.capability = 0 ↔ ¬ ∃ p ∈ reg.provideRecords,
        sameCapability p.capability (capabilityName r.capability) = true := by
      rw [providerRecordCount, List.countP_eq_zero]
      push Not
      rfl
    by_cases hzero : providerRecordCount reg r.capability = 0
    · rw [if_pos hzero]
      exact ⟨rfl, fun h => hcount.mp hzero h.1.exists_provider⟩
    · rw [if_neg hzero]
      have hprovider := by_contra (fun h => hzero (hcount.mpr h))
      exact ⟨rfl, ⟨hdriver, hcap, hnamed, hknown.mp hfind, hprovider⟩, hok⟩
  · rintro - s₁ ⟨rfl, hnot⟩
    exact ⟨rfl, fun h => hnot h.2⟩

/-! ## All passes -/

/-- Checking the key of each record is checking each key that is marked. -/
theorem singleOk_iff : (∀ r ∈ reg.provideRecords, SingleOk reg r.capability) ∧
    (∀ r ∈ reg.requireCapabilityRecords, SingleOk reg r.capability) ↔
      ∀ key, reg.Marks key → key.multiplicity = .single →
        providerRecordCount reg (some key) ≤ 1 := by
  have hkey : ∀ key : CapabilityKey, SingleOk reg (some key) ↔
      (key.multiplicity = .single → providerRecordCount reg (some key) ≤ 1) := by
    intro key
    rw [SingleOk, Option.map_some, Option.some.injEq, not_and, Nat.not_lt]
  have hnull : SingleOk reg none := fun h => by cases h.1
  constructor
  · rintro ⟨hprovide, hrequire⟩ key (⟨r, hr, hcap⟩ | ⟨r, hr, hcap⟩)
    · exact (hkey key).mp (hcap ▸ hprovide r hr)
    · exact (hkey key).mp (hcap ▸ hrequire r hr)
  · intro hall
    constructor
    · intro r hr
      cases hcap : r.capability with
      | none => exact hnull
      | some key => exact (hkey key).mpr (hall key (Or.inl ⟨r, hr, hcap⟩))
    · intro r hr
      cases hcap : r.capability with
      | none => exact hnull
      | some key => exact (hkey key).mpr (hall key (Or.inr ⟨r, hr, hcap⟩))

/-- **The passes accept exactly the registries with nothing wrong**, and attach only entry
points of records. -/
theorem buildRegistry_accepts (hb : s.built = false) :
    ((buildRegistry reg).run s).Sat
      (fun _ s' => reg.Accepted ∧ ∀ i f, (s'.nodes i).init = some f →
        ∃ r ∈ reg.initRecords, r.function = some f)
      (fun _ _ => ¬ reg.Accepted) := by
  rw [buildRegistry, run_gets_bind, hb, if_neg Bool.false_ne_true, run_modify_bind, sat_bind]
  refine addDrivers_sat.mono ?_ (fun _ _ h hacc => h hacc.drivers)
  rintro - s₁ ⟨H₁, hbare, hdrivers⟩
  rw [sat_bind, attachInitRecords]
  refine (attachRecords_accepts H₁ hdrivers DriverNode.init DriverNode.exit
    (fun node f => { node with init := f }) (fun _ _ => rfl) (fun _ _ => rfl)
    (fun _ _ => rfl) (fun _ _ => rfl) (fun _ _ => rfl) hbare.init _ _).mono ?_
    (fun _ _ h hacc => h hacc.inits)
  rintro - s₂ ⟨⟨H₂, hexit⟩, hinits⟩
  rw [sat_bind, attachExitRecords]
  refine (attachRecords_accepts H₂ hdrivers DriverNode.exit DriverNode.init
    (fun node f => { node with exit := f }) (fun _ _ => rfl) (fun _ _ => rfl)
    (fun _ _ => rfl) (fun _ _ => rfl) (fun _ _ => rfl)
    (fun i => (hexit i).trans (hbare.exit i)) _ _).mono ?_ (fun _ _ h hacc => h hacc.exits)
  rintro - s₃ ⟨⟨H₃, hinit⟩, hexits⟩
  rw [sat_bind, validateProviderRecords]
  refine (checkAll_sat (fun r _ => validateProviderRecord_accepts H₃ hdrivers r)).mono ?_ ?_
  · rintro - s₄ ⟨rfl, hprovides⟩
    rw [sat_bind, validateDependencyRecords, sat_bind]
    refine (checkAll_sat (fun r _ => validateRequireDriver_accepts H₃ hdrivers r)).mono ?_ ?_
    · rintro - s₅ ⟨rfl, hrequires⟩
      refine (checkAll_sat (fun r _ => validateRequireCapability_accepts H₃ hdrivers r)).mono ?_ ?_
      · rintro - s₆ ⟨rfl, hcaps⟩
        rw [run_modify, Outcome.sat_ok]
        refine ⟨⟨hdrivers, hinits.accepted, hexits.accepted, fun r hr => (hprovides r hr).1,
          hrequires, fun r hr => (hcaps r hr).1, singleOk_iff.mp
            ⟨fun r hr => (hprovides r hr).2, fun r hr => (hcaps r hr).2⟩⟩, fun i f hf => ?_⟩
        exact hinits.source i f ((hinit i).symm.trans hf)
      · rintro e s₆ ⟨-, hnot⟩ hacc
        exact hnot fun r hr =>
          ⟨hacc.requireCapabilities r hr, (singleOk_iff.mpr hacc.singles).2 r hr⟩
    · rintro e s₅ ⟨-, hnot⟩ hacc
      exact hnot hacc.requireDrivers
  · rintro e s₄ ⟨-, hnot⟩ hacc
    exact hnot fun r hr => ⟨hacc.provides r hr, (singleOk_iff.mpr hacc.singles).1 r hr⟩

/-- A registry that has been built was accepted. -/
theorem Reachable.accepted {allowed : Lifecycle → Call → Prop}
    (h : Reachable reg env allowed s) : s.built = true → reg.Accepted := by
  induction h with
  | start =>
    intro hb
    cases hb
  | @call t t' c hreach hok hrun ih =>
    intro hb
    cases c with
    | exit =>
      have hsame : t'.built = t.built :=
        ((exitAll_sat hreach.idle).mono (fun _ _ h => h.2.2) (fun _ _ h => h.elim)).of_state? hrun
      exact ih (hsame ▸ hb)
    | init =>
      have hinit : ((initAll reg env).run t).Sat (fun _ s' => s'.built = true → reg.Accepted)
          (fun _ s' => s'.built = true → reg.Accepted) := by
        rw [initAll, run_gets_bind]
        cases hall : t.initializedAll with
        | true =>
          rw [if_pos rfl]
          exact ih
        | false =>
          have hbuild : ((buildRegistry reg).run t).Sat (fun _ _ => reg.Accepted)
              (fun _ s' => s'.built = true → reg.Accepted) := by
            cases hbt : t.built with
            | true =>
              rw [buildRegistry, run_gets_bind, hbt, if_pos rfl]
              exact ih hbt
            | false =>
              refine ((buildRegistry_accepts hbt).and (buildRegistry_sat hbt)).mono
                (fun _ _ h => h.1.1) (fun _ s' h hbs => ?_)
              rw [h.2.built] at hbs
              cases hbs
          rw [if_neg Bool.false_ne_true, sat_bind]
          refine (hbuild.and (buildRegistry_stepped hreach.idle hall)).mono (fun _ s₁ h₁ => ?_)
            (fun _ _ h => h.1)
          obtain ⟨hacc, H₁, -, hb₁, -⟩ := h₁
          rw [run_gets_bind, sat_bind]
          exact (visitAll_sat H₁.good hb₁).mono (fun _ _ _ _ => hacc) (fun _ _ _ _ => hacc)
      exact hinit.of_state? hrun hb

/-! ## Reading through pointers -/

section Deref

/-- A read through a pointer. -/
def deref {α : Type} : Option α → Comp LifecycleFault DriverError Lifecycle α
  | some a => pure a
  | none => stop .nullDereference

variable (reg : Registry) (env : DriverEnv)

/-- `register_capabilities`, reading `record.driver->name` of every record and calling
`record.resolve`. -/
def registerCapabilitiesDeref (i : ℕ) : Comp LifecycleFault DriverError Lifecycle Unit := do
  let id ← gets fun s => (s.nodes i).id
  modify fun s => { s with
    registrations := s.registrations ++ [⟨id, s.calls, s.capabilities.length⟩] }
  forEach (fun r => do
    let driver ← deref r.1.driver
    if stringEqual driver.name id.name then do
      let _ ← deref r.1.resolve
      registerCapability env id r
    else pure ()) reg.provideRecords.zipIdx

/-- `run_driver`, with these reads. -/
def runDriverDeref (i : ℕ) : Comp LifecycleFault DriverError Lifecycle Unit := do
  match ← gets fun s => (s.nodes i).init with
  | some f => callInit env i f
  | none => pure ()
  registerCapabilitiesDeref reg env i
  markInitialized i

variable (visit : ℕ → Comp LifecycleFault DriverError Lifecycle Unit)

/-- `visit_driver_dependencies`, reading `record.driver->name` of every record. -/
def visitDriverDependenciesDeref (i : ℕ) : Comp LifecycleFault DriverError Lifecycle Unit := do
  let name ← gets fun s => (s.nodes i).id.name
  forEach (fun record => do
    let driver ← deref record.driver
    if stringEqual driver.name name then do
      match ← gets fun s => s.findNode record.dependencyName with
      | none => fail .unknownDriverDependency
      | some j => visit j
    else pure ()) reg.requireDriverRecords

/-- `visit_capability_dependencies`, reading `record.driver->name` of every record and
`*record.capability` of those of the driver. -/
def visitCapabilityDependenciesDeref (i : ℕ) :
    Comp LifecycleFault DriverError Lifecycle Unit := do
  let name ← gets fun s => (s.nodes i).id.name
  forEach (fun record => do
    let driver ← deref record.driver
    if stringEqual driver.name name then do
      let key ← deref record.capability
      visitCapabilityProviders reg visit (some key)
    else pure ()) reg.requireCapabilityRecords

/-- The body of `visit`, with these reads. -/
def visitNodeDeref (i : ℕ) : Comp LifecycleFault DriverError Lifecycle Unit := do
  match ← gets fun s => (s.nodes i).visit with
  | .visited => pure ()
  | .visiting => fail .dependencyCycle
  | .notVisited =>
    setVisit i .visiting
    orUnmark i (visitDriverDependenciesDeref reg visit i)
    orUnmark i (visitCapabilityDependenciesDeref reg visit i)
    orUnmark i (runDriverDeref reg env i)
    setVisit i .visited

end Deref

/-- `visit`, with every read through a pointer of a record. -/
def visitDeref (reg : Registry) (env : DriverEnv) :
    (depth : ℕ) → ℕ → Comp LifecycleFault DriverError Lifecycle Unit
  | 0, _ => stop .depth
  | depth + 1, i => visitNodeDeref reg env (visitDeref reg env depth) i

theorem deref_bind {α β : Type} {p : Option α} (h : p ≠ none)
    (f : α → Comp LifecycleFault DriverError Lifecycle β) :
    ∃ a, p = some a ∧ (deref p >>= f) = f a := by
  obtain ⟨a, rfl⟩ := Option.ne_none_iff_exists'.mp h
  exact ⟨a, rfl, rfl⟩

theorem registerCapabilitiesDeref_eq (H : reg.Accepted) :
    registerCapabilitiesDeref reg env = registerCapabilities reg env := by
  funext i
  unfold registerCapabilitiesDeref registerCapabilities recordsOf
  congr 1
  funext id
  congr 1
  funext _
  rw [← forEach_filter]
  refine forEach_congr (fun r hr => ?_)
  have hmem : r.1 ∈ reg.provideRecords :=
    List.mem_of_getElem? (List.mem_zipIdx_iff_getElem?.mp hr)
  obtain ⟨hdriver, -, -, hresolve, -⟩ := H.provides r.1 hmem
  obtain ⟨d, hd, heq⟩ := deref_bind hdriver fun driver =>
    if stringEqual driver.name id.name then do
      let _ ← deref r.1.resolve
      registerCapability env id r
    else pure ()
  obtain ⟨f, -, heq'⟩ := deref_bind hresolve fun _ => registerCapability env id r
  rw [heq, heq', hd]
  rfl

theorem runDriverDeref_eq (H : reg.Accepted) : runDriverDeref reg env = runDriver reg env := by
  funext i
  unfold runDriverDeref runDriver
  exact registerCapabilitiesDeref_eq H ▸ rfl

theorem visitDriverDependenciesDeref_eq (H : reg.Accepted)
    (visit : ℕ → Comp LifecycleFault DriverError Lifecycle Unit) :
    visitDriverDependenciesDeref reg visit = visitDriverDependencies reg visit := by
  funext i
  unfold visitDriverDependenciesDeref visitDriverDependencies
  congr 1
  funext name
  rw [← forEach_filter]
  refine forEach_congr (fun r hr => ?_)
  obtain ⟨d, hd, heq⟩ := deref_bind (H.requireDrivers r hr).driver fun driver =>
    if stringEqual driver.name name then do
      match ← gets fun s => s.findNode r.dependencyName with
      | none => fail .unknownDriverDependency
      | some j => visit j
    else pure ()
  rw [heq, hd]
  rfl

theorem visitCapabilityDependenciesDeref_eq (H : reg.Accepted)
    (visit : ℕ → Comp LifecycleFault DriverError Lifecycle Unit) :
    visitCapabilityDependenciesDeref reg visit = visitCapabilityDependencies reg visit := by
  funext i
  unfold visitCapabilityDependenciesDeref visitCapabilityDependencies
  congr 1
  funext name
  rw [← forEach_filter]
  refine forEach_congr (fun r hr => ?_)
  obtain ⟨hdriver, hcapability, -, -, -⟩ := H.requireCapabilities r hr
  obtain ⟨d, hd, heq⟩ := deref_bind hdriver fun driver =>
    if stringEqual driver.name name then do
      let key ← deref r.capability
      visitCapabilityProviders reg visit (some key)
    else pure ()
  obtain ⟨key, hkey, heq'⟩ := deref_bind hcapability fun key =>
    visitCapabilityProviders reg visit (some key)
  rw [heq, heq', hd, hkey]
  rfl

/-- **No null pointer is followed** once the registry has been accepted. -/
theorem visitDeref_eq (H : reg.Accepted) : ∀ depth,
    visitDeref reg env depth = visit reg env depth := by
  intro depth
  induction depth with
  | zero => rfl
  | succ depth ih =>
    funext i
    rw [visitDeref, visit, ih]
    unfold visitNodeDeref visitNode
    rw [runDriverDeref_eq H, visitDriverDependenciesDeref_eq H]
    exact visitCapabilityDependenciesDeref_eq H _ ▸ rfl

/-! ## Errors behind `build_registry` -/

/-- The last driver function called was an entry point, and this is what it returned. -/
def Returned (env : DriverEnv) (e : DriverError) (s : Lifecycle) : Prop :=
  ∃ call f, s.initCalls.getLast? = some call ∧ (call.nodes call.driver).init = some f ∧
    env.init f (s.calls - 1) = .error e

/-- The errors that bringing drivers up has of its own. -/
def walkErrors : List DriverError := [.dependencyCycle, .capabilityResolveFailed, .capacityExceeded]

/-- The nodes are still those of the drivers, and the error is one of these or the answer of an
entry point. -/
def Explained (reg : Registry) (env : DriverEnv) (e : DriverError) (s : Lifecycle) : Prop :=
  s.drivers = reg.drivers ∧ (e ∈ walkErrors ∨ Returned env e s)

theorem SameNodes.drivers (h : SameNodes s s') : s'.drivers = s.drivers := by
  rw [Lifecycle.drivers, Lifecycle.drivers, h.count]
  exact List.map_congr_left fun i _ => h.id i

theorem Explained.withMark {e : DriverError} (h : Explained reg env e s) (i : ℕ)
    (v : VisitState) : Explained reg env e (s.withMark i v) :=
  ⟨(sameNodes_withMark s i v).drivers.trans h.1, h.2⟩

/-- A known driver has a node. -/
theorem findNode_of_known (H : reg.Accepted) (hs : s.drivers = reg.drivers) {n : Option String}
    (hn : reg.Known n) : s.findNode n ≠ none := by
  obtain ⟨id, hid, rfl⟩ := hn
  intro hnone
  rw [← hs] at hid
  obtain ⟨i, hi, hi'⟩ := List.mem_map.mp hid
  refine findNode_none ?_ hnone (List.mem_range.mp hi) (congrArg DriverId.name hi')
  exact H.drivers.named id (hs ▸ hid)

theorem registerCapability_explained (id : DriverId) (r : ProvideRecord × ℕ)
    (hs : s.drivers = reg.drivers) :
    ((registerCapability env id r).run s).Meets (fun _ s' => s'.drivers = reg.drivers)
      (fun e s' => Explained reg env e s') := by
  rw [registerCapability, run_gets_bind, run_modify_bind]
  cases r.1.resolve.bind (env.resolve · s.calls) with
  | none => exact ⟨hs, Or.inl (by decide)⟩
  | some api =>
    rw [run_gets_bind]
    split_ifs
    · exact ⟨hs, Or.inl (by decide)⟩
    · exact hs

theorem runDriver_explained (i : ℕ) (hs : s.drivers = reg.drivers) :
    ((runDriver reg env i).run s).Meets (fun _ s' => s'.drivers = reg.drivers)
      (fun e s' => Explained reg env e s') := by
  have hregister : ∀ s₁ : Lifecycle, s₁.drivers = reg.drivers →
      ((registerCapabilities reg env i >>= fun _ => markInitialized i).run s₁).Meets
        (fun _ s' => s'.drivers = reg.drivers) (fun e s' => Explained reg env e s') := by
    intro s₁ hs₁
    have hloop : ∀ (id : DriverId) (s₂ : Lifecycle), s₂.drivers = reg.drivers →
        ((forEach (registerCapability env id) (recordsOf reg id.name)).run s₂).Meets
          (fun _ s' => s'.drivers = reg.drivers) (fun e s' => Explained reg env e s') :=
      fun id s₂ hs₂ => meets_forEach _ s₂
        (fun r _ s₃ hs₃ => registerCapability_explained id r hs₃) hs₂
    rw [registerCapabilities, meets_bind, run_gets_bind, run_modify_bind]
    refine Outcome.Meets.mono (hloop _ _ ?_) (fun _ s₂ hs₂ => ?_) (fun _ _ h => h)
    · exact hs₁
    rw [markInitialized, run_modify_bind, run_gets_bind]
    have hbring : (s₂.bringUp i).drivers = reg.drivers :=
      (sameNodes_bringUp s₂ i).drivers.trans hs₂
    split_ifs
    · exact hbring
    · trivial
  rw [runDriver, run_gets_bind]
  cases hinit : (s.nodes i).init with
  | none => exact hregister s hs
  | some f =>
    dsimp only
    rw [meets_bind, callInit, run_gets_bind, run_modify_bind]
    cases henv : env.init f s.calls with
    | error e =>
      refine ⟨hs, Or.inr ⟨⟨i, s.nodes, s.initialized, s.capabilities⟩, f, ?_, hinit, henv⟩⟩
      rw [List.getLast?_append, List.getLast?_singleton, Option.some_or]
    | ok u => exact hregister _ hs

/-- What `visit` promises about its errors, whatever the marks are. -/
def VisitsExplained (reg : Registry) (env : DriverEnv)
    (visit : ℕ → Comp LifecycleFault DriverError Lifecycle Unit) : Prop :=
  ∀ s i, s.drivers = reg.drivers → ((visit i).run s).Meets (fun _ s' => s'.drivers = reg.drivers)
    (fun e s' => Explained reg env e s')

section Loops

variable {visit : ℕ → Comp LifecycleFault DriverError Lifecycle Unit}
  (hvisit : VisitsExplained reg env visit) (H : reg.Accepted)
include hvisit H

/-- Looking up known drivers and visiting them. -/
theorem visitEach_explained {ι : Type} (key : ι → Option String) {xs : List ι}
    (hkey : ∀ x ∈ xs, reg.Known (key x)) (er : DriverError) (hs : s.drivers = reg.drivers) :
    ((forEach (fun x => do
      match ← gets fun s => s.findNode (key x) with
      | none => fail er
      | some j => visit j) xs : Comp LifecycleFault DriverError Lifecycle Unit).run s).Meets
      (fun _ s' => s'.drivers = reg.drivers) (fun e s' => Explained reg env e s') := by
  refine meets_forEach xs s (fun x hx s₁ hs₁ => ?_) hs
  rw [run_gets_bind]
  cases hfind : s₁.findNode (key x) with
  | none => exact absurd hfind (findNode_of_known H hs₁ (hkey x hx))
  | some j => exact hvisit s₁ j hs₁

theorem visitCapabilityProviders_explained {r : RequireCapabilityRecord}
    (hr : r ∈ reg.requireCapabilityRecords) (hs : s.drivers = reg.drivers) :
    ((visitCapabilityProviders reg visit r.capability).run s).Meets
      (fun _ s' => s'.drivers = reg.drivers) (fun e s' => Explained reg env e s') := by
  have hsingle := (singleOk_iff.mpr H.singles).2 r hr
  have hcount : providerRecordCount reg r.capability ≠ 0 := by
    rw [providerRecordCount, ne_eq, List.countP_eq_zero]
    intro hnone
    obtain ⟨p, hp, hsame⟩ := (H.requireCapabilities r hr).exists_provider
    exact hnone p hp hsame
  rw [visitCapabilityProviders, validateProviderCount, if_neg hsingle, run_pure_bind, meets_bind,
    if_neg hcount]
  refine visitEach_explained hvisit H (fun p : ProvideRecord => driverName p.driver)
    (fun p hp => ?_) .unknownDriver hs
  exact (H.provides p (List.mem_filter.mp hp).1).known

theorem visitNode_explained : VisitsExplained reg env (visitNode reg env visit) := by
  intro s i hs
  have hunmark : ∀ {x : Comp LifecycleFault DriverError Lifecycle Unit} {s₁ : Lifecycle},
      (x.run s₁).Meets (fun _ s' => s'.drivers = reg.drivers) (fun e s' => Explained reg env e s') →
      ((orUnmark i x).run s₁).Meets (fun _ s' => s'.drivers = reg.drivers)
        (fun e s' => Explained reg env e s') := by
    intro x s₁ hx
    rw [orUnmark, meets_bind, meets_attempt]
    exact hx.mono (fun _ _ h => h) (fun _ _ h => h.withMark i .notVisited)
  rw [visitNode, run_gets_bind]
  cases hm : (s.nodes i).visit with
  | visited => exact hs
  | visiting => exact ⟨hs, Or.inl (by decide)⟩
  | notVisited =>
    dsimp only
    rw [meets_bind, setVisit_run]
    have hs₀ : (s.withMark i .visiting).drivers = reg.drivers :=
      (sameNodes_withMark s i .visiting).drivers.trans hs
    show ((orUnmark i (visitDriverDependencies reg visit i) >>= _).run
      (s.withMark i .visiting)).Meets _ _
    rw [meets_bind]
    refine (hunmark ?_).mono (fun _ s₁ hs₁ => ?_) (fun _ _ h => h)
    · rw [visitDriverDependencies, run_gets_bind]
      refine visitEach_explained hvisit H (fun r : RequireDriverRecord => r.dependencyName)
        (fun r hr => ?_) .unknownDriverDependency hs₀
      exact (H.requireDrivers r (List.mem_filter.mp hr).1).exists_dependency
    rw [meets_bind]
    refine (hunmark ?_).mono (fun _ s₂ hs₂ => ?_) (fun _ _ h => h)
    · rw [visitCapabilityDependencies, run_gets_bind]
      exact meets_forEach _ _ (fun r hr s' hs' =>
        visitCapabilityProviders_explained hvisit H (List.mem_filter.mp hr).1 hs') hs₁
    rw [meets_bind]
    refine (hunmark (runDriver_explained i hs₂)).mono (fun _ s₃ hs₃ => ?_) (fun _ _ h => h)
    exact (sameNodes_withMark s₃ i .visited).drivers.trans hs₃

end Loops

/-- **Every error of a visit** behind an accepted registry is explained. -/
theorem visit_explained (H : reg.Accepted) : ∀ depth, VisitsExplained reg env (visit reg env depth)
  | 0 => fun _ _ _ => trivial
  | depth + 1 => visitNode_explained (visit_explained H depth) H

/-! ## Reads behind `build_registry` -/

theorem registerCapability_avoids (id : DriverId) (r : ProvideRecord × ℕ) :
    Avoids .nullDereference (registerCapability env id r) := by
  refine (avoids_gets _ _).bind (fun calls => (avoids_modify _ _).bind (fun _ => ?_))
  cases r.1.resolve.bind (env.resolve · calls) with
  | none => exact avoids_fail _ _
  | some api =>
    refine (avoids_gets _ _).bind (fun capabilities => ?_)
    split_ifs
    · exact avoids_fail _ _
    · exact avoids_modify _ _

theorem runDriver_avoids (i : ℕ) : Avoids .nullDereference (runDriver reg env i) := by
  have hregister : Avoids .nullDereference
      (registerCapabilities reg env i >>= fun _ => markInitialized i) := by
    refine Avoids.bind ((avoids_gets _ _).bind (fun id => (avoids_modify _ _).bind
      (fun _ => avoids_forEach (fun r => registerCapability_avoids id r) _))) (fun _ => ?_)
    refine (avoids_modify _ _).bind (fun _ => (avoids_gets _ _).bind (fun initialized => ?_))
    split_ifs
    · exact avoids_modify _ _
    · exact avoids_stop (by decide)
  refine (avoids_gets _ _).bind (fun init => ?_)
  cases init with
  | none => exact hregister
  | some f =>
    refine Avoids.bind ((avoids_gets _ _).bind (fun calls => (avoids_modify _ _).bind
      (fun _ => ?_))) (fun _ => hregister)
    cases env.init f calls with
    | error e => exact avoids_fail _ e
    | ok _ => exact avoids_pure _ _

theorem orUnmark_avoids (i : ℕ) {x : Comp LifecycleFault DriverError Lifecycle Unit}
    (hx : Avoids .nullDereference x) : Avoids .nullDereference (orUnmark i x) := by
  refine hx.attempt.bind (fun result => ?_)
  cases result with
  | ok _ => exact avoids_pure _ _
  | error e => exact (avoids_modify _ _).bind (fun _ => avoids_fail _ e)

/-- Looking up one node after the other and visiting it. -/
theorem visitEach_avoids {ι : Type} (key : ι → Option String) (er : DriverError) (xs : List ι)
    {visit : ℕ → Comp LifecycleFault DriverError Lifecycle Unit}
    (hvisit : ∀ i, Avoids .nullDereference (visit i)) :
    Avoids .nullDereference (forEach (fun x => do
      match ← gets fun s => s.findNode (key x) with
      | none => fail er
      | some j => visit j) xs : Comp LifecycleFault DriverError Lifecycle Unit) := by
  refine avoids_forEach (fun x => (avoids_gets _ _).bind (fun found => ?_)) xs
  cases found with
  | none => exact avoids_fail _ er
  | some j => exact hvisit j

theorem visitCapabilityProviders_avoids (key : Option CapabilityKey)
    {visit : ℕ → Comp LifecycleFault DriverError Lifecycle Unit}
    (hvisit : ∀ i, Avoids .nullDereference (visit i)) :
    Avoids .nullDereference (visitCapabilityProviders reg visit key) := by
  have hvalidate : Avoids .nullDereference (validateProviderCount reg key) := by
    rw [validateProviderCount]
    split_ifs
    · exact avoids_fail _ _
    · exact avoids_pure _ _
  refine hvalidate.bind (fun _ => (visitEach_avoids
    (fun p : ProvideRecord => driverName p.driver) .unknownDriver _ hvisit).bind (fun _ => ?_))
  split_ifs
  · exact avoids_fail _ _
  · exact avoids_pure _ _

/-- The walk of the model has no reads through pointers. -/
theorem visit_avoids : ∀ depth i, Avoids .nullDereference (visit reg env depth i) := by
  intro depth
  induction depth with
  | zero => exact fun i => avoids_stop (by decide)
  | succ depth ih =>
    intro i
    refine (avoids_gets _ _).bind (fun mark => ?_)
    cases mark with
    | visited => exact avoids_pure _ _
    | visiting => exact avoids_fail _ _
    | notVisited =>
      refine (avoids_modify _ _).bind (fun _ => ?_)
      refine (orUnmark_avoids i ((avoids_gets _ _).bind (fun name => visitEach_avoids
        (fun r : RequireDriverRecord => r.dependencyName) .unknownDriverDependency _ ih))).bind
        (fun _ => ?_)
      refine (orUnmark_avoids i ((avoids_gets _ _).bind (fun name => avoids_forEach
        (fun r : RequireCapabilityRecord => visitCapabilityProviders_avoids r.capability ih)
        _))).bind (fun _ => ?_)
      exact (orUnmark_avoids i (runDriver_avoids i)).bind (fun _ => avoids_modify _ _)

/-! ## Validation -/

/-- The errors that say something is wrong with the records. -/
def registryErrors : List DriverError := [.invalidRecord, .unknownDriver,
  .unknownDriverDependency, .missingCapabilityProvider, .multipleCapabilityProviders]

theorem walkErrors_disjoint : ∀ e ∈ walkErrors, e ∉ registryErrors := by decide

/-- `build_registry` returns in every state of a run, and makes a node of each driver when there
is nothing wrong. -/
theorem Reachable.buildRegistry {allowed : Lifecycle → Call → Prop}
    (h : Reachable reg env allowed s) :
    ((buildRegistry reg).run s).Sat (fun _ s' => s'.drivers = reg.drivers ∧ reg.Accepted)
      (fun _ _ => ¬ reg.Accepted) := by
  cases hb : s.built with
  | true =>
    rw [Lifecycle.buildRegistry, run_gets_bind, hb, if_pos rfl]
    exact ⟨(h.idle.good.valid hb).drivers, h.accepted hb⟩
  | false =>
    refine ((buildRegistry_sat hb).and (buildRegistry_accepts hb)).mono ?_ (fun _ _ h => h.2)
    rintro - s' ⟨⟨s₁, -, -, hvalid⟩, hacc, -⟩
    exact ⟨hvalid.drivers, hacc⟩

/-- **Validation of the registry is exact.**  `build_registry` succeeds exactly when there is
nothing wrong with the records.  From then on, whatever else the state holds, a visit follows
no null pointer, keeps the nodes, and finds nothing wrong with the records. -/
theorem build_registry_exact {allowed : Lifecycle → Call → Prop}
    (h : Reachable reg env allowed s) :
    ((∃ s₁, (buildRegistry reg).run s = .ok () s₁) ↔ reg.Accepted) ∧
      ∀ s₁, (buildRegistry reg).run s = .ok () s₁ →
        ∀ t : Lifecycle, t.drivers = s₁.drivers → ∀ depth i,
          visitDeref reg env depth i = visit reg env depth i ∧
          (visitDeref reg env depth i).run t ≠ .halt .nullDereference ∧
          (∀ t', ((visitDeref reg env depth i).run t).state? = some t' →
            t'.drivers = s₁.drivers) ∧
          ∀ e t', (visitDeref reg env depth i).run t = .err e t' → e ∈ registryErrors →
            Returned env e t' := by
  have hbuild := h.buildRegistry
  refine ⟨⟨?_, fun hacc => ?_⟩, fun s₁ hrun t ht depth i => ?_⟩
  · rintro ⟨s₁, hrun⟩
    exact (hbuild.of_ok hrun).2
  · obtain ⟨_, s₁, hrun, -⟩ := hbuild.exists_ok (fun _ _ hnot => hnot hacc)
    exact ⟨s₁, hrun⟩
  · obtain ⟨hdrivers, hacc⟩ := hbuild.of_ok hrun
    rw [visitDeref_eq hacc, hdrivers]
    have hvisit : ((visit reg env depth i).run t).Meets (fun _ t' => t'.drivers = reg.drivers)
        (fun e t' => Explained reg env e t') := visit_explained hacc depth t i (ht.trans hdrivers)
    refine ⟨rfl, visit_avoids depth i t, fun t' hstate => ?_, fun e t' herr he => ?_⟩
    · cases hout : (visit reg env depth i).run t with
      | ok u t₁ =>
        rw [hout] at hvisit hstate
        exact Option.some.inj hstate ▸ hvisit
      | err e t₁ =>
        rw [hout] at hvisit hstate
        exact Option.some.inj hstate ▸ hvisit.1
      | halt f =>
        rw [hout] at hstate
        cases hstate
    · rw [herr] at hvisit
      rcases hvisit.2 with hwalk | hreturned
      · exact absurd he (walkErrors_disjoint e hwalk)
      · exact hreturned

theorem accepted_small : smallRegistry.Accepted where
  drivers := ⟨by decide, by decide, by decide⟩
  inits := ⟨by decide, by decide, by decide, by decide⟩
  exits := ⟨by decide, by decide, by decide, by decide⟩
  provides r hr := by
    rw [List.mem_singleton.mp hr]
    exact ⟨by decide, by decide, by decide, by decide, by decide⟩
  requireDrivers r hr := by
    rw [List.mem_singleton.mp hr]
    exact ⟨by decide, by decide, by decide, by decide⟩
  requireCapabilities r hr := by cases hr
  singles _ _ _ := List.countP_le_length

theorem build_registry_exact_small :
    ∃ s₁, (buildRegistry smallRegistry).run {} = .ok () s₁ ∧
      (visitDeref smallRegistry smallEnv 3 1).run s₁ ≠ .halt .nullDereference := by
  have hexact := build_registry_exact
    (Reachable.start : Reachable smallRegistry smallEnv (fun _ _ => True) {})
  obtain ⟨s₁, hrun⟩ := hexact.1.mpr accepted_small
  exact ⟨s₁, hrun, (hexact.2 s₁ hrun s₁ rfl 3 1).2.1⟩

end Lifecycle

end DoomOs
