/-
# The driver lifecycle

`include/uk/registry.hpp` and `kernel/device/lifecycle.cpp`.  Drivers are described by
records that the linker collects: their names, entry and exit points, the capabilities
they provide and what they depend on.  `build_registry` checks the records and makes a node
of each driver; `init_all` visits the nodes depth first, dependencies before dependents, and
brings each driver up once; `exit_all` takes the drivers down again in reverse order.

What a driver's functions return is up to the environment (`DriverEnv`), call by call.  Beside
the state of the source the model keeps a history: how many driver functions have been
called, the state in which each entry point was called, whose exit points were called, and
the state in which each registration of capabilities began since the table of capabilities
was last empty.

A pointer that may be null is an `Option`, and strings are compared by content, as
`string_equal` does.
-/
import DoomOs.Outcome

namespace DoomOs

open Comp

/-! ## Records -/

/-- `capability_multiplicity`. -/
inductive CapabilityMultiplicity where
  | single
  | multiple
  deriving DecidableEq, Repr

/-- `driver_id`. -/
structure DriverId where
  name : Option String
  deriving DecidableEq, Repr

/-- `capability_key`. -/
structure CapabilityKey where
  name : Option String
  multiplicity : CapabilityMultiplicity
  deriving DecidableEq, Repr

/-- `error`. -/
inductive DriverError where
  | unspecified
  | capacityExceeded
  | invalidRecord
  | duplicateDriver
  | duplicateDriverEntry
  | duplicateDriverExit
  | unknownDriver
  | unknownDriverDependency
  | missingCapabilityProvider
  | multipleCapabilityProviders
  | dependencyCycle
  | capabilityResolveFailed
  deriving DecidableEq, Repr

/-- The address of a function of a driver. -/
abbrev FunctionPtr : Type := ℕ

/-- The address of the interface behind a capability, never null. -/
abbrev Api : Type := ℕ

/-- `init_record` and `exit_record`, which have the same fields. -/
structure EntryRecord where
  driver : Option DriverId
  function : Option FunctionPtr
  deriving DecidableEq, Repr

/-- `provide_record`. -/
structure ProvideRecord where
  driver : Option DriverId
  capability : Option CapabilityKey
  resolve : Option FunctionPtr
  deriving DecidableEq, Repr

/-- `require_driver_record`. -/
structure RequireDriverRecord where
  driver : Option DriverId
  dependencyName : Option String
  deriving DecidableEq, Repr

/-- `require_capability_record`. -/
structure RequireCapabilityRecord where
  driver : Option DriverId
  capability : Option CapabilityKey
  deriving DecidableEq, Repr

/-- The sections of `registry`. -/
structure Registry where
  drivers : List DriverId := []
  initRecords : List EntryRecord := []
  exitRecords : List EntryRecord := []
  provideRecords : List ProvideRecord := []
  requireDriverRecords : List RequireDriverRecord := []
  requireCapabilityRecords : List RequireCapabilityRecord := []

/-- What the functions of the drivers return, by address and by the number of calls made
before. -/
structure DriverEnv where
  init : FunctionPtr → ℕ → Except DriverError Unit
  resolve : FunctionPtr → ℕ → Option Api

/-- The name behind a pointer to a driver.  Records with a null pointer are rejected before
this is read. -/
def driverName (id : Option DriverId) : Option String := id.bind DriverId.name

/-- The name behind a pointer to a key. -/
def capabilityName (key : Option CapabilityKey) : Option String := key.bind CapabilityKey.name

/-- `string_equal`. -/
def stringEqual (lhs rhs : Option String) : Bool := lhs = rhs

/-- `same_capability`, where the first pointer may be null. -/
def sameCapability (lhs : Option CapabilityKey) (rhs : Option String) : Bool :=
  lhs.isSome && stringEqual (capabilityName lhs) rhs

/-! ## State -/

/-- `MAX_DRIVERS`. -/
def maxDrivers : ℕ := 128

/-- `MAX_REGISTERED_CAPABILITIES`. -/
def maxRegisteredCapabilities : ℕ := 256

/-- `visit_state`. -/
inductive VisitState where
  | notVisited
  | visiting
  | visited
  deriving DecidableEq, Repr

/-- `driver_node`. -/
structure DriverNode where
  id : DriverId
  init : Option FunctionPtr := none
  exit : Option FunctionPtr := none
  visit : VisitState := .notVisited
  initialized : Bool := false
  deriving DecidableEq, Repr

/-- `registered_capability`, with the index of the record it comes from. -/
structure RegisteredCapability where
  key : Option CapabilityKey
  driver : DriverId
  api : Api
  record : ℕ
  deriving DecidableEq, Repr

/-- The call of an entry point, with the state it was made in. -/
structure InitCall where
  driver : ℕ
  nodes : ℕ → DriverNode
  initialized : List ℕ
  capabilities : List RegisteredCapability

/-- The start of a registration of capabilities, with the state it was made in. -/
structure Registration where
  driver : DriverId
  calls : ℕ
  capabilityCount : ℕ
  deriving DecidableEq, Repr

/-- `lifecycle_state`.  The last four fields are the history. -/
structure Lifecycle where
  nodes : ℕ → DriverNode := fun _ => { id := ⟨none⟩ }
  nodeCount : ℕ := 0
  initialized : List ℕ := []
  capabilities : List RegisteredCapability := []
  built : Bool := false
  initializedAll : Bool := false
  calls : ℕ := 0
  initCalls : List InitCall := []
  exitCalls : List ℕ := []
  registrations : List Registration := []

/-- What stops the lifecycle for good: a write past the end of an array, a recursion deeper
than there are nodes, or a read through a null pointer. -/
inductive LifecycleFault where
  | outOfBounds
  | depth
  | nullDereference
  deriving DecidableEq, Repr

namespace Lifecycle

/-- Assigning to `nodes[i]`. -/
def setNode (i : ℕ) (node : DriverNode) (s : Lifecycle) : Lifecycle :=
  { s with nodes := Function.update s.nodes i node }

/-- `find_node`.  Equal pointers have equal names, so comparing names is enough. -/
def findNode (s : Lifecycle) (name : Option String) : Option ℕ :=
  if name = none then none
  else (List.range s.nodeCount).find? fun i => stringEqual (s.nodes i).id.name name

/-- `find_capability`, in a table. -/
def findCapability (capabilities : List RegisteredCapability) (key : Option String) : Option Api :=
  (capabilities.find? fun c => sameCapability c.key key).map RegisteredCapability.api

/-! ## Building the registry -/

/-- `add_driver`. -/
def addDriver (id : DriverId) : Comp LifecycleFault DriverError Lifecycle Unit := do
  if id.name = none then fail .invalidRecord
  else if (← gets fun s => s.findNode id.name) ≠ none then fail .duplicateDriver
  else if (← gets Lifecycle.nodeCount) = maxDrivers then fail .capacityExceeded
  else modify fun s => { s.setNode s.nodeCount { id := id } with nodeCount := s.nodeCount + 1 }

/-- The body of `attach_init_records` and `attach_exit_records`, for the field that `get` and
`put` stand for. -/
def attachRecord (get : DriverNode → Option FunctionPtr)
    (put : DriverNode → Option FunctionPtr → DriverNode) (duplicate : DriverError)
    (record : EntryRecord) : Comp LifecycleFault DriverError Lifecycle Unit := do
  if record.driver = none ∨ record.function = none then fail .invalidRecord
  else
    match ← gets fun s => s.findNode (driverName record.driver) with
    | none => fail .unknownDriver
    | some i =>
      if get ((← gets Lifecycle.nodes) i) ≠ none then fail duplicate
      else modify fun s => s.setNode i (put (s.nodes i) record.function)

variable (reg : Registry)

/-- `attach_init_records`. -/
def attachInitRecords : Comp LifecycleFault DriverError Lifecycle Unit :=
  forEach (attachRecord DriverNode.init (fun node f => { node with init := f })
    .duplicateDriverEntry) reg.initRecords

/-- `attach_exit_records`. -/
def attachExitRecords : Comp LifecycleFault DriverError Lifecycle Unit :=
  forEach (attachRecord DriverNode.exit (fun node f => { node with exit := f })
    .duplicateDriverExit) reg.exitRecords

/-- `provider_record_count`. -/
def providerRecordCount (key : Option CapabilityKey) : ℕ :=
  reg.provideRecords.countP fun record => sameCapability record.capability (capabilityName key)

/-- `validate_provider_count`. -/
def validateProviderCount (key : Option CapabilityKey) :
    Comp LifecycleFault DriverError Lifecycle Unit :=
  if key.map CapabilityKey.multiplicity = some .single ∧ providerRecordCount reg key > 1 then
    fail .multipleCapabilityProviders
  else pure ()

/-- The body of `validate_provider_records`. -/
def validateProviderRecord (record : ProvideRecord) :
    Comp LifecycleFault DriverError Lifecycle Unit := do
  if record.driver = none ∨ record.capability = none ∨ capabilityName record.capability = none ∨
      record.resolve = none then fail .invalidRecord
  else if (← gets fun s => s.findNode (driverName record.driver)) = none then fail .unknownDriver
  else validateProviderCount reg record.capability

/-- `validate_provider_records`. -/
def validateProviderRecords : Comp LifecycleFault DriverError Lifecycle Unit :=
  forEach (validateProviderRecord reg) reg.provideRecords

/-- The body of the first loop of `validate_dependency_records`. -/
def validateRequireDriver (record : RequireDriverRecord) :
    Comp LifecycleFault DriverError Lifecycle Unit := do
  if record.driver = none ∨ record.dependencyName = none then fail .invalidRecord
  else if (← gets fun s => s.findNode (driverName record.driver)) = none then fail .unknownDriver
  else if (← gets fun s => s.findNode record.dependencyName) = none then
    fail .unknownDriverDependency
  else pure ()

/-- The body of the second loop of `validate_dependency_records`. -/
def validateRequireCapability (record : RequireCapabilityRecord) :
    Comp LifecycleFault DriverError Lifecycle Unit := do
  if record.driver = none ∨ record.capability = none ∨ capabilityName record.capability = none then
    fail .invalidRecord
  else if (← gets fun s => s.findNode (driverName record.driver)) = none then fail .unknownDriver
  else
    validateProviderCount reg record.capability
    if providerRecordCount reg record.capability = 0 then fail .missingCapabilityProvider
    else pure ()

/-- `validate_dependency_records`. -/
def validateDependencyRecords : Comp LifecycleFault DriverError Lifecycle Unit := do
  forEach validateRequireDriver reg.requireDriverRecords
  forEach (validateRequireCapability reg) reg.requireCapabilityRecords

/-- `m_state = lifecycle_state{}`, which the history outlives. -/
def reset (s : Lifecycle) : Lifecycle :=
  { calls := s.calls, initCalls := s.initCalls, exitCalls := s.exitCalls }

/-- `build_registry`. -/
def buildRegistry : Comp LifecycleFault DriverError Lifecycle Unit := do
  if (← gets Lifecycle.built) then pure ()
  else
    modify reset
    forEach addDriver reg.drivers
    attachInitRecords reg
    attachExitRecords reg
    validateProviderRecords reg
    validateDependencyRecords reg
    modify fun s => { s with built := true }

/-! ## Bringing drivers up -/

variable (env : DriverEnv)

/-- The provide records of a driver, with their indices. -/
def recordsOf (name : Option String) : List (ProvideRecord × ℕ) :=
  reg.provideRecords.zipIdx.filter fun r => stringEqual (driverName r.1.driver) name

/-- The part of the loop of `register_capabilities` after its `continue`. -/
def registerCapability (id : DriverId) (r : ProvideRecord × ℕ) :
    Comp LifecycleFault DriverError Lifecycle Unit := do
  let calls ← gets Lifecycle.calls
  modify fun s => { s with calls := s.calls + 1 }
  match r.1.resolve.bind (env.resolve · calls) with
  | none => fail .capabilityResolveFailed
  | some api =>
    if (← gets Lifecycle.capabilities).length = maxRegisteredCapabilities then
      fail .capacityExceeded
    else modify fun s => { s with
      capabilities := s.capabilities ++ [⟨r.1.capability, id, api, r.2⟩] }

/-- `register_capabilities`.  The loop skips the records of other drivers. -/
def registerCapabilities (i : ℕ) : Comp LifecycleFault DriverError Lifecycle Unit := do
  let id ← gets fun s => (s.nodes i).id
  modify fun s => { s with
    registrations := s.registrations ++ [⟨id, s.calls, s.capabilities.length⟩] }
  forEach (registerCapability env id) (recordsOf reg id.name)

/-- Calling the entry point of a driver. -/
def callInit (i : ℕ) (f : FunctionPtr) : Comp LifecycleFault DriverError Lifecycle Unit := do
  let calls ← gets Lifecycle.calls
  modify fun s => { s with
    calls := s.calls + 1
    initCalls := s.initCalls ++ [⟨i, s.nodes, s.initialized, s.capabilities⟩] }
  match env.init f calls with
  | .error e => fail e
  | .ok _ => pure ()

/-- The end of `run_driver`. -/
def markInitialized (i : ℕ) : Comp LifecycleFault DriverError Lifecycle Unit := do
  modify fun s => s.setNode i { s.nodes i with initialized := true }
  if (← gets Lifecycle.initialized).length < maxDrivers then
    modify fun s => { s with initialized := s.initialized ++ [i] }
  else stop .outOfBounds

/-- `run_driver`. -/
def runDriver (i : ℕ) : Comp LifecycleFault DriverError Lifecycle Unit := do
  match ← gets fun s => (s.nodes i).init with
  | some f => callInit env i f
  | none => pure ()
  registerCapabilities reg env i
  markInitialized i

/-- Assigning to `node.visit`. -/
def setVisit (i : ℕ) (v : VisitState) : Comp LifecycleFault DriverError Lifecycle Unit :=
  modify fun s => s.setNode i { s.nodes i with visit := v }

section Visit

variable (visit : ℕ → Comp LifecycleFault DriverError Lifecycle Unit)

/-- `visit_capability_providers`.  When the loop runs to its end, `found` says whether there is
a provider at all. -/
def visitCapabilityProviders (key : Option CapabilityKey) :
    Comp LifecycleFault DriverError Lifecycle Unit := do
  validateProviderCount reg key
  forEach (fun record => do
    match ← gets fun s => s.findNode (driverName record.driver) with
    | none => fail .unknownDriver
    | some i => visit i)
    (reg.provideRecords.filter fun record => sameCapability record.capability (capabilityName key))
  if providerRecordCount reg key = 0 then fail .missingCapabilityProvider else pure ()

/-- `visit_driver_dependencies`. -/
def visitDriverDependencies (i : ℕ) : Comp LifecycleFault DriverError Lifecycle Unit := do
  let name ← gets fun s => (s.nodes i).id.name
  forEach (fun record => do
    match ← gets fun s => s.findNode record.dependencyName with
    | none => fail .unknownDriverDependency
    | some j => visit j)
    (reg.requireDriverRecords.filter fun record => stringEqual (driverName record.driver) name)

/-- `visit_capability_dependencies`. -/
def visitCapabilityDependencies (i : ℕ) : Comp LifecycleFault DriverError Lifecycle Unit := do
  let name ← gets fun s => (s.nodes i).id.name
  forEach (fun record => visitCapabilityProviders reg visit record.capability)
    (reg.requireCapabilityRecords.filter fun record => stringEqual (driverName record.driver) name)

/-- An error in `visit` takes the mark of the node back. -/
def orUnmark (i : ℕ) (x : Comp LifecycleFault DriverError Lifecycle Unit) :
    Comp LifecycleFault DriverError Lifecycle Unit := do
  match ← attempt x with
  | .ok _ => pure ()
  | .error e =>
    setVisit i .notVisited
    fail e

/-- The body of `visit`. -/
def visitNode (i : ℕ) : Comp LifecycleFault DriverError Lifecycle Unit := do
  match ← gets fun s => (s.nodes i).visit with
  | .visited => pure ()
  | .visiting => fail .dependencyCycle
  | .notVisited =>
    setVisit i .visiting
    orUnmark i (visitDriverDependencies reg visit i)
    orUnmark i (visitCapabilityDependencies reg visit i)
    orUnmark i (runDriver reg env i)
    setVisit i .visited

end Visit

/-- `visit`, to the given depth of recursion. -/
def visit : (depth : ℕ) → ℕ → Comp LifecycleFault DriverError Lifecycle Unit
  | 0, _ => stop .depth
  | depth + 1, i => visitNode reg env (visit depth) i

/-- `init_all`. -/
def initAll : Comp LifecycleFault DriverError Lifecycle Unit := do
  if (← gets Lifecycle.initializedAll) then pure ()
  else
    buildRegistry reg
    let count ← gets Lifecycle.nodeCount
    forRange count fun i => visit reg env (count + 1) i
    modify fun s => { s with initializedAll := true }

/-- The body of the loop of `exit_all`. -/
def exitNode (i : ℕ) : Comp LifecycleFault DriverError Lifecycle Unit := do
  let node ← gets fun s => s.nodes i
  if !node.initialized then pure ()
  else
    if node.exit ≠ none then modify fun s => { s with
      calls := s.calls + 1, exitCalls := s.exitCalls ++ [i] }
    modify fun s => s.setNode i { s.nodes i with initialized := false }

/-- `exit_all`. -/
def exitAll : Comp LifecycleFault DriverError Lifecycle Unit := do
  let initialized ← gets Lifecycle.initialized
  forEach exitNode initialized.reverse
  modify fun s => { s with
    initialized := [], capabilities := [], initializedAll := false, registrations := [] }

/-! ## Runs -/

/-- A call of the lifecycle. -/
inductive Call where
  | init
  | exit
  deriving DecidableEq, Repr

/-- Making a call. -/
def exec : Call → Comp LifecycleFault DriverError Lifecycle Unit
  | .init => initAll reg env
  | .exit => exitAll

/-- The states reached from the initial one by calls, successful or not, each of which is
allowed in the state it is made in. -/
inductive Reachable (allowed : Lifecycle → Call → Prop) : Lifecycle → Prop
  | start : Reachable allowed {}
  | call {s s' : Lifecycle} (c : Call) : Reachable allowed s → allowed s c →
      ((exec reg env c).run s).state? = some s' → Reachable allowed s'

end Lifecycle

end DoomOs
