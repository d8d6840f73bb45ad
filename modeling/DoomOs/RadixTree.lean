/-
# The page table walker

`arch/common/mmu/radix_tree.hpp`, the class `radix_tree` over a page format and an
environment.  The format is that of `Paging`; the environment stays a parameter, as
in the source: it says how the entries of a table are read and written and where
tables come from.

A slot, which the source holds as a pointer or a reference, is the address of its
table together with an index.
-/
import DoomOs.Paging

namespace DoomOs

open Comp Paging

/-- `page_env`.  Assigning to an element of `at(phys)` and `replace` are both
`write`: a flush of the translation lookaside buffer leaves no trace here. -/
structure PageEnv (σ : Type) where
  read : σ → ℕ → ℕ → Entry
  write : ℕ → ℕ → Entry → σ → σ
  allocTable : Comp Fault MmError σ ℕ
  freeTable : ℕ → Comp Fault MmError σ Unit

/-- `radix_tree`, with the features that the format asks for. -/
structure RadixTree (σ : Type) where
  env : PageEnv σ
  feat : Features
  root : ℕ

/-- A pointer to an entry. -/
structure Slot where
  table : ℕ
  index : ℕ
  deriving DecidableEq, Repr

/-- `walk_path`. -/
structure WalkPath where
  slots : ℕ → Slot := fun _ => ⟨0, 0⟩
  tables : ℕ → ℕ := fun _ => 0
  reachedLevel : ℕ := 0

/-- The three assignments at the start of an iteration of `walk`. -/
def WalkPath.visit (path : WalkPath) (level table va : ℕ) : WalkPath where
  slots := Function.update path.slots level ⟨table, index level va⟩
  tables := Function.update path.tables level table
  reachedLevel := level

namespace RadixTree

variable {σ : Type} (tree : RadixTree σ)

/-- Reading through a slot. -/
def load (slot : Slot) : Comp Fault MmError σ Entry :=
  gets fun s => tree.env.read s slot.table slot.index

/-- `E::replace`. -/
def replace (slot : Slot) (entry : Entry) : Comp Fault MmError σ Unit :=
  modify (tree.env.write slot.table slot.index entry)

/-- The loop of `leaf_size`. -/
def leafLevel (feat : Features) : ℕ → ℕ
  | 0 => 0
  | 1 => 1
  | level + 2 =>
    if supports feat (sizeAt (level + 2)) then level + 2 else leafLevel feat (level + 1)

/-- `leaf_size`. -/
def leafSize (size : PageSize) : PageSize := sizeAt (leafLevel tree.feat (levelOf size))

/-- `validate`. -/
def validate (va : ℕ) (size : PageSize) (pa : ℕ) : Comp Fault MmError σ ℕ :=
  if !valid va || (va ||| pa) &&& (size.bytesIn - 1) != 0 then fail .invalidAddress
  else pure (levelOf size)

/-- `is_table_empty`. -/
def isTableEmpty (table : ℕ) (s : σ) : Bool :=
  (List.range entries).all fun i => tree.env.read s table i == 0#64

variable {tree} in
theorem isTableEmpty_iff {table : ℕ} {s : σ} : tree.isTableEmpty table s = true ↔
    ∀ i < 512, tree.env.read s table i = 0#64 := by
  simp only [isTableEmpty, entries, List.all_eq_true, List.mem_range, beq_iff_eq]

-- the 512 comparisons are never unrolled
attribute [irreducible] isTableEmpty

/-- `F::split`, into the table at `child`. -/
def split (child : ℕ) (entry : Entry) (level : ℕ) : Comp Fault MmError σ Unit :=
  forRange entries fun i => modify (tree.env.write child i (splitEntry entry level i))

/-- What `walk` does, when it may allocate, to a slot that does not lead to a table:
link a new table, which is empty or holds the pieces of the leaf. -/
def grow (slot : Slot) (entry : Entry) (level : ℕ) : Comp Fault MmError σ Unit := do
  if !present entry then
    let child ← tree.env.allocTable
    tree.replace slot (tableEntry child)
  else if leaf entry level then
    let child ← tree.env.allocTable
    tree.split child entry level
    tree.replace slot (tableEntry child)
  else pure ()

/-- The loop of `walk`, from `level` down.  The target is at least 1. -/
def walkFrom (va target : ℕ) (allocate : Bool) :
    (level table : ℕ) → WalkPath → Comp Fault MmError σ WalkPath
  | 0, _, path => pure path
  | level + 1, table, path => do
    let slot : Slot := ⟨table, index (level + 1) va⟩
    let path := path.visit (level + 1) table va
    if level + 1 = target then pure path
    else
      let entry ← tree.load slot
      if !present entry && !allocate then fail .notMapped
      else if present entry && leaf entry (level + 1) && !allocate then pure path
      else
        tree.grow slot entry (level + 1)
        let entry ← tree.load slot
        walkFrom va target allocate level (address entry) path

/-- `walk`. -/
def walk (va target : ℕ) (allocate : Bool) : Comp Fault MmError σ WalkPath :=
  tree.walkFrom va target allocate levels tree.root {}

/-- `walk_to_leaf`. -/
def walkToLeaf (va target : ℕ) : Comp Fault MmError σ WalkPath := do
  let path ← tree.walk va target false
  let path ← if path.reachedLevel > target then tree.walk va target true else pure path
  let entry ← tree.load (path.slots target)
  if !present entry then fail .notMapped
  else if !leaf entry target then fail .conflict
  else pure path

/-- The loop of `prune`, for `n` levels from `level` up. -/
def pruneFrom (path : WalkPath) : (level n : ℕ) → Comp Fault MmError σ Unit
  | _, 0 => pure ()
  | level, n + 1 => do
    let empty ← gets (tree.isTableEmpty (path.tables level))
    if !empty then pure ()
    else
      tree.replace (path.slots (level + 1)) 0#64
      tree.env.freeTable (path.tables level)
      pruneFrom path (level + 1) n

/-- `prune`. -/
def prune (path : WalkPath) (fromLevel : ℕ) : Comp Fault MmError σ Unit :=
  tree.pruneFrom path fromLevel (levels - fromLevel)

/-- `map_leaf`. -/
def mapLeaf (va pa : ℕ) (size : PageSize) (p : PageProt) : Comp Fault MmError σ Unit := do
  let target ← validate va size pa
  let path ← tree.walk va target true
  let entry := leafEntry tree.feat pa size p
  let slot ← tree.load (path.slots target)
  if present slot && slot != entry then fail .conflict
  else if !present slot then tree.replace (path.slots target) entry
  else pure ()

/-- `protect_leaf`. -/
def protectLeaf (va : ℕ) (size : PageSize) (p : PageProt) : Comp Fault MmError σ Unit := do
  let target ← validate va size 0
  let path ← tree.walkToLeaf va target
  let slot ← tree.load (path.slots target)
  tree.replace (path.slots target) (leafEntry tree.feat (address slot) size p)

/-- `split_at`. -/
def splitAt (boundary target : ℕ) : Comp Fault MmError σ Unit := do
  match ← attempt (tree.walk boundary target false) with
  | .error _ => pure ()
  | .ok path =>
    let level := path.reachedLevel
    if level > target && boundary &&& ((sizeAt level).bytesIn - 1) != 0 then
      let _ ← tree.walk boundary target true
      pure ()
    else pure ()

/-- `remove_leaf`. -/
def removeLeaf (va : ℕ) : Comp Fault MmError σ Mapping := do
  if !valid va then fail .invalidAddress
  else
    let path ← tree.walk va 1 false
    let level := path.reachedLevel
    let slot ← tree.load (path.slots level)
    if !present slot then fail .notMapped
    else
      tree.replace (path.slots level) 0#64
      tree.prune path level
      pure ⟨address slot, 0, sizeAt level, prot slot⟩

/-- `for_each_leaf`.  The length is a multiple of the step, so the offset runs through
its multiples below the length without a wrap. -/
def forEachLeaf (va length : ℕ) (size : PageSize)
    (fn : ℕ → ℕ → PageSize → Comp Fault MmError σ Unit) : Comp Fault MmError σ Unit :=
  let size := tree.leafSize size
  let step := size.bytesIn
  if length = 0 || length % step != 0 then fail .invalidAddress
  else forRange (length / step) fun i => fn (u64 (va + i * step)) (i * step) size

/-- `map_range`. -/
def mapRange (va pa length : ℕ) (size : PageSize) (p : PageProt) : Comp Fault MmError σ Unit :=
  tree.forEachLeaf va length size fun leaf offset leafSz =>
    tree.mapLeaf leaf (u64 (pa + offset)) leafSz p

/-- `protect_range`. -/
def protectRange (va length : ℕ) (size : PageSize) (p : PageProt) : Comp Fault MmError σ Unit :=
  tree.forEachLeaf va length size fun leaf _ leafSz => tree.protectLeaf leaf leafSz p

/-- What `unmap_range` does before its loop: the checks and the two boundary splits. -/
def unmapPrepare (va length : ℕ) (size : PageSize) : Comp Fault MmError σ Unit := do
  let size := tree.leafSize size
  let target ← validate va size 0
  let last := u64 (va + length)
  if length = 0 || length % size.bytesIn != 0 || sub64 last 1 < va || !valid (sub64 last 1) then
    fail .invalidAddress
  else
    tree.splitAt va target
    if last > va && valid last then tree.splitAt last target else pure ()

/-- The removal loop of `unmap_range`, for at most `n` iterations. -/
def unmapFrom (va length : ℕ) (onRemoved : Mapping → Comp Fault MmError σ Unit) :
    (n offset : ℕ) → Comp Fault MmError σ Unit
  | 0, _ => stop .loopBound
  | n + 1, offset => do
    if offset < length then
      let removed ← tree.removeLeaf (u64 (va + offset))
      onRemoved removed
      unmapFrom va length onRemoved n (u64 (offset + removed.size.bytesIn))
    else pure ()

/-- `unmap_range`.  A leaf covers at least 4096 bytes, which bounds the loop. -/
def unmapRange (va length : ℕ) (size : PageSize)
    (onRemoved : Mapping → Comp Fault MmError σ Unit) : Comp Fault MmError σ Unit := do
  tree.unmapPrepare va length size
  tree.unmapFrom va length onRemoved (length / 4096 + 1) 0

/-- `ignore_removed`. -/
def ignoreRemoved (_ : Mapping) : Comp Fault MmError σ Unit := pure ()

/-- `translate`. -/
def translate (va : ℕ) : Comp Fault MmError σ Mapping := do
  if !valid va then fail .invalidAddress
  else
    let path ← tree.walk va 1 false
    let level := path.reachedLevel
    let slot ← tree.load (path.slots level)
    if !present slot then fail .notMapped
    else
      let size := sizeAt level
      pure ⟨address slot, va &&& (size.bytesIn - 1), size, prot slot⟩

end RadixTree

end DoomOs
