/-
# Threads over a release/acquire memory

A memory shared by any number of threads, with the part of the C++ memory model that has no
fences and no speculation.  Every location keeps the history of what was written to it.  An
atomic message stands at a time of its location's modification order and carries the view that
its writer released with it; times need not be consecutive, so a store may be put between two
others, but a compare-and-exchange takes the time right after the message it read (`since`).
A thread's view says how far it has seen each history and which accesses of each thread happened
before: a load may return any message that the view does not rule out, however stale.

Plain cells are read and written without order.  Each access is logged with what happened
before it, and `RaceFree` says that of two accesses to one cell, one of them a write, the earlier
always happened before the later.

* `Perform` is one instruction of one thread, `Step` and `Run` are interleavings;
* `Chained` is a location that is taken by compare-and-exchange from one value and given
  back by a store, and `Chained.eq_newest` says that only its newest message can be taken;
* `Covers` is a view from which every access happened before: `Covers.get` and `Covers.put`
  say that a thread with such a view reads the last value written and races with no one.
-/
import Mathlib

set_option linter.unusedSectionVars false

namespace SharedMemory

/-- The order of an atomic access: whether a read takes over the view it finds, and whether a
write hands on the view of its thread. -/
structure Order where
  acquire : Bool
  release : Bool
  deriving DecidableEq, Repr

/-- What a view has an entry for. -/
inductive Coord (T A D : Type) where
  | atomic (x : A)
  | cell (d : D)
  | thread (t : T)
  deriving DecidableEq

/-- How far each history has been seen, and how many accesses of each thread happened before. -/
abbrev View (T A D : Type) : Type := Coord T A D → ℕ

/-- A message of an atomic location, in the interval `(since, time]` of its modification order. -/
structure Message (T A D : Type) where
  value : ℕ
  since : ℕ
  time : ℕ
  view : View T A D

/-- A write to a plain cell. -/
structure Write (V : Type) where
  value : V
  time : ℕ

/-- What was written to a location, the last write in front. -/
structure History (M : Type) where
  newest : M
  older : List M

/-- All entries of a history. -/
def History.all {M : Type} (h : History M) : List M := h.newest :: h.older

/-- One more entry. -/
def History.push {M : Type} (h : History M) (m : M) : History M := ⟨m, h.all⟩

@[simp] theorem History.newest_push {M : Type} (h : History M) (m : M) :
    (h.push m).newest = m := rfl

@[simp] theorem History.older_push {M : Type} (h : History M) (m : M) :
    (h.push m).older = h.all := rfl

@[simp] theorem History.mem_all {M : Type} {h : History M} {m : M} :
    m ∈ h.all ↔ m = h.newest ∨ m ∈ h.older := List.mem_cons

/-- An access to a plain cell: the `clock`-th of its thread, made when `known u` accesses of
each thread `u` happened before or were this one. -/
structure Access (T D : Type) where
  thread : T
  cell : D
  writes : Bool
  clock : ℕ
  known : T → ℕ

/-- `e` happens before `e'`. -/
def Access.Before {T D : Type} (e e' : Access T D) : Prop := e.clock ≤ e'.known e.thread

/-- Two accesses to one cell, one of them a write. -/
def Access.Conflicts {T D : Type} (e e' : Access T D) : Prop :=
  e.cell = e'.cell ∧ (e.writes = true ∨ e'.writes = true)

/-- The memory, and the accesses to its plain cells, the last one in front. -/
structure Memory (T A D V : Type) where
  atomics : A → History (Message T A D)
  cells : D → History (Write V)
  log : List (Access T D)

/-- An instruction and the control states it leads to. -/
inductive Instr (A D V P : Type) where
  /-- Load from an atomic location. -/
  | load (x : A) (o : Order) (k : ℕ → P)
  /-- Store to an atomic location. -/
  | store (x : A) (n : ℕ) (o : Order) (p : P)
  /-- Strong compare-and-exchange: `p` if it exchanged, `k` of the value found if not. -/
  | cas (x : A) (expected desired : ℕ) (success failure : Order) (p : P) (k : ℕ → P)
  /-- Read a plain cell. -/
  | get (d : D) (k : V → P)
  /-- Write a plain cell. -/
  | put (d : D) (v : V) (p : P)
  /-- What comes next is not up to the code: any of the control states allowed. -/
  | choose (allowed : P → Prop)

variable {T A D V P : Type} [DecidableEq T] [DecidableEq A] [DecidableEq D]

/-- The view after reading `m` at `x`. -/
def View.reads (v : View T A D) (x : A) (o : Order) (m : Message T A D) : View T A D :=
  Function.update v (.atomic x) m.time ⊔ if o.acquire then m.view else ⊥

/-- The view that a write at `time` of `x` hands on. -/
def View.published (v : View T A D) (x : A) (o : Order) (time : ℕ) : View T A D :=
  Function.update ⊥ (.atomic x) time ⊔ if o.release then v else ⊥

/-- The view after one more access of thread `t`. -/
def View.tick (v : View T A D) (t : T) : View T A D :=
  Function.update v (.thread t) (v (.thread t) + 1)

/-- The access that thread `t` makes with the view `v`. -/
def View.access (v : View T A D) (t : T) (d : D) (writes : Bool) : Access T D where
  thread := t
  cell := d
  writes := writes
  clock := v.tick t (.thread t)
  known u := v.tick t (.thread u)

/-- The interval `(since, time]` of `x` is not taken. -/
def Memory.Fits (μ : Memory T A D V) (x : A) (since time : ℕ) : Prop :=
  since < time ∧ ∀ m ∈ (μ.atomics x).all, m.time ≤ since ∨ time ≤ m.since

/-- Add a message. -/
def Memory.post (μ : Memory T A D V) (x : A) (m : Message T A D) : Memory T A D V :=
  { μ with atomics := Function.update μ.atomics x ((μ.atomics x).push m) }

/-- Add a write to a cell. -/
def Memory.write (μ : Memory T A D V) (d : D) (w : Write V) : Memory T A D V :=
  { μ with cells := Function.update μ.cells d ((μ.cells d).push w) }

/-- Log an access. -/
def Memory.note (μ : Memory T A D V) (e : Access T D) : Memory T A D V :=
  { μ with log := e :: μ.log }

/-- Thread `t`, with the view `v` of the memory `μ`, performs an instruction, after which it
is at the control state `p` with the view `v'` of the memory `μ'`. -/
def Perform (t : T) (i : Instr A D V P) (v : View T A D) (μ : Memory T A D V)
    (p : P) (v' : View T A D) (μ' : Memory T A D V) : Prop :=
  match i with
  | .load x o k =>
    ∃ m ∈ (μ.atomics x).all, v (.atomic x) ≤ m.time ∧
      p = k m.value ∧ v' = v.reads x o m ∧ μ' = μ
  | .store x n o q =>
    ∃ since time, μ.Fits x since time ∧ v (.atomic x) < time ∧
      p = q ∧ v' = Function.update v (.atomic x) time ∧
      μ' = μ.post x ⟨n, since, time, v.published x o time⟩
  | .cas x expected desired success failure q k =>
    (∃ m ∈ (μ.atomics x).all, v (.atomic x) ≤ m.time ∧ m.value = expected ∧
      ∃ time, μ.Fits x m.time time ∧
        p = q ∧ v' = Function.update (v.reads x success m) (.atomic x) time ∧
        μ' = μ.post x
          ⟨desired, m.time, time, (v.reads x success m).published x success time ⊔ m.view⟩) ∨
    (∃ m ∈ (μ.atomics x).all, v (.atomic x) ≤ m.time ∧ m.value ≠ expected ∧
      p = k m.value ∧ v' = v.reads x failure m ∧ μ' = μ)
  | .get d k =>
    ∃ w ∈ (μ.cells d).all, v (.cell d) ≤ w.time ∧
      p = k w.value ∧ v' = Function.update (v.tick t) (.cell d) w.time ∧
      μ' = μ.note (v.access t d false)
  | .put d n q =>
    ∃ time, (∀ w ∈ (μ.cells d).all, w.time ≠ time) ∧ v (.cell d) < time ∧
      p = q ∧ v' = Function.update (v.tick t) (.cell d) time ∧
      μ' = (μ.write d ⟨n, time⟩).note (v.access t d true)
  | .choose allowed => allowed p ∧ v' = v ∧ μ' = μ

/-- The memory, and where each thread is and what it has seen. -/
structure Config (T A D V P : Type) where
  memory : Memory T A D V
  views : T → View T A D
  control : T → P

/-- Thread `t` is now at `p` with the view `v` of the memory `μ`. -/
def Config.moved (c : Config T A D V P) (t : T) (p : P) (v : View T A D)
    (μ : Memory T A D V) : Config T A D V P :=
  ⟨μ, Function.update c.views t v, Function.update c.control t p⟩

/-- Thread `t` performs the instruction at its control state. -/
def Step (prog : P → Instr A D V P) (t : T) (c c' : Config T A D V P) : Prop :=
  ∃ p v μ, Perform t (prog (c.control t)) (c.views t) c.memory p v μ ∧ c' = c.moved t p v μ

/-- An interleaving, with the control state that each step left. -/
inductive Run (prog : P → Instr A D V P) (c : Config T A D V P) :
    List (T × P) → Config T A D V P → Prop
  | refl : Run prog c [] c
  | step {tr c' c'' t} : Run prog c tr c' → Step prog t c' c'' →
      Run prog c (tr ++ [(t, c'.control t)]) c''

/-- Nothing was done yet: each location holds its first value, which everyone has seen. -/
def Config.initial (n : A → ℕ) (f : D → V) (p : P) : Config T A D V P where
  memory :=
    { atomics := fun x => ⟨⟨n x, 0, 0, ⊥⟩, []⟩
      cells := fun d => ⟨⟨f d, 0⟩, []⟩
      log := [] }
  views _ := ⊥
  control _ := p

/-- Of two accesses to one cell, one of them a write, the earlier happened before the later. -/
def Memory.RaceFree (μ : Memory T A D V) : Prop :=
  μ.log.Pairwise fun e' e => e.Conflicts e' → e.Before e'

/-- What a read that has seen everything finds in a cell. -/
def Memory.current (μ : Memory T A D V) (d : D) : V := (μ.cells d).newest.value

/-- A step of thread `t` prolongs a run. -/
theorem Run.moved {prog : P → Instr A D V P} {c₀ c : Config T A D V P} {tr : List (T × P)}
    (h : Run prog c₀ tr c) {t : T} {p : P} {v : View T A D} {μ : Memory T A D V}
    (hp : Perform t (prog (c.control t)) (c.views t) c.memory p v μ) :
    Run prog c₀ (tr ++ [(t, c.control t)]) (c.moved t p v μ) :=
  h.step ⟨p, v, μ, hp, rfl⟩

/-- An invariant of every step, relative to the steps before it, holds after every run. -/
theorem Run.inv {prog : P → Instr A D V P} {c c' : Config T A D V P} {tr : List (T × P)}
    (I : List (T × P) → Config T A D V P → Prop) (h : Run prog c tr c') (h0 : I [] c)
    (hs : ∀ tr c₁ c₂ t, I tr c₁ → Step prog t c₁ c₂ → I (tr ++ [(t, c₁.control t)]) c₂) :
    I tr c' := by
  induction h with
  | refl => exact h0
  | step _ hst ih => exact hs _ _ _ _ ih hst

/-! ## What an access leaves alone -/

section

variable {c : Config T A D V P} {t u : T} {p : P} {v : View T A D} {μ : Memory T A D V}

@[simp] theorem Config.memory_moved : (c.moved t p v μ).memory = μ := rfl

@[simp] theorem Config.control_moved : (c.moved t p v μ).control t = p := by
  simp [Config.moved]

@[simp] theorem Config.views_moved : (c.moved t p v μ).views t = v := by
  simp [Config.moved]

theorem Config.control_moved_of_ne (h : u ≠ t) : (c.moved t p v μ).control u = c.control u := by
  simp [Config.moved, Function.update_of_ne h]

theorem Config.views_moved_of_ne (h : u ≠ t) : (c.moved t p v μ).views u = c.views u := by
  simp [Config.moved, Function.update_of_ne h]

end

@[simp] theorem Memory.cells_post (μ : Memory T A D V) (x : A) (m : Message T A D) :
    (μ.post x m).cells = μ.cells := rfl

@[simp] theorem Memory.log_post (μ : Memory T A D V) (x : A) (m : Message T A D) :
    (μ.post x m).log = μ.log := rfl

@[simp] theorem Memory.atomics_post (μ : Memory T A D V) (x : A) (m : Message T A D) :
    (μ.post x m).atomics x = (μ.atomics x).push m := by
  simp [Memory.post]

theorem Memory.atomics_post_of_ne (μ : Memory T A D V) {x y : A} (m : Message T A D)
    (h : y ≠ x) : (μ.post x m).atomics y = μ.atomics y := by
  simp [Memory.post, Function.update_of_ne h]

@[simp] theorem Memory.atomics_write (μ : Memory T A D V) (d : D) (w : Write V) :
    (μ.write d w).atomics = μ.atomics := rfl

@[simp] theorem Memory.log_write (μ : Memory T A D V) (d : D) (w : Write V) :
    (μ.write d w).log = μ.log := rfl

@[simp] theorem Memory.cells_write (μ : Memory T A D V) (d : D) (w : Write V) :
    (μ.write d w).cells d = (μ.cells d).push w := by
  simp [Memory.write]

theorem Memory.cells_write_of_ne (μ : Memory T A D V) {d d' : D} (w : Write V) (h : d' ≠ d) :
    (μ.write d w).cells d' = μ.cells d' := by
  simp [Memory.write, Function.update_of_ne h]

@[simp] theorem Memory.atomics_note (μ : Memory T A D V) (e : Access T D) :
    (μ.note e).atomics = μ.atomics := rfl

@[simp] theorem Memory.cells_note (μ : Memory T A D V) (e : Access T D) :
    (μ.note e).cells = μ.cells := rfl

@[simp] theorem Memory.log_note (μ : Memory T A D V) (e : Access T D) :
    (μ.note e).log = e :: μ.log := rfl

@[simp] theorem Memory.current_post (μ : Memory T A D V) (x : A) (m : Message T A D) :
    (μ.post x m).current = μ.current := rfl

@[simp] theorem Memory.current_note (μ : Memory T A D V) (e : Access T D) :
    (μ.note e).current = μ.current := rfl

theorem Memory.current_write (μ : Memory T A D V) (d : D) (w : Write V) :
    (μ.write d w).current = Function.update μ.current d w.value := by
  funext d'
  by_cases h : d' = d
  · subst h
    simp [Memory.current]
  · simp [Memory.current, μ.cells_write_of_ne w h, Function.update_of_ne h]

/-- An acquiring read takes over the view that the message carries. -/
theorem View.le_reads (v : View T A D) (x : A) {o : Order} (m : Message T A D)
    (h : o.acquire = true) : m.view ≤ v.reads x o m := by
  simp only [View.reads, h, if_true]
  exact le_sup_right

/-- A releasing write hands on what its thread has seen, and the write itself. -/
theorem View.le_published {v : View T A D} {x : A} {o : Order} {time : ℕ}
    (h : o.release = true) : v ≤ v.published x o time := by
  simp only [View.published, h, if_true]
  exact le_sup_right

theorem View.self_le_update {v : View T A D} {k : Coord T A D} {n : ℕ} (h : v k ≤ n) :
    v ≤ Function.update v k n := by
  intro k'
  by_cases hk : k' = k
  · subst hk
    simpa using h
  · simp [Function.update_of_ne hk]

/-! ## A location taken by compare-and-exchange -/

/-- The modification order of a location is the order in which its messages were added, and
nothing fits after a message with the value `free` once it has a successor. -/
def Chained (free : ℕ) (m : Message T A D) : List (Message T A D) → Prop
  | [] => m.since ≤ m.time
  | m' :: ms =>
    m'.time ≤ m.since ∧ m.since < m.time ∧ (m'.value = free → m.since = m'.time) ∧
      Chained free m' ms

namespace Chained

variable {free : ℕ} {m m' : Message T A D} {ms : List (Message T A D)}

theorem since_le (h : Chained free m ms) : m.since ≤ m.time := by
  cases ms with
  | nil => exact h
  | cons m' ms => exact h.2.1.le

/-- The older messages come before the interval of the newest one. -/
theorem time_le (h : Chained free m ms) : ∀ m' ∈ ms, m'.time ≤ m.since := by
  induction ms generalizing m with
  | nil => simp
  | cons n ms ih =>
    obtain ⟨h₁, _, _, h₄⟩ := h
    intro m' hm'
    rcases List.mem_cons.mp hm' with rfl | hm'
    · exact h₁
    · exact (ih h₄ m' hm').trans (h₄.since_le.trans h₁)

theorem time_lt (h : Chained free m ms) (hm' : m' ∈ ms) : m'.time < m.time := by
  cases ms with
  | nil => simp at hm'
  | cons n ms => exact (h.time_le m' hm').trans_lt h.2.1

/-- Of the messages with the value `free` only the newest can be taken: behind every other one
the next interval starts at once. -/
theorem eq_newest (h : Chained free m ms) (hm' : m' ∈ m :: ms) (hfree : m'.value = free)
    {time : ℕ} (hlt : m'.time < time)
    (hfits : ∀ n ∈ m :: ms, n.time ≤ m'.time ∨ time ≤ n.since) : m' = m := by
  induction ms generalizing m with
  | nil => simpa using hm'
  | cons n ms ih =>
    rcases List.mem_cons.mp hm' with rfl | hm'
    · rfl
    · obtain ⟨_, hlt', hadj, hn⟩ := h
      have hmn : m' = n := ih hn hm' fun k hk => hfits k (List.mem_cons_of_mem _ hk)
      subst hmn
      -- the interval of `m` starts at `m'.time`, where the new one would start too
      have hs := hadj hfree
      rcases hfits m List.mem_cons_self with h | h <;> omega

/-- What is stored above the newest message comes after its interval. -/
theorem le_since (h : Chained free m ms) {since time : ℕ} (hlt : m.time < time)
    (hfits : m.time ≤ since ∨ time ≤ m.since) : m.time ≤ since := by
  have := h.since_le
  omega

/-- A message behind the newest one keeps the location chained. -/
theorem cons (h : Chained free m ms) {n : Message T A D} (hle : m.time ≤ n.since)
    (hlt : n.since < n.time) (hadj : m.value = free → n.since = m.time) :
    Chained free n (m :: ms) := ⟨hle, hlt, hadj, h⟩

end Chained

/-! ## Views from which all accesses happened before -/

/-- Every write of the memory happened before `F`. -/
structure CoversWrites (F : View T A D) (μ : Memory T A D V) : Prop where
  cells : ∀ d, (μ.cells d).newest.time ≤ F (.cell d)
  writes : ∀ e ∈ μ.log, e.writes = true → e.clock ≤ F (.thread e.thread)

/-- Every access of the memory happened before `F`. -/
structure Covers (F : View T A D) (μ : Memory T A D V) : Prop where
  cells : ∀ d, (μ.cells d).newest.time ≤ F (.cell d)
  log : ∀ e ∈ μ.log, e.clock ≤ F (.thread e.thread)

/-- Each write to a cell comes after those before it. -/
def Memory.Sorted (μ : Memory T A D V) : Prop :=
  ∀ d, (μ.cells d).all.Pairwise fun w' w => w.time < w'.time

/-- In a sorted memory the newest write of a cell is at the greatest time. -/
theorem Memory.Sorted.time_le {μ : Memory T A D V} (h : μ.Sorted) {d : D} {w : Write V}
    (hw : w ∈ (μ.cells d).all) : w.time ≤ (μ.cells d).newest.time := by
  rcases History.mem_all.mp hw with rfl | hw
  · exact le_rfl
  · exact ((List.pairwise_cons.mp (h d)).1 w hw).le

theorem Memory.Sorted.eq_newest {μ : Memory T A D V} (h : μ.Sorted) {d : D} {w : Write V}
    (hw : w ∈ (μ.cells d).all) (hle : (μ.cells d).newest.time ≤ w.time) :
    w = (μ.cells d).newest := by
  rcases History.mem_all.mp hw with rfl | hw
  · rfl
  · have := (List.pairwise_cons.mp (h d)).1 w hw
    omega

theorem Memory.Sorted.write {μ : Memory T A D V} (h : μ.Sorted) {d : D} {w : Write V}
    (hlt : (μ.cells d).newest.time < w.time) : (μ.write d w).Sorted := by
  intro d'
  by_cases hd : d' = d
  · subst hd
    rw [Memory.cells_write]
    refine List.pairwise_cons.mpr ⟨fun n hn => ?_, h d'⟩
    exact (h.time_le hn).trans_lt hlt
  · rw [μ.cells_write_of_ne w hd]
    exact h d'

theorem Covers.toWrites {F : View T A D} {μ : Memory T A D V} (h : Covers F μ) :
    CoversWrites F μ := ⟨h.cells, fun e he _ => h.log e he⟩

theorem Covers.mono {F F' : View T A D} {μ : Memory T A D V} (h : Covers F μ) (hF : F ≤ F') :
    Covers F' μ :=
  ⟨fun d => (h.cells d).trans (hF _), fun e he => (h.log e he).trans (hF _)⟩

theorem CoversWrites.mono {F F' : View T A D} {μ : Memory T A D V} (h : CoversWrites F μ)
    (hF : F ≤ F') : CoversWrites F' μ :=
  ⟨fun d => (h.cells d).trans (hF _), fun e he hw => (h.writes e he hw).trans (hF _)⟩

/-- How much of an atomic location was seen does not matter. -/
theorem Covers.update_atomic {F : View T A D} {μ : Memory T A D V} (h : Covers F μ) (x : A)
    (n : ℕ) : Covers (Function.update F (.atomic x) n) μ := by
  refine ⟨fun d => ?_, fun e he => ?_⟩
  · rw [Function.update_of_ne (by simp)]
    exact h.cells d
  · rw [Function.update_of_ne (by simp)]
    exact h.log e he

theorem Covers.post {F : View T A D} {μ : Memory T A D V} (h : Covers F μ) (x : A)
    (m : Message T A D) : Covers F (μ.post x m) := ⟨h.cells, h.log⟩

/-- A thread that all writes happened before reads the last value written. -/
theorem CoversWrites.get {v : View T A D} {μ : Memory T A D V} (h : CoversWrites v μ)
    (hs : μ.Sorted) {d : D} {w : Write V} (hw : w ∈ (μ.cells d).all)
    (hle : v (.cell d) ≤ w.time) : w = (μ.cells d).newest :=
  hs.eq_newest hw ((h.cells d).trans hle)

/-- … and the read races with no one. -/
theorem CoversWrites.raceFree_get {v : View T A D} {μ : Memory T A D V} (h : CoversWrites v μ)
    (hr : μ.RaceFree) (t : T) (d : D) : (μ.note (v.access t d false)).RaceFree := by
  refine List.pairwise_cons.mpr ⟨fun e he hc => ?_, hr⟩
  have hw : e.writes = true := by
    rcases hc.2 with h | h
    · exact h
    · exact absurd h (by simp [View.access])
  exact (h.writes e he hw).trans (View.self_le_update (Nat.le_succ _) _)

theorem CoversWrites.note_get {F : View T A D} {μ : Memory T A D V} (h : CoversWrites F μ)
    {e : Access T D} (he : e.writes = false) : CoversWrites F (μ.note e) := by
  refine ⟨h.cells, fun e' he' hw => ?_⟩
  rcases List.mem_cons.mp he' with rfl | he'
  · simp [he] at hw
  · exact h.writes e' he' hw

/-- After a thread's access everything happened before what it sees. -/
theorem Covers.note {v : View T A D} {μ : Memory T A D V} (h : Covers v μ) (t : T) (d : D)
    (b : Bool) : Covers (v.tick t) (μ.note (v.access t d b)) := by
  have hv : v ≤ v.tick t := View.self_le_update (Nat.le_succ _)
  refine ⟨fun d' => (h.cells d').trans (hv _), fun e he => ?_⟩
  rcases List.mem_cons.mp he with rfl | he
  · exact le_rfl
  · exact (h.log e he).trans (hv _)

/-- A thread that all accesses happened before reads the last value, and still has seen all. -/
theorem Covers.get {v : View T A D} {μ : Memory T A D V} (h : Covers v μ) (t : T) (d : D) :
    Covers (Function.update (v.tick t) (.cell d) (μ.cells d).newest.time)
      (μ.note (v.access t d false)) := by
  have hn := h.note t d false
  refine ⟨fun d' => ?_, fun e he => ?_⟩
  · by_cases hd : d' = d
    · subst hd
      simp
    · rw [Function.update_of_ne (by simpa using hd)]
      exact hn.cells d'
  · rw [Function.update_of_ne (by simp)]
    exact hn.log e he

/-- A thread that all accesses happened before writes without a race. -/
theorem Covers.raceFree_note {v : View T A D} {μ : Memory T A D V} (h : Covers v μ)
    (hr : μ.RaceFree) (t : T) (d : D) (b : Bool) : (μ.note (v.access t d b)).RaceFree :=
  List.pairwise_cons.mpr
    ⟨fun e he _ => (h.log e he).trans (View.self_le_update (Nat.le_succ _) _), hr⟩

/-- … and has seen its own write. -/
theorem Covers.put {v : View T A D} {μ : Memory T A D V} (h : Covers v μ) (t : T) (d : D)
    {n : V} {time : ℕ} (hlt : v (.cell d) < time) :
    Covers (Function.update (v.tick t) (.cell d) time)
      ((μ.write d ⟨n, time⟩).note (v.access t d true)) := by
  have hn := h.note t d true
  refine ⟨fun d' => ?_, fun e he => ?_⟩
  · by_cases hd : d' = d
    · subst hd
      simp
    · rw [Function.update_of_ne (by simpa using hd), Memory.cells_note,
        μ.cells_write_of_ne _ hd]
      exact hn.cells d'
  · rw [Function.update_of_ne (by simp)]
    exact hn.log e he

/-! ## Views that run ahead of nothing -/

/-- The view knows of no time beyond the newest ones. -/
structure Within (F : View T A D) (μ : Memory T A D V) : Prop where
  atomics : ∀ x, F (.atomic x) ≤ (μ.atomics x).newest.time
  cells : ∀ d, F (.cell d) ≤ (μ.cells d).newest.time

namespace Within

variable {F G : View T A D} {μ : Memory T A D V}

theorem sup (hF : Within F μ) (hG : Within G μ) : Within (F ⊔ G) μ :=
  ⟨fun x => sup_le (hF.atomics x) (hG.atomics x), fun d => sup_le (hF.cells d) (hG.cells d)⟩

theorem bot : Within (⊥ : View T A D) μ := ⟨fun _ => Nat.zero_le _, fun _ => Nat.zero_le _⟩

theorem update_atomic (h : Within F μ) {x : A} {n : ℕ}
    (hn : n ≤ (μ.atomics x).newest.time) : Within (Function.update F (.atomic x) n) μ := by
  refine ⟨fun y => ?_, fun d => ?_⟩
  · by_cases hy : y = x
    · subst hy
      simpa using hn
    · rw [Function.update_of_ne (by simpa using hy)]
      exact h.atomics y
  · rw [Function.update_of_ne (by simp)]
    exact h.cells d

theorem update_cell (h : Within F μ) {d : D} {n : ℕ}
    (hn : n ≤ (μ.cells d).newest.time) : Within (Function.update F (.cell d) n) μ := by
  refine ⟨fun x => ?_, fun e => ?_⟩
  · rw [Function.update_of_ne (by simp)]
    exact h.atomics x
  · by_cases he : e = d
    · subst he
      simpa using hn
    · rw [Function.update_of_ne (by simpa using he)]
      exact h.cells e

theorem tick (h : Within F μ) (t : T) : Within (F.tick t) μ := by
  refine ⟨fun x => ?_, fun d => ?_⟩
  · rw [View.tick, Function.update_of_ne (by simp)]
    exact h.atomics x
  · rw [View.tick, Function.update_of_ne (by simp)]
    exact h.cells d

theorem reads (h : Within F μ) {x : A} {o : Order} {m : Message T A D}
    (hm : m.time ≤ (μ.atomics x).newest.time) (hv : o.acquire = true → Within m.view μ) :
    Within (F.reads x o m) μ := by
  refine (h.update_atomic hm).sup ?_
  by_cases ho : o.acquire = true
  · rw [if_pos ho]
    exact hv ho
  · rw [if_neg ho]
    exact bot

theorem published (h : Within F μ) {x : A} {o : Order} {time : ℕ}
    (hn : time ≤ (μ.atomics x).newest.time) : Within (F.published x o time) μ := by
  refine (bot.update_atomic hn).sup ?_
  by_cases ho : o.release = true
  · rw [if_pos ho]
    exact h
  · rw [if_neg ho]
    exact bot

/-- Later messages only come at later times. -/
theorem post (h : Within F μ) {x : A} {m : Message T A D}
    (hm : (μ.atomics x).newest.time ≤ m.time) : Within F (μ.post x m) := by
  refine ⟨fun y => ?_, h.cells⟩
  by_cases hy : y = x
  · subst hy
    rw [Memory.atomics_post, History.newest_push]
    exact (h.atomics y).trans hm
  · rw [μ.atomics_post_of_ne m hy]
    exact h.atomics y

theorem note (h : Within F μ) (e : Access T D) : Within F (μ.note e) := ⟨h.atomics, h.cells⟩

theorem write (h : Within F μ) {d : D} {w : Write V}
    (hw : (μ.cells d).newest.time ≤ w.time) : Within F (μ.write d w) := by
  refine ⟨h.atomics, fun e => ?_⟩
  by_cases he : e = d
  · subst he
    rw [Memory.cells_write, History.newest_push]
    exact (h.cells e).trans hw
  · rw [μ.cells_write_of_ne w he]
    exact h.cells e

end Within

/-! ## Plain code under such a view -/

/-- Code that reads and writes plain cells, and ends with a result or stops for good. -/
inductive Body (D V R : Type) where
  | done (r : R)
  | stop
  | get (d : D) (k : V → Body D V R)
  | put (d : D) (v : V) (b : Body D V R)

namespace Body

variable {R : Type}

/-- What the code does when nothing else runs. -/
def exec : Body D V R → (D → V) → Option (R × (D → V))
  | done r, σ => some (r, σ)
  | stop, _ => none
  | get d k, σ => (k (σ d)).exec σ
  | put d v b, σ => b.exec (Function.update σ d v)

/-- The next instruction of the code, where `embed` and `finish` give its control states. -/
def instr (embed : Body D V R → P) (finish : R → P) : Body D V R → Instr A D V P
  | done r => .choose fun p => p = finish r
  | stop => .choose fun _ => False
  | get d k => .get d fun v => embed (k v)
  | put d v b => .put d v (embed b)

/-- A thread that all accesses happened before runs its code as if nothing else ran, races with
no one, and all accesses still happened before. -/
theorem perform {embed : Body D V R → P} {finish : R → P} {t : T} {b : Body D V R}
    {v v' : View T A D} {μ μ' : Memory T A D V} {p : P}
    (h : Perform t (b.instr (A := A) embed finish) v μ p v' μ') (hc : Covers v μ)
    (hs : μ.Sorted) (hr : μ.RaceFree) :
    (∃ r, b = done r ∧ p = finish r ∧ v' = v ∧ μ' = μ) ∨
    ∃ b', p = embed b' ∧ b'.exec μ'.current = b.exec μ.current ∧ Covers v' μ' ∧ μ'.Sorted ∧
      μ'.RaceFree ∧ μ'.atomics = μ.atomics ∧ (∀ x, v' (.atomic x) = v (.atomic x)) ∧
      (Within v μ → Within v' μ') ∧ ∀ F, Within F μ → Within F μ' := by
  cases b with
  | done r =>
    obtain ⟨rfl, rfl, rfl⟩ := h
    exact .inl ⟨r, rfl, rfl, rfl, rfl⟩
  | stop => exact h.1.elim
  | get d k =>
    obtain ⟨w, hw, hle, rfl, rfl, rfl⟩ := h
    obtain rfl := hc.toWrites.get hs hw hle
    refine .inr ⟨_, rfl, rfl, hc.get t d, hs, hc.raceFree_note hr t d false, rfl, fun x => ?_,
      fun h => ?_, fun F h => h.note _⟩
    · simp [View.tick]
    · exact ((h.tick t).update_cell le_rfl).note _
  | put d n b =>
    obtain ⟨time, _, hlt, rfl, rfl, rfl⟩ := h
    have hnew : (μ.cells d).newest.time < time := (hc.cells d).trans_lt hlt
    refine .inr ⟨_, rfl, ?_, hc.put t d hlt, hs.write hnew, hc.raceFree_note hr t d true, rfl,
      fun x => ?_, fun h => ?_, fun F h => (h.write hnew.le).note _⟩
    · rw [Memory.current_note, μ.current_write]
      rfl
    · simp [View.tick]
    · refine Within.note (Within.update_cell ((h.write hnew.le).tick t) ?_) _
      rw [Memory.cells_write, History.newest_push]

end Body

end SharedMemory
