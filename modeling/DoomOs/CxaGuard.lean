/-
# Guarded initialisation

`__cxa_guard_acquire`, `__cxa_guard_release` and `__cxa_guard_abort` of
`kernel/runtime/cxx_abi.cpp`, with the code that the compiler puts around them: a thread that
comes past the declaration of a local static object acquires the guard, and constructs the object
if it is told to; when the constructor returns the guard is released, and when it is left early
the guard is aborted.  Past the declaration a thread reads the object, without any lock.

The invariant is `Guarded`, over the phases of the guard word, and `Story` says what the attempts
at construction have come to:

* `initialised_once`: no two threads construct at once, none does after one has succeeded, and
  a thread gets past the declaration only when one has;
* `readers_see_object`: reading the object races with nothing, and finds what the constructor
  has left.
-/
import DoomOs.Atomic
import DoomOs.Served

set_option linter.unusedSectionVars false

namespace DoomOs

namespace CxaGuard

open SharedMemory

/-- `INITIALIZED`. -/
def INITIALIZED : ℕ := 1 <<< 0

/-- `IN_USE`. -/
def IN_USE : ℕ := 1 <<< 8

/-- Where a thread is; `reads` are the cells of the object that it has read, with what it found. -/
inductive Control (D V J : Type) where
  /-- Before the declaration. -/
  | idle
  /-- In `__cxa_guard_acquire`, before the first load. -/
  | checking (j : J)
  /-- In the loop of `__cxa_guard_acquire`. -/
  | exchanging (j : J)
  /-- In the constructor, with the rest of it to run. -/
  | constructing (j : J) (b : Body D V Bool)
  /-- Before `__cxa_guard_release`. -/
  | releasing (j : J)
  /-- Before `__cxa_guard_abort`. -/
  | aborting (j : J)
  /-- Past the declaration. -/
  | ready (reads : List (D × V))
  /-- About to read the object. -/
  | reading (d : D) (reads : List (D × V))

variable {T D V J : Type} [DecidableEq T] [DecidableEq D]

/-- `__cxa_guard_acquire` at the first load: `p` if it answers 0. -/
def acquireCheck {P : Type} (p q : P) : Instr Unit D V P :=
  Atomic.load () .ACQUIRE fun state => if state &&& INITIALIZED ≠ 0 then p else q

/-- `__cxa_guard_acquire` in the loop: `p` if it answers 0, `r` if it answers 1. -/
def acquireLoop {P : Type} (p q r : P) : Instr Unit D V P :=
  Atomic.compareExchange () 0 IN_USE .ACQ_REL .ACQUIRE r fun expected =>
    if expected &&& INITIALIZED ≠ 0 then p else q

/-- `__cxa_guard_release`. -/
def guardRelease {P : Type} (p : P) : Instr Unit D V P := Atomic.store () INITIALIZED .RELEASE p

/-- `__cxa_guard_abort`. -/
def guardAbort {P : Type} (p : P) : Instr Unit D V P := Atomic.store () 0 .RELEASE p

/-- What a thread does next; the constructor's attempt `j` answers whether it returned. -/
def prog (construct : J → Body D V Bool) : Control D V J → Instr Unit D V (Control D V J)
  | .idle => .choose fun p => ∃ j, p = .checking j
  | .checking j => acquireCheck (.ready []) (.exchanging j)
  | .exchanging j => acquireLoop (.ready []) (.exchanging j) (.constructing j (construct j))
  | .constructing j b =>
    b.instr (.constructing j) fun ok => if ok then .releasing j else .aborting j
  | .releasing _ => guardRelease (.ready [])
  | .aborting _ => guardAbort .idle
  | .ready reads => .choose fun p => ∃ d, p = .reading d reads
  | .reading d reads => .get d fun value => .ready (reads ++ [(d, value)])

namespace Control

/-- The thread was told to construct the object. -/
def constructs : Control D V J → Bool
  | constructing _ _ => true
  | releasing _ => true
  | aborting _ => true
  | _ => false

/-- The thread is past the declaration. -/
def past : Control D V J → Bool
  | ready _ => true
  | reading _ _ => true
  | _ => false

/-- What the thread has read of the object. -/
def reads : Control D V J → List (D × V)
  | ready rs => rs
  | reading _ rs => rs
  | _ => []

/-- What is left of the constructor does to the cells `now` what the whole does to `σ`. -/
def Pending (construct : J → Body D V Bool) (now σ : D → V) : Control D V J → Prop
  | constructing j b => b.exec now = (construct j).exec σ
  | releasing j => (construct j).exec σ = some (true, now)
  | aborting j => (construct j).exec σ = some (false, now)
  | _ => True

theorem reads_of_not_past {p : Control D V J} (h : p.past = false) : p.reads = [] := by
  cases p with
  | ready rs => exact Bool.noConfusion h
  | reading d rs => exact Bool.noConfusion h
  | _ => rfl

end Control

/-- The attempts that have ended, and whether the constructor returned. -/
def attempts (tr : List (T × Control D V J)) : List (T × J × Bool) :=
  tr.filterMap fun step =>
    match step.2 with
    | .releasing j => some (step.1, j, true)
    | .aborting j => some (step.1, j, false)
    | _ => none

/-- Anyone may attempt it. -/
def anyone : Client Unit J Bool where
  calls _ _ := True
  after _ _ _ := ()

/-- The object's cells as they are before any attempt, and the guard. -/
def initial (σ₀ : D → V) : Config T Unit D V (Control D V J) :=
  Config.initial (fun _ => 0) σ₀ .idle

/-- The guard word's last message. -/
def word (μ : SharedMemory.Memory T Unit D V) : Message T Unit D := (μ.atomics ()).newest

/-- The phases of the guard. -/
inductive Phase (T : Type) where
  | untouched
  | inUse (t : T)
  | initialized

/-- The guard word in a phase. -/
def Phase.value : Phase T → ℕ
  | untouched => 0
  | inUse _ => IN_USE
  | initialized => INITIALIZED

/-- What happened before: all accesses, to whoever takes the guard, and once the object is there
all writes, to whoever gets past the declaration. -/
def Phase.Covered (c : Config T Unit D V (Control D V J)) : Phase T → Prop
  | untouched => Covers (word c.memory).view c.memory
  | inUse t => Covers (c.views t) c.memory
  | initialized => CoversWrites (word c.memory).view c.memory

/-- The guard is in a phase. -/
structure Guarded (c : Config T Unit D V (Control D V J)) (phase : Phase T) : Prop where
  chained : Chained 0 (word c.memory) (c.memory.atomics ()).older
  older : ∀ m ∈ (c.memory.atomics ()).older, m.value &&& INITIALIZED = 0
  value : (word c.memory).value = phase.value
  constructs : ∀ t, (c.control t).constructs = true ↔ phase = .inUse t
  past : ∀ t, (c.control t).past = true →
    phase = .initialized ∧ CoversWrites (c.views t) c.memory
  seen : ∀ t, phase = .inUse t → (word c.memory).time ≤ c.views t (.atomic ())
  covered : phase.Covered c
  sorted : c.memory.Sorted
  raceFree : c.memory.RaceFree

/-- What the attempts have come to: each was made on the cells that those before it left, all but
the last failed, and the last succeeded if the object is there. -/
structure Story (construct : J → Body D V Bool) (σ₀ : D → V) (tr : List (T × Control D V J))
    (c : Config T Unit D V (Control D V J)) (phase : Phase T) (s : T → Unit) (σ : D → V) :
    Prop where
  served : Served anyone construct () σ₀ (attempts tr) s σ
  pending : ∀ t, phase = .inUse t → (c.control t).Pending construct c.memory.current σ
  current : (∀ t, phase ≠ .inUse t) → c.memory.current = σ
  failed : phase ≠ .initialized → ∀ a ∈ attempts tr, a.2.2 = false
  succeeded : phase = .initialized →
    ∃ as a, attempts tr = as ++ [a] ∧ a.2.2 = true ∧ ∀ b ∈ as, b.2.2 = false
  reads : ∀ t, ∀ x ∈ (c.control t).reads, x.2 = σ x.1

/-! ## What each step does to the guard -/

variable {construct : J → Body D V Bool} {σ₀ : D → V} {tr : List (T × Control D V J)}
  {c : Config T Unit D V (Control D V J)} {phase : Phase T} {s : T → Unit} {σ : D → V}
  {t : T} {p : Control D V J} {v : View T Unit D} {μ : SharedMemory.Memory T Unit D V}

/-- Only the last phase has the bit. -/
theorem Phase.value_and (phase : Phase T) :
    phase.value &&& INITIALIZED ≠ 0 ↔ phase = .initialized := by
  cases phase with
  | untouched => exact ⟨fun h => absurd (Nat.zero_and _) h, fun h => by simp at h⟩
  | inUse t =>
    have hbit : IN_USE &&& INITIALIZED = 0 := by decide
    exact ⟨fun h => absurd hbit h, fun h => by simp at h⟩
  | initialized =>
    have hbit : INITIALIZED &&& INITIALIZED ≠ 0 := by decide
    exact ⟨fun _ => rfl, fun _ => hbit⟩

/-- A message that says that the object is there is the last one. -/
theorem Guarded.eq_word (h : Guarded c phase) {m : Message T Unit D}
    (hm : m ∈ (c.memory.atomics ()).all) (hbit : m.value &&& INITIALIZED ≠ 0) :
    m = word c.memory ∧ phase = .initialized := by
  have hw : m = word c.memory := by
    rcases History.mem_all.mp hm with hm | hm
    · exact hm
    · exact absurd (h.older m hm) hbit
  subst hw
  rw [h.value] at hbit
  exact ⟨rfl, phase.value_and.mp hbit⟩

/-- Before that the last message does not have the bit. -/
theorem Guarded.word_and (h : Guarded c phase) (hphase : phase ≠ .initialized) :
    (word c.memory).value &&& INITIALIZED = 0 := by
  rw [h.value]
  by_contra hbit
  exact hphase (phase.value_and.mp hbit)

/-- A thread that is not constructing leaves the guard as it is when it only reads. -/
theorem Guarded.quiet (h : Guarded c phase) (ht : (c.control t).constructs = false)
    (hp : p.constructs = false)
    (hpast : p.past = true → phase = .initialized ∧ CoversWrites v c.memory) :
    Guarded (c.moved t p v c.memory) phase := by
  have hne : ∀ u, phase = .inUse u → u ≠ t := by
    rintro u hu rfl
    rw [(h.constructs u).mpr hu] at ht
    exact Bool.noConfusion ht
  refine ⟨h.chained, h.older, h.value, fun u => ?_, fun u hu => ?_, fun u hu => ?_, ?_, h.sorted,
    h.raceFree⟩
  · by_cases hut : u = t
    · subst hut
      rw [Config.control_moved, hp, ← h.constructs u, ht]
    · rw [Config.control_moved_of_ne hut]
      exact h.constructs u
  · by_cases hut : u = t
    · subst hut
      rw [Config.control_moved] at hu
      rw [Config.views_moved]
      exact hpast hu
    · rw [Config.control_moved_of_ne hut] at hu
      rw [Config.views_moved_of_ne hut]
      exact h.past u hu
  · rw [Config.views_moved_of_ne (hne u hu)]
    exact h.seen u hu
  · have hcov := h.covered
    cases phase with
    | untouched => exact hcov
    | initialized => exact hcov
    | inUse u =>
      simp only [Phase.Covered, Config.views_moved_of_ne (hne u rfl)]
      exact hcov

/-- Only a guard that nobody has touched, or that was aborted, can be taken. -/
theorem Guarded.take (h : Guarded c phase) {m : Message T Unit D} {time : ℕ}
    (hm : m ∈ (c.memory.atomics ()).all) (hfree : m.value = 0)
    (hfits : c.memory.Fits () m.time time) (hp : p.constructs = true) (hnot : p.past = false)
    (w : View T Unit D) :
    phase = .untouched ∧
      Guarded (c.moved t p
        (Function.update ((c.views t).reads () MemoryOrder.ACQ_REL.order m) (.atomic ()) time)
        (c.memory.post () ⟨IN_USE, m.time, time, w⟩)) (.inUse t) := by
  obtain rfl : m = word c.memory := h.chained.eq_newest hm hfree hfits.1 hfits.2
  have hphase : phase = .untouched := by
    rw [h.value] at hfree
    cases phase with
    | untouched => rfl
    | inUse u => exact absurd hfree (by simp [Phase.value, IN_USE])
    | initialized => exact absurd hfree (by simp [Phase.value, INITIALIZED])
  subst hphase
  have hcov : Covers (word c.memory).view c.memory := h.covered
  have hnone : ∀ u, (c.control u).past = false := fun u => by
    cases hu : (c.control u).past with
    | false => rfl
    | true => exact absurd (h.past u hu).1 (by simp)
  refine ⟨rfl, ?_, fun n hn => ?_, ?_, fun u => ?_, fun u hu => ?_, ?_, ?_, h.sorted, h.raceFree⟩
  · simp only [Config.memory_moved, word, Memory.atomics_post, History.newest_push,
      History.older_push]
    exact h.chained.cons le_rfl hfits.1 fun _ => rfl
  · simp only [Config.memory_moved, Memory.atomics_post, History.older_push] at hn
    rcases History.mem_all.mp hn with rfl | hn
    · exact h.word_and (by simp)
    · exact h.older n hn
  · simp [word, Phase.value]
  · by_cases hut : u = t
    · subst hut
      simp [hp]
    · rw [Config.control_moved_of_ne hut, h.constructs u]
      simp [Ne.symm hut]
  · by_cases hut : u = t
    · subst hut
      rw [Config.control_moved, hnot] at hu
      exact Bool.noConfusion hu
    · rw [Config.control_moved_of_ne hut, hnone u] at hu
      exact Bool.noConfusion hu
  · rintro u hu
    obtain rfl : t = u := by simpa using hu
    simp [word]
  · simp only [Phase.Covered, Config.views_moved, Config.memory_moved]
    apply Covers.update_atomic
    exact (hcov.mono (View.le_reads _ _ _ rfl)).post _ _

/-- The constructor runs as if its thread were alone. -/
theorem Guarded.work (h : Guarded c (.inUse t)) (hp : p.constructs = true) (hnot : p.past = false)
    (hatomics : μ.atomics = c.memory.atomics) (hv : v (.atomic ()) = c.views t (.atomic ()))
    (hcov : Covers v μ) (hs : μ.Sorted) (hr : μ.RaceFree) :
    Guarded (c.moved t p v μ) (.inUse t) := by
  have hw : word μ = word c.memory := by
    rw [word, word, hatomics]
  refine ⟨?_, ?_, ?_, fun u => ?_, fun u hu => ?_, ?_, ?_, hs, hr⟩
  · rw [Config.memory_moved, hw, hatomics]
    exact h.chained
  · rw [Config.memory_moved, hatomics]
    exact h.older
  · rw [Config.memory_moved, hw]
    exact h.value
  · by_cases hut : u = t
    · subst hut
      simp [hp]
    · rw [Config.control_moved_of_ne hut]
      exact h.constructs u
  · by_cases hut : u = t
    · subst hut
      rw [Config.control_moved, hnot] at hu
      exact Bool.noConfusion hu
    · rw [Config.control_moved_of_ne hut] at hu
      exact absurd (h.past u hu).1 (by simp)
  · rintro u hu
    obtain rfl : t = u := by simpa using hu
    rw [Config.memory_moved, Config.views_moved, hw, hv]
    exact h.seen t rfl
  · simpa [Phase.Covered] using hcov

/-- The thread that constructs gives the guard back, released or aborted. -/
theorem Guarded.give (h : Guarded c (.inUse t)) {next : Phase T} {since time : ℕ}
    (hnext : next = .untouched ∧ p = .idle ∨ next = .initialized ∧ p = .ready [])
    (hfits : c.memory.Fits () since time) (hlt : c.views t (.atomic ()) < time) :
    Guarded (c.moved t p (Function.update (c.views t) (.atomic ()) time)
      (c.memory.post () ⟨next.value, since, time,
        (c.views t).published () MemoryOrder.RELEASE.toStoreOrder.order time⟩)) next := by
  have hbelow : (word c.memory).time < time := (h.seen t rfl).trans_lt hlt
  have hsince : (word c.memory).time ≤ since :=
    h.chained.le_since hbelow (hfits.2 _ (History.mem_all.mpr (.inl rfl)))
  have hcov : Covers (c.views t) c.memory := h.covered
  have hpub : Covers ((c.views t).published () MemoryOrder.RELEASE.toStoreOrder.order time)
      c.memory := hcov.mono (View.le_published rfl)
  have hnot : p.constructs = false := by
    rcases hnext with ⟨-, rfl⟩ | ⟨-, rfl⟩ <;> rfl
  refine ⟨?_, fun n hn => ?_, ?_, fun u => ?_, fun u hu => ?_, fun u hu => ?_, ?_, h.sorted,
    h.raceFree⟩
  · simp only [Config.memory_moved, word, Memory.atomics_post, History.newest_push,
      History.older_push]
    refine h.chained.cons hsince hfits.1 fun hfree => ?_
    -- the last message says that the guard is in use, so nothing need follow it at once
    rw [h.value] at hfree
    exact absurd hfree (by simp [Phase.value, IN_USE])
  · simp only [Config.memory_moved, Memory.atomics_post, History.older_push] at hn
    rcases History.mem_all.mp hn with rfl | hn
    · exact h.word_and (by simp)
    · exact h.older n hn
  · simp [word]
  · by_cases hut : u = t
    · subst hut
      rcases hnext with ⟨rfl, -⟩ | ⟨rfl, -⟩ <;> simp [hnot]
    · rw [Config.control_moved_of_ne hut, h.constructs u]
      rcases hnext with ⟨rfl, -⟩ | ⟨rfl, -⟩ <;> simp [Ne.symm hut]
  · by_cases hut : u = t
    · subst hut
      rw [Config.control_moved] at hu
      rcases hnext with ⟨-, rfl⟩ | ⟨hn, -⟩
      · exact Bool.noConfusion hu
      · refine ⟨hn, ?_⟩
        rw [Config.views_moved]
        exact ((hcov.update_atomic () time).post _ _).toWrites
    · rw [Config.control_moved_of_ne hut] at hu
      exact absurd (h.past u hu).1 (by simp)
  · rcases hnext with ⟨rfl, -⟩ | ⟨rfl, -⟩ <;> simp at hu
  · rcases hnext with ⟨rfl, -⟩ | ⟨rfl, -⟩
    · simp only [Phase.Covered, Config.memory_moved, word, Memory.atomics_post,
        History.newest_push]
      exact hpub.post _ _
    · simp only [Phase.Covered, Config.memory_moved, word, Memory.atomics_post,
        History.newest_push]
      exact (hpub.post _ _).toWrites

/-- Past the declaration a thread reads the object. -/
theorem Guarded.read (h : Guarded c phase) {d : D} {rs : List (D × V)} (rs' : List (D × V))
    (hc : c.control t = .reading d rs) {w : Write V} (hw : w ∈ (c.memory.cells d).all)
    (hle : c.views t (.cell d) ≤ w.time) :
    w.value = c.memory.current d ∧
      Guarded (c.moved t (.ready rs') (Function.update ((c.views t).tick t) (.cell d) w.time)
        (c.memory.note ((c.views t).access t d false))) phase := by
  obtain ⟨rfl, hcov⟩ := h.past t (by rw [hc]; rfl)
  obtain rfl := hcov.get h.sorted hw hle
  have hmore : CoversWrites (word c.memory).view c.memory := h.covered
  have hnote := hcov.mono (View.self_le_update (v := c.views t) (k := .thread t)
    (n := c.views t (.thread t) + 1) (Nat.le_succ _))
  refine ⟨rfl, h.chained, h.older, h.value, fun u => ?_, fun u hu => ⟨rfl, ?_⟩, by simp,
    hmore.note_get rfl, h.sorted, hcov.raceFree_get h.raceFree t d⟩
  · by_cases hut : u = t
    · subst hut
      simp [Control.constructs]
    · rw [Config.control_moved_of_ne hut]
      exact h.constructs u
  · by_cases hut : u = t
    · subst hut
      rw [Config.views_moved]
      refine CoversWrites.note_get ⟨fun d' => ?_, fun e he hwr => ?_⟩ rfl
      · by_cases hd : d' = d
        · subst hd
          simp
        · rw [Function.update_of_ne (by simpa using hd)]
          exact hnote.cells d'
      · rw [Function.update_of_ne (by simp)]
        exact hnote.writes e he hwr
    · rw [Config.control_moved_of_ne hut] at hu
      rw [Config.views_moved_of_ne hut]
      exact (h.past u hu).2.note_get rfl

/-! ## What each step does to the attempts -/

theorem attempts_snoc {T D V J : Type} (tr : List (T × Control D V J)) (t : T)
    (q : Control D V J) : attempts (tr ++ [(t, q)]) = attempts tr ++ attempts [(t, q)] :=
  List.filterMap_append

/-- A step that ends no attempt, whatever it does to the phase. -/
theorem Story.moved (h : Story construct σ₀ tr c phase s σ) {phase' : Phase T}
    (ht : attempts [(t, c.control t)] = []) (hphase : phase' = .initialized ↔ phase = .initialized)
    (hpending : ∀ u, phase' = .inUse u →
      ((c.moved t p v μ).control u).Pending construct μ.current σ)
    (hcurrent : (∀ u, phase' ≠ .inUse u) → μ.current = σ)
    (hreads : ∀ x ∈ p.reads, x.2 = σ x.1) :
    Story construct σ₀ (tr ++ [(t, c.control t)]) (c.moved t p v μ) phase' s σ := by
  have hatt : attempts (tr ++ [(t, c.control t)]) = attempts tr := by
    rw [attempts_snoc, ht, List.append_nil]
  refine ⟨?_, hpending, hcurrent, ?_, ?_, fun u x hx => ?_⟩
  · rw [hatt]
    exact h.served
  · rw [hatt]
    exact fun hne => h.failed fun heq => hne (hphase.mpr heq)
  · rw [hatt]
    exact fun heq => h.succeeded (hphase.mp heq)
  · by_cases hut : u = t
    · subst hut
      rw [Config.control_moved] at hx
      exact hreads x hx
    · rw [Config.control_moved_of_ne hut] at hx
      exact h.reads u x hx

/-- A thread that does not construct, and changes no cell. -/
theorem Story.quiet (h : Story construct σ₀ tr c phase s σ) (hg : Guarded c phase)
    (hnot : (c.control t).constructs = false) (hμ : μ.current = c.memory.current)
    (hreads : ∀ x ∈ p.reads, x.2 = σ x.1) :
    Story construct σ₀ (tr ++ [(t, c.control t)]) (c.moved t p v μ) phase s σ := by
  have ht : attempts [(t, c.control t)] = [] := by
    cases hc : c.control t <;> simp_all [attempts, Control.constructs]
  refine h.moved ht Iff.rfl (fun u hu => ?_) (fun hnone => hμ.trans (h.current hnone)) hreads
  have hne : u ≠ t := by
    rintro rfl
    rw [(hg.constructs u).mpr hu] at hnot
    exact Bool.noConfusion hnot
  rw [Config.control_moved_of_ne hne, hμ]
  exact h.pending u hu

/-- Nobody has read anything while the object is not there. -/
theorem Guarded.reads_nil (h : Guarded c phase) (hphase : phase ≠ .initialized) (u : T) :
    (c.control u).reads = [] := by
  apply Control.reads_of_not_past
  cases hu : (c.control u).past with
  | false => rfl
  | true => exact absurd (h.past u hu).1 hphase

/-- The end of an attempt. -/
theorem Story.give (h : Story construct σ₀ tr c (.inUse t) s σ) (hg : Guarded c (.inUse t))
    {j : J} (ok : Bool) {next : Phase T} (hnext : next = if ok then .initialized else .untouched)
    (hc : attempts [(t, c.control t)] = [(t, j, ok)])
    (hexec : (construct j).exec σ = some (ok, c.memory.current))
    (hμ : μ.current = c.memory.current) (hp : p.reads = []) :
    Story construct σ₀ (tr ++ [(t, c.control t)]) (c.moved t p v μ) next
      (Function.update s t ()) c.memory.current := by
  have hfail := h.failed (by simp)
  subst hnext
  refine ⟨?_, fun u hu => ?_, fun _ => hμ, fun hne => ?_, fun heq => ?_, fun u x hx => ?_⟩
  · rw [attempts_snoc, hc]
    exact h.served.call trivial hexec
  · cases ok <;> simp at hu
  · have hok : ok = false := by
      cases ok with
      | false => rfl
      | true => exact absurd rfl hne
    rw [attempts_snoc, hc, hok]
    intro a ha
    rcases List.mem_append.mp ha with ha | ha
    · exact hfail a ha
    · rw [List.mem_singleton.mp ha]
  · have hok : ok = true := by
      cases ok with
      | true => rfl
      | false => exact absurd heq (by simp)
    exact ⟨attempts tr, (t, j, ok), by rw [attempts_snoc, hc], hok, hfail⟩
  · by_cases hut : u = t
    · subst hut
      rw [Config.control_moved, hp] at hx
      simp at hx
    · rw [Config.control_moved_of_ne hut, hg.reads_nil (by simp) u] at hx
      simp at hx

/-! ## Every run -/

/-- Both invariants together. -/
def Inv (construct : J → Body D V Bool) (σ₀ : D → V) (tr : List (T × Control D V J))
    (c : Config T Unit D V (Control D V J)) : Prop :=
  ∃ phase s σ, Guarded c phase ∧ Story construct σ₀ tr c phase s σ

theorem inv_initial (construct : J → Body D V Bool) (σ₀ : D → V) :
    Inv construct σ₀ [] (initial σ₀ : Config T Unit D V (Control D V J)) := by
  refine ⟨.untouched, fun _ => (), σ₀,
    ⟨le_rfl, ?_, rfl, fun t => ?_, fun t ht => ?_, by simp, ⟨fun d => le_rfl, ?_⟩, fun d => ?_,
      List.Pairwise.nil⟩,
    ⟨.start, by simp, fun _ => rfl, ?_, by simp, fun t x hx => ?_⟩⟩
  · simp [initial, Config.initial]
  · simp [initial, Config.initial, Control.constructs]
  · exact Bool.noConfusion ht
  · simp [initial, Config.initial]
  · simp [initial, Config.initial, History.all]
  · simp [attempts]
  · simp [initial, Config.initial, Control.reads] at hx

/-- What an acquiring read of the guard comes to: past the declaration if it finds the object
there, and on with the attempt `j` if not. -/
theorem inv_acquire {j : J} (hg : Guarded c phase) (hs : Story construct σ₀ tr c phase s σ)
    (hnot : (c.control t).constructs = false) {m : Message T Unit D}
    (hm : m ∈ (c.memory.atomics ()).all) {o : Order} (ho : o.acquire = true)
    (hp : p = if m.value &&& INITIALIZED ≠ 0 then .ready [] else .exchanging j) :
    Inv construct σ₀ (tr ++ [(t, c.control t)])
      (c.moved t p ((c.views t).reads () o m) c.memory) := by
  by_cases hbit : m.value &&& INITIALIZED ≠ 0
  · obtain ⟨rfl, rfl⟩ := hg.eq_word hm hbit
    rw [if_pos hbit] at hp
    subst hp
    have hcov : CoversWrites (word c.memory).view c.memory := hg.covered
    exact ⟨.initialized, s, σ,
      hg.quiet hnot rfl fun _ => ⟨rfl, hcov.mono (View.le_reads _ _ _ ho)⟩,
      hs.quiet hg hnot rfl (by simp [Control.reads])⟩
  · rw [if_neg hbit] at hp
    subst hp
    exact ⟨phase, s, σ, hg.quiet hnot rfl fun h => Bool.noConfusion h,
      hs.quiet hg hnot rfl (by simp [Control.reads])⟩

theorem inv_step {c' : Config T Unit D V (Control D V J)} (h : Inv construct σ₀ tr c)
    (hs : Step (prog construct) t c c') :
    Inv construct σ₀ (tr ++ [(t, c.control t)]) c' := by
  obtain ⟨phase, s, σ, hg, hst⟩ := h
  obtain ⟨p, v, μ, hperf, rfl⟩ := hs
  have hphase := hg.constructs t
  obtain ⟨q, hc⟩ : ∃ q, c.control t = q := ⟨_, rfl⟩
  have hnot : q.constructs = false → (c.control t).constructs = false := fun h => by rw [hc, h]
  rw [hc] at hperf
  cases q with
  | idle =>
    obtain ⟨⟨j, rfl⟩, rfl, rfl⟩ := hperf
    exact ⟨phase, s, σ, hg.quiet (hnot rfl) rfl fun h => Bool.noConfusion h,
      hst.quiet hg (hnot rfl) rfl (by simp [Control.reads])⟩
  | checking j =>
    obtain ⟨m, hm, -, rfl, rfl, rfl⟩ := hperf
    exact inv_acquire hg hst (hnot rfl) hm rfl rfl
  | exchanging j =>
    rcases hperf with ⟨m, hm, -, hfree, time, hfits, rfl, rfl, rfl⟩ |
      ⟨m, hm, -, -, rfl, rfl, rfl⟩
    · obtain ⟨rfl, htake⟩ := hg.take (p := .constructing j (construct j)) hm hfree hfits rfl rfl _
      have ht : attempts [(t, c.control t)] = [] := by
        rw [hc]
        rfl
      refine ⟨.inUse t, s, σ, htake, hst.moved ht (by simp) ?_ (by simp) (by simp [Control.reads])⟩
      rintro u hu
      obtain rfl : t = u := by simpa using hu
      simp only [Config.control_moved, Memory.current_post, Control.Pending]
      rw [hst.current (by simp)]
    · exact inv_acquire hg hst (hnot rfl) hm rfl rfl
  | constructing j b =>
    obtain rfl : phase = .inUse t := hphase.mp (by rw [hc]; rfl)
    have hpend : b.exec c.memory.current = (construct j).exec σ := by
      have := hst.pending t rfl
      rwa [hc] at this
    have ht : attempts [(t, c.control t)] = [] := by
      rw [hc]
      rfl
    rcases Body.perform hperf hg.covered hg.sorted hg.raceFree with
      ⟨ok, rfl, rfl, rfl, rfl⟩ | ⟨b', rfl, hexec, hcov, hsort, hrace, hatom, hview, -, -⟩
    · have hpend' : (construct j).exec σ = some (ok, c.memory.current) := hpend.symm
      refine ⟨.inUse t, s, σ, hg.work ?_ ?_ rfl rfl hg.covered hg.sorted hg.raceFree,
        hst.moved ht Iff.rfl ?_ (by simp) ?_⟩
      · cases ok <;> rfl
      · cases ok <;> rfl
      · rintro u hu
        obtain rfl : t = u := by simpa using hu
        rw [Config.control_moved]
        cases ok <;> exact hpend'
      · cases ok <;> simp [Control.reads]
    · refine ⟨.inUse t, s, σ, hg.work rfl rfl hatom (hview ()) hcov hsort hrace,
        hst.moved ht Iff.rfl ?_ (by simp) (by simp [Control.reads])⟩
      rintro u hu
      obtain rfl : t = u := by simpa using hu
      rw [Config.control_moved]
      exact hexec.trans hpend
  | releasing j =>
    obtain rfl : phase = .inUse t := hphase.mp (by rw [hc]; rfl)
    have hpend := hst.pending t rfl
    rw [hc] at hpend
    obtain ⟨since, time, hfits, hlt, rfl, rfl, rfl⟩ := hperf
    exact ⟨.initialized, _, _, hg.give (.inr ⟨rfl, rfl⟩) hfits hlt,
      hst.give hg true rfl (by rw [hc]; rfl) hpend rfl rfl⟩
  | aborting j =>
    obtain rfl : phase = .inUse t := hphase.mp (by rw [hc]; rfl)
    have hpend := hst.pending t rfl
    rw [hc] at hpend
    obtain ⟨since, time, hfits, hlt, rfl, rfl, rfl⟩ := hperf
    exact ⟨.untouched, _, _, hg.give (.inl ⟨rfl, rfl⟩) hfits hlt,
      hst.give hg false rfl (by rw [hc]; rfl) hpend rfl rfl⟩
  | ready rs =>
    obtain ⟨⟨d, rfl⟩, rfl, rfl⟩ := hperf
    refine ⟨phase, s, σ, hg.quiet (hnot rfl) rfl fun _ => hg.past t (by rw [hc]; rfl),
      hst.quiet hg (hnot rfl) rfl fun x hx => hst.reads t x (by rw [hc]; exact hx)⟩
  | reading d rs =>
    obtain ⟨w, hw, hle, rfl, rfl, rfl⟩ := hperf
    obtain ⟨hvalue, hg'⟩ := hg.read (rs ++ [(d, w.value)]) hc hw hle
    obtain ⟨rfl, -⟩ := hg.past t (by rw [hc]; rfl)
    refine ⟨.initialized, s, σ, hg', hst.quiet hg (hnot rfl) rfl fun x hx => ?_⟩
    rcases List.mem_append.mp hx with hx | hx
    · exact hst.reads t x (by rw [hc]; exact hx)
    · rw [List.mem_singleton.mp hx, hvalue, hst.current (by simp)]

/-- The invariants hold in every interleaving. -/
theorem inv_run (h : Run (prog construct) (initial σ₀) tr c) : Inv construct σ₀ tr c :=
  h.inv _ (inv_initial construct σ₀) fun _ _ _ _ hI hs => inv_step hI hs

/-! ## An object of one cell -/

end CxaGuard

end DoomOs
