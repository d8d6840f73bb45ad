/-
# The spinlock

`kernel/sync/spinlock.hpp`, and what it is for.  A number of threads share an object of plain
cells, a spinlock guards it, and each thread calls operations on it whenever it likes: with
`lock` or `spinlock_guard`, which spin, or with `try_lock`, which may give up; `is_locked` may
be asked at any time.  The invariants of the threads over a release/acquire memory are `Held`,
of the lock and the cells, and `Linked`, of the callers and the calls `Served`:

* `mutual_exclusion`: the lock is locked exactly while one thread is inside;
* `race_free`: the calls race nowhere, with acquiring on the one side and releasing on the other;
* `linearizable`: what the threads have been answered is what they would have been answered
  had the calls been served one after the other in the order of their unlocking.
-/
import DoomOs.Atomic
import DoomOs.Served

set_option linter.unusedSectionVars false

namespace DoomOs

open SharedMemory

variable {T D V S J R : Type} [DecidableEq T] [DecidableEq D]

namespace Spinlock

/-- `SPINLOCK_UNLOCKED`. -/
def SPINLOCK_UNLOCKED : ℕ := 0

/-- `SPINLOCK_LOCKED`. -/
def SPINLOCK_LOCKED : ℕ := 1

/-- Where a thread is. -/
inductive Control (D V S J R : Type) where
  /-- In the code of the caller. -/
  | idle (s : S)
  /-- In `lock`, before `try_lock`. -/
  | locking (s : S) (j : J)
  /-- In `lock`, in the inner loop. -/
  | spinning (s : S) (j : J)
  /-- Before a `try_lock` of the caller. -/
  | trying (s : S) (j : J)
  /-- Before an `is_locked` of the caller. -/
  | asking (s : S)
  /-- Inside, with the rest of the operation to run. -/
  | inside (s : S) (j : J) (b : Body D V R)
  /-- Before `unlock`. -/
  | unlocking (s : S) (j : J) (r : R)

/-- `try_lock`: `p` if it returns `true`, `q` if it returns `false`. -/
def tryLock {P : Type} (p q : P) : Instr Unit D V P :=
  Atomic.compareExchange () SPINLOCK_UNLOCKED SPINLOCK_LOCKED .ACQUIRE .RELAXED p fun _ => q

/-- `is_locked`. -/
def isLocked {P : Type} (k : Bool → P) : Instr Unit D V P :=
  Atomic.load () .RELAXED fun value => k (value == SPINLOCK_LOCKED)

/-- `unlock`. -/
def unlock {P : Type} (p : P) : Instr Unit D V P := Atomic.store () SPINLOCK_UNLOCKED .RELEASE p

/-- What a thread does next.  `lock` is the loop of `locking` and `spinning`. -/
def prog (cl : Client S J R) (code : J → Body D V R) :
    Control D V S J R → Instr Unit D V (Control D V S J R)
  | .idle s => .choose fun p =>
      (∃ j, cl.calls s j ∧ (p = .locking s j ∨ p = .trying s j)) ∨ p = .asking s
  | .locking s j => tryLock (.inside s j (code j)) (.spinning s j)
  | .spinning s j => isLocked fun locked => if locked then .spinning s j else .locking s j
  | .trying s j => tryLock (.inside s j (code j)) (.idle s)
  | .asking s => isLocked fun _ => .idle s
  | .inside s j b => b.instr (.inside s j) (.unlocking s j)
  | .unlocking s j r => unlock (.idle (cl.after s j r))

namespace Control

/-- The thread is between `lock` and `unlock`. -/
def holds : Control D V S J R → Bool
  | inside _ _ _ => true
  | unlocking _ _ _ => true
  | _ => false

/-- The local state of the caller. -/
def caller : Control D V S J R → S
  | idle s => s
  | locking s _ => s
  | spinning s _ => s
  | trying s _ => s
  | asking s => s
  | inside s _ _ => s
  | unlocking s _ _ => s

/-- The call under way, if there is one. -/
def call? : Control D V S J R → Option J
  | idle _ => none
  | locking _ j => some j
  | spinning _ j => some j
  | trying _ j => some j
  | asking _ => none
  | inside _ j _ => some j
  | unlocking _ j _ => some j

/-- What is left of the operation does to the cells `now` what the whole does to `σ`. -/
def Pending (code : J → Body D V R) (now σ : D → V) : Control D V S J R → Prop
  | inside _ j b => b.exec now = (code j).exec σ
  | unlocking _ j r => (code j).exec σ = some (r, now)
  | _ => True

end Control

/-- The calls that have been answered, in the order of their unlocking. -/
def answered (tr : List (T × Control D V S J R)) : List (T × J × R) :=
  tr.filterMap fun step =>
    match step.2 with
    | .unlocking _ j r => some (step.1, j, r)
    | _ => none

/-- Nothing was called yet. -/
def initial (s₀ : S) (σ₀ : D → V) : Config T Unit D V (Control D V S J R) :=
  Config.initial (fun _ => SPINLOCK_UNLOCKED) σ₀ (.idle s₀)

/-- The lock's last message. -/
def word (μ : SharedMemory.Memory T Unit D V) : Message T Unit D := (μ.atomics ()).newest

/-- What the next thread inside will have seen. -/
def frontier (c : Config T Unit D V (Control D V S J R)) : Option T → View T Unit D
  | none => (word c.memory).view
  | some t => c.views t

/-- The lock is held by `owner`, and every access to the cells happened before the frontier. -/
structure Held (c : Config T Unit D V (Control D V S J R)) (owner : Option T) : Prop where
  chained : Chained SPINLOCK_UNLOCKED (word c.memory) (c.memory.atomics ()).older
  value : (word c.memory).value = if owner.isSome then SPINLOCK_LOCKED else SPINLOCK_UNLOCKED
  holds : ∀ t, (c.control t).holds = true ↔ owner = some t
  seen : ∀ t, owner = some t → (word c.memory).time ≤ c.views t (.atomic ())
  covers : Covers (frontier c owner) c.memory
  sorted : c.memory.Sorted
  raceFree : c.memory.RaceFree
  within : ∀ t, Within (c.views t) c.memory
  wordWithin : Within (word c.memory).view c.memory

/-- The callers and the cells are those of the calls served one by one, but for the call that
is inside. -/
structure Linked (cl : Client S J R) (code : J → Body D V R) (s₀ : S) (σ₀ : D → V)
    (tr : List (T × Control D V S J R)) (c : Config T Unit D V (Control D V S J R))
    (owner : Option T) (s : T → S) (σ : D → V) : Prop where
  served : Served cl code s₀ σ₀ (answered tr) s σ
  caller : ∀ t, (c.control t).caller = s t
  allowed : ∀ t j, (c.control t).call? = some j → cl.calls (s t) j
  pending : ∀ t, owner = some t → (c.control t).Pending code c.memory.current σ
  free : owner = none → c.memory.current = σ

/-! ## What each step does to the lock -/

variable {cl : Client S J R} {code : J → Body D V R} {s₀ : S} {σ₀ : D → V}
  {tr : List (T × Control D V S J R)} {c : Config T Unit D V (Control D V S J R)}
  {owner : Option T} {s : T → S} {σ : D → V} {t : T} {p : Control D V S J R}
  {v : View T Unit D} {μ : SharedMemory.Memory T Unit D V}

/-- No thread runs ahead of the memory after a step if the one that moved does not. -/
theorem within_moved (h : ∀ u, Within (c.views u) c.memory) (hv : Within v μ)
    (hμ : ∀ F, Within F c.memory → Within F μ) (u : T) :
    Within ((c.moved t p v μ).views u) (c.moved t p v μ).memory := by
  by_cases hu : u = t
  · subst hu
    rwa [Config.views_moved]
  · rw [Config.views_moved_of_ne hu]
    exact hμ _ (h u)

/-- A message of the lock is no later than its last. -/
theorem Held.time_le (h : Held c owner) {m : Message T Unit D}
    (hm : m ∈ (c.memory.atomics ()).all) : m.time ≤ (word c.memory).time := by
  rcases History.mem_all.mp hm with rfl | hm
  · exact le_rfl
  · exact (h.chained.time_lt hm).le

/-- A relaxed read of the lock runs ahead of nothing. -/
theorem Held.within_reads (h : Held c owner) {o : Order} (ho : o.acquire = false)
    {m : Message T Unit D} (hm : m ∈ (c.memory.atomics ()).all) (t : T) :
    Within ((c.views t).reads () o m) c.memory :=
  (h.within t).reads (h.time_le hm) fun h => absurd (ho.symm.trans h) (by decide)

/-- A thread that is not inside leaves the lock as it is when it only reads. -/
theorem Held.quiet (h : Held c owner) (ht : (c.control t).holds = false)
    (hp : p.holds = false) (hv : Within v c.memory) : Held (c.moved t p v c.memory) owner := by
  have hne : ∀ u, owner = some u → u ≠ t := by
    rintro u hu rfl
    rw [(h.holds u).mpr hu] at ht
    exact Bool.noConfusion ht
  refine ⟨h.chained, h.value, fun u => ?_, fun u hu => ?_, ?_, h.sorted, h.raceFree,
    within_moved h.within hv fun _ h => h, h.wordWithin⟩
  · by_cases hu : u = t
    · subst hu
      rw [Config.control_moved, hp, ← h.holds u, ht]
    · rw [Config.control_moved_of_ne hu]
      exact h.holds u
  · rw [Config.views_moved_of_ne (hne u hu)]
    exact h.seen u hu
  · cases owner with
    | none => exact h.covers
    | some u =>
      simp only [frontier, Config.views_moved_of_ne (hne u rfl)]
      exact h.covers

/-- A successful `try_lock` finds the lock's last message, so that nobody is inside, and the
thread takes over what the last one inside had seen. -/
theorem Held.take (h : Held c owner) {m : Message T Unit D} {time : ℕ}
    (hm : m ∈ (c.memory.atomics ()).all) (hfree : m.value = SPINLOCK_UNLOCKED)
    (hfits : c.memory.Fits () m.time time) (hp : p.holds = true) {w : View T Unit D}
    (hw : w = ((c.views t).reads () MemoryOrder.ACQUIRE.order m).published ()
      MemoryOrder.ACQUIRE.order time ⊔ m.view) :
    owner = none ∧
      Held (c.moved t p
        (Function.update ((c.views t).reads () MemoryOrder.ACQUIRE.order m) (.atomic ()) time)
        (c.memory.post () ⟨SPINLOCK_LOCKED, m.time, time, w⟩)) (some t) := by
  obtain rfl : m = word c.memory := h.chained.eq_newest hm hfree hfits.1 hfits.2
  have hnone : owner = none := by
    cases owner with
    | none => rfl
    | some u =>
      rw [h.value, Option.isSome_some, if_pos rfl] at hfree
      exact absurd hfree (by decide)
  subst hnone
  have hcov : Covers (word c.memory).view c.memory := h.covers
  have hpost : ∀ F : View T Unit D, Within F c.memory → Within F
      (c.memory.post () ⟨SPINLOCK_LOCKED, (word c.memory).time, time, w⟩) :=
    fun F hF => hF.post hfits.1.le
  have hread := hpost _ ((h.within t).reads (x := ()) (o := MemoryOrder.ACQUIRE.order)
    (m := word c.memory) le_rfl fun _ => h.wordWithin)
  have htime : time ≤ ((c.memory.post ()
      ⟨SPINLOCK_LOCKED, (word c.memory).time, time, w⟩).atomics ()).newest.time := by
    rw [Memory.atomics_post]
    exact le_rfl
  refine ⟨rfl, ?_, ?_, fun u => ?_, ?_, ?_, h.sorted, h.raceFree,
    within_moved h.within (hread.update_atomic htime) hpost, ?_⟩
  · simp only [Config.memory_moved, word, Memory.atomics_post, History.newest_push,
    History.older_push]
    exact h.chained.cons le_rfl hfits.1 fun _ => rfl
  · simp [word]
  · by_cases hu : u = t
    · subst hu
      simp [hp]
    · rw [Config.control_moved_of_ne hu, h.holds u]
      simp [Ne.symm hu]
  · rintro u hu
    obtain rfl := Option.some.inj hu
    simp [word]
  · simp only [frontier, Config.views_moved, Config.memory_moved]
    apply Covers.update_atomic
    exact (hcov.mono (View.le_reads _ _ _ rfl)).post _ _
  · have hword := (hread.published (o := MemoryOrder.ACQUIRE.order) htime).sup
      (hpost _ h.wordWithin)
    rw [← hw] at hword
    simpa only [Config.memory_moved, word, Memory.atomics_post, History.newest_push] using hword

/-- A thread inside runs its operation as if it were alone. -/
theorem Held.work (h : Held c owner) (ht : owner = some t) (hp : p.holds = true)
    (hatomics : μ.atomics = c.memory.atomics) (hv : v (.atomic ()) = c.views t (.atomic ()))
    (hcov : Covers v μ) (hs : μ.Sorted) (hr : μ.RaceFree) (hin : Within v μ)
    (hμ : ∀ F, Within F c.memory → Within F μ) : Held (c.moved t p v μ) owner := by
  subst ht
  have hw : word μ = word c.memory := by
    rw [word, word, hatomics]
  refine ⟨?_, ?_, fun u => ?_, ?_, ?_, hs, hr, within_moved h.within hin hμ, ?_⟩
  · rw [Config.memory_moved, hw, hatomics]
    exact h.chained
  · rw [Config.memory_moved, hw]
    exact h.value
  · by_cases hu : u = t
    · subst hu
      simp [hp]
    · rw [Config.control_moved_of_ne hu]
      exact h.holds u
  · rintro u hu
    obtain rfl := Option.some.inj hu
    rw [Config.memory_moved, Config.views_moved, hw, hv]
    exact h.seen t rfl
  · simpa [frontier] using hcov
  · rw [Config.memory_moved, hw]
    exact hμ _ h.wordWithin

/-- `unlock` hands on what the thread has seen. -/
theorem Held.release (h : Held c owner) (ht : owner = some t) (hp : p.holds = false)
    {since time : ℕ} (hfits : c.memory.Fits () since time)
    (hlt : c.views t (.atomic ()) < time) :
    Held (c.moved t p (Function.update (c.views t) (.atomic ()) time)
      (c.memory.post () ⟨SPINLOCK_UNLOCKED, since, time,
        (c.views t).published () MemoryOrder.RELEASE.toStoreOrder.order time⟩)) none := by
  subst ht
  have hbelow : (word c.memory).time < time := (h.seen t rfl).trans_lt hlt
  have hsince : (word c.memory).time ≤ since :=
    h.chained.le_since hbelow (hfits.2 _ (History.mem_all.mpr (.inl rfl)))
  have hcov : Covers (c.views t) c.memory := h.covers
  generalize hm : (⟨SPINLOCK_UNLOCKED, since, time,
    (c.views t).published () MemoryOrder.RELEASE.toStoreOrder.order time⟩ :
      Message T Unit D) = m
  have hpost : ∀ F : View T Unit D, Within F c.memory → Within F (c.memory.post () m) :=
    fun F hF => hF.post (by rw [← hm]; exact hbelow.le)
  have htime : time ≤ ((c.memory.post () m).atomics ()).newest.time := by
    rw [Memory.atomics_post, ← hm]
    exact le_rfl
  subst hm
  refine ⟨?_, ?_, fun u => ?_, ?_, ?_, h.sorted, h.raceFree,
    within_moved h.within ((hpost _ (h.within t)).update_atomic htime) hpost, ?_⟩
  · simp only [Config.memory_moved, word, Memory.atomics_post, History.newest_push,
      History.older_push]
    refine h.chained.cons hsince hfits.1 fun hfree => ?_
    -- the last message locks, so nothing need follow it at once
    rw [h.value, Option.isSome_some, if_pos rfl] at hfree
    exact absurd hfree (by decide)
  · simp [word]
  · by_cases hu : u = t
    · subst hu
      simp [hp]
    · rw [Config.control_moved_of_ne hu, h.holds u]
      simp [Ne.symm hu]
  · simp
  · simp only [frontier, Config.memory_moved, word, Memory.atomics_post, History.newest_push]
    exact (hcov.mono (View.le_published rfl)).post _ _
  · have hword := (hpost _ (h.within t)).published
      (o := MemoryOrder.RELEASE.toStoreOrder.order) htime
    simpa only [Config.memory_moved, word, Memory.atomics_post, History.newest_push] using hword

/-! ## What each step does to the callers -/

theorem answered_snoc {T D V S J R : Type} (tr : List (T × Control D V S J R)) (t : T)
    (q : Control D V S J R) :
    answered (tr ++ [(t, q)]) = answered tr ++ answered [(t, q)] := List.filterMap_append

/-- A step that answers no call leaves the callers where they are. -/
theorem Linked.moved (h : Linked cl code s₀ σ₀ tr c owner s σ) {owner' : Option T}
    (ht : answered [(t, c.control t)] = []) (hcaller : p.caller = s t)
    (hcall : ∀ j, p.call? = some j → cl.calls (s t) j)
    (hpending : ∀ u, owner' = some u →
      ((c.moved t p v μ).control u).Pending code μ.current σ)
    (hfree : owner' = none → μ.current = σ) :
    Linked cl code s₀ σ₀ (tr ++ [(t, c.control t)]) (c.moved t p v μ) owner' s σ := by
  refine ⟨?_, fun u => ?_, fun u j hu => ?_, hpending, hfree⟩
  · rw [answered_snoc, ht, List.append_nil]
    exact h.served
  · by_cases hut : u = t
    · subst hut
      rwa [Config.control_moved]
    · rw [Config.control_moved_of_ne hut]
      exact h.caller u
  · by_cases hut : u = t
    · subst hut
      rw [Config.control_moved] at hu
      exact hcall j hu
    · rw [Config.control_moved_of_ne hut] at hu
      exact h.allowed u j hu

/-- So does a step that only reads the lock. -/
theorem Linked.quiet (h : Linked cl code s₀ σ₀ tr c owner s σ) (hheld : Held c owner)
    (hnot : (c.control t).holds = false) (hcaller : p.caller = s t)
    (hcall : ∀ j, p.call? = some j → cl.calls (s t) j) :
    Linked cl code s₀ σ₀ (tr ++ [(t, c.control t)]) (c.moved t p v c.memory) owner s σ := by
  have ht : answered [(t, c.control t)] = [] := by
    cases hc : c.control t <;> simp_all [answered, Control.holds]
  refine h.moved ht hcaller hcall (fun u hu => ?_) h.free
  have hne : u ≠ t := by
    rintro rfl
    rw [(hheld.holds u).mpr hu] at hnot
    exact Bool.noConfusion hnot
  rw [Config.control_moved_of_ne hne]
  exact h.pending u hu

/-- `unlock` answers the call. -/
theorem Linked.release (h : Linked cl code s₀ σ₀ tr c owner s σ) (ht : owner = some t) {j : J}
    {r : R} (hc : c.control t = .unlocking (s t) j r) (hμ : μ.current = c.memory.current) :
    Linked cl code s₀ σ₀ (tr ++ [(t, c.control t)])
      (c.moved t (.idle (cl.after (s t) j r)) v μ) none
      (Function.update s t (cl.after (s t) j r)) c.memory.current := by
  have hexec : (code j).exec σ = some (r, c.memory.current) := by
    have hp := h.pending t ht
    rwa [hc] at hp
  have hcalls : cl.calls (s t) j := h.allowed t j (by rw [hc]; rfl)
  have hans : answered [(t, c.control t)] = [(t, j, r)] := by
    rw [hc]
    rfl
  refine ⟨?_, fun u => ?_, fun u j' hu => ?_, by simp, fun _ => hμ⟩
  · rw [answered_snoc, hans]
    exact h.served.call hcalls hexec
  · by_cases hut : u = t
    · subst hut
      simp [Control.caller]
    · rw [Config.control_moved_of_ne hut, Function.update_of_ne hut]
      exact h.caller u
  · by_cases hut : u = t
    · subst hut
      rw [Config.control_moved] at hu
      simp [Control.call?] at hu
    · rw [Config.control_moved_of_ne hut] at hu
      rw [Function.update_of_ne hut]
      exact h.allowed u j' hu

/-! ## Every run -/

/-- Both invariants together. -/
def Inv (cl : Client S J R) (code : J → Body D V R) (s₀ : S) (σ₀ : D → V)
    (tr : List (T × Control D V S J R)) (c : Config T Unit D V (Control D V S J R)) : Prop :=
  ∃ owner s σ, Held c owner ∧ Linked cl code s₀ σ₀ tr c owner s σ

theorem inv_initial (cl : Client S J R) (code : J → Body D V R) (s₀ : S) (σ₀ : D → V) :
    Inv cl code s₀ σ₀ [] (initial s₀ σ₀ : Config T Unit D V (Control D V S J R)) := by
  refine ⟨none, fun _ => s₀, σ₀, ⟨le_rfl, rfl, fun t => ?_, by simp, ⟨fun d => le_rfl, ?_⟩,
    fun d => ?_, List.Pairwise.nil, fun _ => .bot, .bot⟩,
    ⟨.start, fun t => rfl, ?_, by simp, fun _ => rfl⟩⟩
  · simp [initial, Config.initial, Control.holds]
  · simp [initial, Config.initial]
  · simp [initial, Config.initial, History.all]
  · intro t j h
    exact absurd h (by simp [initial, Config.initial, Control.call?])

/-- A `try_lock` either takes the lock or leaves everything as it is. -/
theorem inv_tryLock {q : Control D V S J R} {j : J}
    (hheld : Held c owner) (hlink : Linked cl code s₀ σ₀ tr c owner s σ)
    (hnot : (c.control t).holds = false) (hj : cl.calls (s t) j)
    (hq : q.holds = false) (hcaller : q.caller = s t)
    (hcall : ∀ j, q.call? = some j → cl.calls (s t) j)
    (h : Perform t (tryLock (.inside (s t) j (code j)) q) (c.views t) c.memory p v μ) :
    Inv cl code s₀ σ₀ (tr ++ [(t, c.control t)]) (c.moved t p v μ) := by
  have ht : answered [(t, c.control t)] = [] := by
    cases hc : c.control t <;> simp_all [answered, Control.holds]
  rcases h with ⟨m, hm, _, hfree, time, hfits, rfl, rfl, rfl⟩ | ⟨m, hm, _, _, rfl, rfl, rfl⟩
  · obtain ⟨rfl, htake⟩ := hheld.take (p := .inside (s t) j (code j)) hm hfree hfits rfl rfl
    refine ⟨some t, s, σ, htake, hlink.moved ht rfl ?_ ?_ (by simp)⟩
    · intro j' hj'
      obtain rfl := Option.some.inj hj'
      exact hj
    · intro u hu
      obtain rfl := Option.some.inj hu
      simp only [Config.control_moved, Memory.current_post, Control.Pending]
      rw [hlink.free rfl]
  · exact ⟨owner, s, σ, hheld.quiet hnot hq (hheld.within_reads rfl hm t),
    hlink.quiet hheld hnot hcaller hcall⟩

theorem inv_step {c' : Config T Unit D V (Control D V S J R)}
    (h : Inv cl code s₀ σ₀ tr c) (hs : Step (prog cl code) t c c') :
    Inv cl code s₀ σ₀ (tr ++ [(t, c.control t)]) c' := by
  obtain ⟨owner, s, σ, hheld, hlink⟩ := h
  obtain ⟨p, v, μ, hperf, rfl⟩ := hs
  have hcaller := hlink.caller t
  have hallowed := hlink.allowed t
  have howner := hheld.holds t
  obtain ⟨q, hc⟩ : ∃ q, c.control t = q := ⟨_, rfl⟩
  rw [hc] at hperf
  cases q with
  | idle a =>
    rw [hc] at hcaller
    obtain rfl : a = s t := hcaller
    obtain ⟨hp, rfl, rfl⟩ := hperf
    have hnot : (c.control t).holds = false := by rw [hc]; rfl
    rcases hp with ⟨j, hj, rfl | rfl⟩ | rfl
    · refine ⟨owner, s, σ, hheld.quiet hnot rfl (hheld.within t), hlink.quiet hheld hnot rfl ?_⟩
      intro j' hj'
      obtain rfl := Option.some.inj hj'
      exact hj
    · refine ⟨owner, s, σ, hheld.quiet hnot rfl (hheld.within t), hlink.quiet hheld hnot rfl ?_⟩
      intro j' hj'
      obtain rfl := Option.some.inj hj'
      exact hj
    · exact ⟨owner, s, σ, hheld.quiet hnot rfl (hheld.within t),
        hlink.quiet hheld hnot rfl (by simp [Control.call?])⟩
  | locking a j =>
    rw [hc] at hcaller hallowed
    obtain rfl : a = s t := hcaller
    exact inv_tryLock (q := .spinning (s t) j) hheld hlink (by rw [hc]; rfl) (hallowed j rfl)
      rfl rfl hallowed hperf
  | spinning a j =>
    rw [hc] at hcaller hallowed
    obtain rfl : a = s t := hcaller
    obtain ⟨m, hm, _, rfl, rfl, rfl⟩ := hperf
    have hnot : (c.control t).holds = false := by rw [hc]; rfl
    simp only
    generalize (m.value == SPINLOCK_LOCKED) = locked
    cases locked with
    | false =>
      exact ⟨owner, s, σ, hheld.quiet hnot rfl (hheld.within_reads rfl hm t),
        hlink.quiet hheld hnot rfl hallowed⟩
    | true =>
      exact ⟨owner, s, σ, hheld.quiet hnot rfl (hheld.within_reads rfl hm t),
        hlink.quiet hheld hnot rfl hallowed⟩
  | trying a j =>
    rw [hc] at hcaller hallowed
    obtain rfl : a = s t := hcaller
    exact inv_tryLock hheld hlink (by rw [hc]; rfl) (hallowed j rfl) rfl rfl
      (by simp [Control.call?]) hperf
  | asking a =>
    rw [hc] at hcaller
    obtain rfl : a = s t := hcaller
    obtain ⟨m, hm, _, rfl, rfl, rfl⟩ := hperf
    have hnot : (c.control t).holds = false := by rw [hc]; rfl
    exact ⟨owner, s, σ, hheld.quiet hnot rfl (hheld.within_reads rfl hm t),
      hlink.quiet hheld hnot rfl (by simp [Control.call?])⟩
  | inside a j b =>
    rw [hc] at hcaller hallowed
    obtain rfl : a = s t := hcaller
    obtain rfl : owner = some t := howner.mp (by rw [hc]; rfl)
    have hpend : b.exec c.memory.current = (code j).exec σ := by
      have := hlink.pending t rfl
      rwa [hc] at this
    have ht : answered [(t, c.control t)] = [] := by
      rw [hc]
      rfl
    rcases Body.perform hperf hheld.covers hheld.sorted hheld.raceFree with
      ⟨r, rfl, rfl, rfl, rfl⟩ | ⟨b', rfl, hexec, hcov, hsort, hrace, hatom, hview, hin, hμ⟩
    · refine ⟨some t, s, σ, hheld.work rfl rfl rfl rfl hheld.covers hheld.sorted
        hheld.raceFree (hheld.within t) fun _ h => h, hlink.moved ht rfl hallowed ?_ (by simp)⟩
      intro u hu
      obtain rfl := Option.some.inj hu
      rw [Config.control_moved]
      exact hpend.symm
    · refine ⟨some t, s, σ, hheld.work rfl rfl hatom (hview ()) hcov hsort hrace
        (hin (hheld.within t)) hμ, hlink.moved ht rfl hallowed ?_ (by simp)⟩
      intro u hu
      obtain rfl := Option.some.inj hu
      rw [Config.control_moved]
      exact hexec.trans hpend
  | unlocking a j r =>
    rw [hc] at hcaller
    obtain rfl : a = s t := hcaller
    obtain rfl : owner = some t := howner.mp (by rw [hc]; rfl)
    obtain ⟨since, time, hfits, hlt, rfl, rfl, rfl⟩ := hperf
    exact ⟨none, _, _, hheld.release rfl rfl hfits hlt, hlink.release rfl hc rfl⟩

/-- The invariants hold in every interleaving. -/
theorem inv_run (h : Run (prog cl code) (initial s₀ σ₀) tr c) : Inv cl code s₀ σ₀ tr c :=
  h.inv _ (inv_initial cl code s₀ σ₀) fun _ _ _ _ hI hs => inv_step hI hs

/-- Whatever the threads have been answered so far, they would have been answered the same had
their calls been served one after the other, in the order of their unlocking; while nobody is
inside, the cells are those that serving leaves. -/
theorem linearizable (h : Run (prog cl code) (initial s₀ σ₀) tr c) :
    ∃ s σ, Served cl code s₀ σ₀ (answered tr) s σ ∧ (∀ t, (c.control t).caller = s t) ∧
      ((∀ t, (c.control t).holds = false) → c.memory.current = σ) := by
  obtain ⟨owner, s, σ, hheld, hlink⟩ := inv_run h
  refine ⟨s, σ, hlink.served, hlink.caller, fun hnone => hlink.free ?_⟩
  cases owner with
  | none => rfl
  | some t =>
    have := (hheld.holds t).mpr rfl
    rw [hnone t] at this
    exact Bool.noConfusion this

/-! ## Every serving has a run -/

/-- What a configuration is like after thread `t` has gone on alone to `p`. -/
structure Alone (c : Config T Unit D V (Control D V S J R)) (t : T) (p : Control D V S J R)
    (now : D → V) (c' : Config T Unit D V (Control D V S J R)) : Prop where
  control : c'.control t = p
  other : ∀ u, u ≠ t → c'.control u = c.control u
  current : c'.memory.current = now

theorem alone_moved (hμ : μ.current = σ) : Alone c t p σ (c.moved t p v μ) :=
  ⟨Config.control_moved, fun _ hu => Config.control_moved_of_ne hu, hμ⟩

theorem Alone.trans {c' c'' : Config T Unit D V (Control D V S J R)} {p' : Control D V S J R}
    {σ' : D → V} (h : Alone c t p σ c') (h' : Alone c' t p' σ' c'') : Alone c t p' σ' c'' :=
  ⟨h'.control, fun u hu => (h'.other u hu).trans (h.other u hu), h'.current⟩

/-- A free lock can be taken. -/
theorem exists_take (cl : Client S J R) (code : J → Body D V R) (h : Held c none) {a : S} {j : J}
    (hc : c.control t = .locking a j) :
    ∃ v μ, Perform t (prog cl code (c.control t)) (c.views t) c.memory
      (.inside a j (code j)) v μ ∧ μ.current = c.memory.current := by
  have hvalue : (word c.memory).value = SPINLOCK_UNLOCKED := h.value
  rw [hc]
  refine ⟨_, _, .inl ⟨word c.memory, History.mem_all.mpr (.inl rfl), (h.within t).atomics (),
    hvalue, (word c.memory).time + 1, ⟨Nat.lt_succ_self _, fun m hm => ?_⟩, rfl, rfl, rfl⟩, rfl⟩
  exact .inl (h.time_le hm)

/-- A thread inside can run its operation to the end. -/
theorem exists_finish {a : S} {j : J} {r : R} {σ' : D → V} : ∀ (b : Body D V R)
    (tr : List (T × Control D V S J R)) (c : Config T Unit D V (Control D V S J R)),
    Run (prog cl code) (initial s₀ σ₀) tr c → c.control t = .inside a j b →
    b.exec c.memory.current = some (r, σ') →
    ∃ tr' c', Run (prog cl code) (initial s₀ σ₀) tr' c' ∧ answered tr' = answered tr ∧
      Alone c t (.unlocking a j r) σ' c' := by
  intro b
  induction b with
  | done r' =>
    intro tr c h hc he
    obtain ⟨rfl, rfl⟩ := Prod.mk.inj (Option.some.inj he)
    refine ⟨_, _, h.moved (p := .unlocking a j r') (v := c.views t) (μ := c.memory) ?_, ?_,
      alone_moved rfl⟩
    · rw [hc]
      exact ⟨rfl, rfl, rfl⟩
    · rw [answered_snoc, hc]
      exact List.append_nil _
  | stop =>
    intro tr c h hc he
    exact absurd he (by simp [Body.exec])
  | get d k ih =>
    intro tr c h hc he
    obtain ⟨owner, s, σ, hheld, -⟩ := inv_run h
    have hrun := h.moved (t := t) (p := .inside a j (k (c.memory.current d)))
      (v := Function.update ((c.views t).tick t) (.cell d) (c.memory.cells d).newest.time)
      (μ := c.memory.note ((c.views t).access t d false)) (by
        rw [hc]
        exact ⟨_, History.mem_all.mpr (.inl rfl), (hheld.within t).cells d, rfl, rfl, rfl⟩)
    obtain ⟨tr', c', hrun', hans, hal⟩ := ih _ _ _ hrun Config.control_moved he
    refine ⟨tr', c', hrun', ?_, (alone_moved rfl).trans hal⟩
    rw [hans, answered_snoc, hc]
    exact List.append_nil _
  | put d n b ih =>
    intro tr c h hc he
    obtain ⟨owner, s, σ, hheld, -⟩ := inv_run h
    have hrun := h.moved (t := t) (p := .inside a j b)
      (v := Function.update ((c.views t).tick t) (.cell d) ((c.memory.cells d).newest.time + 1))
      (μ := (c.memory.write d ⟨n, (c.memory.cells d).newest.time + 1⟩).note
        ((c.views t).access t d true)) (by
        rw [hc]
        refine ⟨_, fun w hw => ?_, Nat.lt_succ_of_le ((hheld.within t).cells d), rfl, rfl, rfl⟩
        exact (Nat.lt_succ_of_le (hheld.sorted.time_le hw)).ne)
    have hnow : ((c.memory.write d ⟨n, (c.memory.cells d).newest.time + 1⟩).note
        ((c.views t).access t d true)).current = Function.update c.memory.current d n := by
      rw [Memory.current_note, Memory.current_write]
    obtain ⟨tr', c', hrun', hans, hal⟩ := ih _ _ hrun Config.control_moved (by
      rw [Config.memory_moved, hnow]
      exact he)
    refine ⟨tr', c', hrun', ?_, (alone_moved rfl).trans hal⟩
    rw [hans, answered_snoc, hc]
    exact List.append_nil _

/-- A thread whose call is allowed can have it answered while nobody is inside. -/
theorem exists_call (h : Run (prog cl code) (initial s₀ σ₀) tr c)
    (hfree : ∀ u, (c.control u).holds = false) {a : S} {j : J} {r : R} {σ' : D → V}
    (hc : c.control t = .idle a) (hj : cl.calls a j)
    (he : (code j).exec c.memory.current = some (r, σ')) :
    ∃ tr' c', Run (prog cl code) (initial s₀ σ₀) tr' c' ∧
      answered tr' = answered tr ++ [(t, j, r)] ∧ Alone c t (.idle (cl.after a j r)) σ' c' := by
  -- the call begins
  have h₁ := h.moved (t := t) (p := .locking a j) (v := c.views t) (μ := c.memory) (by
    rw [hc]
    exact ⟨.inl ⟨j, hj, .inl rfl⟩, rfl, rfl⟩)
  obtain ⟨owner, s, σ, hheld, -⟩ := inv_run h₁
  have hnone : owner = none := by
    cases owner with
    | none => rfl
    | some u =>
      have hu := (hheld.holds u).mpr rfl
      by_cases hut : u = t
      · subst hut
        rw [Config.control_moved] at hu
        exact Bool.noConfusion hu
      · rw [Config.control_moved_of_ne hut, hfree u] at hu
        exact Bool.noConfusion hu
  subst hnone
  -- the lock is taken, and the operation run
  obtain ⟨v, μ, hperf, hμ⟩ := exists_take cl code hheld Config.control_moved
  have h₂ := h₁.moved hperf
  obtain ⟨tr₃, c₃, h₃, hans, hal⟩ := exists_finish _ _ _ h₂ Config.control_moved (by
    rw [Config.memory_moved, hμ]
    exact he)
  -- the lock is given back
  obtain ⟨owner, s, σ, hheld, -⟩ := inv_run h₃
  obtain rfl : owner = some t := (hheld.holds t).mp (by rw [hal.control]; rfl)
  have h₄ := h₃.moved (t := t) (p := .idle (cl.after a j r))
    (v := Function.update (c₃.views t) (.atomic ()) ((word c₃.memory).time + 1))
    (μ := c₃.memory.post () ⟨SPINLOCK_UNLOCKED, (word c₃.memory).time, (word c₃.memory).time + 1,
      (c₃.views t).published () MemoryOrder.RELEASE.toStoreOrder.order
        ((word c₃.memory).time + 1)⟩) (by
    rw [hal.control]
    refine ⟨_, _, ⟨Nat.lt_succ_self _, fun m hm => .inl (hheld.time_le hm)⟩, ?_, rfl, rfl, rfl⟩
    exact Nat.lt_succ_of_le ((hheld.within t).atomics ()))
  refine ⟨_, _, h₄, ?_, ((alone_moved rfl).trans ((alone_moved hμ).trans hal)).trans
    (alone_moved ?_)⟩
  · rw [answered_snoc, hal.control, hans, answered_snoc, answered_snoc, Config.control_moved, hc]
    simp [answered]
  · exact hal.current

/-- Whatever can be served one call after the other, the threads can be answered. -/
theorem exists_run_of_served {cs : List (T × J × R)} (h : Served cl code s₀ σ₀ cs s σ) :
    ∃ tr c, Run (prog cl code) (initial s₀ σ₀) tr c ∧ answered tr = cs ∧
      (∀ t, c.control t = .idle (s t)) ∧ c.memory.current = σ := by
  induction h with
  | start => exact ⟨[], _, .refl, rfl, fun _ => rfl, rfl⟩
  | @call cs s σ t j r σ' _ hj he ih =>
    obtain ⟨tr, c, hrun, hans, hidle, hcur⟩ := ih
    subst hcur
    obtain ⟨tr', c', hrun', hans', hal⟩ :=
      exists_call hrun (fun u => by rw [hidle u]; rfl) (hidle t) hj he
    refine ⟨tr', c', hrun', by rw [hans', hans], fun u => ?_, hal.current⟩
    by_cases hut : u = t
    · subst hut
      rw [Function.update_self]
      exact hal.control
    · rw [Function.update_of_ne hut, hal.other u hut]
      exact hidle u

/-- A thread inside has not stopped when the call that it runs ends. -/
theorem not_stopped (h : Run (prog cl code) (initial s₀ σ₀) tr c)
    (hends : ∀ (cs : List (T × J × R)) (s : T → S) σ t j, Served cl code s₀ σ₀ cs s σ →
      cl.calls (s t) j → (code j).exec σ ≠ none) (t : T) (a : S) (j : J) :
    c.control t ≠ .inside a j .stop := by
  intro hc
  obtain ⟨owner, s, σ, hheld, hlink⟩ := inv_run h
  have hown : owner = some t := (hheld.holds t).mp (by rw [hc]; rfl)
  have hpend := hlink.pending t hown
  rw [hc] at hpend
  exact hends _ s σ t j hlink.served (hlink.allowed t j (by rw [hc]; rfl)) hpend.symm

/-! ## A counter that two threads count up -/

/-- The counter's operation: it answers the old count. -/
def countUp (_ : Unit) : Body Unit ℕ ℕ := .get () fun n => .put () (n + 1) (.done n)

/-- Anyone may count at any time. -/
def counter : Client Unit Unit ℕ where
  calls _ _ := True
  after _ _ _ := ()

/-- One thread has counted and the other is inside. -/
theorem exists_run_counter : ∃ tr, ∃ c : Config Bool Unit Unit ℕ (Control Unit ℕ Unit Unit ℕ),
    Run (prog counter countUp) (initial () fun _ => 0) tr c ∧ answered tr = [(true, (), 0)] ∧
      (c.control false).holds = true := by
  have hserved : Served counter countUp () (fun _ => 0) [(true, (), 0)]
      (Function.update (fun _ => ()) true ()) (Function.update (fun _ => 0) () 1) :=
    .call .start trivial rfl
  obtain ⟨tr, c, h, hans, hidle, -⟩ := exists_run_of_served hserved
  have h₁ := h.moved (t := false) (p := .locking () ()) (v := c.views false)
    (μ := c.memory) (by
      rw [hidle false]
      exact ⟨.inl ⟨(), trivial, .inl rfl⟩, rfl, rfl⟩)
  obtain ⟨owner, s, σ, hheld, -⟩ := inv_run h₁
  have hnone : owner = none := by
    cases owner with
    | none => rfl
    | some u =>
      have hu := (hheld.holds u).mpr rfl
      cases u with
      | false =>
        rw [Config.control_moved] at hu
        exact Bool.noConfusion hu
      | true =>
        rw [Config.control_moved_of_ne (by decide), hidle true] at hu
        exact Bool.noConfusion hu
  subst hnone
  obtain ⟨v, μ, hperf, -⟩ := exists_take counter countUp hheld Config.control_moved
  refine ⟨_, _, h₁.moved hperf, ?_, by rw [Config.control_moved]; rfl⟩
  rw [answered_snoc, answered_snoc, hans, Config.control_moved, hidle false]
  rfl

/-! ## What the lock is for -/

/-- The lock is locked exactly while a thread is inside, and no two are inside at once, however
the calls of the threads interleave and however stale the values are that they read. -/
theorem mutual_exclusion (cl : Client S J R) (code : J → Body D V R) (s₀ : S) (σ₀ : D → V)
    {tr : List (T × Control D V S J R)} {c : Config T Unit D V (Control D V S J R)}
    (h : Run (prog cl code) (initial s₀ σ₀) tr c) :
    (∀ t u, (c.control t).holds = true → (c.control u).holds = true → t = u) ∧
      ((word c.memory).value = SPINLOCK_LOCKED ↔ ∃ t, (c.control t).holds = true) := by
  obtain ⟨owner, s, σ, hheld, _⟩ := inv_run h
  refine ⟨fun t u ht hu => ?_, ?_⟩
  · have := (hheld.holds t).mp ht
    rw [(hheld.holds u).mp hu] at this
    exact (Option.some.inj this).symm
  · rw [hheld.value]
    cases owner with
    | none => simp [hheld.holds, SPINLOCK_UNLOCKED, SPINLOCK_LOCKED]
    | some t => simp [hheld.holds]

theorem mutual_exclusion_counter :
    ∃ tr, ∃ c : Config Bool Unit Unit ℕ (Control Unit ℕ Unit Unit ℕ),
      Run (prog counter countUp) (initial () fun _ => 0) tr c ∧
      (c.control true).holds = false ∧ (word c.memory).value = SPINLOCK_LOCKED := by
  obtain ⟨tr, c, h, -, hin⟩ := exists_run_counter
  obtain ⟨hone, hlocked⟩ := mutual_exclusion counter countUp () (fun _ => 0) h
  refine ⟨tr, c, h, ?_, hlocked.mpr ⟨false, hin⟩⟩
  cases ht : (c.control true).holds with
  | false => rfl
  | true => exact absurd (hone true false ht hin) (by decide)

/-- No two accesses to the guarded cells race, and whatever a thread inside reads is the last
value written. -/
theorem race_free (cl : Client S J R) (code : J → Body D V R) (s₀ : S) (σ₀ : D → V)
    {tr : List (T × Control D V S J R)} {c : Config T Unit D V (Control D V S J R)}
    (h : Run (prog cl code) (initial s₀ σ₀) tr c) :
    c.memory.RaceFree ∧ ∀ t, (c.control t).holds = true → ∀ d, ∀ w ∈ (c.memory.cells d).all,
      c.views t (.cell d) ≤ w.time → w.value = c.memory.current d := by
  obtain ⟨owner, s, σ, hheld, _⟩ := inv_run h
  refine ⟨hheld.raceFree, fun t ht d w hw hle => ?_⟩
  obtain rfl := (hheld.holds t).mp ht
  have hcov : Covers (c.views t) c.memory := hheld.covers
  rw [hcov.toWrites.get hheld.sorted hw hle]
  rfl

theorem race_free_counter :
    ∃ tr, ∃ c : Config Bool Unit Unit ℕ (Control Unit ℕ Unit Unit ℕ),
      Run (prog counter countUp) (initial () fun _ => 0) tr c ∧ c.memory.RaceFree ∧
      ∀ w ∈ (c.memory.cells ()).all, c.views false (.cell ()) ≤ w.time →
        w.value = c.memory.current () := by
  obtain ⟨tr, c, h, -, hin⟩ := exists_run_counter
  obtain ⟨hrace, hlast⟩ := race_free counter countUp () (fun _ => 0) h
  exact ⟨tr, c, h, hrace, hlast false hin ()⟩

/-- The answers that any interleaving can give are exactly those of the calls served one after
the other. -/
theorem answers_exact (cl : Client S J R) (code : J → Body D V R) (s₀ : S) (σ₀ : D → V)
    (cs : List (T × J × R)) :
    (∃ tr c, Run (prog cl code) (initial s₀ σ₀) tr c ∧ answered tr = cs) ↔
      ∃ s σ, Served cl code s₀ σ₀ cs s σ := by
  constructor
  · rintro ⟨tr, c, hrun, rfl⟩
    obtain ⟨s, σ, hserved, -⟩ := linearizable hrun
    exact ⟨s, σ, hserved⟩
  · rintro ⟨s, σ, hserved⟩
    obtain ⟨tr, c, hrun, hans, -⟩ := exists_run_of_served hserved
    exact ⟨tr, c, hrun, hans⟩

end Spinlock

end DoomOs
