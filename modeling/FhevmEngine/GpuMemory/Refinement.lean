import FhevmEngine.GpuMemory.Admission
import Mathlib.Logic.Relation

/-!
# The lock-free pool refines an atomic pool

What `reserve_memory_on_gpu` and `release_memory_on_gpu` are for is a pool in which each call is
one indivisible action: a reservation waits until the validator accepts the total with it, then
adds it; a release subtracts what was reserved.  The code has no lock.  A reservation is a
`fetch_add`, a check outside any lock, and on refusal a rollback and a retry.  A release is a
`load`, an `assert!`, and a `fetch_sub`.

This module states the pool with atomic calls, `Atomic.Step`, and shows that every run of the
code is, seen through an abstraction, a run of the atomic pool.  The abstraction keeps the bytes
held on each GPU, and for each worker the calls it has left.  A call counts as made at its
linearization point: a `reserve` at the check that accepts it, a `release` at its `fetch_sub`.
Every other atomic step (entering a call, a `fetch_add`, a refusal, a rollback, a `load`) changes
neither, so the retries are invisible.

The one guard that lock-free code could break is the atomic reserve's: the validator accepts the
held total with the new reservation.  It holds by the ghost invariant `Snapshots` of the
admission module, for a fixed validator that is downward closed in the size.

The converse holds for any validator: every run of the atomic pool is the abstraction of a run of
the code in which each call runs alone to its end.  A reserve made alone reads the counter at the
bytes held, so the code refuses nothing the atomic pool would grant; the refinement loses no
behaviour.

## Main definitions

* `Atomic.State`, `Atomic.Step` — the pool with atomic calls.
* `Worker.calls`, `State.abstract` — the abstraction of a worker and of the process.
* `Quiescent` — every worker is between calls or stopped.

## Main results

* `Step.abstract` — one atomic step of the code is one step of the atomic pool, or invisible.
* `pool_refines_atomic` — **the lock-free pool refines the atomic pool.**
* `Reachable.implement`, `Reachable.implement_run` — from a state at rest the code makes any one
  call of the atomic pool, and any run of them.
* `atomic_runs_implemented` — **the code runs every run of the atomic pool.**

## References

`coprocessor/fhevm-engine/fhevm-engine-common/src/gpu_memory.rs`, lines 60–83.
-/

namespace FhevmEngine
namespace GpuMemory

open Finset

variable {n : ℕ}

/-! ### The pool with atomic calls -/

namespace Atomic

/-- The pool with atomic calls: the bytes reserved on each of `gpus` GPUs, and the calls each
worker has left (`none` once it has panicked). -/
structure State (n : ℕ) where
  gpus : ℕ
  reserved : ℕ → ℕ
  calls : Fin n → Option (List Call)

/-- Nothing reserved, every worker before its script. -/
def State.init (gpus : ℕ) (scripts : Fin n → List Call) : State n :=
  ⟨gpus, fun _ => 0, fun k => some (scripts k)⟩

/-- One call of one worker, made at once, under the validator `f`. -/
inductive Step (f : UInt64 → GpuIndex → Bool) (s : State n) : State n → Prop
  /-- `reserve_memory_on_gpu(amount, idx)` returns once the total with `amount` is a `u64` that
  `f` accepts, and adds `amount` to it. -/
  | reserve (k : Fin n) (amount : UInt64) (idx : ℕ) (cs : List Call)
      (hk : s.calls k = some (.reserveMemoryOnGpu amount idx :: cs)) (hi : idx < s.gpus)
      (hfit : s.reserved idx + amount.toNat < 2 ^ 64)
      (hf : f (UInt64.ofNat (s.reserved idx + amount.toNat)) (GpuIndex.new idx) = true) :
      Step f s ⟨s.gpus, Function.update s.reserved idx (s.reserved idx + amount.toNat),
        Function.update s.calls k (some cs)⟩
  /-- `release_memory_on_gpu(amount, idx)` subtracts `amount` from a total that covers it. -/
  | release (k : Fin n) (amount : UInt64) (idx : ℕ) (cs : List Call)
      (hk : s.calls k = some (.releaseMemoryOnGpu amount idx :: cs)) (hi : idx < s.gpus)
      (hle : amount.toNat ≤ s.reserved idx) :
      Step f s ⟨s.gpus, Function.update s.reserved idx (s.reserved idx - amount.toNat),
        Function.update s.calls k (some cs)⟩
  /-- A reserve on an index past the last GPU panics. -/
  | reserveOutOfRange (k : Fin n) (amount : UInt64) (idx : ℕ) (cs : List Call)
      (hk : s.calls k = some (.reserveMemoryOnGpu amount idx :: cs)) (hi : s.gpus ≤ idx) :
      Step f s ⟨s.gpus, s.reserved, Function.update s.calls k none⟩
  /-- A release on an index past the last GPU panics. -/
  | releaseOutOfRange (k : Fin n) (amount : UInt64) (idx : ℕ) (cs : List Call)
      (hk : s.calls k = some (.releaseMemoryOnGpu amount idx :: cs)) (hi : s.gpus ≤ idx) :
      Step f s ⟨s.gpus, s.reserved, Function.update s.calls k none⟩
  /-- A release of more than the total fails its `assert!`. -/
  | releaseExceeds (k : Fin n) (amount : UInt64) (idx : ℕ) (cs : List Call)
      (hk : s.calls k = some (.releaseMemoryOnGpu amount idx :: cs)) (hi : idx < s.gpus)
      (hlt : s.reserved idx < amount.toNat) :
      Step f s ⟨s.gpus, s.reserved, Function.update s.calls k none⟩

end Atomic

/-! ### The abstraction -/

/-- The calls a worker has left, as the atomic pool counts them: a `reserve` is made at the check
that accepts it, a `release` at its `fetch_sub`. -/
def Worker.calls : Worker → Option (List Call)
  | ⟨.idle, cs⟩ => some cs
  | ⟨.fetchAdd amount idx, cs⟩ | ⟨.check amount idx _, cs⟩ | ⟨.rollback amount idx, cs⟩ =>
      some (.reserveMemoryOnGpu amount idx :: cs)
  | ⟨.load amount idx, cs⟩ | ⟨.sub amount idx, cs⟩ => some (.releaseMemoryOnGpu amount idx :: cs)
  | ⟨.panicked, _⟩ => none

/-- The process as the atomic pool sees it: the bytes held on each GPU, and each worker's calls
left. -/
def State.abstract (s : State n) : Atomic.State n :=
  ⟨s.gpus, s.heldOn, fun k => (s.workers k).calls⟩

theorem Matched.held_idle {cs : List Call} (h : Matched cs) (i : ℕ) :
    Worker.held i ⟨.idle, cs⟩ = 0 := by
  cases h <;> rfl

theorem State.abstract_init {gpus : ℕ} {scripts : Fin n → List Call}
    (hm : ∀ k, Matched (scripts k)) :
    (State.init gpus scripts).abstract = Atomic.State.init gpus scripts := by
  simp only [State.abstract, Atomic.State.init, Atomic.State.mk.injEq]
  refine ⟨rfl, funext fun i => ?_, rfl⟩
  simp [State.heldOn, State.init, (hm _).held_idle]

/-- A step of worker `k` to `w` moves the abstraction by `w`'s calls, and moves the held bytes to
any `r` that accounts for the change of `k`'s holding. -/
theorem State.abstract_update {s : State n} {k : Fin n} {w₀ : Worker} (hk : s.workers k = w₀)
    (pool : ℕ → UInt64) (w : Worker) (r : ℕ → ℕ)
    (hr : ∀ i, r i + w₀.held i = s.heldOn i + w.held i) :
    (⟨s.gpus, pool, Function.update s.workers k w⟩ : State n).abstract =
      ⟨s.gpus, r, Function.update s.abstract.calls k w.calls⟩ := by
  subst hk
  simp only [State.abstract, Atomic.State.mk.injEq, true_and]
  constructor
  · funext i
    have hsum := sum_update_add (Worker.held i) s.workers k w
    have := hr i
    simp only [State.heldOn] at hsum this ⊢
    omega
  · funext j
    exact Function.apply_update (fun _ => Worker.calls) s.workers k w j

/-- A step that keeps the worker's holding and its calls left is invisible. -/
theorem State.abstract_stutter {s : State n} {k : Fin n} {w₀ : Worker} (hk : s.workers k = w₀)
    (pool : ℕ → UInt64) {w : Worker} (hr : w.reservation = w₀.reservation)
    (hc : w.calls = w₀.calls) :
    (⟨s.gpus, pool, Function.update s.workers k w⟩ : State n).abstract = s.abstract := by
  rw [State.abstract_update hk pool w s.heldOn fun i => by simp only [Worker.held, hr], hc, ← hk]
  exact congrArg _ (Function.update_eq_self k _)

/-- The held bytes after a step whose worker's holding on `idx` grows by `amount`. -/
theorem held_update_add {h : ℕ → ℕ} {w₀ w : Worker} {idx amount : ℕ}
    (hw : ∀ i, w.held i = w₀.held i + if idx = i then amount else 0) (i : ℕ) :
    Function.update h idx (h idx + amount) i + w₀.held i = h i + w.held i := by
  rw [hw]
  rcases eq_or_ne i idx with rfl | hne
  · rw [Function.update_same, if_pos rfl]; omega
  · rw [Function.update_noteq hne, if_neg (Ne.symm hne)]; omega

/-- The held bytes after a step whose worker's holding on `idx` shrinks by `amount`. -/
theorem held_update_sub {h : ℕ → ℕ} {w₀ w : Worker} {idx amount : ℕ}
    (hw : ∀ i, w₀.held i = w.held i + if idx = i then amount else 0) (hle : amount ≤ h idx)
    (i : ℕ) : Function.update h idx (h idx - amount) i + w₀.held i = h i + w.held i := by
  rw [hw]
  rcases eq_or_ne i idx with rfl | hne
  · rw [Function.update_same, if_pos rfl]; omega
  · rw [Function.update_noteq hne, if_neg (Ne.symm hne)]; omega

/-! ### One step -/

section Refinement

variable {f : UInt64 → GpuIndex → Bool}

/-- **One step of the code is one step of the atomic pool, or invisible.**  From a state in which
every worker follows its matched script and the counter of every GPU is conserved, and into one
where the ghost invariant holds on every GPU: the check that accepts a reservation is the atomic
`reserve`, the release's `fetch_sub` is the atomic `release`, a `fetch_add` past the last GPU is
the atomic panic, and every other step changes nothing the atomic pool sees. -/
theorem Step.abstract (hdown : ∀ m m' g, m ≤ m' → f m' g = true → f m g = true)
    {s s' : State n} (h : Step (Validator.ofFun f) s s')
    (hm : ∀ k, (s.workers k).Matching s.gpus) (hc : ∀ i < s.gpus, Conserving i s)
    (hσ : ∀ i < s.gpus, ∃ σ, Snapshots f i s' σ) :
    Atomic.Step f s.abstract s'.abstract ∨ s'.abstract = s.abstract := by
  cases h with | @step k pool w hw =>
  have hmk := hm k
  generalize hk : s.workers k = w₀ at hw hmk
  have hcalls : s.abstract.calls k = w₀.calls := congrArg Worker.calls hk
  cases hw with
  | call c cs => cases c <;> exact .inr (State.abstract_stutter hk _ rfl rfl)
  | fetchAdd | refuse | rollback | load => exact .inr (State.abstract_stutter hk _ rfl rfl)
  | accept amount idx old cs hv =>
    cases hmk with | @checking _ _ _ rest hi hrest =>
    have habs := State.abstract_update hk s.gpuMemReservation
      ⟨.idle, .releaseMemoryOnGpu amount idx :: rest⟩
      (Function.update s.heldOn idx (s.heldOn idx + amount.toNat))
      (held_update_add fun i => by simp [Worker.held, Worker.reservation])
    have hheld := congrFun (congrArg Atomic.State.reserved habs) idx
    simp only [State.abstract, Function.update_same] at hheld
    obtain ⟨σ, hσi⟩ := hσ idx hi
    obtain ⟨hfit, hf⟩ := hσi.heldOn_accepted hdown (k := k)
      (by simp [Worker.holds, Worker.reservation])
    rw [hheld] at hfit hf
    rw [habs]
    exact .inl (.reserve k amount idx _ hcalls hi hfit hf)
  | assertFails amount idx cs hi hlt =>
    cases hmk with | loading _ _ hi' =>
    have hadded := (hc idx hi').added_le k
    rw [hk] at hadded
    have hle := (Worker.le_added (.inl rfl)).trans hadded
    exact absurd hlt (by rw [UInt64.lt_iff_toNat_lt]; omega)
  | sub amount idx cs =>
    cases hmk with | subtracting _ _ hi hcs =>
    have hle : amount.toNat ≤ s.heldOn idx := by
      simpa [State.heldOn, Worker.held, Worker.reservation, hk] using
        le_sum_workers (Worker.held idx) s.workers k
    rw [State.abstract_update hk _ ⟨.idle, cs⟩
      (Function.update s.heldOn idx (s.heldOn idx - amount.toNat)) (held_update_sub (fun i => by
        rw [hcs.held_idle]; simp [Worker.held, Worker.reservation]) hle)]
    exact .inl (.release k amount idx _ hcalls hi hle)
  | fetchAddOutOfRange amount idx cs hi =>
    rw [State.abstract_update hk _ ⟨.panicked, cs⟩ s.heldOn fun i => rfl]
    exact .inl (.reserveOutOfRange k amount idx cs hcalls hi)
  | loadOutOfRange amount idx cs hi => cases hmk with | loading _ _ hi' => omega

/-! ### Runs -/

/-- The step lemma at a reachable state: the invariants it asks for hold there. -/
theorem Reachable.abstract_step (hdown : ∀ m m' g, m ≤ m' → f m' g = true → f m g = true)
    {gpus : ℕ} {scripts : Fin n → List Call} (hm : ∀ k, Matched (scripts k)) {s s' : State n}
    (hs : Reachable (Validator.ofFun f) (InFlightBoundedAll gpus) (State.init gpus scripts) s)
    (h : Step (Validator.ofFun f) s s') (hP : InFlightBoundedAll gpus s') :
    Atomic.Step f s.abstract s'.abstract ∨ s'.abstract = s.abstract := by
  have hg : s.gpus = gpus := hs.gpus_eq
  refine h.abstract hdown (matching_of_reachable hm hs) (fun i hi => ?_) (fun i hi => ?_)
  · exact conserving_of_reachable hm (hs.mono fun _ hb => hb i (hg ▸ hi))
  · exact (snapshots_of_reachable hm ((hs.step h hP).mono fun _ hb => hb i (hg ▸ hi))).2

/-- **The lock-free pool refines the atomic pool.**  Let the validator be a fixed predicate `f`,
downward closed in the size.  In every state of a run from the start in which every worker
releases exactly what it reserved and the amounts in flight on every GPU fit in a `u64`, however
the atomic operations interleave: the state, seen through the abstraction, is one the atomic pool
reaches by whole calls, each reserve admitted by `f` at the total it makes; and every further step
of the run is one atomic call or changes nothing the atomic pool sees. -/
theorem pool_refines_atomic (hdown : ∀ m m' g, m ≤ m' → f m' g = true → f m g = true)
    {gpus : ℕ} {scripts : Fin n → List Call} (hm : ∀ k, Matched (scripts k)) {s : State n}
    (hs : Reachable (Validator.ofFun f) (InFlightBoundedAll gpus) (State.init gpus scripts) s) :
    Relation.ReflTransGen (Atomic.Step f) (Atomic.State.init gpus scripts) s.abstract ∧
    ∀ s', Step (Validator.ofFun f) s s' → InFlightBoundedAll gpus s' →
      Atomic.Step f s.abstract s'.abstract ∨ s'.abstract = s.abstract := by
  refine ⟨?_, fun s' h hP => hs.abstract_step hdown hm h hP⟩
  induction hs with
  | init => exact State.abstract_init hm ▸ .refl
  | step hs' h hP ih =>
    rcases Reachable.abstract_step hdown hm hs' h hP with h' | h'
    · exact ih.tail h'
    · exact h' ▸ ih

end Refinement

/-- The race of `pairScripts` on a 16 GiB GPU, both `fetch_add`s before either check: the two
reserves are the atomic pool's, the second worker's first. -/
theorem pool_refines_atomic_race :
    ∃ s, Reachable sixteenGiB (InFlightBoundedAll 1) (State.init 1 pairScripts) s ∧
      s.heldOn 0 = 2000 ∧
      Relation.ReflTransGen (Atomic.Step fitsSixteenGiB) (Atomic.State.init 1 pairScripts)
        s.abstract ∧
      ∀ s', Step sixteenGiB s s' → InFlightBoundedAll 1 s' →
        Atomic.Step fitsSixteenGiB s.abstract s'.abstract ∨ s'.abstract = s.abstract := by
  have hm : ∀ k, Matched (pairScripts k) := Fin.forall_fin_two.2 ⟨.pair _ _ .nil, .pair _ _ .nil⟩
  have h0 := pairsOpened_reachable sixteenGiB
  have h1 := h0.tail 1 (.fetchAdd 1000 0 [.releaseMemoryOnGpu 1000 0] (by decide)) rfl (by decide)
  have h2 := h1.tail 1 (.accept 1000 0 1000 [.releaseMemoryOnGpu 1000 0] rfl) rfl (by decide)
  have h3 := h2.tail 0 (.accept 1000 0 0 [.releaseMemoryOnGpu 1000 0] rfl) rfl (by decide)
  exact ⟨_, h3, by decide, pool_refines_atomic fitsSixteenGiB_down hm h3⟩

/-! ### The converse: the code runs every run of the atomic pool -/

/-- Every worker is between calls, or stopped. -/
def Quiescent (s : State n) : Prop :=
  ∀ k, (s.workers k).pc = .idle ∨ (s.workers k).pc = .panicked

/-- Between calls or stopped, a worker has nothing tentative and nothing pending. -/
theorem Worker.demand_of_rest {w : Worker} (h : w.pc = .idle ∨ w.pc = .panicked) (i : ℕ) :
    w.added i = w.held i ∧ w.demand i = w.held i := by
  obtain ⟨pc, cs⟩ := w
  rcases h with rfl | rfl <;> exact ⟨rfl, rfl⟩

/-- A worker between calls or stopped, with calls left, is idle before them. -/
theorem Worker.eq_of_calls {w : Worker} {cs : List Call} (h : w.pc = .idle ∨ w.pc = .panicked)
    (hc : w.calls = some cs) : w = ⟨.idle, cs⟩ := by
  obtain ⟨pc, cs'⟩ := w
  rcases h with rfl | rfl <;> cases hc
  rfl

theorem Quiescent.sum_demand {s : State n} (hq : Quiescent s) (i : ℕ) :
    ∑ k, (s.workers k).demand i = s.heldOn i :=
  sum_congr rfl fun k _ => (Worker.demand_of_rest (hq k) i).2

/-- At rest, a conserved counter is the bytes held. -/
theorem Conserving.counter_of_quiescent {i : ℕ} {s : State n} (hc : Conserving i s)
    (hq : Quiescent s) : (s.gpuMemReservation i).toNat = s.heldOn i :=
  hc.counter.trans (sum_congr rfl fun k _ => (Worker.demand_of_rest (hq k) i).1)

theorem Quiescent.update {s : State n} (hq : Quiescent s) (k : Fin n) (pool : ℕ → UInt64)
    {w : Worker} (hw : w.pc = .idle ∨ w.pc = .panicked) :
    Quiescent ⟨s.gpus, pool, Function.update s.workers k w⟩ := by
  intro j
  rcases eq_or_ne j k with rfl | hne
  · simpa using hw
  · simpa [Function.update_noteq hne] using hq j

/-- Replacing worker `k` of a state at rest by `w` keeps the promise on every GPU on which the
bytes held, with `w`'s demand in place of `k`'s, fit. -/
theorem Quiescent.bounded_update {gpus : ℕ} {s : State n} (hq : Quiescent s) (k : Fin n)
    (pool : ℕ → UInt64) (w : Worker)
    (h : ∀ i < gpus, s.heldOn i + w.demand i < 2 ^ 64 + (s.workers k).demand i) :
    InFlightBoundedAll gpus ⟨s.gpus, pool, Function.update s.workers k w⟩ := fun i hi => by
  have hsum := sum_update_add (Worker.demand i) s.workers k w
  have := h i hi
  rw [← hq.sum_demand] at this
  show ∑ j, (Function.update s.workers k w j).demand i < 2 ^ 64
  omega

/-- A run extended by a step of worker `k`, written over the state before `k`'s steps. -/
theorem Reachable.tail_update {valid : Validator} {P : State n → Prop} {s₀ : State n} {g : ℕ}
    {pool pool' : ℕ → UInt64} {ws : Fin n → Worker} {k : Fin n} {w w' : Worker}
    (hs : Reachable valid P s₀ ⟨g, pool, Function.update ws k w⟩)
    (h : WorkerStep valid g pool w pool' w') (hP : P ⟨g, pool', Function.update ws k w'⟩) :
    Reachable valid P s₀ ⟨g, pool', Function.update ws k w'⟩ := by
  rw [← Function.update_idem w w' ws] at hP ⊢
  exact hs.tail k h (Function.update_same k w ws) hP

/-- From a state of a run, the run of no steps, written over the state with worker `k` put
back. -/
theorem Reachable.start {valid : Validator} {P : State n → Prop} {s₀ s : State n}
    (hs : Reachable valid P s₀ s) {k : Fin n} {w : Worker} (hk : s.workers k = w) :
    Reachable valid P s ⟨s.gpus, s.gpuMemReservation, Function.update s.workers k w⟩ := by
  rw [← hk, Function.update_eq_self]
  exact .init hs.prop

/-- Replacing worker `k` by one that demands no more on any GPU keeps the promise. -/
theorem InFlightBoundedAll.update_le {gpus g : ℕ} {pool pool' : ℕ → UInt64}
    {ws : Fin n → Worker} {k : Fin n} {w w' : Worker}
    (hb : InFlightBoundedAll gpus ⟨g, pool, Function.update ws k w⟩)
    (hd : ∀ i, w'.demand i ≤ w.demand i) :
    InFlightBoundedAll gpus ⟨g, pool', Function.update ws k w'⟩ := fun i hi => by
  have h := sum_update_add (Worker.demand i) ws k w
  have h' := sum_update_add (Worker.demand i) ws k w'
  have hb : ∑ j, (Function.update ws k w j).demand i < 2 ^ 64 := hb i hi
  have := hd i
  show ∑ j, (Function.update ws k w' j).demand i < 2 ^ 64
  omega

/-- A step of worker `k` to a position that demands no more stays within the promise. -/
theorem Reachable.tail_le {valid : Validator} {gpus g : ℕ} {s₀ : State n}
    {pool pool' : ℕ → UInt64} {ws : Fin n → Worker} {k : Fin n} {w w' : Worker}
    (hs : Reachable valid (InFlightBoundedAll gpus) s₀ ⟨g, pool, Function.update ws k w⟩)
    (h : WorkerStep valid g pool w pool' w') (hd : ∀ i, w'.demand i ≤ w.demand i) :
    Reachable valid (InFlightBoundedAll gpus) s₀ ⟨g, pool', Function.update ws k w'⟩ :=
  hs.tail_update h (hs.prop.update_le hd)

/-- A worker at the `load` of a release, with the counter at least its amount, completes the call
alone. -/
theorem Reachable.release_rest {valid : Validator} {gpus g : ℕ} {s₀ : State n}
    {pool : ℕ → UInt64} {ws : Fin n → Worker} {k : Fin n} {amount : UInt64} {idx : ℕ}
    {cs : List Call}
    (hs : Reachable valid (InFlightBoundedAll gpus) s₀
      ⟨g, pool, Function.update ws k ⟨.load amount idx, cs⟩⟩)
    (hi : idx < g) (hle : amount ≤ pool idx) (hcs : Matched cs) :
    Reachable valid (InFlightBoundedAll gpus) s₀
      ⟨g, Function.update pool idx (pool idx - amount), Function.update ws k ⟨.idle, cs⟩⟩ :=
  (hs.tail_le (.load amount idx cs hi hle) fun i => by simp [Worker.demand, Worker.pending])
    |>.tail_le (.sub amount idx cs) fun i => by
      simp [Worker.demand, Worker.pending, hcs.added_idle]

section Converse

variable {f : UInt64 → GpuIndex → Bool} {gpus : ℕ} {scripts : Fin n → List Call}

/-- **One call of the atomic pool, made by the code.**  From a state at rest of a run within the
promise, the worker that makes the call runs it alone to its end: a reserve by its `fetch_add`
and an accepting check, which sees the counter at the bytes held; a release by its `load` and its
`fetch_sub`; a reserve past the last GPU by its panic.  The atomic release past the last GPU or of
more than is held has no counterpart, and needs none: a worker with a matched script never makes
one. -/
theorem Reachable.implement (hm : ∀ k, Matched (scripts k)) {s : State n} {t : Atomic.State n}
    (hs : Reachable (Validator.ofFun f) (InFlightBoundedAll gpus) (State.init gpus scripts) s)
    (hq : Quiescent s) (h : Atomic.Step f s.abstract t) :
    ∃ s', Reachable (Validator.ofFun f) (InFlightBoundedAll gpus) s s' ∧
      Quiescent s' ∧ s'.abstract = t := by
  have hg : s.gpus = gpus := hs.gpus_eq
  have hmk := matching_of_reachable hm hs
  have hb : ∀ i < gpus, s.heldOn i < 2 ^ 64 := fun i hi => hq.sum_demand i ▸ hs.prop i hi
  have hcount : ∀ i < s.gpus, (s.gpuMemReservation i).toNat = s.heldOn i := fun i hi =>
    (conserving_of_reachable hm (hs.mono fun _ hb => hb i (hg ▸ hi))).counter_of_quiescent hq
  cases h with
  | reserve k amount idx cs hk hi hfit hf =>
    have hfit : s.heldOn idx + amount.toNat < 2 ^ 64 := hfit
    have hwk := Worker.eq_of_calls (hq k) hk
    obtain ⟨rest, rfl⟩ : ∃ rest, cs = .releaseMemoryOnGpu amount idx :: rest := by
      have hk' := hmk k
      rw [hwk] at hk'
      cases hk' with | between hc => cases hc with | pair => exact ⟨_, rfl⟩
    have hv : Validator.ofFun f (s.gpuMemReservation idx + amount) (GpuIndex.new idx) true := by
      show true = f _ _
      rw [← UInt64.ofNat_toNat_add, hcount idx hi]
      exact hf.symm
    -- entering the call demands `amount` on `idx`, which the bytes held leave room for
    have h1 := (hs.start hwk).tail_update (.call _ _) (hq.bounded_update k _ _ fun i hi' => by
      have := hb i hi'
      simp only [Worker.demand, Worker.pending, Call.entry, Worker.added_fetchAdd]
      split_ifs with hidx
      · subst hidx; omega
      · omega)
    have h2 := h1.tail_le (.fetchAdd amount idx _ hi) fun i => by
      simp [Worker.demand, Worker.pending, Call.entry]
    have h3 := h2.tail_le (.accept amount idx _ _ hv) fun i => by
      simp [Worker.demand, Worker.pending]
    refine ⟨_, h3, hq.update k _ (.inl rfl), ?_⟩
    rw [State.abstract_update hwk _ ⟨.idle, .releaseMemoryOnGpu amount idx :: rest⟩
      (Function.update s.heldOn idx (s.heldOn idx + amount.toNat))
      (held_update_add fun i => by simp [Worker.held, Worker.reservation])]
    rfl
  | release k amount idx cs hk hi hle =>
    have hle : amount.toNat ≤ s.heldOn idx := hle
    have hwk := Worker.eq_of_calls (hq k) hk
    have hcs : Matched cs := by
      have hk' := hmk k
      rw [hwk] at hk'
      cases hk' with
      | between hc => cases hc
      | holding _ _ _ hc => exact hc
    have hle' : amount ≤ s.gpuMemReservation idx :=
      UInt64.le_iff_toNat_le.2 (hcount idx hi ▸ hle)
    have h := ((hs.start hwk).tail_le (.call _ _) fun i => by
      simp [Worker.demand, Worker.pending, Call.entry]).release_rest hi hle' hcs
    refine ⟨_, h, hq.update k _ (.inl rfl), ?_⟩
    rw [State.abstract_update hwk _ ⟨.idle, cs⟩
      (Function.update s.heldOn idx (s.heldOn idx - amount.toNat)) (held_update_sub (fun i => by
        rw [hcs.held_idle]; simp [Worker.held, Worker.reservation]) hle)]
    rfl
  | reserveOutOfRange k amount idx cs hk hi =>
    have hi : gpus ≤ idx := hg ▸ hi
    have hwk := Worker.eq_of_calls (hq k) hk
    -- a call past the last GPU demands nothing on the machine's GPUs
    have h1 := (hs.start hwk).tail_update (.call _ _) (hq.bounded_update k _ _ fun i hi' => by
      have := hb i hi'
      simp only [Worker.demand, Worker.pending, Call.entry, Worker.added_fetchAdd,
        if_neg (show idx ≠ i by omega)]
      omega)
    have h2 := h1.tail_le (.fetchAddOutOfRange amount idx cs (hg ▸ hi)) fun i => Nat.zero_le _
    refine ⟨_, h2, hq.update k _ (.inr rfl), ?_⟩
    rw [State.abstract_update hwk _ ⟨.panicked, cs⟩ s.heldOn fun i => rfl]
    rfl
  | releaseOutOfRange k amount idx cs hk hi =>
    have hi : s.gpus ≤ idx := hi
    have hk' := hmk k
    rw [Worker.eq_of_calls (hq k) hk] at hk'
    cases hk' with
    | between hc => cases hc
    | holding _ _ hi' => omega
  | releaseExceeds k amount idx cs hk hi hlt =>
    have hheld := le_sum_workers (Worker.held idx) s.workers k
    rw [Worker.eq_of_calls (hq k) hk] at hheld
    simp [Worker.held, Worker.reservation] at hheld
    exact absurd hlt (not_lt.2 hheld)

/-- A whole run of the atomic pool from a state at rest, made by the code one call at a time. -/
theorem Reachable.implement_run (hm : ∀ k, Matched (scripts k)) {s : State n}
    {t : Atomic.State n}
    (hs : Reachable (Validator.ofFun f) (InFlightBoundedAll gpus) (State.init gpus scripts) s)
    (hq : Quiescent s) (ht : Relation.ReflTransGen (Atomic.Step f) s.abstract t) :
    ∃ s', Reachable (Validator.ofFun f) (InFlightBoundedAll gpus) s s' ∧
      Quiescent s' ∧ s'.abstract = t := by
  induction ht with
  | refl => exact ⟨s, .init hs.prop, hq, rfl⟩
  | tail _ h ih =>
    obtain ⟨s₁, h₁, hq₁, rfl⟩ := ih
    obtain ⟨s₂, h₂, hq₂, rfl⟩ := Reachable.implement hm (hs.trans h₁) hq₁ h
    exact ⟨s₂, h₁.trans h₂, hq₂, rfl⟩

/-- **The code runs every run of the atomic pool.**  For any fixed validator and any scripts in
which every worker releases exactly what it reserved: every state the atomic pool reaches by whole
calls is, seen through the abstraction, a state the code reaches with every worker between calls,
by a run within the callers' promise on every GPU in which each call runs alone to its end.  In
particular the lock-free pool grants, when calls do not overlap, every reservation the atomic pool
grants: no refusal comes from the counter but one the validator makes on the bytes held. -/
theorem atomic_runs_implemented (hm : ∀ k, Matched (scripts k)) {t : Atomic.State n}
    (ht : Relation.ReflTransGen (Atomic.Step f) (Atomic.State.init gpus scripts) t) :
    ∃ s, Reachable (Validator.ofFun f) (InFlightBoundedAll gpus) (State.init gpus scripts) s ∧
      Quiescent s ∧ s.abstract = t := by
  have h0 : ∀ i k, Worker.demand i ⟨.idle, scripts k⟩ = 0 := fun i k =>
    (Worker.demand_of_rest (.inl rfl) i).2.trans ((hm k).held_idle i)
  have hs : Reachable (Validator.ofFun f) (InFlightBoundedAll gpus) (State.init gpus scripts)
      (State.init gpus scripts) := .init fun i _ => by simp [InFlightBounded, State.init, h0]
  exact hs.implement_run hm (fun _ => .inl rfl) (State.abstract_init hm ▸ ht)

end Converse

/-- The atomic pool makes the two reserves of `pairScripts` on a 16 GiB GPU, 2000 bytes in all:
the code reaches the same state with both workers between calls. -/
theorem atomic_runs_implemented_pairs :
    ∃ t, Relation.ReflTransGen (Atomic.Step fitsSixteenGiB) (Atomic.State.init 1 pairScripts) t ∧
      t.reserved 0 = 2000 ∧
      ∃ s, Reachable sixteenGiB (InFlightBoundedAll 1) (State.init 1 pairScripts) s ∧
        Quiescent s ∧ s.abstract = t := by
  have hm : ∀ k, Matched (pairScripts k) := Fin.forall_fin_two.2 ⟨.pair _ _ .nil, .pair _ _ .nil⟩
  have t1 := Relation.ReflTransGen.single
    (Atomic.Step.reserve (f := fitsSixteenGiB) (s := Atomic.State.init 1 pairScripts) 0 1000 0
      [.releaseMemoryOnGpu 1000 0] rfl (by decide) (by decide) rfl)
  have t2 := t1.tail (Atomic.Step.reserve 1 1000 0 [.releaseMemoryOnGpu 1000 0] rfl (by decide)
    (by decide) rfl)
  exact ⟨_, t2, rfl, atomic_runs_implemented hm t2⟩

end GpuMemory
end FhevmEngine
