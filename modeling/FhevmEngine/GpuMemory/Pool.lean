import FhevmEngine.Run
import Mathlib.Algebra.Order.BigOperators.Group.Finset
import Mathlib.Data.Fintype.Fin

/-!
# The GPU memory reservation pool

`gpu_memory.rs` keeps one `AtomicU64` per GPU, `gpu_mem_reservation`, holding the bytes
promised to operations about to run on that GPU.  `reserve_memory_on_gpu` adds its amount with
`fetch_add`, asks `check_valid_cuda_malloc` whether the new total fits, and on refusal takes the
amount back with `fetch_sub`, sleeps and retries; `release_memory_on_gpu` loads the counter,
asserts that it covers the amount, and subtracts it with `fetch_sub`.  No lock is taken: the
atomic operations are the only synchronisation.

The model is a transition system over the counters and a fixed number of workers.  Each atomic
operation of the two functions is one step of one worker; the local computation after an atomic
operation (the `assert!`, the sum `old_pool_size + amount`) is folded into the step that reads
its result, and the two-millisecond sleep, which touches nothing shared, into the rollback.
A worker runs a script of calls, so the callers are as arbitrary as the scripts are.

The answer of `check_valid_cuda_malloc` is a relation rather than a function: the CUDA layer asks
the device, whose free memory changes under the pool, so one size may be accepted at one time
and refused at another.  A fixed validator is the special case `Validator.ofFun`.

Arithmetic is `UInt64`, which wraps as `fetch_add`, `fetch_sub` and a release build's `+` do
(a debug build panics on the overflowing `+` instead; the results below that rule out overflow
cover both).

## Main definitions

* `Call`, `Pc`, `Worker` — calls, positions inside a call, and a worker with its script.
* `Validator` — the answers `check_valid_cuda_malloc` may give.
* `WorkerStep` — one atomic step of one worker; `Step` — one step of some worker.
* `Reachable valid P s₀` — the states of runs from `s₀` all of whose states satisfy `P`.
* `Matched` — a script that releases exactly what it reserved, pair by pair.
* `Worker.held`, `Worker.tentative`, `Worker.demand` — what a worker contributes to a counter.
* `InFlightBounded`, `InFlightBoundedAll` — the callers' promise on one GPU, and on every GPU.

## References

`coprocessor/fhevm-engine/fhevm-engine-common/src/gpu_memory.rs`, lines 8–13 and 60–83.
-/

namespace FhevmEngine
namespace GpuMemory

open Finset

/-! ### Calls and workers -/

/-- A GPU as the CUDA layer names it: `tfhe::GpuIndex`, a `u32`. -/
abbrev GpuIndex := UInt32

/-- `GpuIndex::new(idx as u32)`: the cast keeps the low 32 bits. -/
def GpuIndex.new (idx : ℕ) : GpuIndex := UInt32.ofNat idx

/-- A call a worker makes into the pool. -/
inductive Call where
  /-- `reserve_memory_on_gpu(amount, idx)`. -/
  | reserveMemoryOnGpu (amount : UInt64) (idx : ℕ)
  /-- `release_memory_on_gpu(amount, idx)`. -/
  | releaseMemoryOnGpu (amount : UInt64) (idx : ℕ)
  deriving DecidableEq, Repr

/-- Where a worker is: between calls, before one atomic operation of a call, or stopped. -/
inductive Pc where
  /-- Between calls. -/
  | idle
  /-- At the head of the retry loop of `reserve_memory_on_gpu`: `fetch_add` is next. -/
  | fetchAdd (amount : UInt64) (idx : ℕ)
  /-- `fetch_add` returned `old_pool_size`: `check_valid_cuda_malloc` is next. -/
  | check (amount : UInt64) (idx : ℕ) (oldPoolSize : UInt64)
  /-- The check refused: the rollback `fetch_sub` is next, then the sleep and the retry. -/
  | rollback (amount : UInt64) (idx : ℕ)
  /-- In `release_memory_on_gpu`: the `load` and its `assert!` are next. -/
  | load (amount : UInt64) (idx : ℕ)
  /-- The assert passed: the `fetch_sub` is next. -/
  | sub (amount : UInt64) (idx : ℕ)
  /-- The worker panicked: an index past the last GPU, or a failed assert. -/
  | panicked
  deriving DecidableEq, Repr

/-- Where a call starts. -/
def Call.entry : Call → Pc
  | .reserveMemoryOnGpu amount idx => .fetchAdd amount idx
  | .releaseMemoryOnGpu amount idx => .load amount idx

/-- The GPU a call names. -/
def Call.idx : Call → ℕ
  | .reserveMemoryOnGpu _ idx | .releaseMemoryOnGpu _ idx => idx

/-- A worker: where it is, and the calls it still has to make. -/
structure Worker where
  pc : Pc
  script : List Call
  deriving DecidableEq, Repr

/-- The answers `check_valid_cuda_malloc(size, gpu)` may give: `valid size gpu ok` holds when it
may return `ok`. -/
def Validator := UInt64 → GpuIndex → Bool → Prop

/-- The validator that always answers `f size gpu`. -/
def Validator.ofFun (f : UInt64 → GpuIndex → Bool) : Validator := fun size gpu ok => ok = f size gpu

/-! ### Steps -/

/-- One atomic step of a worker on the counters `pool`, on a machine with `gpus` GPUs.  Indexing
`gpu_mem_reservation[idx]` past the last GPU panics; the rollback and the release's `fetch_sub`
index a GPU their call has already indexed. -/
inductive WorkerStep (valid : Validator) (gpus : ℕ) (pool : ℕ → UInt64) :
    Worker → (ℕ → UInt64) → Worker → Prop
  /-- The worker enters the next call of its script. -/
  | call (c : Call) (cs : List Call) :
      WorkerStep valid gpus pool ⟨.idle, c :: cs⟩ pool ⟨c.entry, cs⟩
  /-- `let old_pool_size = gpu_mem_reservation[idx].fetch_add(amount, SeqCst)`. -/
  | fetchAdd (amount : UInt64) (idx : ℕ) (cs : List Call) (h : idx < gpus) :
      WorkerStep valid gpus pool ⟨.fetchAdd amount idx, cs⟩
        (Function.update pool idx (pool idx + amount)) ⟨.check amount idx (pool idx), cs⟩
  /-- `check_valid_cuda_malloc(old_pool_size + amount, ..)` accepts: `reserve` returns. -/
  | accept (amount : UInt64) (idx : ℕ) (old : UInt64) (cs : List Call)
      (h : valid (old + amount) (GpuIndex.new idx) true) :
      WorkerStep valid gpus pool ⟨.check amount idx old, cs⟩ pool ⟨.idle, cs⟩
  /-- The check refuses. -/
  | refuse (amount : UInt64) (idx : ℕ) (old : UInt64) (cs : List Call)
      (h : valid (old + amount) (GpuIndex.new idx) false) :
      WorkerStep valid gpus pool ⟨.check amount idx old, cs⟩ pool ⟨.rollback amount idx, cs⟩
  /-- The rollback `fetch_sub(amount, SeqCst)`, the sleep, and back to the head of the loop. -/
  | rollback (amount : UInt64) (idx : ℕ) (cs : List Call) :
      WorkerStep valid gpus pool ⟨.rollback amount idx, cs⟩
        (Function.update pool idx (pool idx - amount)) ⟨.fetchAdd amount idx, cs⟩
  /-- `let current_pool_size = ..load(SeqCst)` and `assert!(current_pool_size >= amount)` passes. -/
  | load (amount : UInt64) (idx : ℕ) (cs : List Call) (h : idx < gpus)
      (hle : amount ≤ pool idx) :
      WorkerStep valid gpus pool ⟨.load amount idx, cs⟩ pool ⟨.sub amount idx, cs⟩
  /-- The assert fails. -/
  | assertFails (amount : UInt64) (idx : ℕ) (cs : List Call) (h : idx < gpus)
      (hlt : pool idx < amount) :
      WorkerStep valid gpus pool ⟨.load amount idx, cs⟩ pool ⟨.panicked, cs⟩
  /-- The release's `fetch_sub(amount, SeqCst)`: `release` returns. -/
  | sub (amount : UInt64) (idx : ℕ) (cs : List Call) :
      WorkerStep valid gpus pool ⟨.sub amount idx, cs⟩
        (Function.update pool idx (pool idx - amount)) ⟨.idle, cs⟩
  /-- `gpu_mem_reservation[idx]` in `reserve` with `idx` past the last GPU. -/
  | fetchAddOutOfRange (amount : UInt64) (idx : ℕ) (cs : List Call)
      (h : gpus ≤ idx) :
      WorkerStep valid gpus pool ⟨.fetchAdd amount idx, cs⟩ pool ⟨.panicked, cs⟩
  /-- `gpu_mem_reservation[idx]` in `release` with `idx` past the last GPU. -/
  | loadOutOfRange (amount : UInt64) (idx : ℕ) (cs : List Call)
      (h : gpus ≤ idx) :
      WorkerStep valid gpus pool ⟨.load amount idx, cs⟩ pool ⟨.panicked, cs⟩

/-- The process: `gpus` counters (`get_number_of_gpus()` of them) and `n` workers. -/
structure State (n : ℕ) where
  gpus : ℕ
  gpuMemReservation : ℕ → UInt64
  workers : Fin n → Worker

/-- The process at start: every counter `AtomicU64::new(0)`, every worker idle before its
script. -/
def State.init {n : ℕ} (gpus : ℕ) (scripts : Fin n → List Call) : State n :=
  ⟨gpus, fun _ => 0, fun k => ⟨.idle, scripts k⟩⟩

/-- One step of the process: some worker takes one atomic step. -/
inductive Step (valid : Validator) {n : ℕ} (s : State n) : State n → Prop
  | step (k : Fin n) {pool : ℕ → UInt64} {w : Worker}
      (h : WorkerStep valid s.gpus s.gpuMemReservation (s.workers k) pool w) :
      Step valid s ⟨s.gpus, pool, Function.update s.workers k w⟩

/-- The states of the runs of the process from `s₀` all of whose states satisfy `P`. -/
abbrev Reachable (valid : Validator) {n : ℕ} (P : State n → Prop) (s₀ : State n) :
    State n → Prop :=
  FhevmEngine.Reachable (Step valid) P s₀

/-- Extend a run by a step of worker `k`, given what worker `k` is. -/
theorem Reachable.tail {valid : Validator} {n : ℕ} {P : State n → Prop} {s₀ s : State n}
    (hs : Reachable valid P s₀ s) (k : Fin n) {w : Worker} {pool : ℕ → UInt64} {w' : Worker}
    (h : WorkerStep valid s.gpus s.gpuMemReservation w pool w') (hk : s.workers k = w)
    (hP : P ⟨s.gpus, pool, Function.update s.workers k w'⟩) :
    Reachable valid P s₀ ⟨s.gpus, pool, Function.update s.workers k w'⟩ :=
  hs.step (.step k (hk ▸ h)) hP

/-- No step adds or removes a GPU. -/
theorem Reachable.gpus_eq {valid : Validator} {n : ℕ} {P : State n → Prop} {s₀ s : State n}
    (hs : Reachable valid P s₀ s) : s.gpus = s₀.gpus := by
  induction hs with
  | init => rfl
  | step _ h _ ih => cases h; exact ih

/-- A script that releases exactly what it reserved, on the same GPU, one pair at a time. -/
inductive Matched : List Call → Prop
  | nil : Matched []
  | pair (amount : UInt64) (idx : ℕ) {rest : List Call} (h : Matched rest) :
      Matched (.reserveMemoryOnGpu amount idx :: .releaseMemoryOnGpu amount idx :: rest)

/-! ### What a worker contributes to a counter -/

/-- The reservation a worker holds, as `(amount, idx)`, when its script is matched: its reserve
returned (the release is its next call), or its release has not subtracted yet. -/
def Worker.reservation : Worker → Option (UInt64 × ℕ)
  | ⟨.idle, .releaseMemoryOnGpu amount idx :: _⟩ | ⟨.load amount idx, _⟩ | ⟨.sub amount idx, _⟩ =>
      some (amount, idx)
  | _ => none

/-- The bytes of a reservation that lie on GPU `i`. -/
def onGpu (i : ℕ) : Option (UInt64 × ℕ) → ℕ
  | some (amount, idx) => if idx = i then amount.toNat else 0
  | none => 0

@[simp] theorem onGpu_none (i : ℕ) : onGpu i none = 0 := rfl

@[simp] theorem onGpu_some (i : ℕ) (amount : UInt64) (idx : ℕ) :
    onGpu i (some (amount, idx)) = if idx = i then amount.toNat else 0 := rfl

/-- The bytes a worker holds on GPU `i`. -/
def Worker.held (i : ℕ) (w : Worker) : ℕ := onGpu i w.reservation

/-- The bytes a reservation attempt has added to GPU `i` and is checking. -/
def Worker.checking (i : ℕ) : Worker → ℕ
  | ⟨.check amount idx _, _⟩ => if idx = i then amount.toNat else 0
  | _ => 0

/-- The bytes a refused attempt has added to GPU `i` and not yet taken back. -/
def Worker.rollingBack (i : ℕ) : Worker → ℕ
  | ⟨.rollback amount idx, _⟩ => if idx = i then amount.toNat else 0
  | _ => 0

/-- The bytes a reservation attempt is about to add to GPU `i`. -/
def Worker.pending (i : ℕ) : Worker → ℕ
  | ⟨.fetchAdd amount idx, _⟩ => if idx = i then amount.toNat else 0
  | _ => 0

/-- The bytes a reservation attempt has added to GPU `i` between its `fetch_add` and its
rollback or return. -/
def Worker.tentative (i : ℕ) (w : Worker) : ℕ := w.checking i + w.rollingBack i

/-- The bytes a worker has added to GPU `i` and not subtracted. -/
def Worker.added (i : ℕ) (w : Worker) : ℕ := w.held i + w.tentative i

/-- The amount of the call, or matched pair of calls, a worker is in the middle of on GPU `i`. -/
def Worker.demand (i : ℕ) (w : Worker) : ℕ := w.added i + w.pending i

theorem Worker.added_le_demand (i : ℕ) (w : Worker) : w.added i ≤ w.demand i :=
  Nat.le_add_right _ _

section Added

variable {i idx : ℕ} {amount old : UInt64} {cs : List Call}

/-! What a worker has added to GPU `i`, position by position. -/

@[simp] theorem Worker.added_fetchAdd : Worker.added i ⟨.fetchAdd amount idx, cs⟩ = 0 := rfl

@[simp] theorem Worker.added_panicked : Worker.added i ⟨.panicked, cs⟩ = 0 := rfl

@[simp] theorem Worker.added_check :
    Worker.added i ⟨.check amount idx old, cs⟩ = if idx = i then amount.toNat else 0 := by
  simp [Worker.added, Worker.held, Worker.reservation, Worker.tentative, Worker.checking,
    Worker.rollingBack]

@[simp] theorem Worker.added_rollback :
    Worker.added i ⟨.rollback amount idx, cs⟩ = if idx = i then amount.toNat else 0 := by
  simp [Worker.added, Worker.held, Worker.reservation, Worker.tentative, Worker.checking,
    Worker.rollingBack]

@[simp] theorem Worker.added_load :
    Worker.added i ⟨.load amount idx, cs⟩ = if idx = i then amount.toNat else 0 := by
  simp [Worker.added, Worker.held, Worker.reservation, Worker.tentative, Worker.checking,
    Worker.rollingBack]

@[simp] theorem Worker.added_sub :
    Worker.added i ⟨.sub amount idx, cs⟩ = if idx = i then amount.toNat else 0 := by
  simp [Worker.added, Worker.held, Worker.reservation, Worker.tentative, Worker.checking,
    Worker.rollingBack]

@[simp] theorem Worker.added_idle_release :
    Worker.added i ⟨.idle, .releaseMemoryOnGpu amount idx :: cs⟩ =
      if idx = i then amount.toNat else 0 := by
  simp [Worker.added, Worker.held, Worker.reservation, Worker.tentative, Worker.checking,
    Worker.rollingBack]

end Added

/-- Bytes held on GPU `i`, over all workers. -/
def State.heldOn {n : ℕ} (s : State n) (i : ℕ) : ℕ := ∑ k, (s.workers k).held i

/-- Bytes added tentatively to GPU `i`, over all workers. -/
def State.tentativeOn {n : ℕ} (s : State n) (i : ℕ) : ℕ := ∑ k, (s.workers k).tentative i

/-- The callers' promise behind the results on GPU `i`: the amounts of all calls in progress on
it, each reservation counted from its reserve until its release subtracts, fit in a `u64`. -/
def InFlightBounded {n : ℕ} (i : ℕ) (s : State n) : Prop := ∑ k, (s.workers k).demand i < 2 ^ 64

instance {n : ℕ} (i : ℕ) : DecidablePred (@InFlightBounded n i) :=
  fun _ => inferInstanceAs (Decidable (_ < _))

/-- The callers' promise on every GPU of a machine with `gpus` of them. -/
def InFlightBoundedAll {n : ℕ} (gpus : ℕ) (s : State n) : Prop := ∀ i < gpus, InFlightBounded i s

instance {n : ℕ} (gpus : ℕ) : DecidablePred (@InFlightBoundedAll n gpus) :=
  fun _ => inferInstanceAs (Decidable (∀ i < gpus, _))

/-! ### Sums over the workers -/

/-- Replacing one worker changes a sum over the workers by the difference of its terms. -/
theorem sum_update_add {α : Type} {n : ℕ} (f : α → ℕ) (ws : Fin n → α) (k : Fin n) (w : α) :
    ∑ j, f (Function.update ws k w j) + f (ws k) = ∑ j, f (ws j) + f w := by
  have h1 := sum_update_of_mem (mem_univ k) (fun j => f (ws j)) (f w)
  have h2 := sum_eq_add_sum_diff_singleton (mem_univ k) (fun j => f (ws j))
  simp only [← Function.apply_update (fun _ => f)] at h1
  simp only at h1 h2
  omega

/-- One term of a sum over the workers is at most the sum. -/
theorem le_sum_workers {α : Type} {n : ℕ} (f : α → ℕ) (ws : Fin n → α) (k : Fin n) :
    f (ws k) ≤ ∑ j, f (ws j) :=
  single_le_sum (fun j _ => Nat.zero_le (f (ws j))) (mem_univ k)

/-! ### `UInt64` arithmetic that does not wrap -/

theorem UInt64.le_iff_toNat_le {a b : UInt64} : a ≤ b ↔ a.toNat ≤ b.toNat := Iff.rfl

theorem UInt64.lt_iff_toNat_lt {a b : UInt64} : a < b ↔ a.toNat < b.toNat := Iff.rfl

theorem UInt64.toNat_add_of_lt {a b : UInt64} (h : a.toNat + b.toNat < 2 ^ 64) :
    (a + b).toNat = a.toNat + b.toNat := by
  show (a.toBitVec + b.toBitVec).toNat = _
  rw [BitVec.toNat_add]; exact Nat.mod_eq_of_lt h

theorem UInt64.ofNat_toNat_add (a b : UInt64) : UInt64.ofNat (a.toNat + b.toNat) = a + b := by
  apply UInt64.eq_of_toBitVec_eq
  apply BitVec.eq_of_toNat_eq
  show (BitVec.ofNat 64 _).toNat = (a.toBitVec + b.toBitVec).toNat
  rw [BitVec.toNat_ofNat, BitVec.toNat_add]; rfl

end GpuMemory
end FhevmEngine
