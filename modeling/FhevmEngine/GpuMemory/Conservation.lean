import FhevmEngine.GpuMemory.Pool
import Mathlib.Data.Fin.VecNotation

/-!
# Conservation of the reservation counter

When every worker releases exactly what it reserved, the counter of a GPU is at every moment the
sum of the bytes held on it and the bytes reservation attempts have added and not taken back:
no update is lost however the atomic operations interleave, a refused attempt leaves nothing
behind, the assert of `release_memory_on_gpu` never fires, and no `fetch_sub` wraps below zero.
This needs the callers' promise `InFlightBounded`: the amounts in flight fit in a `u64`.

The proof is an invariant over runs.  `Worker.Matching` says where a worker with a matched
script can be; `WorkerStep.added_eq` says that one atomic step moves the counter by exactly the
change in the stepping worker's own contribution; `Conserving.step` lifts that to the process.

## Main results

* `WorkerStep.added_eq` — one step moves the counter by the stepping worker's contribution.
* `conserving_of_reachable` — the invariant holds in every state of a matched, bounded run.
* `gpuMemReservation_conserved` — **the counter is the sum of held and tentative bytes**, every
  pending `fetch_sub` and every `assert!` finds the counter large enough, and the counter is zero
  when every worker is between pairs.
* `fetchAdd_exact` — under the same promise a `fetch_add` never wraps, and the total it passes to
  `check_valid_cuda_malloc` is the true one; `fetchAdd_wraps_unbounded` is a run without the
  promise in which it wraps.
* `never_panics` — with every call naming a GPU of the machine, no worker ever panics.
-/

namespace FhevmEngine
namespace GpuMemory

variable {valid : Validator} {gpus : ℕ} {n : ℕ}

/-! ### Workers with matched scripts -/

/-- Where a worker running a matched script can be, on a machine with `gpus` GPUs.  Past its
`fetch_add` (or while it holds a reservation) its GPU exists. -/
inductive Worker.Matching (gpus : ℕ) : Worker → Prop
  /-- Between pairs of calls. -/
  | between {cs : List Call} (h : Matched cs) : Worker.Matching gpus ⟨.idle, cs⟩
  /-- Its reserve returned; the matching release is its next call. -/
  | holding (amount : UInt64) (idx : ℕ) {cs : List Call} (hi : idx < gpus) (h : Matched cs) :
      Worker.Matching gpus ⟨.idle, .releaseMemoryOnGpu amount idx :: cs⟩
  /-- Before the `fetch_add` of `reserve_memory_on_gpu(amount, idx)`. -/
  | fetching (amount : UInt64) (idx : ℕ) {cs : List Call} (h : Matched cs) :
      Worker.Matching gpus ⟨.fetchAdd amount idx, .releaseMemoryOnGpu amount idx :: cs⟩
  /-- Before the check of `reserve_memory_on_gpu(amount, idx)`. -/
  | checking (amount : UInt64) (idx : ℕ) (old : UInt64) {cs : List Call} (hi : idx < gpus)
      (h : Matched cs) :
      Worker.Matching gpus ⟨.check amount idx old, .releaseMemoryOnGpu amount idx :: cs⟩
  /-- Before the rollback of `reserve_memory_on_gpu(amount, idx)`. -/
  | rollingBack (amount : UInt64) (idx : ℕ) {cs : List Call} (hi : idx < gpus) (h : Matched cs) :
      Worker.Matching gpus ⟨.rollback amount idx, .releaseMemoryOnGpu amount idx :: cs⟩
  /-- Before the `load` of `release_memory_on_gpu(amount, idx)`. -/
  | loading (amount : UInt64) (idx : ℕ) {cs : List Call} (hi : idx < gpus) (h : Matched cs) :
      Worker.Matching gpus ⟨.load amount idx, cs⟩
  /-- Before the `fetch_sub` of `release_memory_on_gpu(amount, idx)`. -/
  | subtracting (amount : UInt64) (idx : ℕ) {cs : List Call} (hi : idx < gpus) (h : Matched cs) :
      Worker.Matching gpus ⟨.sub amount idx, cs⟩
  /-- Stopped by a panic. -/
  | panicked (cs : List Call) : Worker.Matching gpus ⟨.panicked, cs⟩

/-- A worker between pairs has added nothing. -/
theorem Matched.added_idle {cs : List Call} (h : Matched cs) (i : ℕ) :
    Worker.added i ⟨.idle, cs⟩ = 0 := by
  cases h <;> rfl

theorem WorkerStep.matching {pool pool' : ℕ → UInt64} {w w' : Worker}
    (h : WorkerStep valid gpus pool w pool' w') (hm : w.Matching gpus) : w'.Matching gpus := by
  cases h with
  | call c cs =>
    cases hm with
    | between hc =>
      cases hc with
      | pair amount idx hr => exact .fetching amount idx hr
    | holding amount idx hi hc => exact .loading amount idx hi hc
  | fetchAdd amount idx _ hi => cases hm with | fetching _ _ hc => exact .checking _ _ _ hi hc
  | accept => cases hm with | checking _ _ _ hi hc => exact .holding _ _ hi hc
  | refuse => cases hm with | checking _ _ _ hi hc => exact .rollingBack _ _ hi hc
  | rollback => cases hm with | rollingBack _ _ _ hc => exact .fetching _ _ hc
  | load => cases hm with | loading _ _ hi hc => exact .subtracting _ _ hi hc
  | sub => cases hm with | subtracting _ _ _ hc => exact .between hc
  | assertFails | fetchAddOutOfRange | loadOutOfRange => exact .panicked _

/-! ### One step moves the counter by the worker's own contribution -/

/-- **No lost update, one step at a time.**  If the counter of GPU `i` covers the stepping
worker's contribution, and the new total fits in a `u64`, the step changes the counter by
exactly the change in that worker's contribution. -/
theorem WorkerStep.added_eq {pool pool' : ℕ → UInt64} {w w' : Worker} {i : ℕ}
    (h : WorkerStep valid gpus pool w pool' w') (hm : w.Matching gpus)
    (hle : w.added i ≤ (pool i).toNat) (hlt : (pool i).toNat + w'.added i < 2 ^ 64 + w.added i) :
    (pool' i).toNat + w.added i = (pool i).toNat + w'.added i := by
  cases h with
  | call c cs =>
    cases hm with
    | between hc => cases hc; rfl
    | holding => rfl
  | fetchAdd amount idx cs _ =>
    by_cases hi : idx = i
    · subst hi
      simp only [Worker.added_fetchAdd, Worker.added_check, if_true, Function.update_same] at hlt ⊢
      rw [UInt64.toNat_add_of_lt (by omega)]
      omega
    · simp [Function.update_noteq (Ne.symm hi), hi]
  | accept => cases hm with | checking => simp
  | refuse => simp
  | rollback amount idx cs =>
    by_cases hi : idx = i
    · subst hi
      simp only [Worker.added_rollback, Worker.added_fetchAdd, if_true, Function.update_same] at hle ⊢
      rw [UInt64.toNat_sub_of_le _ _ (UInt64.le_iff_toNat_le.2 (by omega))]
      omega
    · simp [Function.update_noteq (Ne.symm hi), hi]
  | load => rfl
  | assertFails amount idx cs _ hlt' =>
    by_cases hi : idx = i
    · subst hi
      simp only [Worker.added_load, if_true] at hle
      exact absurd hlt' (by rw [UInt64.lt_iff_toNat_lt]; omega)
    · simp [hi]
  | sub amount idx cs =>
    cases hm with
    | subtracting _ _ _ hc =>
      rw [hc.added_idle]
      by_cases hi : idx = i
      · subst hi
        simp only [Worker.added_sub, if_true, Function.update_same] at hle ⊢
        rw [UInt64.toNat_sub_of_le _ _ (UInt64.le_iff_toNat_le.2 (by omega))]
        omega
      · simp [Function.update_noteq (Ne.symm hi), hi]
  | fetchAddOutOfRange => rfl
  | loadOutOfRange amount idx cs hge => cases hm with | loading _ _ hi => omega

/-! ### The invariant over runs -/

/-- The invariant behind conservation on GPU `i`: every worker follows its matched script, and
the counter is the sum of what the workers have added to it. -/
structure Conserving (i : ℕ) (s : State n) : Prop where
  matching : ∀ k, (s.workers k).Matching s.gpus
  counter : (s.gpuMemReservation i).toNat = ∑ k, (s.workers k).added i

theorem Conserving.added_le {i : ℕ} {s : State n} (h : Conserving i s) (k : Fin n) :
    (s.workers k).added i ≤ (s.gpuMemReservation i).toNat :=
  h.counter ▸ le_sum_workers (Worker.added i) s.workers k

theorem Conserving.init {i : ℕ} {scripts : Fin n → List Call} (hm : ∀ k, Matched (scripts k)) :
    Conserving i (State.init gpus scripts) where
  matching k := .between (hm k)
  counter := by simp [State.init, (hm _).added_idle]

theorem Conserving.step {i : ℕ} {s s' : State n} (h : Step valid s s') (hc : Conserving i s)
    (hb : InFlightBounded i s') : Conserving i s' := by
  cases h with | @step k pool w hw =>
  have hsum := sum_update_add (Worker.added i) s.workers k w
  have hdem : ∑ j, (Function.update s.workers k w j).added i < 2 ^ 64 :=
    lt_of_le_of_lt (Finset.sum_le_sum fun j _ => Worker.added_le_demand i _) hb
  have hcount := hc.counter
  have hstep := hw.added_eq (hc.matching k) (hc.added_le k) (by omega)
  refine ⟨fun j => ?_, show (pool i).toNat = ∑ j, (Function.update s.workers k w j).added i by omega⟩
  rcases eq_or_ne j k with rfl | hj
  · simpa using hw.matching (hc.matching j)
  · simpa [Function.update_noteq hj] using hc.matching j

/-- The invariant holds in every state of a run from the start in which every script is
matched and the amounts in flight on GPU `i` fit in a `u64`. -/
theorem conserving_of_reachable {i : ℕ} {scripts : Fin n → List Call}
    (hm : ∀ k, Matched (scripts k)) {s : State n}
    (hs : Reachable valid (InFlightBounded i) (State.init gpus scripts) s) : Conserving i s := by
  induction hs with
  | init => exact .init hm
  | step _ h hb ih => exact ih.step h hb

/-- Every worker of a run from matched scripts follows its script, whatever the amounts. -/
theorem matching_of_reachable {P : State n → Prop} {scripts : Fin n → List Call}
    (hm : ∀ k, Matched (scripts k)) {s : State n}
    (hs : Reachable valid P (State.init gpus scripts) s) : ∀ k, (s.workers k).Matching s.gpus := by
  induction hs with
  | init => exact fun k => .between (hm k)
  | step _ h _ ih =>
    cases h with | @step k pool w hw =>
    intro j
    rcases eq_or_ne j k with rfl | hne
    · simpa using hw.matching (ih j)
    · simpa [Function.update_noteq hne] using ih j

/-- A worker about to load, roll back or subtract on GPU `i` has added at least its amount. -/
theorem Worker.le_added {w : Worker} {amount : UInt64} {i : ℕ}
    (h : w.pc = .load amount i ∨ w.pc = .rollback amount i ∨ w.pc = .sub amount i) :
    amount.toNat ≤ w.added i := by
  obtain ⟨pc, cs⟩ := w
  rcases h with rfl | rfl | rfl <;> simp

/-- A worker between pairs has added nothing. -/
theorem Worker.added_of_between {w : Worker} {i : ℕ} (hpc : w.pc = .idle)
    (hm : Matched w.script) : w.added i = 0 := by
  obtain ⟨pc, cs⟩ := w
  subst hpc
  exact hm.added_idle i

theorem Worker.pending_of_fetchAdd {w : Worker} {amount : UInt64} {i : ℕ}
    (hpc : w.pc = .fetchAdd amount i) : w.pending i = amount.toNat := by
  obtain ⟨pc, cs⟩ := w
  subst hpc
  simp [Worker.pending]

/-! ### Conservation -/

/-- **Conservation of the reservation counter.**  In every state of a run from the start in
which every worker releases exactly what it reserved, whatever the validator answers and however
the steps interleave, provided the amounts in flight on GPU `i` fit in a `u64`: the counter of
`i` is the bytes held on `i` plus the bytes attempts have added tentatively; a worker about to
load in `release_memory_on_gpu`, or about to `fetch_sub`, finds the counter at least its amount,
so the `assert!` holds and no subtraction wraps; and once every worker is between pairs of calls
the counter is back to its initial zero. -/
theorem gpuMemReservation_conserved {i : ℕ} {scripts : Fin n → List Call}
    (hm : ∀ k, Matched (scripts k)) {s : State n}
    (hs : Reachable valid (InFlightBounded i) (State.init gpus scripts) s) :
    (s.gpuMemReservation i).toNat = s.heldOn i + s.tentativeOn i ∧
    (∀ k amount, (s.workers k).pc = .load amount i ∨ (s.workers k).pc = .rollback amount i ∨
      (s.workers k).pc = .sub amount i → amount ≤ s.gpuMemReservation i) ∧
    ((∀ k, (s.workers k).pc = .idle ∧ Matched (s.workers k).script) →
      s.gpuMemReservation i = 0) := by
  have hc := conserving_of_reachable hm hs
  refine ⟨?_, fun k amount hk => (Worker.le_added hk).trans (hc.added_le k), fun hall => ?_⟩
  · rw [hc.counter, State.heldOn, State.tentativeOn, ← Finset.sum_add_distrib]
    rfl
  · have hzero : ∀ k, (s.workers k).added i = 0 := fun k =>
      Worker.added_of_between (hall k).1 (hall k).2
    exact UInt64.toNat.inj (by simp [hc.counter, hzero])

/-- Two workers, each reserving and releasing 1000 bytes on GPU 0. -/
def pairScripts : Fin 2 → List Call :=
  ![[.reserveMemoryOnGpu 1000 0, .releaseMemoryOnGpu 1000 0],
    [.reserveMemoryOnGpu 1000 0, .releaseMemoryOnGpu 1000 0]]

/-- `pairScripts` as its race opens: worker 0 has made its `fetch_add` and is about to check,
and worker 1 has entered its reserve. -/
def pairsOpened : State 2 :=
  ⟨1, Function.update (fun _ => 0) 0 1000,
    ![⟨.check 1000 0 0, [.releaseMemoryOnGpu 1000 0]⟩,
      ⟨.fetchAdd 1000 0, [.releaseMemoryOnGpu 1000 0]⟩]⟩

/-- The opening of the race of `pairScripts`, under any validator and within the promise. -/
theorem pairsOpened_reachable (valid : Validator) :
    Reachable valid (InFlightBoundedAll 1) (State.init 1 pairScripts) pairsOpened := by
  have h0 : Reachable valid (InFlightBoundedAll 1) (State.init 1 pairScripts) _ :=
    .init (by decide)
  have h1 := h0.tail 0 (.call (.reserveMemoryOnGpu 1000 0) [.releaseMemoryOnGpu 1000 0]) rfl
    (by decide)
  have h2 := h1.tail 0 (.fetchAdd 1000 0 [.releaseMemoryOnGpu 1000 0] (by decide)) rfl (by decide)
  have h3 := h2.tail 1 (.call (.reserveMemoryOnGpu 1000 0) [.releaseMemoryOnGpu 1000 0]) rfl
    (by decide)
  convert h3 using 1
  simp only [pairsOpened, State.mk.injEq]
  exact ⟨rfl, rfl, funext (Fin.forall_fin_two.2 ⟨rfl, rfl⟩)⟩

/-- The race of `pairScripts` run to its end: both `fetch_add`s land before either check, both
checks pass, and both releases subtract; every worker is done and the counter is back to zero. -/
theorem gpuMemReservation_conserved_pairs :
    ∃ s, (∀ k, Matched (pairScripts k)) ∧
      Reachable (fun _ _ _ => True) (InFlightBounded 0) (State.init 1 pairScripts) s ∧
      (∀ k, s.workers k = ⟨.idle, []⟩) ∧ s.gpuMemReservation 0 = 0 := by
  have hm : ∀ k, Matched (pairScripts k) := Fin.forall_fin_two.2 ⟨.pair _ _ .nil, .pair _ _ .nil⟩
  have h0 : Reachable (fun _ _ _ => True) (InFlightBounded 0) (State.init 1 pairScripts)
      pairsOpened := (pairsOpened_reachable _).mono fun _ h => h 0 (by decide)
  have h1 := h0.tail 1 (.fetchAdd 1000 0 [.releaseMemoryOnGpu 1000 0] (by decide)) rfl (by decide)
  have h2 := h1.tail 0 (.accept 1000 0 0 [.releaseMemoryOnGpu 1000 0] trivial) rfl (by decide)
  have h3 := h2.tail 1 (.accept 1000 0 1000 [.releaseMemoryOnGpu 1000 0] trivial) rfl (by decide)
  have h4 := h3.tail 0 (.call (.releaseMemoryOnGpu 1000 0) []) rfl (by decide)
  have h5 := h4.tail 0 (.load 1000 0 [] (by decide) (by decide)) rfl (by decide)
  have h6 := h5.tail 0 (.sub 1000 0 []) rfl (by decide)
  have h7 := h6.tail 1 (.call (.releaseMemoryOnGpu 1000 0) []) rfl (by decide)
  have h8 := h7.tail 1 (.load 1000 0 [] (by decide) (by decide)) rfl (by decide)
  have h9 := h8.tail 1 (.sub 1000 0 []) rfl (by decide)
  exact ⟨_, hm, h9, by decide, (gpuMemReservation_conserved hm h9).2.2
    (Fin.forall_fin_two.2 ⟨⟨rfl, .nil⟩, ⟨rfl, .nil⟩⟩)⟩

/-- Each worker's demand is its contribution plus what it is about to add. -/
theorem sum_added_add_pending_le (s : State n) (i : ℕ) (k : Fin n) :
    ∑ j, (s.workers j).added i + (s.workers k).pending i ≤ ∑ j, (s.workers j).demand i := by
  rw [show ∑ j, (s.workers j).demand i = ∑ j, (s.workers j).added i + ∑ j, (s.workers j).pending i
    from Finset.sum_add_distrib]
  exact Nat.add_le_add_left (le_sum_workers (Worker.pending i) s.workers k) _

/-- **A `fetch_add` under the callers' promise is exact.**  In every state of a matched run in
which the amounts in flight on GPU `i` fit in a `u64`, a worker about to `fetch_add amount` on
`i` reads an `old_pool_size` with `old_pool_size + amount ≤ u64::MAX`, so the addition does not
wrap, and `old_pool_size` is the true total of the bytes held and tentatively added on `i`: the
value passed to `check_valid_cuda_malloc` is that total plus `amount`. -/
theorem fetchAdd_exact {i : ℕ} {scripts : Fin n → List Call}
    (hm : ∀ k, Matched (scripts k)) {s : State n}
    (hs : Reachable valid (InFlightBounded i) (State.init gpus scripts) s) {k : Fin n}
    {amount : UInt64} (hk : (s.workers k).pc = .fetchAdd amount i) :
    (s.gpuMemReservation i).toNat + amount.toNat ≤ 2 ^ 64 - 1 ∧
    (s.gpuMemReservation i + amount).toNat = s.heldOn i + s.tentativeOn i + amount.toNat := by
  have hc := gpuMemReservation_conserved hm hs
  have hcount := (conserving_of_reachable hm hs).counter
  have hpend := Worker.pending_of_fetchAdd hk
  have hb := lt_of_le_of_lt (sum_added_add_pending_le s i k) hs.prop
  refine ⟨by omega, ?_⟩
  rw [UInt64.toNat_add_of_lt (by omega), hc.1]

/-- Worker 1 of `pairScripts` about to `fetch_add` while worker 0's 1000 bytes are tentative: it
reads `old_pool_size = 1000`, the true total. -/
theorem fetchAdd_exact_pairs :
    ∃ s, Reachable (fun _ _ _ => True) (InFlightBounded 0) (State.init 1 pairScripts) s ∧
      (s.workers 1).pc = .fetchAdd 1000 0 ∧ s.tentativeOn 0 = 1000 ∧
      (s.gpuMemReservation 0).toNat + (1000 : UInt64).toNat ≤ 2 ^ 64 - 1 ∧
      (s.gpuMemReservation 0 + 1000).toNat = s.heldOn 0 + s.tentativeOn 0 + 1000 := by
  have hm : ∀ k, Matched (pairScripts k) := Fin.forall_fin_two.2 ⟨.pair _ _ .nil, .pair _ _ .nil⟩
  have h0 : Reachable (fun _ _ _ => True) (InFlightBounded 0) (State.init 1 pairScripts)
      pairsOpened := (pairsOpened_reachable _).mono fun _ h => h 0 (by decide)
  exact ⟨_, h0, rfl, by decide, @fetchAdd_exact _ _ _ _ _ hm _ h0 1 _ rfl⟩

/-- Two matched workers on one GPU: worker 0 reserves one byte, worker 1 all of `u64::MAX`. -/
def wrapScripts : Fin 2 → List Call :=
  ![[.reserveMemoryOnGpu 1 0, .releaseMemoryOnGpu 1 0],
    [.reserveMemoryOnGpu 18446744073709551615 0, .releaseMemoryOnGpu 18446744073709551615 0]]

/-- A GPU of 16 GiB: totals up to `2 ^ 34` bytes fit. -/
def fitsSixteenGiB (size : UInt64) (_ : GpuIndex) : Bool := decide (size ≤ 17179869184)

/-- The validator of a GPU of 16 GiB. -/
def sixteenGiB : Validator := Validator.ofFun fitsSixteenGiB

/-- The validator of a 16 GiB GPU is downward closed. -/
theorem fitsSixteenGiB_down :
    ∀ m m' g, m ≤ m' → fitsSixteenGiB m' g = true → fitsSixteenGiB m g = true := by
  intro m m' g h h'
  simp only [fitsSixteenGiB, decide_eq_true_eq] at h' ⊢
  exact UInt64.le_trans h h'

/-- **Without the promise a `fetch_add` wraps.**  On one GPU of 16 GiB, worker 0 reserves one
byte, then worker 1 calls `reserve_memory_on_gpu(u64::MAX, 0)`: its `fetch_add` returns
`old_pool_size = 1`, `1 + u64::MAX` does not fit in a `u64`, and the check sees the wrapped
total `0`. -/
theorem fetchAdd_wraps_unbounded :
    ∃ s, Reachable sixteenGiB (fun _ => True) (State.init 1 wrapScripts) s ∧
      (s.workers 1).pc = .check 18446744073709551615 0 1 ∧
      2 ^ 64 - 1 < (1 : UInt64).toNat + (18446744073709551615 : UInt64).toNat ∧
      (1 : UInt64) + 18446744073709551615 = 0 := by
  have h0 : Reachable sixteenGiB (fun _ => True) (State.init 1 wrapScripts) _ := .init trivial
  have h1 := h0.tail 0 (.call (.reserveMemoryOnGpu 1 0) [.releaseMemoryOnGpu 1 0]) rfl trivial
  have h2 := h1.tail 0 (.fetchAdd 1 0 [.releaseMemoryOnGpu 1 0] (by decide)) rfl trivial
  have h3 := h2.tail 0 (.accept 1 0 0 [.releaseMemoryOnGpu 1 0] rfl) rfl trivial
  have h4 := h3.tail 1 (.call (.reserveMemoryOnGpu 18446744073709551615 0)
    [.releaseMemoryOnGpu 18446744073709551615 0]) rfl trivial
  have h5 := h4.tail 1 (.fetchAdd 18446744073709551615 0
    [.releaseMemoryOnGpu 18446744073709551615 0] (by decide)) rfl trivial
  exact ⟨_, h5, rfl, by decide, by decide⟩

/-! ### No worker panics -/

/-- The GPU a position inside a call names. -/
def Pc.idx? : Pc → Option ℕ
  | .fetchAdd _ idx | .check _ idx _ | .rollback _ idx | .load _ idx | .sub _ idx => some idx
  | .idle | .panicked => none

/-- Every GPU a worker names, in the call it is in and in the calls it has left, is below
`gpus`. -/
def Worker.InRange (gpus : ℕ) (w : Worker) : Prop :=
  (∀ idx, w.pc.idx? = some idx → idx < gpus) ∧ ∀ c ∈ w.script, c.idx < gpus

theorem WorkerStep.inRange {pool pool' : ℕ → UInt64} {w w' : Worker} {g : ℕ}
    (h : WorkerStep valid g pool w pool' w') (hw : w.InRange gpus) : w'.InRange gpus := by
  obtain ⟨hpc, hcs⟩ := hw
  cases h with
  | call c cs =>
    refine ⟨fun idx hidx => ?_, fun c' hc' => hcs c' (List.mem_cons_of_mem _ hc')⟩
    cases c <;> cases hidx <;> exact hcs _ (List.mem_cons_self _ _)
  | _ => exact ⟨fun idx hidx => hpc idx (by cases hidx <;> rfl), hcs⟩

/-- A step into the panicked state is a failed `assert!` or an index past the last GPU. -/
theorem WorkerStep.ne_panicked {pool pool' : ℕ → UInt64} {w w' : Worker}
    (h : WorkerStep valid gpus pool w pool' w') (hw : w.InRange gpus)
    (hle : ∀ amount idx, w.pc = .load amount idx → amount ≤ pool idx) : w'.pc ≠ .panicked := by
  cases h with
  | call c => cases c <;> simp [Call.entry]
  | assertFails amount idx cs _ hlt => exact absurd (hle amount idx rfl) (UInt64.not_le.2 hlt)
  | fetchAddOutOfRange amount idx cs hge => exact absurd (hw.1 idx rfl) (by omega)
  | loadOutOfRange amount idx cs hge => exact absurd (hw.1 idx rfl) (by omega)
  | _ => simp

/-- **No worker panics.**  In every state of a run from the start in which every worker releases
exactly what it reserved, every call names a GPU of the machine, and the amounts in flight on
every GPU fit in a `u64`, whatever the validator answers and however the steps interleave: no
worker has panicked.  The `assert!` of `release_memory_on_gpu` never fires, and no
`gpu_mem_reservation[idx]` is indexed past the last GPU. -/
theorem never_panics {scripts : Fin n → List Call} (hm : ∀ k, Matched (scripts k))
    (hr : ∀ k, ∀ c ∈ scripts k, c.idx < gpus) {s : State n}
    (hs : Reachable valid (InFlightBoundedAll gpus) (State.init gpus scripts) s) (k : Fin n) :
    (s.workers k).pc ≠ .panicked := by
  suffices ∀ k, (s.workers k).InRange gpus ∧ (s.workers k).pc ≠ .panicked from (this k).2
  induction hs with
  | init => exact fun k => ⟨⟨fun _ h => (by cases h), hr k⟩, by simp [State.init]⟩
  | step hs' h _ ih =>
    cases h with | @step j pool w hw =>
    rw [Reachable.gpus_eq hs'] at hw
    intro k
    rcases eq_or_ne k j with rfl | hne
    · simp only [Function.update_same]
      refine ⟨hw.inRange (ih k).1, hw.ne_panicked (ih k).1 fun amount idx hk => ?_⟩
      have hidx : idx < gpus := (ih k).1.1 idx (by rw [hk]; rfl)
      have hc := conserving_of_reachable hm (hs'.mono fun _ hb => hb idx hidx)
      exact UInt64.le_iff_toNat_le.2 ((Worker.le_added (.inl hk)).trans (hc.added_le k))
    · simpa [Function.update_noteq hne] using ih k

/-- Worker 0 of `pairScripts`, its check passed while worker 1 is in its reserve, comes to the
`load` of its release: it has not panicked, and neither has worker 1. -/
theorem never_panics_pairs :
    ∃ s, Reachable (fun _ _ _ => True) (InFlightBoundedAll 1) (State.init 1 pairScripts) s ∧
      (s.workers 0).pc = .load 1000 0 ∧ (s.workers 0).pc ≠ .panicked ∧
      (s.workers 1).pc ≠ .panicked := by
  have hm : ∀ k, Matched (pairScripts k) := Fin.forall_fin_two.2 ⟨.pair _ _ .nil, .pair _ _ .nil⟩
  have hr : ∀ k, ∀ c ∈ pairScripts k, c.idx < 1 := by decide
  have h0 := pairsOpened_reachable (fun _ _ _ => True)
  have h1 := h0.tail 0 (.accept 1000 0 0 [.releaseMemoryOnGpu 1000 0] trivial) rfl (by decide)
  have h2 := h1.tail 0 (.call (.releaseMemoryOnGpu 1000 0) []) rfl (by decide)
  exact ⟨_, h2, rfl, never_panics hm hr h2 0, never_panics hm hr h2 1⟩

end GpuMemory
end FhevmEngine
