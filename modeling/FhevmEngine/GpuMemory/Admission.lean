import FhevmEngine.GpuMemory.Conservation
import Mathlib.Data.Finset.Max

/-!
# Admission control never over-commits a GPU

`reserve_memory_on_gpu` validates `old_pool_size + amount` outside any lock, on a counter the
other workers keep changing: by the time the check answers, reservations made after its
`fetch_add` may be held, and attempts made before it may have been rolled back.  Yet when the
validator is a fixed predicate, downward closed in the size, the bytes held on a GPU are at
every moment a total the validator accepts.

The argument is an invariant over ghost snapshots.  For a worker that holds a reservation on
GPU `i` or is checking one, `σ k` is the value its own `fetch_add` left in the counter; a holder
was accepted at `σ k`.  The invariant `Snapshots.stacked` says that the bytes claimed by the
workers whose snapshot is at most `σ k` sum to at most `σ k`: every claim that is older than
`k`'s was in the counter when `k` added, and a younger claim with a smaller snapshot was added
after some claims had left.  The holder with the largest snapshot then bounds the whole held
sum, and was accepted there.

## Main definitions

* `Worker.holds`, `Worker.claims`, `Worker.claimed` — holding, or holding or checking, on a GPU.
* `Snapshots f i s σ` — the ghost invariant.

## Main results

* `Snapshots.step` — one step of the process keeps the invariant, for some new snapshots.
* `Snapshots.heldOn_accepted`, `held_sum_accepted` — **the bytes held on a GPU are a total the
  validator accepts.**
* `reserve_blocks_while_refused` — while the device refuses, `reserve` never returns.
-/

namespace FhevmEngine
namespace GpuMemory

open Finset

variable {n : ℕ}

/-! ### Holding and claiming -/

/-- The worker holds a reservation on GPU `i`: its reserve returned and its release has not
subtracted yet. -/
def Worker.holds (i : ℕ) (w : Worker) : Bool :=
  match w.reservation with
  | some (_, idx) => idx == i
  | none => false

/-- The worker is checking a reservation attempt on GPU `i`. -/
def Worker.checks (i : ℕ) (w : Worker) : Bool :=
  match w.pc with
  | .check _ idx _ => idx == i
  | _ => false

/-- The worker holds a reservation on GPU `i` or is checking an attempt on it. -/
def Worker.claims (i : ℕ) (w : Worker) : Bool := w.holds i || w.checks i

/-- The bytes a worker holds or is checking on GPU `i`. -/
def Worker.claimed (i : ℕ) (w : Worker) : ℕ := w.held i + w.checking i

theorem Worker.held_eq_zero {w : Worker} {i : ℕ} (h : w.holds i = false) : w.held i = 0 := by
  unfold Worker.holds at h
  unfold Worker.held
  split at h <;> simp_all

theorem Worker.checking_eq_zero {w : Worker} {i : ℕ} (h : w.checks i = false) :
    w.checking i = 0 := by
  obtain ⟨pc, cs⟩ := w
  cases pc <;> simp_all [Worker.checks, Worker.checking]

theorem Worker.claimed_eq_zero {w : Worker} {i : ℕ} (h : w.claims i = false) :
    w.claimed i = 0 := by
  simp only [Worker.claims, Bool.or_eq_false_iff] at h
  simp [Worker.claimed, Worker.held_eq_zero h.1, Worker.checking_eq_zero h.2]

theorem Worker.claimed_le_added (i : ℕ) (w : Worker) : w.claimed i ≤ w.added i := by
  unfold Worker.claimed Worker.added Worker.tentative
  omega

/-! ### The ghost invariant -/

/-- The ghost snapshots behind admission on GPU `i` under the validator `f`: `σ k` is the value
worker `k`'s own `fetch_add` left in the counter. -/
structure Snapshots (f : UInt64 → GpuIndex → Bool) (i : ℕ) (s : State n) (σ : Fin n → ℕ) :
    Prop where
  check_eq : ∀ k amount old, (s.workers k).pc = .check amount i old →
    σ k = old.toNat + amount.toNat
  fits : ∀ k, (s.workers k).claims i → σ k < 2 ^ 64
  accepted : ∀ k, (s.workers k).holds i → f (UInt64.ofNat (σ k)) (GpuIndex.new i) = true
  stacked : ∀ k, (s.workers k).claims i →
    ∑ j, (if σ j ≤ σ k then (s.workers j).claimed i else 0) ≤ σ k

variable {f : UInt64 → GpuIndex → Bool} {i : ℕ}

/-- A worker between pairs claims nothing. -/
theorem Matched.claims_idle {cs : List Call} (h : Matched cs) (i : ℕ) :
    Worker.claims i ⟨.idle, cs⟩ = false := by
  cases h <;> rfl

theorem Snapshots.init {gpus : ℕ} {scripts : Fin n → List Call} (hm : ∀ k, Matched (scripts k)) :
    Snapshots f i (State.init gpus scripts) fun _ => 0 := by
  have hclaims : ∀ k, ((State.init gpus scripts).workers k).claims i = false :=
    fun k => (hm k).claims_idle i
  refine ⟨fun k _ _ h => ?_, fun k h => ?_, fun k h => ?_, fun k h => ?_⟩ <;>
    simp_all [State.init, Worker.claims]

/-- Replacing a worker by one that claims no more, and whose snapshot stays, keeps the
invariant. -/
theorem Snapshots.frame {s : State n} {σ : Fin n → ℕ} (hs : Snapshots f i s σ) (k : Fin n)
    (pool : ℕ → UInt64) (w : Worker)
    (hclaims : w.claims i → (s.workers k).claims i)
    (hamt : w.claimed i ≤ (s.workers k).claimed i)
    (hcheck : ∀ amount old, w.pc = .check amount i old → (s.workers k).pc = .check amount i old)
    (hholds : w.holds i → f (UInt64.ofNat (σ k)) (GpuIndex.new i) = true) :
    Snapshots f i ⟨s.gpus, pool, Function.update s.workers k w⟩ σ := by
  have hle : ∀ c, ∑ j, (if σ j ≤ c then (Function.update s.workers k w j).claimed i else 0) ≤
      ∑ j, (if σ j ≤ c then (s.workers j).claimed i else 0) := fun c =>
    Finset.sum_le_sum fun j _ => by
      rcases eq_or_ne j k with rfl | hj
      · split_ifs <;> simp [hamt]
      · simp [Function.update_noteq hj]
  refine ⟨fun j amount old h => ?_, fun j h => ?_, fun j h => ?_, fun j h => ?_⟩ <;>
    rcases eq_or_ne j k with rfl | hj
  · simp only [Function.update_same] at h
    exact hs.check_eq j amount old (hcheck amount old h)
  · simp only [Function.update_noteq hj] at h
    exact hs.check_eq j amount old h
  · simp only [Function.update_same] at h
    exact hs.fits j (hclaims h)
  · simp only [Function.update_noteq hj] at h
    exact hs.fits j h
  · simp only [Function.update_same] at h
    exact hholds h
  · simp only [Function.update_noteq hj] at h
    exact hs.accepted j h
  · simp only [Function.update_same] at h
    exact (hle _).trans (hs.stacked j (hclaims h))
  · simp only [Function.update_noteq hj] at h
    exact (hle _).trans (hs.stacked j h)

/-- `sum_update_add` for a term built from two functions updated at the same worker. -/
theorem sum_update_add₂ {α β : Type} (F : α → β → ℕ) (σ : Fin n → α) (ws : Fin n → β)
    (k : Fin n) (a : α) (w : β) :
    ∑ j, F (Function.update σ k a j) (Function.update ws k w j) + F (σ k) (ws k) =
      ∑ j, F (σ j) (ws j) + F a w := by
  simp only [Function.apply_update₂ (fun _ => F)]
  exact sum_update_add id (fun j => F (σ j) (ws j)) k (F a w)

/-- **A `fetch_add` keeps the invariant** with the new snapshot `old_pool_size + amount`: every
claim already in the counter is below it, so the claims up to it are at most it; and a claim
whose snapshot is at least it bounds it together with everything else. -/
theorem Snapshots.fetchAdd {s : State n} {σ : Fin n → ℕ} (hs : Snapshots f i s σ)
    (hc : Conserving i s) {k : Fin n} {amount : UInt64} {cs : List Call}
    (hk : s.workers k = ⟨.fetchAdd amount i, cs⟩)
    (hb : (s.gpuMemReservation i).toNat + amount.toNat < 2 ^ 64) (pool : ℕ → UInt64) :
    Snapshots f i ⟨s.gpus, pool,
        Function.update s.workers k ⟨.check amount i (s.gpuMemReservation i), cs⟩⟩
      (Function.update σ k ((s.gpuMemReservation i).toNat + amount.toNat)) := by
  set T := (s.gpuMemReservation i).toNat + amount.toNat
  have htotal : ∑ j, (s.workers j).claimed i ≤ (s.gpuMemReservation i).toNat :=
    hc.counter ▸ Finset.sum_le_sum fun j _ => Worker.claimed_le_added i _
  have hk0 : (s.workers k).claimed i = 0 := by
    rw [hk]; simp [Worker.claimed, Worker.held, Worker.reservation, Worker.checking]
  have hsum : ∀ c, ∑ j, (if Function.update σ k T j ≤ c then
        (Function.update s.workers k ⟨.check amount i (s.gpuMemReservation i), cs⟩ j).claimed i
        else 0) = ∑ j, (if σ j ≤ c then (s.workers j).claimed i else 0) +
          (if T ≤ c then amount.toNat else 0) := fun c => by
    have h := sum_update_add₂ (fun x w => if x ≤ c then w.claimed i else 0) σ s.workers k T
      ⟨.check amount i (s.gpuMemReservation i), cs⟩
    simp only [hk0, ite_self, add_zero] at h
    rw [h]; simp [Worker.claimed, Worker.held, Worker.reservation, Worker.checking]
  have hle : ∀ c, ∑ j, (if σ j ≤ c then (s.workers j).claimed i else 0) ≤
      (s.gpuMemReservation i).toNat := fun c =>
    (Finset.sum_le_sum fun j _ => by split_ifs <;> simp).trans htotal
  refine ⟨fun j a old h => ?_, fun j h => ?_, fun j h => ?_, fun j h => ?_⟩ <;>
    rcases eq_or_ne j k with rfl | hj
  · simp only [Function.update_same, Pc.check.injEq] at h ⊢
    obtain ⟨rfl, -, rfl⟩ := h
    rfl
  · simp only [Function.update_noteq hj] at h ⊢
    exact hs.check_eq j a old h
  · simpa using hb
  · simp only [Function.update_noteq hj] at h ⊢
    exact hs.fits j h
  · simp [Worker.holds, Worker.reservation] at h
  · simp only [Function.update_noteq hj] at h ⊢
    exact hs.accepted j h
  · simp only [Function.update_same, hsum, le_refl, if_true]
    exact Nat.add_le_add_right (hle T) _
  · simp only [Function.update_noteq hj] at h ⊢
    rw [hsum]
    split_ifs with hT
    · exact le_trans (Nat.add_le_add_right (hle _) _) hT
    · simpa using hs.stacked j h

theorem Worker.claims_of_check {w : Worker} {amount old : UInt64} {i : ℕ}
    (h : w.pc = .check amount i old) : w.claims i := by
  simp [Worker.claims, Worker.checks, h]

theorem Worker.claims_of_holds {w : Worker} {i : ℕ} (h : w.holds i) : w.claims i := by
  simp [Worker.claims, h]

/-- Replacing a worker by one that claims nothing on GPU `i` keeps the invariant. -/
theorem Snapshots.leave {s : State n} {σ : Fin n → ℕ} (hs : Snapshots f i s σ) (k : Fin n)
    (pool : ℕ → UInt64) {w : Worker} (hw : w.claims i = false) :
    Snapshots f i ⟨s.gpus, pool, Function.update s.workers k w⟩ σ :=
  hs.frame k pool w (by simp [hw]) (by simp [Worker.claimed_eq_zero hw])
    (fun _ _ h => absurd (Worker.claims_of_check h) (by simp [hw]))
    (fun h => absurd (Worker.claims_of_holds h) (by simp [hw]))

/-- Replacing a worker by one with the same reservation, neither of them checking on GPU `i`,
keeps the invariant. -/
theorem Snapshots.keep {s : State n} {σ : Fin n → ℕ} (hs : Snapshots f i s σ) (k : Fin n)
    (pool : ℕ → UInt64) {w : Worker} (hr : w.reservation = (s.workers k).reservation)
    (hw : w.checks i = false) (hk : (s.workers k).checks i = false) :
    Snapshots f i ⟨s.gpus, pool, Function.update s.workers k w⟩ σ :=
  hs.frame k pool w (by simp [Worker.claims, Worker.holds, hr, hw, hk])
    (by simp [Worker.claimed, Worker.held, hr, Worker.checking_eq_zero hw,
      Worker.checking_eq_zero hk])
    (fun _ _ h => absurd hw (by simp [Worker.checks, h]))
    (fun h => hs.accepted k (by simpa [Worker.holds, hr] using h))

/-- **One step keeps the invariant**, for some snapshots: a `fetch_add` on GPU `i` takes a new
snapshot, an accepted check turns a checked claim into a held one at the same snapshot, and
every other step keeps or drops a claim. -/
theorem Snapshots.step {s s' : State n} {σ : Fin n → ℕ} (h : Step (Validator.ofFun f) s s')
    (hc : Conserving i s) (hs : Snapshots f i s σ) (hb : InFlightBounded i s) :
    ∃ σ', Snapshots f i s' σ' := by
  cases h with | @step k pool w hw =>
  have hm := hc.matching k
  generalize hk : s.workers k = w₀ at hw hm
  cases hw with
  | call c cs =>
    cases c with
    | reserveMemoryOnGpu amount idx => exact ⟨σ, hs.leave k _ rfl⟩
    | releaseMemoryOnGpu amount idx => exact ⟨σ, hs.keep k _ (by rw [hk]; rfl) rfl (by rw [hk]; rfl)⟩
  | fetchAdd amount idx cs hi =>
    by_cases hidx : idx = i
    · subst hidx
      have hlt := (sum_added_add_pending_le s _ k).trans_lt hb
      rw [← hc.counter, hk] at hlt
      exact ⟨_, hs.fetchAdd hc hk (by simpa [Worker.pending] using hlt) _⟩
    · exact ⟨σ, hs.leave k _ (by simp [Worker.claims, Worker.holds, Worker.checks,
        Worker.reservation, hidx])⟩
  | accept amount idx old cs hv =>
    cases hm with | checking _ _ _ _ hrest =>
    refine ⟨σ, hs.frame k _ _ ?_ ?_ (by simp) fun h => ?_⟩
    · simp [hk, Worker.claims, Worker.holds, Worker.checks, Worker.reservation]
    · simp [hk, Worker.claimed, Worker.held, Worker.checking, Worker.reservation]
    · have hidx : idx = i := by simpa [Worker.holds, Worker.reservation] using h
      subst hidx
      rw [hs.check_eq k amount old (by rw [hk]), UInt64.ofNat_toNat_add]
      exact hv.symm
  | refuse | rollback | assertFails | fetchAddOutOfRange | loadOutOfRange =>
    exact ⟨σ, hs.leave k _ rfl⟩
  | load => exact ⟨σ, hs.keep k _ (by rw [hk]; rfl) rfl (by rw [hk]; rfl)⟩
  | sub amount idx cs =>
    cases hm with | subtracting _ _ _ hcs => exact ⟨σ, hs.leave k _ (hcs.claims_idle i)⟩

/-- Conservation and the ghost invariant hold in every state of a matched, bounded run. -/
theorem snapshots_of_reachable {gpus : ℕ} {scripts : Fin n → List Call}
    (hm : ∀ k, Matched (scripts k)) {s : State n}
    (hs : Reachable (Validator.ofFun f) (InFlightBounded i) (State.init gpus scripts) s) :
    Conserving i s ∧ ∃ σ, Snapshots f i s σ := by
  induction hs with
  | init => exact ⟨.init hm, _, .init hm⟩
  | step hs' h hb ih =>
    obtain ⟨hc, σ, hσ⟩ := ih
    exact ⟨hc.step h hb, hσ.step h hc hs'.prop⟩

/-! ### Admission -/

/-- Under the ghost invariant, once some worker holds a reservation on GPU `i`, the bytes held on
`i` are a `u64` total that a downward closed validator accepts: the holder with the largest
snapshot was accepted at a total that bounds them. -/
theorem Snapshots.heldOn_accepted (hdown : ∀ m m' g, m ≤ m' → f m' g = true → f m g = true)
    {s : State n} {σ : Fin n → ℕ}
    (hσ : Snapshots f i s σ) {k : Fin n} (hk : (s.workers k).holds i) :
    s.heldOn i < 2 ^ 64 ∧ f (UInt64.ofNat (s.heldOn i)) (GpuIndex.new i) = true := by
  obtain ⟨m, hmH, hmax⟩ := exists_max_image (univ.filter fun k => (s.workers k).holds i) σ
    ⟨k, by simpa using hk⟩
  simp only [mem_filter, mem_univ, true_and] at hmH hmax
  have hle : s.heldOn i ≤ σ m :=
    calc s.heldOn i ≤ ∑ j, (if σ j ≤ σ m then (s.workers j).claimed i else 0) :=
          sum_le_sum fun j _ => by
            by_cases hj : (s.workers j).holds i
            · simp [hmax j hj, Worker.claimed]
            · simp [Worker.held_eq_zero (by simpa using hj)]
      _ ≤ σ m := hσ.stacked m (Worker.claims_of_holds hmH)
  have hfit := hσ.fits m (Worker.claims_of_holds hmH)
  refine ⟨hle.trans_lt hfit, hdown _ _ _ ?_ (hσ.accepted m hmH)⟩
  rw [UInt64.le_iff_toNat_le, UInt64.toNat_ofNat_of_lt (hle.trans_lt hfit),
    UInt64.toNat_ofNat_of_lt hfit]
  exact hle

/-- **Admission control never over-commits a GPU.**  Let the validator be a fixed predicate `f`,
downward closed in the size.  In every state of a run from the start in which every worker
releases exactly what it reserved and the amounts in flight on GPU `i` fit in a `u64`, however
the steps interleave: if some reservation is held on `i`, the bytes held on `i` are a `u64`
total that `f` accepts. -/
theorem held_sum_accepted (hdown : ∀ m m' g, m ≤ m' → f m' g = true → f m g = true)
    {gpus : ℕ} {scripts : Fin n → List Call} (hm : ∀ k, Matched (scripts k)) {s : State n}
    (hs : Reachable (Validator.ofFun f) (InFlightBounded i) (State.init gpus scripts) s)
    (hheld : ∃ k, (s.workers k).holds i) :
    ∃ v : UInt64, v.toNat = s.heldOn i ∧ f v (GpuIndex.new i) = true := by
  obtain ⟨-, σ, hσ⟩ := snapshots_of_reachable hm hs
  obtain ⟨k, hk⟩ := hheld
  obtain ⟨hfit, hf⟩ := hσ.heldOn_accepted hdown hk
  exact ⟨_, UInt64.toNat_ofNat_of_lt hfit, hf⟩

/-- The race of the two reserves of `pairScripts` on a 16 GiB GPU: both `fetch_add`s land before
either check, the second worker's check (on 2000 bytes) passes first, then the first worker's
(on 1000 bytes); the 2000 bytes held are accepted. -/
theorem held_sum_accepted_race :
    ∃ s, Reachable sixteenGiB (InFlightBounded 0) (State.init 1 pairScripts) s ∧
      s.heldOn 0 = 2000 ∧ ∃ v : UInt64, v.toNat = s.heldOn 0 ∧ fitsSixteenGiB v (GpuIndex.new 0) = true := by
  have hm : ∀ k, Matched (pairScripts k) := Fin.forall_fin_two.2 ⟨.pair _ _ .nil, .pair _ _ .nil⟩
  have h0 : Reachable sixteenGiB (InFlightBounded 0) (State.init 1 pairScripts) pairsOpened :=
    (pairsOpened_reachable _).mono fun _ h => h 0 (by decide)
  have h1 := h0.tail 1 (.fetchAdd 1000 0 [.releaseMemoryOnGpu 1000 0] (by decide)) rfl (by decide)
  have h2 := h1.tail 1 (.accept 1000 0 1000 [.releaseMemoryOnGpu 1000 0] rfl) rfl (by decide)
  have h3 := h2.tail 0 (.accept 1000 0 0 [.releaseMemoryOnGpu 1000 0] rfl) rfl (by decide)
  exact ⟨_, h3, by decide, held_sum_accepted fitsSixteenGiB_down hm h3 ⟨0, rfl⟩⟩

/-! ### `reserve` returns only when the device accepts -/

/-- The worker is inside the loop of `reserve_memory_on_gpu`. -/
def Worker.reserving (w : Worker) : Bool :=
  match w.pc with
  | .fetchAdd .. | .check .. | .rollback .. => true
  | _ => false

/-- A panicked worker takes no more steps. -/
theorem WorkerStep.pc_ne_panicked {valid : Validator} {gpus : ℕ} {pool pool' : ℕ → UInt64}
    {w w' : Worker} (h : WorkerStep valid gpus pool w pool' w') : w.pc ≠ .panicked := by
  cases h <;> simp

/-- A worker leaves the loop of `reserve` only by a check the validator accepts, or by a panic
on an index past the last GPU. -/
theorem WorkerStep.leave_reserving {valid : Validator} {gpus : ℕ} {pool pool' : ℕ → UInt64}
    {w w' : Worker} (h : WorkerStep valid gpus pool w pool' w') (hw : w.reserving)
    (hw' : w'.reserving = false) :
    w'.pc = .panicked ∨
      ∃ amount idx old, w.pc = .check amount idx old ∧ valid (old + amount) (GpuIndex.new idx) true := by
  cases h with
  | accept amount idx old cs hv => exact .inr ⟨amount, idx, old, rfl, hv⟩
  | fetchAddOutOfRange => exact .inl rfl
  | _ => simp [Worker.reserving] at hw hw'

/-- **While the device refuses, `reserve` never returns.**  Under a validator that refuses every
size, a worker inside the loop of `reserve_memory_on_gpu` is still in it in every later state of
every run, unless it has panicked on an index past the last GPU: the loop has no timeout and no
other way out. -/
theorem reserve_blocks_while_refused {P : State n → Prop} {s₀ s : State n}
    (hs : Reachable (Validator.ofFun fun _ _ => false) P s₀ s) {k : Fin n}
    (hk : (s₀.workers k).reserving) :
    (s.workers k).reserving ∨ (s.workers k).pc = .panicked := by
  induction hs with
  | init => exact .inl hk
  | step _ h _ ih =>
    cases h with | @step j pool w hw =>
    rcases eq_or_ne k j with rfl | hne
    · simp only [Function.update_same]
      rcases ih with hr | hp
      · cases hr' : w.reserving
        · rcases hw.leave_reserving hr hr' with hp | ⟨_, _, _, _, hv⟩
          · exact .inr hp
          · exact absurd hv Bool.noConfusion
        · exact .inl rfl
      · exact absurd hp hw.pc_ne_panicked
    · simp only [Function.update_noteq hne]
      exact ih

/-- A worker of `reserve_memory_on_gpu(5, 0)` that has made its `fetch_add`, on a device that
refuses everything: its check is refused, it rolls back, and it is at the head of the loop
again, still inside `reserve`, with the counter back to zero. -/
theorem reserve_blocks_while_refused_turn :
    ∃ s, Reachable (Validator.ofFun fun _ _ => false) (fun _ => True)
        (⟨1, fun _ => 5, ![⟨.check 5 0 0, []⟩]⟩ : State 1) s ∧
      (s.workers 0).pc = .fetchAdd 5 0 ∧ s.gpuMemReservation 0 = 0 ∧
      ((s.workers 0).reserving ∨ (s.workers 0).pc = .panicked) := by
  have h0 : Reachable (Validator.ofFun fun _ _ => false) (fun _ => True)
      (⟨1, fun _ => 5, ![⟨.check 5 0 0, []⟩]⟩ : State 1) _ := .init trivial
  have h1 := h0.tail 0 (.refuse 5 0 0 [] rfl) rfl trivial
  have h2 := h1.tail 0 (.rollback 5 0 []) rfl trivial
  exact ⟨_, h2, rfl, by decide, reserve_blocks_while_refused h2 rfl⟩

end GpuMemory
end FhevmEngine
