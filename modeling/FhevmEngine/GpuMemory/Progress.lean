import FhevmEngine.GpuMemory.Refinement

/-!
# The pool can always finish

`reserve_memory_on_gpu` retries until the check accepts, with no bound on the retries, and two
reserves that race can both be refused and go round again.  No interleaving leaves the workers
stuck, though: from every state of a run within the callers' promise, when every reserve of every
script fits on the device by itself, the run can go on, still within the promise, until every
script is done (or its worker stopped by a panic) and every counter is back at zero.

The continuation has three phases, each made one worker at a time (`one_at_a_time`).  First each
worker finishes the call it is in; a worker whose check is refused rolls back and waits at the
head of the loop of `reserve` (`Reachable.settle`).  Then nothing is held or added tentatively, so
every counter is zero, and each waiting worker makes its pair of calls alone: its check sees its
own amount only (`Reachable.unpark`).  Last, with every worker between pairs of calls, the atomic
pool runs every script to its end (`Atomic.finish`), and the code makes each of its calls
(`Reachable.implement_run`).

## Main definitions

* `Worker.AtRest`, `Worker.Settled` — between pairs of calls or stopped; or else waiting at the
  head of the loop of `reserve`.
* `Atomic.Finishable` — the calls left to a worker of the atomic pool, which it can make to the
  end.

## Main results

* `one_at_a_time` — workers brought to a goal one at a time all reach it.
* `Reachable.settle`, `Reachable.unpark` — the first two phases, for one worker;
  `Reachable.settle_all`, `Reachable.unpark_all` — for all of them.
* `Atomic.finish` — the atomic pool runs every finishable worker to its end.
* `can_finish` — **from every reachable state the workers can finish every script.**

## References

`coprocessor/fhevm-engine/fhevm-engine-common/src/gpu_memory.rs`, lines 60–83.
-/

namespace FhevmEngine
namespace GpuMemory

open Finset Relation

variable {n : ℕ}

/-! ### One worker at a time -/

/-- **Workers brought to a goal one at a time all reach it.**  If from every state of `R` any one
worker can be brought to `Q` by a run into `R` that takes no other worker out of `Q`, then some run
brings every worker to `Q`. -/
theorem one_at_a_time {σ : Type} (run : σ → σ → Prop) (R : σ → Prop) (Q : Fin n → σ → Prop)
    (hrefl : ∀ s, R s → run s s) (htrans : ∀ {s₁ s₂ s₃}, run s₁ s₂ → run s₂ s₃ → run s₁ s₃)
    (hone : ∀ s k, R s → ∃ s', run s s' ∧ R s' ∧ Q k s' ∧ ∀ j ≠ k, Q j s → Q j s')
    {s : σ} (hs : R s) : ∃ s', run s s' ∧ R s' ∧ ∀ k, Q k s' := by
  suffices ∀ l : List (Fin n), ∀ s, R s → (∀ k ∉ l, Q k s) → ∃ s', run s s' ∧ R s' ∧ ∀ k, Q k s'
    from this (List.finRange n) s hs fun k hk => absurd (List.mem_finRange k) hk
  intro l
  induction l with
  | nil => exact fun s hs hq => ⟨s, hrefl s hs, hs, fun k => hq k (List.not_mem_nil k)⟩
  | cons k l ih =>
    intro s hs hq
    obtain ⟨s₁, h₁, hs₁, hk, hothers⟩ := hone s k hs
    obtain ⟨s₂, h₂, hs₂, hall⟩ := ih s₁ hs₁ fun j hj => by
      rcases eq_or_ne j k with rfl | hne
      · exact hk
      · exact hothers j hne (hq j (by simp [hne, hj]))
    exact ⟨s₂, htrans h₁ h₂, hs₂, hall⟩

/-- A run that moves worker `k` alone, to a worker that satisfies `Q`. -/
theorem Reachable.exists_update {valid : Validator} {P : State n → Prop} {s : State n}
    {k : Fin n} {pool : ℕ → UInt64} {w : Worker} {Q : Worker → Prop}
    (h : Reachable valid P s ⟨s.gpus, pool, Function.update s.workers k w⟩) (hw : Q w) :
    ∃ s', Reachable valid P s s' ∧ Q (s'.workers k) ∧ ∀ j ≠ k, s'.workers j = s.workers j :=
  ⟨_, h, by simpa using hw, fun _ hj => Function.update_noteq hj _ _⟩

/-! ### Workers at rest -/

/-- Between pairs of calls of a matched script, or stopped. -/
def Worker.AtRest (w : Worker) : Prop :=
  (w.pc = .idle ∧ Matched w.script) ∨ w.pc = .panicked

/-- At rest, or waiting at the head of the loop of `reserve`, its matching release next. -/
def Worker.Settled (w : Worker) : Prop :=
  w.AtRest ∨ ∃ amount idx rest,
    w = ⟨.fetchAdd amount idx, .releaseMemoryOnGpu amount idx :: rest⟩ ∧ Matched rest

theorem Worker.AtRest.added {w : Worker} (h : w.AtRest) (i : ℕ) : w.added i = 0 := by
  obtain ⟨pc, cs⟩ := w
  rcases h with ⟨rfl, hcs⟩ | rfl
  · exact hcs.added_idle i
  · rfl

theorem Worker.AtRest.held {w : Worker} (h : w.AtRest) (i : ℕ) : w.held i = 0 := by
  have := h.added i
  unfold Worker.added at this
  omega

/-- A settled worker has added nothing to any counter. -/
theorem Worker.Settled.added {w : Worker} (h : w.Settled) (i : ℕ) : w.added i = 0 := by
  rcases h with h | ⟨amount, idx, rest, rfl, -⟩
  · exact h.added i
  · rfl

/-- Once every worker is settled, a conserved counter is zero. -/
theorem Conserving.counter_of_settled {i : ℕ} {s : State n} (hc : Conserving i s)
    (hset : ∀ k, (s.workers k).Settled) : s.gpuMemReservation i = 0 :=
  UInt64.toNat.inj (hc.counter.trans (sum_eq_zero fun k _ => (hset k).added i))

theorem Worker.panicked_of_calls {w : Worker} (h : w.calls = none) : w.pc = .panicked := by
  obtain ⟨pc, cs⟩ := w
  cases pc <;> first | rfl | cases h

theorem UInt64.ofNat_toNat (a : UInt64) : UInt64.ofNat a.toNat = a :=
  UInt64.toNat.inj (UInt64.toNat_ofNat_of_lt a.toNat_lt_size)

theorem UInt64.zero_add (a : UInt64) : 0 + a = a := by
  rw [← UInt64.ofNat_toNat_add, show UInt64.toNat 0 = 0 from rfl, Nat.zero_add, UInt64.ofNat_toNat]

/-! ### What is left of a script -/

/-- A step keeps the calls a worker has left at the end of `l`. -/
theorem WorkerStep.calls_suffix {valid : Validator} {g : ℕ} {pool pool' : ℕ → UInt64}
    {w w' : Worker} (h : WorkerStep valid g pool w pool' w') {l : List Call}
    (hl : ∀ cs, w.calls = some cs → cs <:+ l) : ∀ cs, w'.calls = some cs → cs <:+ l := by
  cases h with
  | call c => cases c <;> exact hl
  | fetchAdd | refuse | rollback | load => exact hl
  | accept | sub =>
    exact fun _ h => Option.some.inj h ▸ (List.suffix_cons _ _).trans (hl _ rfl)
  | assertFails | fetchAddOutOfRange | loadOutOfRange => exact fun _ h => by cases h

/-- In a run from the start, the calls every worker has left are the end of its script. -/
theorem calls_suffix_of_reachable {valid : Validator} {P : State n → Prop} {gpus : ℕ}
    {scripts : Fin n → List Call} {s : State n}
    (hs : Reachable valid P (State.init gpus scripts) s) (k : Fin n) :
    ∀ cs, (s.workers k).calls = some cs → cs <:+ scripts k := by
  induction hs with
  | init => exact fun _ h => Option.some.inj h ▸ List.suffix_refl _
  | step _ h _ ih =>
    cases h with | @step j pool w hw =>
    rcases eq_or_ne k j with rfl | hne
    · simpa using hw.calls_suffix ih
    · simpa [Function.update_noteq hne] using ih

/-! ### The atomic pool finishes -/

namespace Atomic

/-- The calls left to a worker of the atomic pool, which it can make to the end: none, as it has
panicked, or a matched list each reserve of which `f` accepts on its own. -/
def Finishable (f : UInt64 → GpuIndex → Bool) (calls : Option (List Call)) : Prop :=
  calls = none ∨ ∃ cs, calls = some cs ∧ Matched cs ∧
    ∀ amount idx, Call.reserveMemoryOnGpu amount idx ∈ cs → f amount (GpuIndex.new idx) = true

/-- A pair of calls on an empty pool: the reserve, which `f` accepts on its own, then its release;
the pool is empty again, and the worker has the rest of its calls left. -/
theorem Step.pair {f : UInt64 → GpuIndex → Bool} {t : State n} {k : Fin n} {amount : UInt64}
    {idx : ℕ} {rest : List Call}
    (hk : t.calls k = some (.reserveMemoryOnGpu amount idx :: .releaseMemoryOnGpu amount idx :: rest))
    (hi : idx < t.gpus) (h0 : ∀ i, t.reserved i = 0) (hf : f amount (GpuIndex.new idx) = true) :
    ∃ t', ReflTransGen (Step f) t t' ∧ (∀ i, t'.reserved i = 0) ∧
      t'.calls = Function.update t.calls k (some rest) := by
  have hfit : t.reserved idx + amount.toNat < 2 ^ 64 := by
    have : amount.toNat < 2 ^ 64 := amount.toNat_lt_size
    have := h0 idx
    omega
  have hres := Step.reserve k amount idx _ hk hi hfit (by
    rw [h0, Nat.zero_add, UInt64.ofNat_toNat]
    exact hf)
  refine ⟨_, (ReflTransGen.single hres).tail
    (Step.release k amount idx rest (by simp) hi (by simp [h0])), fun i => ?_, by simp⟩
  rcases eq_or_ne i idx with rfl | hne
  · simp [h0]
  · simp [Function.update_noteq hne, h0]

/-- **One worker of the atomic pool runs to its end.**  On a pool with nothing reserved, a worker
with a matched list of calls, each reserve of which `f` accepts on its own, makes them all, or
panics on an index past the last GPU; after each pair the pool is empty again, and no other
worker moves. -/
theorem finish_worker {f : UInt64 → GpuIndex → Bool} {t : State n} {k : Fin n}
    {cs : List Call} (hcs : Matched cs) (hk : t.calls k = some cs) (h0 : ∀ i, t.reserved i = 0)
    (hf : ∀ amount idx, Call.reserveMemoryOnGpu amount idx ∈ cs →
      f amount (GpuIndex.new idx) = true) :
    ∃ t', ReflTransGen (Step f) t t' ∧ (∀ i, t'.reserved i = 0) ∧
      (t'.calls k = some [] ∨ t'.calls k = none) ∧ ∀ j ≠ k, t'.calls j = t.calls j := by
  induction hcs generalizing t with
  | nil => exact ⟨t, .refl, h0, .inl hk, fun _ _ => rfl⟩
  | @pair amount idx rest hrest ih =>
    by_cases hi : idx < t.gpus
    · obtain ⟨t₁, h₁, h0₁, hcalls⟩ := Step.pair hk hi h0 (hf amount idx (List.mem_cons_self _ _))
      obtain ⟨t', ht', h0', hdone, hothers⟩ := ih (by simp [hcalls]) h0₁
        fun a i h => hf a i (.tail _ (.tail _ h))
      refine ⟨t', h₁.trans ht', h0', hdone, fun j hj => ?_⟩
      rw [hothers j hj, hcalls, Function.update_noteq hj]
    · exact ⟨_, .single (.reserveOutOfRange k amount idx _ hk (not_lt.1 hi)), h0,
        .inr (Function.update_same _ _ _), fun j hj => Function.update_noteq hj _ _⟩

/-- **The atomic pool runs every finishable worker to its end**, one worker at a time, from a pool
with nothing reserved. -/
theorem finish {f : UInt64 → GpuIndex → Bool} {t : State n} (h0 : ∀ i, t.reserved i = 0)
    (hfin : ∀ k, Finishable f (t.calls k)) :
    ∃ t', ReflTransGen (Step f) t t' ∧ (∀ i, t'.reserved i = 0) ∧
      ∀ k, t'.calls k = some [] ∨ t'.calls k = none := by
  obtain ⟨t', ht', ⟨h0', -⟩, hdone⟩ := one_at_a_time (ReflTransGen (Step f))
    (fun t => (∀ i, t.reserved i = 0) ∧ ∀ k, Finishable f (t.calls k))
    (fun k t => t.calls k = some [] ∨ t.calls k = none) (fun _ _ => .refl) .trans
    (fun t k ⟨h0, hfin⟩ => by
      rcases hfin k with hnone | ⟨cs, hk, hcs, hf⟩
      · exact ⟨t, .refl, ⟨h0, hfin⟩, .inr hnone, fun _ _ h => h⟩
      obtain ⟨t', ht', h0', hdone, hothers⟩ := finish_worker hcs hk h0 hf
      refine ⟨t', ht', ⟨h0', fun j => ?_⟩, hdone, fun j hj h => by simpa only [hothers j hj] using h⟩
      rcases eq_or_ne j k with rfl | hj
      · rcases hdone with h | h
        · exact .inr ⟨[], h, .nil, fun _ _ h => absurd h (List.not_mem_nil _)⟩
        · exact .inl h
      · rw [hothers j hj]
        exact hfin j)
    ⟨h0, hfin⟩
  exact ⟨t', ht', h0', hdone⟩

end Atomic

/-- A worker at rest, whose calls left are the end of a script each reserve of which `f` accepts
on its own, is finishable. -/
theorem Worker.AtRest.finishable {f : UInt64 → GpuIndex → Bool} {w : Worker} {l : List Call}
    (h : w.AtRest) (hl : ∀ cs, w.calls = some cs → cs <:+ l)
    (hf : ∀ amount idx, Call.reserveMemoryOnGpu amount idx ∈ l →
      f amount (GpuIndex.new idx) = true) :
    Atomic.Finishable f w.calls := by
  obtain ⟨pc, cs⟩ := w
  rcases h with ⟨rfl, hcs⟩ | rfl
  · exact .inr ⟨cs, rfl, hcs, fun a i h => hf a i ((hl cs rfl).subset h)⟩
  · exact .inl rfl

/-! ### The phases of the code -/

section Progress

variable {f : UInt64 → GpuIndex → Bool} {gpus : ℕ} {scripts : Fin n → List Call}

/-- **One worker settles.**  From a state of a run within the promise, worker `k` alone finishes
the call it is in, or, when its check is refused, rolls back and waits at the head of the loop of
`reserve`.  No step it takes demands more than it did, and the conserved counter lets its
release's `load` through. -/
theorem Reachable.settle (hm : ∀ k, Matched (scripts k)) {s : State n}
    (hs : Reachable (Validator.ofFun f) (InFlightBoundedAll gpus) (State.init gpus scripts) s)
    (k : Fin n) :
    ∃ s', Reachable (Validator.ofFun f) (InFlightBoundedAll gpus) s s' ∧
      (s'.workers k).Settled ∧ ∀ j ≠ k, s'.workers j = s.workers j := by
  have hg : s.gpus = gpus := hs.gpus_eq
  have hadded : ∀ i < s.gpus, (s.workers k).added i ≤ (s.gpuMemReservation i).toNat :=
    fun i hi => (conserving_of_reachable hm (hs.mono fun _ hb => hb i (hg ▸ hi))).added_le k
  have hmk := matching_of_reachable hm hs k
  generalize hwk : s.workers k = w₀ at hadded hmk
  have hstart := hs.start hwk
  have hle : ∀ {amount : UInt64} {idx : ℕ}, idx < s.gpus → amount.toNat ≤ w₀.added idx →
      amount ≤ s.gpuMemReservation idx :=
    fun hi h => UInt64.le_iff_toNat_le.2 (h.trans (hadded _ hi))
  cases hmk with
  | between hcs => exact hstart.exists_update (.inl (.inl ⟨rfl, hcs⟩))
  | holding amount idx hi hcs =>
    have h := hstart.tail_le (.call _ _) fun i => by
      simp [Worker.demand, Worker.pending, Call.entry]
    exact (h.release_rest hi (hle hi (by simp)) hcs).exists_update (.inl (.inl ⟨rfl, hcs⟩))
  | fetching amount idx hcs => exact hstart.exists_update (.inr ⟨amount, idx, _, rfl, hcs⟩)
  | checking amount idx old hi hcs =>
    by_cases hf : f (old + amount) (GpuIndex.new idx) = true
    · have h := hstart.tail_le (.accept amount idx old _ hf.symm) fun i => by
        simp [Worker.demand, Worker.pending]
      have h' := h.tail_le (.call _ _) fun i => by
        simp [Worker.demand, Worker.pending, Call.entry]
      exact (h'.release_rest hi (hle hi (by simp)) hcs).exists_update (.inl (.inl ⟨rfl, hcs⟩))
    · have h := hstart.tail_le (.refuse amount idx old _ (Bool.eq_false_iff.2 hf).symm)
        fun i => by simp [Worker.demand, Worker.pending]
      exact (h.tail_le (.rollback amount idx _) fun i => by simp [Worker.demand, Worker.pending])
        |>.exists_update (.inr ⟨amount, idx, _, rfl, hcs⟩)
  | rollingBack amount idx hi hcs =>
    exact (hstart.tail_le (.rollback amount idx _) fun i => by
      simp [Worker.demand, Worker.pending]).exists_update (.inr ⟨amount, idx, _, rfl, hcs⟩)
  | loading amount idx hi hcs =>
    exact (hstart.release_rest hi (hle hi (by simp)) hcs).exists_update (.inl (.inl ⟨rfl, hcs⟩))
  | subtracting amount idx hi hcs =>
    exact (hstart.tail_le (.sub amount idx _) fun i => by
      simp [Worker.demand, Worker.pending, hcs.added_idle]).exists_update (.inl (.inl ⟨rfl, hcs⟩))
  | panicked cs => exact hstart.exists_update (.inl (.inr rfl))

/-- **A waiting worker makes its pair alone.**  Once every worker is settled nothing is held or
added tentatively, so every counter is zero; a worker waiting at the head of `reserve` then adds
onto zero, and its check sees its own amount only.  When `f` accepts that, the worker makes its
reserve and its release and is between pairs; on an index past the last GPU it panics. -/
theorem Reachable.unpark (hm : ∀ k, Matched (scripts k)) {s : State n}
    (hs : Reachable (Validator.ofFun f) (InFlightBoundedAll gpus) (State.init gpus scripts) s)
    (hset : ∀ k, (s.workers k).Settled) {k : Fin n} {amount : UInt64} {idx : ℕ}
    {rest : List Call}
    (hk : s.workers k = ⟨.fetchAdd amount idx, .releaseMemoryOnGpu amount idx :: rest⟩)
    (hrest : Matched rest) (hf : f amount (GpuIndex.new idx) = true) :
    ∃ s', Reachable (Validator.ofFun f) (InFlightBoundedAll gpus) s s' ∧
      (s'.workers k).AtRest ∧ ∀ j ≠ k, s'.workers j = s.workers j := by
  have hstart := hs.start hk
  by_cases hi : idx < s.gpus
  · have hg : s.gpus = gpus := hs.gpus_eq
    have hzero : s.gpuMemReservation idx = 0 :=
      (conserving_of_reachable hm (hs.mono fun _ hb => hb idx (hg ▸ hi))).counter_of_settled hset
    have hv : Validator.ofFun f (s.gpuMemReservation idx + amount) (GpuIndex.new idx) true := by
      rw [hzero, UInt64.zero_add]
      exact hf.symm
    have h₁ := hstart.tail_le (.fetchAdd amount idx _ hi) fun i => by
      simp [Worker.demand, Worker.pending]
    have h₂ := h₁.tail_le (.accept amount idx _ _ hv) fun i => by
      simp [Worker.demand, Worker.pending]
    have h₃ := h₂.tail_le (.call _ _) fun i => by simp [Worker.demand, Worker.pending, Call.entry]
    have hle : amount ≤ Function.update s.gpuMemReservation idx
        (s.gpuMemReservation idx + amount) idx := by
      rw [Function.update_same, hzero, UInt64.zero_add]
      exact UInt64.le_refl _
    exact (h₃.release_rest hi hle hrest).exists_update (.inl ⟨rfl, hrest⟩)
  · exact (hstart.tail_le (.fetchAddOutOfRange amount idx _ (not_lt.1 hi)) fun i => by
      simp [Worker.demand, Worker.pending]).exists_update (.inr rfl)

/-- Every worker settles, one at a time. -/
theorem Reachable.settle_all (hm : ∀ k, Matched (scripts k)) {s : State n}
    (hs : Reachable (Validator.ofFun f) (InFlightBoundedAll gpus) (State.init gpus scripts) s) :
    ∃ s', Reachable (Validator.ofFun f) (InFlightBoundedAll gpus) s s' ∧
      ∀ k, (s'.workers k).Settled := by
  obtain ⟨s', h, -, hset⟩ := one_at_a_time
    (Reachable (Validator.ofFun f) (InFlightBoundedAll gpus))
    (Reachable (Validator.ofFun f) (InFlightBoundedAll gpus) (State.init gpus scripts))
    (fun k s => (s.workers k).Settled) (fun _ hs => .init hs.prop) Reachable.trans
    (fun _ k hs => by
      obtain ⟨s', h, hk, hothers⟩ := hs.settle hm k
      exact ⟨s', h, hs.trans h, hk, fun j hj hq => by simpa only [hothers j hj] using hq⟩)
    hs
  exact ⟨s', h, hset⟩

/-- Once every worker is settled, every waiting worker makes its pair, one at a time.  The reserve
it waits to make is one of its script's, so `f` accepts it on its own. -/
theorem Reachable.unpark_all (hm : ∀ k, Matched (scripts k))
    (hfits : ∀ k amount idx, Call.reserveMemoryOnGpu amount idx ∈ scripts k →
      f amount (GpuIndex.new idx) = true)
    {s : State n}
    (hs : Reachable (Validator.ofFun f) (InFlightBoundedAll gpus) (State.init gpus scripts) s)
    (hset : ∀ k, (s.workers k).Settled) :
    ∃ s', Reachable (Validator.ofFun f) (InFlightBoundedAll gpus) s s' ∧
      ∀ k, (s'.workers k).AtRest := by
  obtain ⟨s', h, -, hrest⟩ := one_at_a_time
    (Reachable (Validator.ofFun f) (InFlightBoundedAll gpus))
    (fun s => Reachable (Validator.ofFun f) (InFlightBoundedAll gpus) (State.init gpus scripts) s ∧
      ∀ k, (s.workers k).Settled)
    (fun k s => (s.workers k).AtRest) (fun _ hs => .init hs.1.prop) Reachable.trans
    (fun s k ⟨hs, hset⟩ => by
      rcases hset k with hk | ⟨amount, idx, rest, hk, hrest⟩
      · exact ⟨s, .init hs.prop, ⟨hs, hset⟩, hk, fun _ _ h => h⟩
      have hmem := (calls_suffix_of_reachable hs k _ (by rw [hk]; rfl)).subset
        (List.mem_cons_self _ _)
      obtain ⟨s', h, hk', hothers⟩ := hs.unpark hm hset hk hrest (hfits k amount idx hmem)
      refine ⟨s', h, ⟨hs.trans h, fun j => ?_⟩, hk', fun j hj hq => by
        simpa only [hothers j hj] using hq⟩
      rcases eq_or_ne j k with rfl | hj
      · exact .inl hk'
      · rw [hothers j hj]
        exact hset j)
    ⟨hs, hset⟩
  exact ⟨s', h, hrest⟩

/-- **The pool can always finish.**  Let the validator be a fixed predicate `f`, and every script
matched, each of its reserves accepted by `f` on its own.  From every state of a run from the start
within the callers' promise on every GPU, however its steps interleaved and however many checks
were refused, the run can go on, within the promise, to a state in which every worker has made
every call of its script or stopped at a panic, and every counter is back at zero. -/
theorem can_finish (hm : ∀ k, Matched (scripts k))
    (hfits : ∀ k amount idx, Call.reserveMemoryOnGpu amount idx ∈ scripts k →
      f amount (GpuIndex.new idx) = true)
    {s : State n}
    (hs : Reachable (Validator.ofFun f) (InFlightBoundedAll gpus) (State.init gpus scripts) s) :
    ∃ s', Reachable (Validator.ofFun f) (InFlightBoundedAll gpus) s s' ∧
      (∀ k, s'.workers k = ⟨.idle, []⟩ ∨ (s'.workers k).pc = .panicked) ∧
      ∀ i < gpus, s'.gpuMemReservation i = 0 := by
  obtain ⟨s₁, h₁, hset⟩ := hs.settle_all hm
  obtain ⟨s₂, h₂, hrest⟩ := Reachable.unpark_all hm hfits (hs.trans h₁) hset
  have hs₂ := (hs.trans h₁).trans h₂
  -- the atomic pool finishes every script from there, and the code makes its calls
  have hq : Quiescent s₂ := fun k => (hrest k).elim (fun h => .inl h.1) .inr
  obtain ⟨t, ht, ht0, hdone⟩ := Atomic.finish (t := s₂.abstract)
    (fun i => show s₂.heldOn i = 0 from sum_eq_zero fun k _ => (hrest k).held i)
    fun k => (hrest k).finishable (calls_suffix_of_reachable hs₂ k) (hfits k)
  obtain ⟨s₃, h₃, hq₃, rfl⟩ := Reachable.implement_run hm hs₂ hq ht
  refine ⟨s₃, (h₁.trans h₂).trans h₃, fun k => ?_, fun i hi => ?_⟩
  · rcases hdone k with h | h
    · exact .inl (Worker.eq_of_calls (hq₃ k) h)
    · exact .inr (Worker.panicked_of_calls h)
  · have hc := (conserving_of_reachable hm ((hs₂.trans h₃).mono fun _ hb => hb i hi))
    exact UInt64.toNat.inj ((hc.counter_of_quiescent hq₃).trans (ht0 i))

end Progress

/-- Mid-race on a 16 GiB GPU, both `fetch_add`s of `pairScripts` made and the counter at 2000:
the two workers can still finish both scripts. -/
theorem can_finish_race :
    ∃ s, Reachable sixteenGiB (InFlightBoundedAll 1) (State.init 1 pairScripts) s ∧
      s.gpuMemReservation 0 = 2000 ∧
      ∃ s', Reachable sixteenGiB (InFlightBoundedAll 1) s s' ∧
        (∀ k, s'.workers k = ⟨.idle, []⟩ ∨ (s'.workers k).pc = .panicked) ∧
        ∀ i < 1, s'.gpuMemReservation i = 0 := by
  have hm : ∀ k, Matched (pairScripts k) := Fin.forall_fin_two.2 ⟨.pair _ _ .nil, .pair _ _ .nil⟩
  have hfits : ∀ k amount idx, Call.reserveMemoryOnGpu amount idx ∈ pairScripts k →
      fitsSixteenGiB amount (GpuIndex.new idx) = true := by
    refine Fin.forall_fin_two.2 ⟨fun amount idx h => ?_, fun amount idx h => ?_⟩ <;>
      simp [pairScripts] at h <;> obtain ⟨rfl, rfl⟩ := h <;> rfl
  have h0 := pairsOpened_reachable sixteenGiB
  have h1 := h0.tail 1 (.fetchAdd 1000 0 [.releaseMemoryOnGpu 1000 0] (by decide)) rfl (by decide)
  exact ⟨_, h1, by decide, can_finish hm hfits h1⟩

end GpuMemory
end FhevmEngine
