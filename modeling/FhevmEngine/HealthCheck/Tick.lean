import FhevmEngine.Run
import Mathlib.Data.Fin.VecNotation
import Mathlib.Algebra.Group.Nat.Basic
import Mathlib.Logic.Function.Basic

/-!
# The tick freshness check

A `Tick` of `health_check.rs` is an `Arc<RwLock<u64>>` holding a time in whole seconds since
the Unix epoch; its clones share the lock.  `Tick::update` reads the wall clock, then takes the
write lock and stores the seconds; `Tick::is_recent(seconds)` reads the wall clock, then takes
the read lock and answers `now.as_secs() - *tick < seconds`.  Both read the clock before they
take the lock.

The model is a transition system over the clock, the stored seconds and a fixed number of
workers, each running a script of calls on the shared tick.  Reading the clock is one step;
taking the lock, accessing the `u64` and releasing the lock is another, since the lock makes
that access atomic.  The clock is the environment: it moves forward by its own steps.  Reading
it gives `None` before the epoch, as `duration_since(UNIX_EPOCH)` does.  The subtraction is
`UInt64`, which wraps as a release build does (a debug build panics instead).

A clock that never goes back keeps the stored tick at most the clock (`tick_le_clock`); but
`is_recent` compares with its own reading, which an `update` may have overtaken between the two
steps, and then the subtraction underflows (`isRecent_reads_future_tick`).  `update` has the same
gap between its reading and its store: with one `update` at a time the tick never goes back
(`tick_monotone`), with two it can (`tick_goes_back_two_updaters`).

## Main definitions

* `TickCall`, `Pc`, `Worker`, `State` — calls, positions, workers and the process.
* `WorkerStep`, `Step`, `Reachable` — one step of a worker or of the clock, and runs.
* `NoOvertake` — no `update` is about to store a reading later than that of an `is_recent`
  about to read the tick.
* `OneUpdater` — at most one `update` is in progress.

## Main results

* `tick_le_clock` — the stored tick is never ahead of the clock.
* `tick_monotone` — with one `update` at a time, no step moves the tick back.
* `isRecent_reads_past_tick` — without an overtaking `update`, `is_recent` reads a tick at most
  its own reading and subtracts without wrapping.
* `isRecent_reads_future_tick` — `is_recent` can read a tick ahead of its own clock reading, and
  then reports a tick refreshed in the current second as stale.

## References

`coprocessor/fhevm-engine/fhevm-listener/src/health_check.rs`, lines 11–55 and 91–99.
-/

namespace FhevmEngine
namespace HealthCheck

/-- `IS_ALIVE_TICK_FRESHNESS`: `is_alive` asks `is_recent` with this many seconds. -/
def isAliveTickFreshness : UInt64 := 20

/-- A call on a `Tick` or one of its clones. -/
inductive TickCall where
  /-- `Tick::update`. -/
  | update
  /-- `Tick::is_recent(seconds)`. -/
  | isRecent (seconds : UInt64)
  deriving DecidableEq, Repr

/-- Where a worker is inside its call. -/
inductive Pc where
  /-- Between calls. -/
  | idle
  /-- In `update`: reading the clock is next. -/
  | update
  /-- In `update`, the clock read `now`: storing it under the write lock is next. -/
  | write (now : UInt64)
  /-- In `is_recent(seconds)`: reading the clock is next. -/
  | isRecent (seconds : UInt64)
  /-- In `is_recent(seconds)`, the clock read `now`: reading the tick under the read lock and
  comparing is next. -/
  | read (seconds now : UInt64)
  deriving DecidableEq, Repr

/-- Where a call starts. -/
def TickCall.entry : TickCall → Pc
  | .update => .update
  | .isRecent seconds => .isRecent seconds

/-- A worker: where it is, the calls it still has to make, and what its `is_recent` calls
returned, the latest first. -/
structure Worker where
  pc : Pc
  script : List TickCall
  results : List Bool
  deriving DecidableEq, Repr

/-- The process: the wall clock in whole seconds since the epoch (`none` before it), the
seconds stored in the tick, and `n` workers. -/
structure State (n : ℕ) where
  clock : Option UInt64
  tick : UInt64
  workers : Fin n → Worker

/-- `Tick::new`: the clock's seconds, or `0` when the clock is before the epoch. -/
def Tick.new (clock : Option UInt64) : UInt64 := clock.getD 0

/-- The process after `Tick::new`, every worker idle before its script. -/
def State.init {n : ℕ} (clock : Option UInt64) (scripts : Fin n → List TickCall) : State n :=
  ⟨clock, Tick.new clock, fun k => ⟨.idle, scripts k, []⟩⟩

/-- One step of a worker, given the clock and the stored tick: the worker before, the tick
after, and the worker after. -/
inductive WorkerStep (clock : Option UInt64) (tick : UInt64) : Worker → UInt64 → Worker → Prop
  /-- The worker enters the next call of its script. -/
  | call (c : TickCall) (cs : List TickCall) (rs : List Bool) :
      WorkerStep clock tick ⟨.idle, c :: cs, rs⟩ tick ⟨c.entry, cs, rs⟩
  /-- `update` reads the clock. -/
  | updateNow (now : UInt64) (cs : List TickCall) (rs : List Bool) (h : clock = some now) :
      WorkerStep clock tick ⟨.update, cs, rs⟩ tick ⟨.write now, cs, rs⟩
  /-- `update` finds the clock before the epoch and returns. -/
  | updateErr (cs : List TickCall) (rs : List Bool) (h : clock = none) :
      WorkerStep clock tick ⟨.update, cs, rs⟩ tick ⟨.idle, cs, rs⟩
  /-- `*self.0.write().await = now.as_secs()`. -/
  | write (now : UInt64) (cs : List TickCall) (rs : List Bool) :
      WorkerStep clock tick ⟨.write now, cs, rs⟩ now ⟨.idle, cs, rs⟩
  /-- `is_recent` reads the clock. -/
  | isRecentNow (seconds now : UInt64) (cs : List TickCall) (rs : List Bool)
      (h : clock = some now) :
      WorkerStep clock tick ⟨.isRecent seconds, cs, rs⟩ tick ⟨.read seconds now, cs, rs⟩
  /-- `is_recent` finds the clock before the epoch and returns `false`. -/
  | isRecentErr (seconds : UInt64) (cs : List TickCall) (rs : List Bool) (h : clock = none) :
      WorkerStep clock tick ⟨.isRecent seconds, cs, rs⟩ tick ⟨.idle, cs, false :: rs⟩
  /-- `now.as_secs() - *self.0.read().await < seconds` is returned. -/
  | read (seconds now : UInt64) (cs : List TickCall) (rs : List Bool) :
      WorkerStep clock tick ⟨.read seconds now, cs, rs⟩ tick
        ⟨.idle, cs, decide (now - tick < seconds) :: rs⟩

/-- One step of the process: a worker steps, or the clock moves forward. -/
inductive Step {n : ℕ} (s : State n) : State n → Prop
  | worker (k : Fin n) {tick : UInt64} {w : Worker}
      (h : WorkerStep s.clock s.tick (s.workers k) tick w) :
      Step s ⟨s.clock, tick, Function.update s.workers k w⟩
  | advance (t : UInt64) (h : ∀ c, s.clock = some c → c ≤ t) : Step s ⟨some t, s.tick, s.workers⟩

/-- The states of the runs from `s₀` all of whose states satisfy `P`: `P` states what a caller
of the ticks guarantees, `fun _ => True` when nothing. -/
abbrev Reachable {n : ℕ} (P : State n → Prop) (s₀ : State n) : State n → Prop :=
  FhevmEngine.Reachable (@Step n) P s₀

variable {n : ℕ} {P : State n → Prop} {s₀ s s' : State n}

/-- A run extended by a step of worker `k`, in the form concrete runs are built in. -/
theorem Reachable.tail (hs : Reachable P s₀ s) (k : Fin n) {w w' : Worker} {tick : UInt64}
    (h : WorkerStep s.clock s.tick w tick w') (hk : s.workers k = w)
    (hP : P ⟨s.clock, tick, Function.update s.workers k w'⟩) :
    Reachable P s₀ ⟨s.clock, tick, Function.update s.workers k w'⟩ :=
  .step hs (.worker k (hk ▸ h)) hP

/-- A run extended by the clock moving forward to `t`. -/
theorem Reachable.advance (hs : Reachable P s₀ s) (t : UInt64)
    (h : ∀ c, s.clock = some c → c ≤ t) (hP : P ⟨some t, s.tick, s.workers⟩) :
    Reachable P s₀ ⟨some t, s.tick, s.workers⟩ :=
  .step hs (.advance t h) hP

/-! ### What a step can do -/

section WorkerStep

variable {clock : Option UInt64} {tick tick' now seconds : UInt64} {w w' : Worker}

/-- A worker step changes the stored tick only by storing the reading its `update` made. -/
theorem WorkerStep.tick_eq (h : WorkerStep clock tick w tick' w') :
    tick' = tick ∨ w.pc = .write tick' := by
  cases h <;> simp

/-- A worker about to store `now` read it from the clock in the step before. -/
theorem WorkerStep.clock_of_write (h : WorkerStep clock tick w tick' w') (hw : w'.pc = .write now) :
    clock = some now := by
  cases h with
  | call c => cases c <;> cases hw
  | updateNow => cases hw; assumption
  | _ => cases hw

/-- A step into the store of an `update` leaves the tick alone. -/
theorem WorkerStep.tick_of_write (h : WorkerStep clock tick w tick' w') (hw : w'.pc = .write now) :
    tick' = tick := by
  cases h with
  | call c => cases c <;> cases hw
  | updateNow => rfl
  | _ => cases hw

/-- A worker about to read the tick read `now` from the clock in the step before, a step that
left the tick alone. -/
theorem WorkerStep.clock_of_read (h : WorkerStep clock tick w tick' w')
    (hw : w'.pc = .read seconds now) : clock = some now ∧ tick' = tick := by
  cases h with
  | call c => cases c <;> cases hw
  | isRecentNow => cases hw; exact ⟨by assumption, rfl⟩
  | _ => cases hw

end WorkerStep

/-- The clock never goes back, so after it moves to `t` every earlier reading is at most `t`. -/
theorem getD_le_of_advance {clock : Option UInt64} {t : UInt64}
    (h : ∀ c, clock = some c → c ≤ t) : clock.getD 0 ≤ t := by
  cases clock with
  | none => exact Nat.zero_le _
  | some c => exact h c rfl

/-! ### The tick is never ahead of the clock -/

/-- The stored tick, and every reading an `update` is about to store, are at most the clock
(taken as `0` before the epoch, where `Tick::new` stores `0` and `update` stores nothing). -/
structure Behind (s : State n) : Prop where
  tick_le : s.tick ≤ s.clock.getD 0
  write_le : ∀ k now, (s.workers k).pc = .write now → now ≤ s.clock.getD 0

theorem Behind.init (clock : Option UInt64) (scripts : Fin n → List TickCall) :
    Behind (State.init clock scripts) :=
  ⟨UInt64.le_refl _, fun _ _ h => by cases h⟩

theorem Behind.step (h : Step s s') (hb : Behind s) : Behind s' := by
  cases h with
  | worker k hw =>
    constructor
    · rcases hw.tick_eq with h | h
      · exact h ▸ hb.tick_le
      · exact hb.write_le k _ h
    · intro j now hj
      rcases eq_or_ne j k with rfl | hne
      · simp only [Function.update_same] at hj
        simp [hw.clock_of_write hj, UInt64.le_refl]
      · simp only [Function.update_noteq hne] at hj
        exact hb.write_le j now hj
  | advance t ht =>
    have hle := getD_le_of_advance ht
    exact ⟨UInt64.le_trans hb.tick_le hle, fun k now hk => UInt64.le_trans (hb.write_le k now hk) hle⟩

theorem behind_of_reachable {clock : Option UInt64} {scripts : Fin n → List TickCall}
    (hs : Reachable P (State.init clock scripts) s) : Behind s := by
  induction hs with
  | init => exact Behind.init clock scripts
  | step _ h _ ih => exact ih.step h

/-- **The stored tick is never ahead of the clock.**  For any scripts of `update` and
`is_recent` calls on clones of one tick, any interleaving, and a clock that never goes back:
whenever the clock is after the epoch, the tick is at most its reading. -/
theorem tick_le_clock {clock : Option UInt64} {scripts : Fin n → List TickCall}
    (hs : Reachable P (State.init clock scripts) s) {c : UInt64}
    (hc : s.clock = some c) : s.tick ≤ c := by
  simpa [hc] using (behind_of_reachable hs).tick_le

/-- Worker 0 runs the check of `is_alive`; worker 1 refreshes the tick. -/
def raceScripts : Fin 2 → List TickCall :=
  ![[.isRecent isAliveTickFreshness], [.update]]

/-- The refresh of `raceScripts` alone, a second after the tick was made: the clock moves to
second 101, and `update` reads it and stores it; the tick is the clock's reading. -/
theorem tick_le_clock_refresh :
    ∃ s : State 2, Reachable (fun _ => True) (State.init (some 100) raceScripts) s ∧
      s.clock = some 101 ∧ s.tick = 101 ∧ s.tick ≤ 101 := by
  have h0 : Reachable (fun _ => True) (State.init (some 100) raceScripts) _ := .init trivial
  have h1 := h0.advance 101 (fun c hc => by cases hc; decide) trivial
  have h2 := h1.tail 1 (.call .update [] []) rfl trivial
  have h3 := h2.tail 1 (.updateNow 101 [] [] rfl) rfl trivial
  have h4 := h3.tail 1 (.write 101 [] []) rfl trivial
  exact ⟨_, h4, rfl, rfl, tick_le_clock h4 rfl⟩

/-! ### With one `update` at a time the tick never goes back -/

/-- The worker is inside `update`. -/
def Worker.updating (w : Worker) : Bool :=
  match w.pc with
  | .update | .write _ => true
  | _ => false

/-- At most one `update` is in progress, as when a single task refreshes the tick. -/
def OneUpdater (s : State n) : Prop :=
  ∀ j k, (s.workers j).updating → (s.workers k).updating → j = k

instance : DecidablePred (@OneUpdater n) := fun _ => inferInstanceAs (Decidable (∀ _ _, _))

/-- Every reading an `update` is about to store is at least the stored tick. -/
def WriteAhead (s : State n) : Prop :=
  ∀ k now, (s.workers k).pc = .write now → s.tick ≤ now

theorem WriteAhead.step (h : Step s s') (hb : Behind s) (hw : WriteAhead s) (ho : OneUpdater s) :
    WriteAhead s' := by
  cases h with
  | worker k hk =>
    intro j now hj
    rcases eq_or_ne j k with rfl | hne
    · simp only [Function.update_same] at hj
      show _ ≤ now
      rw [hk.tick_of_write hj]
      simpa [hk.clock_of_write hj] using hb.tick_le
    · simp only [Function.update_noteq hne] at hj
      rcases hk.tick_eq with rfl | hkw
      · exact hw j now hj
      · exact absurd (ho j k (by simp [Worker.updating, hj]) (by simp [Worker.updating, hkw])) hne
  | advance => exact hw

theorem writeAhead_of_reachable {clock : Option UInt64} {scripts : Fin n → List TickCall}
    (hs : Reachable OneUpdater (State.init clock scripts) s) : WriteAhead s := by
  induction hs with
  | init => intro k _ h; cases h
  | step hs' h _ ih => exact ih.step h (behind_of_reachable hs') hs'.prop

/-- **With one `update` at a time the tick never goes back.**  For any scripts of `update` and
`is_recent` calls on clones of one tick and a clock that never goes back, in every run in which
at most one `update` is in progress at any time, every step leaves the stored tick or moves it
forward: an `update` stores a reading taken after the tick it replaces was stored. -/
theorem tick_monotone {clock : Option UInt64} {scripts : Fin n → List TickCall}
    (hs : Reachable OneUpdater (State.init clock scripts) s) (h : Step s s') : s.tick ≤ s'.tick := by
  cases h with
  | worker k hk =>
    rcases hk.tick_eq with rfl | hkw
    · exact UInt64.le_refl _
    · exact writeAhead_of_reachable hs k _ hkw
  | advance => exact UInt64.le_refl _

/-- The refresh of `raceScripts` after the clock moved to 101: its store moves the tick from 100
to 101. -/
theorem tick_monotone_refresh :
    ∃ s s' : State 2, Reachable OneUpdater (State.init (some 100) raceScripts) s ∧ Step s s' ∧
      s.tick = 100 ∧ s'.tick = 101 ∧ s.tick ≤ s'.tick := by
  have h0 : Reachable OneUpdater (State.init (some 100) raceScripts) _ := .init (by decide)
  have h1 := h0.advance 101 (fun c hc => by cases hc; decide) (by decide)
  have h2 := h1.tail 1 (.call .update [] []) rfl (by decide)
  have h3 := h2.tail 1 (.updateNow 101 [] [] rfl) rfl (by decide)
  refine ⟨_, _, h3, .worker 1 (.write 101 [] [] : WorkerStep _ _ _ _ _), rfl, rfl, ?_⟩
  exact tick_monotone h3 (.worker 1 (.write 101 [] [] : WorkerStep _ _ _ _ _))

/-- Two refreshing workers. -/
def twoUpdaterScripts : Fin 2 → List TickCall :=
  ![[.update], [.update]]

/-- **With two `update`s at once the tick goes back.**  Worker 0 reads the clock at 100; the
clock moves to 101; worker 1 reads 101 and stores it; then worker 0 stores its older 100. -/
theorem tick_goes_back_two_updaters :
    ∃ s s' : State 2, Reachable (fun _ => True) (State.init (some 100) twoUpdaterScripts) s ∧
      Step s s' ∧ s.tick = 101 ∧ s'.tick = 100 := by
  have h0 : Reachable (fun _ => True) (State.init (some 100) twoUpdaterScripts) _ := .init trivial
  have h1 := h0.tail 0 (.call .update [] []) rfl trivial
  have h2 := h1.tail 0 (.updateNow 100 [] [] rfl) rfl trivial
  have h3 := h2.advance 101 (fun c hc => by cases hc; decide) trivial
  have h4 := h3.tail 1 (.call .update [] []) rfl trivial
  have h5 := h4.tail 1 (.updateNow 101 [] [] rfl) rfl trivial
  have h6 := h5.tail 1 (.write 101 [] []) rfl trivial
  exact ⟨_, _, h6, .worker 0 (.write 100 [] [] : WorkerStep _ _ _ _ _), rfl, rfl⟩

/-! ### What `is_recent` reads -/

/-- Every `is_recent` about to read the tick reads one no later than its own clock reading. -/
def ReadBehind (s : State n) : Prop :=
  ∀ k seconds now, (s.workers k).pc = .read seconds now → s.tick ≤ now

/-- `w` is about to store a clock reading later than the one `v` is about to compare the tick
with. -/
def Worker.overtakes (w v : Worker) : Bool :=
  match w.pc, v.pc with
  | .write later, .read _ now => decide (now < later)
  | _, _ => false

/-- No `update` is about to store a reading later than that of an `is_recent` about to read. -/
def NoOvertake (s : State n) : Prop := ∀ j k, (s.workers j).overtakes (s.workers k) = false

instance : DecidablePred (@NoOvertake n) := fun _ => inferInstanceAs (Decidable (∀ _ _, _))

theorem ReadBehind.step (h : Step s s') (hb : Behind s) (hr : ReadBehind s)
    (ho : NoOvertake s) : ReadBehind s' := by
  cases h with
  | worker k hw =>
    intro j seconds now hj
    rcases eq_or_ne j k with rfl | hne
    · simp only [Function.update_same] at hj
      obtain ⟨hc, rfl⟩ := hw.clock_of_read hj
      simpa [hc] using hb.tick_le
    · simp only [Function.update_noteq hne] at hj
      rcases hw.tick_eq with rfl | hk
      · exact hr j seconds now hj
      · have hko := ho k j
        simp only [Worker.overtakes, hk, hj, decide_eq_false_iff_not] at hko
        exact UInt64.not_lt.1 hko
  | advance => exact hr

theorem readBehind_of_reachable {clock : Option UInt64} {scripts : Fin n → List TickCall}
    (hs : Reachable NoOvertake (State.init clock scripts) s) : ReadBehind s := by
  induction hs with
  | init => intro k _ _ h; cases h
  | step hs' h _ ih => exact ih.step h (behind_of_reachable hs') hs'.prop

/-- **Without an overtaking `update`, `is_recent` subtracts without wrapping.**  For any scripts
and a clock that never goes back, in every run in which no `update` is about to store a clock
reading later than that of an `is_recent` about to read the tick, each such `is_recent` reads a
tick at most its reading, and its `now - *tick` is the difference of the naturals. -/
theorem isRecent_reads_past_tick {clock : Option UInt64} {scripts : Fin n → List TickCall}
    (hs : Reachable NoOvertake (State.init clock scripts) s) (k : Fin n) (seconds now : UInt64)
    (hk : (s.workers k).pc = .read seconds now) :
    s.tick ≤ now ∧ (now - s.tick).toNat = now.toNat - s.tick.toNat :=
  have hle := readBehind_of_reachable hs k seconds now hk
  ⟨hle, UInt64.toNat_sub_of_le now s.tick hle⟩

/-- The refresh and the check of `raceScripts` one after the other: `update` stores second 100,
the clock moves to 101, and `is_recent` reads it, then subtracts without wrapping. -/
theorem isRecent_reads_past_tick_serial :
    ∃ s : State 2, Reachable NoOvertake (State.init (some 100) raceScripts) s ∧
      (s.workers 0).pc = .read 20 101 ∧ s.tick ≤ 101 ∧
      ((101 : UInt64) - s.tick).toNat = 101 - s.tick.toNat := by
  have h0 : Reachable NoOvertake (State.init (some 100) raceScripts) _ := .init (by decide)
  have h1 := h0.tail 1 (.call .update [] []) rfl (by decide)
  have h2 := h1.tail 1 (.updateNow 100 [] [] rfl) rfl (by decide)
  have h3 := h2.tail 1 (.write 100 [] []) rfl (by decide)
  have h4 := h3.advance 101 (fun c hc => by cases hc; decide) (by decide)
  have h5 := h4.tail 0 (.call (.isRecent 20) [] []) rfl (by decide)
  have h6 := h5.tail 0 (.isRecentNow 20 101 [] [] rfl) rfl (by decide)
  exact ⟨_, h6, rfl, isRecent_reads_past_tick h6 0 20 101 rfl⟩

/-! ### An `update` between the two steps of `is_recent` -/

/-- **`is_recent` can read a tick from its own future.**  The tick is created at second 100;
`is_recent(IS_ALIVE_TICK_FRESHNESS)` reads the clock at 100; the clock moves to 101; an `update`
reads 101 and stores it; then `is_recent` reads 101, one second after its own reading, and
`100 - 101` wraps to `2^64 - 1`: it answers `false` for a tick stored in the current second. -/
theorem isRecent_reads_future_tick :
    ∃ s s' : State 2,
      Reachable (fun _ => True) (State.init (some 100) raceScripts) s ∧
      (s.workers 0).pc = .read 20 100 ∧ s.tick = 101 ∧ ((100 : UInt64) - s.tick).toNat = 2 ^ 64 - 1 ∧
      Reachable (fun _ => True) (State.init (some 100) raceScripts) s' ∧
      (s'.workers 0).results = [false] ∧ s'.clock = some 101 ∧ s'.tick = 101 := by
  have h0 : Reachable (fun _ => True) (State.init (some 100) raceScripts) _ := .init trivial
  have h1 := h0.tail 0 (.call (.isRecent 20) [] []) rfl trivial
  have h2 := h1.tail 0 (.isRecentNow 20 100 [] [] rfl) rfl trivial
  have h3 := h2.advance 101 (fun c hc => by cases hc; decide) trivial
  have h4 := h3.tail 1 (.call .update [] []) rfl trivial
  have h5 := h4.tail 1 (.updateNow 101 [] [] rfl) rfl trivial
  have h6 := h5.tail 1 (.write 101 [] []) rfl trivial
  have h7 := h6.tail 0 (.read 20 100 [] []) rfl trivial
  exact ⟨_, _, h6, rfl, rfl, by decide, h7, rfl, rfl, rfl⟩

end HealthCheck
end FhevmEngine
