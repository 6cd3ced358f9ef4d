import Mathlib.Data.UInt
import Tet4120Lab.Lib.DoubleRead
import Tet4120Lab.Lib.Schedule

/-!
# xtime_l.c, StopWatch.hpp: the global timer and the stop watch

The global timer counts in 64 bits and is read and written through two registers of 32 bits, while it
runs on.  `c k` is its value at register access number `k`.

* `xTimeGetTime`: the loop that reads the upper, the lower and again the upper half;
* `getTime_spec`: it always returns, with the value at one of its accesses; in two rounds if the
  counter advances by less than `2 ^ 32` meanwhile;
* `StopWatch`, `measure`: what `PWMIsr` measures; `measure_brackets`: not less than what ran between
  the last access of `Start` and the first of `Stop`, not more than that and the calls themselves;
* `delays_return`: `sleepA9` and `usleepA9` return, and not before their number of ticks;
  `usleepA9_early`: in microseconds that may be too soon;
* `setTime_spec`: after `XTime_SetTime` the counter has counted from the given time, whatever it did
  during the call.
-/

namespace Tet4120

open DoubleRead Schedule

/-! ### The two halves -/

/-- The register at `GTIMER_COUNTER_UPPER_OFFSET`. -/
def upperHalf (v : UInt64) : UInt32 := (v >>> 32).toUInt32

/-- The register at `GTIMER_COUNTER_LOWER_OFFSET`. -/
def lowerHalf (v : UInt64) : UInt32 := v.toUInt32

/-- `(((XTime) high) << 32U) | (XTime) low`. -/
def joinHalves (high low : UInt32) : UInt64 := (high.toUInt64 <<< 32) ||| low.toUInt64

theorem upperHalf_toNat (v : UInt64) : (upperHalf v).toNat = v.toNat / 2 ^ 32 := by
  have hv := v.toNat_lt
  rw [upperHalf, UInt64.toNat_toUInt32, UInt64.toNat_shiftRight, Nat.shiftRight_eq_div_pow]
  exact Nat.mod_eq_of_lt (by show v.toNat / 2 ^ 32 < 2 ^ 32; omega)

theorem lowerHalf_toNat (v : UInt64) : (lowerHalf v).toNat = v.toNat % 2 ^ 32 :=
  UInt64.toNat_toUInt32 v

theorem joinHalves_toNat (high low : UInt32) :
    (joinHalves high low).toNat = 2 ^ 32 * high.toNat + low.toNat := by
  have hhigh := high.toNat_lt
  have hlow := low.toNat_lt
  rw [joinHalves, UInt64.toNat_or, UInt64.toNat_shiftLeft, UInt32.toNat_toUInt64,
    UInt32.toNat_toUInt64, Nat.shiftLeft_eq, Nat.two_pow_add_eq_or_of_lt hlow]
  congr 1
  rw [Nat.mod_eq_of_lt (by show high.toNat * 2 ^ 32 < 2 ^ 64; omega), Nat.mul_comm]
  rfl

/-- The halves of one value make it up. -/
theorem joinHalves_halves (v : UInt64) : joinHalves (upperHalf v) (lowerHalf v) = v := by
  apply UInt64.toNat_inj.1
  rw [joinHalves_toNat, upperHalf_toNat, lowerHalf_toNat, Nat.div_add_mod]

/-! ### XTime_GetTime -/

/-- `XTime_GetTime`, from access `k` on: the time and the number of the next access. -/
def xTimeGetTime (c : ℕ → UInt64) (fuel k : ℕ) : Option (UInt64 × ℕ) :=
  readLoop upperHalf lowerHalf joinHalves c fuel k

/-- As many rounds as the upper half has values. -/
def getTimeFuel : ℕ := 2 ^ 32

/-- The counter runs, and does not wrap around. -/
def Counts (c : ℕ → UInt64) : Prop := Monotone fun k => (c k).toNat

section

variable {c : ℕ → UInt64}

theorem Counts.upperHalf (hc : Counts c) : Monotone fun k => (upperHalf (c k)).toNat := by
  intro i j hij
  simp only [upperHalf_toNat]
  exact Nat.div_le_div_right (hc hij)

theorem toNat_injective : Function.Injective UInt32.toNat := fun _ _ h => UInt32.toNat_inj.1 h

theorem xTimeGetTime_eq_some (hc : Counts c) {fuel k k' : ℕ} {v : UInt64}
    (h : xTimeGetTime c fuel k = some (v, k')) : ∃ j, k < j ∧ j < k' ∧ v = c j := by
  obtain ⟨j, hlo, hhi, rfl⟩ := readLoop_eq_some toNat_injective hc.upperHalf h
  exact ⟨j, hlo, hhi, joinHalves_halves _⟩

/-- The upper half has `2 ^ 32` values, so it rises less often than that. -/
theorem xTimeGetTime_isSome (hc : Counts c) (k : ℕ) :
    (xTimeGetTime c getTimeFuel k).isSome = true := by
  refine readLoop_isSome (n := 2 ^ 32 - 1) toNat_injective hc.upperHalf ?_
  have := (upperHalf (c (k + 3 * (2 ^ 32 - 1) + 2))).toNat_lt
  omega

/-- **`XTime_GetTime` returns, with the value of the counter at one of its accesses, and in two
rounds if the counter advances by less than `2 ^ 32` during six accesses.** -/
theorem getTime_spec (hc : Counts c) (k : ℕ) :
    (∃ v k' j, xTimeGetTime c getTimeFuel k = some (v, k') ∧ k < j ∧ j < k' ∧ v = c j) ∧
    ((c (k + 5)).toNat < (c k).toNat + 2 ^ 32 → (xTimeGetTime c 2 k).isSome = true) := by
  constructor
  · obtain ⟨⟨v, k'⟩, hr⟩ := Option.isSome_iff_exists.1 (xTimeGetTime_isSome hc k)
    obtain ⟨j, hlo, hhi, hv⟩ := xTimeGetTime_eq_some hc hr
    exact ⟨v, k', j, hr, hlo, hhi, hv⟩
  · intro hslow
    refine readLoop_isSome (n := 1) toNat_injective hc.upperHalf ?_
    rw [upperHalf_toNat, upperHalf_toNat]
    show (c (k + 5)).toNat / 2 ^ 32 ≤ (c k).toNat / 2 ^ 32 + 1
    omega

/-- The lower half overflows between the first access and the second. -/
def carryCounter (k : ℕ) : UInt64 := if k = 0 then 0xFFFFFFFF else 0x100000000

theorem counts_carryCounter : Counts carryCounter := by
  intro i j hij
  simp only [carryCounter]
  split_ifs <;> first | decide | omega

theorem getTime_spec_carryCounter :
    ∃ v k' j, xTimeGetTime carryCounter getTimeFuel 0 = some (v, k') ∧ 0 < j ∧ j < k' ∧
      v = carryCounter j := (getTime_spec counts_carryCounter 0).1

/-! ### StopWatch -/

/-- `StopWatch`: `m_timeStart` and `m_timeStop`. -/
structure StopWatch where
  timeStart : UInt64
  timeStop : UInt64

/-- `StopWatch::Start`, from access `k` on. -/
def StopWatch.start (w : StopWatch) (c : ℕ → UInt64) (k : ℕ) : Option (StopWatch × ℕ) :=
  (xTimeGetTime c getTimeFuel k).map fun r => ({ w with timeStart := r.1 }, r.2)

/-- `StopWatch::Stop`. -/
def StopWatch.stop (w : StopWatch) (c : ℕ → UInt64) (k : ℕ) : Option (StopWatch × ℕ) :=
  (xTimeGetTime c getTimeFuel k).map fun r => ({ w with timeStop := r.1 }, r.2)

/-- `StopWatch::Elapsed`. -/
def StopWatch.elapsed (w : StopWatch) : UInt32 := (w.timeStop - w.timeStart).toUInt32

/-- `StopWatch::ElpasedNow`. -/
def StopWatch.elpasedNow (w : StopWatch) (c : ℕ → UInt64) (k : ℕ) : Option (UInt32 × ℕ) :=
  (xTimeGetTime c getTimeFuel k).map fun r => ((r.1 - w.timeStart).toUInt32, r.2)

/-- `ElpasedNow` answers what `Stop` and `Elapsed` would. -/
theorem StopWatch.elpasedNow_eq (w : StopWatch) (c : ℕ → UInt64) (k : ℕ) :
    w.elpasedNow c k = (w.stop c k).map fun r => (r.1.elapsed, r.2) := by
  rw [elpasedNow, stop, Option.map_map]
  rfl

/-- A measurement of the stop watch: the numbers of the first access of `Start`, of the access after its
last one, of the first access of `Stop` and of the access after its last one, and `dt`.  The measured
code runs from access `bodyStart - 1` to access `bodyStop`. -/
structure Measurement where
  first : ℕ
  bodyStart : ℕ
  bodyStop : ℕ
  next : ℕ
  dt : UInt32

/-- `sw.Start(); body; sw.Stop(); dt = sw.Elapsed();` where the body takes `body` accesses. -/
def measure (w : StopWatch) (c : ℕ → UInt64) (body k : ℕ) : Option Measurement :=
  (w.start c k).bind fun r =>
    (r.1.stop c (r.2 + body)).map fun r' => ⟨k, r.2, r.2 + body, r'.2, r'.1.elapsed⟩

theorem sub_toUInt32_toNat {v w : UInt64} (h : v.toNat ≤ w.toNat) :
    (w - v).toUInt32.toNat = (w.toNat - v.toNat) % 2 ^ 32 := by
  rw [UInt64.toNat_toUInt32, UInt64.toNat_sub_of_le _ _ (UInt64.le_iff_toNat_le.2 h)]

/-- **The stop watch measures at least the body and at most the body and the two calls**, if that
takes less than `2 ^ 32` ticks; else the measured time is taken modulo `2 ^ 32`. -/
theorem measure_brackets (hc : Counts c) (w : StopWatch) (body k : ℕ) :
    ∃ m, measure w c body k = some m ∧ m.first = k ∧ m.first < m.bodyStart ∧
      m.bodyStop = m.bodyStart + body ∧
      (∃ t, (c m.bodyStop).toNat - (c (m.bodyStart - 1)).toNat ≤ t ∧
        t ≤ (c (m.next - 1)).toNat - (c m.first).toNat ∧ m.dt.toNat = t % 2 ^ 32) := by
  obtain ⟨⟨v, k₁⟩, hv⟩ := Option.isSome_iff_exists.1 (xTimeGetTime_isSome hc k)
  obtain ⟨⟨v', k₂⟩, hv'⟩ := Option.isSome_iff_exists.1 (xTimeGetTime_isSome hc (k₁ + body))
  obtain ⟨i, hi, hi', rfl⟩ := xTimeGetTime_eq_some hc hv
  obtain ⟨j, hj, hj', rfl⟩ := xTimeGetTime_eq_some hc hv'
  have hstart : (c k).toNat ≤ (c i).toNat := hc hi.le
  have hbefore : (c i).toNat ≤ (c (k₁ - 1)).toNat := hc (Nat.le_sub_one_of_lt hi')
  have hbody : (c (k₁ - 1)).toNat ≤ (c (k₁ + body)).toNat := hc (by omega)
  have hafter : (c (k₁ + body)).toNat ≤ (c j).toNat := hc hj.le
  have hend : (c j).toNat ≤ (c (k₂ - 1)).toNat := hc (Nat.le_sub_one_of_lt hj')
  refine ⟨⟨k, k₁, k₁ + body, k₂, (c j - c i).toUInt32⟩, ?_, rfl, hi.trans hi', rfl,
    (c j).toNat - (c i).toNat, ?_, ?_, sub_toUInt32_toNat (by omega)⟩
  · simp only [measure, StopWatch.start, StopWatch.stop, hv, hv', Option.map_some, Option.bind_some,
      StopWatch.elapsed]
  · simp only
    omega
  · simp only
    omega

theorem measure_brackets_carryCounter :
    ∃ m, measure ⟨0, 0⟩ carryCounter 5 0 = some m ∧ m.bodyStop = m.bodyStart + 5 := by
  obtain ⟨m, hm, -, -, hbody, -⟩ := measure_brackets counts_carryCounter ⟨0, 0⟩ 5 0
  exact ⟨m, hm, hbody⟩

/-! ### sleep_A9 and usleep_A9 -/

/-- `do { XTime_GetTime(&tCur); } while (tCur < tEnd)`: the number of the next access. -/
def waitUntil (c : ℕ → UInt64) (tEnd : UInt64) : ℕ → ℕ → Option ℕ
  | 0, _ => none
  | fuel + 1, k =>
      (xTimeGetTime c getTimeFuel k).bind fun r =>
        if r.1 < tEnd then waitUntil c tEnd fuel r.2 else some r.2

/-- Read the time and wait until `n * counts` ticks later. -/
def delay (counts : UInt64) (c : ℕ → UInt64) (n : UInt32) (fuel k : ℕ) : Option ℕ :=
  (xTimeGetTime c getTimeFuel k).bind fun r => waitUntil c (r.1 + n.toUInt64 * counts) fuel r.2

/-- `XPAR_CPU_CORTEXA9_CORE_CLOCK_FREQ_HZ`. -/
def coreClockFreqHz : ℕ := 666666687

/-- `COUNTS_PER_SECOND`. -/
def countsPerSecond : UInt64 := UInt64.ofNat (coreClockFreqHz / 2)

/-- `COUNTS_PER_USECOND`. -/
def countsPerUsecond : UInt64 := UInt64.ofNat (coreClockFreqHz / (2 * 1000000))

/-- `sleep_A9(seconds)`. -/
def sleepA9 (c : ℕ → UInt64) (seconds : UInt32) (fuel k : ℕ) : Option ℕ :=
  delay countsPerSecond c seconds fuel k

/-- `usleep_A9(useconds)`. -/
def usleepA9 (c : ℕ → UInt64) (useconds : UInt32) (fuel k : ℕ) : Option ℕ :=
  delay countsPerUsecond c useconds fuel k

/-- When the wait returns, a call read the end time or later. -/
theorem waitUntil_eq_some (hc : Counts c) {tEnd : UInt64} {fuel k k' : ℕ}
    (h : waitUntil c tEnd fuel k = some k') : ∃ j, k < j ∧ j < k' ∧ tEnd.toNat ≤ (c j).toNat := by
  induction fuel generalizing k with
  | zero => cases h
  | succ fuel ih =>
    obtain ⟨⟨v, k₁⟩, hv, h⟩ := Option.bind_eq_some_iff.1 h
    obtain ⟨j, hlo, hhi, rfl⟩ := xTimeGetTime_eq_some hc hv
    split_ifs at h with hlt
    · obtain ⟨j', hlo', hhi', hend⟩ := ih h
      exact ⟨j', by omega, hhi', hend⟩
    · cases h
      exact ⟨j, hlo, hhi, Nat.le_of_not_lt fun hlt' => hlt (UInt64.lt_iff_toNat_lt.2 hlt')⟩

/-- If the counter reaches the end time the wait returns. -/
theorem waitUntil_returns (hc : Counts c) {tEnd : UInt64} {m : ℕ} (hm : tEnd.toNat ≤ (c m).toNat)
    {fuel k : ℕ} (hfuel : m < k + fuel) : ∃ k', waitUntil c tEnd (fuel + 1) k = some k' := by
  induction fuel generalizing k with
  | zero =>
    obtain ⟨⟨v, k₁⟩, hv⟩ := Option.isSome_iff_exists.1 (xTimeGetTime_isSome hc k)
    obtain ⟨j, hlo, hhi, rfl⟩ := xTimeGetTime_eq_some hc hv
    have hreach : (c m).toNat ≤ (c j).toNat := hc (by omega)
    refine ⟨k₁, ?_⟩
    rw [waitUntil, hv, Option.bind_some, if_neg]
    rw [UInt64.lt_iff_toNat_lt]
    exact Nat.not_lt.2 (hm.trans hreach)
  | succ fuel ih =>
    obtain ⟨⟨v, k₁⟩, hv⟩ := Option.isSome_iff_exists.1 (xTimeGetTime_isSome hc k)
    obtain ⟨j, hlo, hhi, rfl⟩ := xTimeGetTime_eq_some hc hv
    rw [waitUntil, hv, Option.bind_some]
    split_ifs
    · exact ih (by omega)
    · exact ⟨k₁, rfl⟩

theorem endTime_toNat {v counts : UInt64} {n : UInt32} (h : v.toNat + n.toNat * counts.toNat < 2 ^ 64) :
    (v + n.toUInt64 * counts).toNat = v.toNat + n.toNat * counts.toNat := by
  have hn := n.toNat_lt
  have hmul : n.toNat * counts.toNat < 2 ^ 64 := by omega
  rw [UInt64.toNat_add, UInt64.toNat_mul, UInt32.toNat_toUInt64, Nat.mod_eq_of_lt hmul,
    Nat.mod_eq_of_lt h]

/-- A delay returns, and not before `n * counts` ticks, if the counter comes that far. -/
theorem delay_returns (hc : Counts c) {counts : UInt64} {n : UInt32} {k k₁ m : ℕ} {v : UInt64}
    (hv : xTimeGetTime c getTimeFuel k = some (v, k₁))
    (hm : v.toNat + n.toNat * counts.toNat ≤ (c m).toNat) :
    ∃ fuel k', delay counts c n fuel k = some k' ∧
      n.toNat * counts.toNat ≤ (c k').toNat - (c k).toNat := by
  have hend := endTime_toNat (hm.trans_lt (c m).toNat_lt)
  obtain ⟨k', hk'⟩ := waitUntil_returns hc (hend ▸ hm) (show m < k₁ + (m + 1) by omega)
  refine ⟨m + 2, k', by rw [delay, hv, Option.bind_some]; exact hk', ?_⟩
  obtain ⟨j, hlo, hhi, hread⟩ := waitUntil_eq_some hc hk'
  obtain ⟨i, hi, hi', rfl⟩ := xTimeGetTime_eq_some hc hv
  have hfirst : (c k).toNat ≤ (c i).toNat := hc hi.le
  have hlast : (c j).toNat ≤ (c k').toNat := hc hhi.le
  omega

/-- **`sleep_A9` and `usleep_A9` return, and not before their number of ticks**, if the counter comes
that far without wrapping around. -/
theorem delays_return (hc : Counts c) {n : UInt32} {k k₁ : ℕ} {v : UInt64}
    (hv : xTimeGetTime c getTimeFuel k = some (v, k₁)) :
    (∀ m, v.toNat + n.toNat * countsPerSecond.toNat ≤ (c m).toNat →
      ∃ fuel k', sleepA9 c n fuel k = some k' ∧
        n.toNat * countsPerSecond.toNat ≤ (c k').toNat - (c k).toNat) ∧
    ∀ m, v.toNat + n.toNat * countsPerUsecond.toNat ≤ (c m).toNat →
      ∃ fuel k', usleepA9 c n fuel k = some k' ∧
        n.toNat * countsPerUsecond.toNat ≤ (c k').toNat - (c k).toNat :=
  ⟨fun _ hm => delay_returns hc hv hm, fun _ hm => delay_returns hc hv hm⟩

/-- A counter that stands still during three accesses. -/
theorem xTimeGetTime_still {k : ℕ} {v : UInt64} (h₀ : c k = v) (h₁ : c (k + 1) = v)
    (h₂ : c (k + 2) = v) : xTimeGetTime c getTimeFuel k = some (v, k + 3) := by
  have hround : xTimeGetTime c (2 ^ 32 - 1 + 1) k = some (v, k + 3) := by
    rw [xTimeGetTime, readLoop, h₀, h₁, h₂, if_neg (not_not.2 rfl), joinHalves_halves]
  exact hround

end

/-- A counter that jumps to the end time of `usleep_A9(n)` after its first reading. -/
def jumpingCounter (n : UInt32) (k : ℕ) : UInt64 := if k < 3 then 0 else n.toUInt64 * countsPerUsecond

theorem countsPerUsecond_toNat : countsPerUsecond.toNat = 333 := by decide

theorem counts_jumpingCounter (n : UInt32) : Counts (jumpingCounter n) := by
  intro i j hij
  simp only [jumpingCounter]
  split_ifs <;> first | exact Nat.le_refl _ | exact Nat.zero_le _ | omega

theorem delays_return_jumpingCounter :
    ∃ fuel k', usleepA9 (jumpingCounter 1) 1 fuel 0 = some k' ∧
      333 ≤ (jumpingCounter 1 k').toNat - (jumpingCounter 1 0).toNat :=
  (delays_return (n := 1) (counts_jumpingCounter 1) (xTimeGetTime_still rfl rfl rfl)).2 3 (by decide)

/-- **`usleep_A9` can return early**: `COUNTS_PER_USECOND` is rounded down, so for every delay there
is a run of the counter in which fewer ticks pass than the core clock makes in that time. -/
theorem usleepA9_early (n : UInt32) (hn : 0 < n.toNat) :
    ∃ c, Counts c ∧ ∃ fuel k', usleepA9 c n fuel 0 = some k' ∧
      2 * 1000000 * ((c k').toNat - (c 0).toNat) < n.toNat * coreClockFreqHz := by
  have hlt := n.toNat_lt
  have hend : (n.toUInt64 * countsPerUsecond).toNat = n.toNat * 333 := by
    rw [UInt64.toNat_mul, UInt32.toNat_toUInt64, countsPerUsecond_toNat, Nat.mod_eq_of_lt (by omega)]
  refine ⟨jumpingCounter n, counts_jumpingCounter n, 1, 6, ?_, ?_⟩
  · have hfirst : xTimeGetTime (jumpingCounter n) getTimeFuel 0 = some (0, 3) :=
      xTimeGetTime_still rfl rfl rfl
    have hsecond : xTimeGetTime (jumpingCounter n) getTimeFuel 3
        = some (n.toUInt64 * countsPerUsecond, 6) := xTimeGetTime_still rfl rfl rfl
    rw [usleepA9, delay, hfirst, Option.bind_some, waitUntil, hsecond, Option.bind_some, if_neg]
    rw [UInt64.lt_iff_toNat_lt, UInt64.zero_add]
    exact Nat.lt_irrefl _
  · have h₀ : jumpingCounter n 0 = 0 := rfl
    have h₆ : jumpingCounter n 6 = n.toUInt64 * countsPerUsecond := rfl
    rw [h₀, h₆, hend, UInt64.toNat_zero]
    unfold coreClockFreqHz
    omega

example : ∃ c, Counts c ∧ ∃ fuel k', usleepA9 c 10 fuel 0 = some k' ∧
    2 * 1000000 * ((c k').toNat - (c 0).toNat) < 10 * coreClockFreqHz :=
  usleepA9_early 10 (by decide)

/-! ### XTime_SetTime -/

/-- The writes of `XTime_SetTime`. -/
inductive TimerWrite
  | control (enable : Bool)
  | lower (v : UInt32)
  | upper (v : UInt32)

/-- The counter and its enable bit. -/
structure Timer where
  counter : UInt64
  enabled : Bool

/-- A register write, or a tick of the timer clock. -/
def Timer.exec (m : Timer) : Event TimerWrite Unit → Timer
  | .cpu (.control enable) => { m with enabled := enable }
  | .cpu (.lower v) => { m with counter := joinHalves (upperHalf m.counter) v }
  | .cpu (.upper v) => { m with counter := joinHalves v (lowerHalf m.counter) }
  | .env () => if m.enabled then { m with counter := m.counter + 1 } else m

/-- A schedule of writes and ticks. -/
def Timer.run (m : Timer) (evs : List (Event TimerWrite Unit)) : Timer := evs.foldl Timer.exec m

/-- `XTime_SetTime(Xtime_Global)`. -/
def xTimeSetTime (t : UInt64) : List TimerWrite :=
  [.control false, .lower (lowerHalf t), .upper (upperHalf t), .control true]

theorem Timer.run_append (m : Timer) (xs ys : List (Event TimerWrite Unit)) :
    m.run (xs ++ ys) = (m.run xs).run ys := List.foldl_append

theorem Timer.run_cons (m : Timer) (ev : Event TimerWrite Unit) (evs : List (Event TimerWrite Unit)) :
    m.run (ev :: evs) = (m.exec ev).run evs := rfl

/-- Ticks do not change a timer that is off. -/
theorem Timer.run_ticks_off {evs : List (Event TimerWrite Unit)} (h : code evs = []) {m : Timer}
    (hm : m.enabled = false) : m.run evs = m := by
  induction evs with
  | nil => rfl
  | cons ev evs ih =>
    cases ev with
    | cpu w => cases h
    | env u =>
      have hexec : m.exec (.env u) = m := by
        show (if m.enabled then _ else m) = m
        rw [hm]
        rfl
      rw [Timer.run_cons, hexec, ih h]

/-- Every tick counts while it is on. -/
theorem Timer.run_ticks_on {evs : List (Event TimerWrite Unit)} (h : code evs = []) {m : Timer}
    (hm : m.enabled = true) : m.run evs = ⟨m.counter + UInt64.ofNat evs.length, true⟩ := by
  induction evs generalizing m with
  | nil =>
    cases m
    cases hm
    simp [Timer.run]
  | cons ev evs ih =>
    cases ev with
    | cpu w => cases h
    | env u =>
      have hexec : m.exec (.env u) = ⟨m.counter + 1, true⟩ := by
        show (if m.enabled then _ else m) = _
        rw [hm]
        rfl
      rw [Timer.run_cons, hexec, ih h rfl, List.length_cons, UInt64.add_assoc, Nat.add_comm,
        UInt64.ofNat_add]
      rfl

/-- **After `XTime_SetTime` the counter is the given time plus the ticks since it was switched on**,
whatever it was before and whatever ticks came between the writes. -/
theorem setTime_spec {t : UInt64} {evs : List (Event TimerWrite Unit)}
    (h : code evs = xTimeSetTime t) (m : Timer) :
    ∃ before after, evs = before ++ .cpu (.control true) :: after ∧ code after = [] ∧
      m.run evs = ⟨t + UInt64.ofNat after.length, true⟩ := by
  have hoff : code evs = [] ++ TimerWrite.control false ::
      ([] ++ .lower (lowerHalf t) :: ([] ++ .upper (upperHalf t) :: ([] ++ .control true :: []))) := h
  obtain ⟨w, rest, rfl, -, hrest⟩ := code_eq_append_cons.1 hoff
  obtain ⟨x, rest, rfl, hx, hrest⟩ := code_eq_append_cons.1 hrest
  obtain ⟨y, rest, rfl, hy, hrest⟩ := code_eq_append_cons.1 hrest
  obtain ⟨z, after, rfl, hz, hafter⟩ := code_eq_append_cons.1 hrest
  refine ⟨w ++ .cpu (.control false) :: (x ++ .cpu (.lower (lowerHalf t)) ::
    (y ++ .cpu (.upper (upperHalf t)) :: z)), after, by simp, hafter, ?_⟩
  rw [Timer.run_append, Timer.run_cons, Timer.run_append, Timer.run_ticks_off hx rfl, Timer.run_cons,
    Timer.run_append, Timer.run_ticks_off hy rfl, Timer.run_cons, Timer.run_append,
    Timer.run_ticks_off hz rfl, Timer.run_cons, Timer.run_ticks_on hafter rfl]
  have hlower : ∀ high low, lowerHalf (joinHalves high low) = low := by
    intro high low
    apply UInt32.toNat_inj.1
    rw [lowerHalf_toNat, joinHalves_toNat, Nat.mul_add_mod, Nat.mod_eq_of_lt low.toNat_lt]
  simp only [Timer.exec, hlower, joinHalves_halves]

theorem setTime_spec_ticks :
    ∃ before after : List (Event TimerWrite Unit),
      [.env (), .cpu (.control false), .env (), .cpu (.lower 5), .env (), .cpu (.upper 0),
        .cpu (.control true), .env ()] = before ++ .cpu (.control true) :: after ∧ code after = [] ∧
      (Timer.mk 0xFFFFFFFF true).run [.env (), .cpu (.control false), .env (), .cpu (.lower 5),
        .env (), .cpu (.upper 0), .cpu (.control true), .env ()]
        = ⟨5 + UInt64.ofNat after.length, true⟩ :=
  setTime_spec (t := 5) rfl ⟨0xFFFFFFFF, true⟩

end Tet4120
